import RecordLayout.Proofs.Layout.RoundTrip
import RecordLayout.Proofs.Layout.Walk

/-!
# Lines that are written

A line is put together of slots that have been counted one by one, and it is counted once more in
the end.  For well-formed texts both agree: every slot is as wide as its column, and well-formed
texts side by side have the characters of both.  So a validated schema writes a line of its width
for a record, or the record is refused; what stands in the way is only a text that is too long to be
counted, and a number with more digits after the point than can be counted.

## Main definitions

* `Record.Contains`: the values of a record, at any depth.
* `Record.WellFormed`: a record all of whose texts are well-formed.
* `Outline.Countable`: all texts that go into a line are short enough to be counted.
* `Outline.Refuses`: the errors of a record that cannot be written.

## Main results

* `Column.format_refuses`: why a value is not written.
* `Outline.write_answers`: **what an outline writes is as wide as it is**.
* `Session.Reached.format_line`: **a validated schema writes a line of its width, or refuses the
  record**.
* `Session.format_tooManyPlaces`, `Session.format_uncounted`: a number with too many digits fails in
  another way, and so does a text that is too long.
-/

namespace RecordLayout

open Text Text.Owed Layout

/-! ### The values of a record -/

/-- A record has a value, in it or in a record in it. -/
inductive Record.Contains : Record → Value → Prop
  | entry {r : Record} {key : Text} {v : Value} (h : (key, v) ∈ r) : Contains r v
  | inside {r i : Record} {key : Text} {v : Value} (h : (key, Value.record i) ∈ r)
    (hv : Contains i v) : Contains r v

/-- What is in a record without records is one of its own values. -/
theorem Record.Contains.of_flat {r : Record} (hflat : ∀ e ∈ r, e.2.kind ≠ .record) {x : Value}
    (h : r.Contains x) : ∃ key, (key, x) ∈ r := by
  cases h with
  | entry h => exact ⟨_, h⟩
  | inside h => exact absurd rfl (hflat _ h)

/-- A record all of whose texts are well-formed. -/
def Record.WellFormed (r : Record) : Prop := ∀ t, r.Contains (.text t) → Text.WellFormed t

namespace Layout

variable {name key : Text} {r i : Record} {c : Codec} {x : Value}

/-- The value for a codec is nothing, or it is in the record. -/
theorem columnValue_contained (h : columnValue name r c = .ok x) : x = .null ∨ r.Contains x := by
  have hgetD {l : Record} {k : Text} (hl : ∀ v, (k, v) ∈ l → r.Contains v) :
      (l.find? k).getD .null = .null ∨ r.Contains ((l.find? k).getD .null) := by
    cases hfind : l.find? k with
    | none => exact .inl rfl
    | some v => exact .inr (hl v (Listing.mem_of_find? hfind))
  unfold columnValue at h
  split at h
  · exact .inl (Except.ok.inj h).symm
  · split at h
    · obtain rfl := Except.ok.inj h
      exact hgetD fun v hv => .entry hv
    · next group _ =>
      split at h
      · next members hmembers =>
        obtain rfl := Except.ok.inj h
        exact hgetD fun v hv => .inside (Listing.mem_of_find? hmembers) (.entry hv)
      · exact .inl (Except.ok.inj h).symm
      · exact .inl (Except.ok.inj h).symm
      · exact absurd h (by simp)

/-- What is in the record for a schema inside is in the record. -/
theorem nestedRecord_contained (h : nestedRecord name r key = .ok i) (hx : i.Contains x) :
    r.Contains x := by
  have hnothing : ¬ Record.Contains [] x := by
    intro h
    cases h with
    | entry h | inside h => exact absurd h List.not_mem_nil
  unfold nestedRecord at h
  split at h
  · next inner hinner =>
    obtain rfl := Except.ok.inj h
    exact .inside (Listing.mem_of_find? hinner) hx
  · exact absurd hx (Except.ok.inj h ▸ hnothing)
  · exact absurd hx (Except.ok.inj h ▸ hnothing)
  · exact absurd h (by simp)

end Layout

/-! ### Slots -/

/-- A value that a column does not write is refused, or it is a number with more digits after the
point than can be counted. -/
theorem Column.format_refuses {c : Column} (hc : c.Settled) {x : Value} {e : Error}
    (h : c.format x = .error e) : e.code = .invalidArgument
      ∨ ∃ y places, x = .float y ∧ c.precision = some places ∧ maxPlaces < places
        ∧ e = .fault (.tooManyPlaces places) := by
  rcases hc.of_format_error h with ⟨r, -, rfl⟩ | ⟨text, -, rfl⟩ | hplaces
  · exact .inl rfl
  · exact .inl rfl
  · exact .inr hplaces

namespace Outline

/-- All texts that go into a line are short enough to be counted: the paddings, and the texts of the
values of a record. -/
structure Countable (o : Outline) (r : Record) : Prop where
  padding : ∀ c, .column c ∈ o.codecs → ∀ pad, c.padding = .ok pad → pad.length < 2 ^ 31
  text : ∀ c, .column c ∈ o.codecs → ∀ x t, r.Contains x → c.textFor x = .ok t → t.length < 2 ^ 31

/-- A record is refused, or it has a number for a column that asks for more digits after the point
than can be counted. -/
def Refuses (o : Outline) (r : Record) (e : Error) : Prop :=
  e.code = .invalidArgument ∨ ∃ c x places, .column c ∈ o.codecs ∧ r.Contains (.float x)
    ∧ c.precision = some places ∧ Column.maxPlaces < places ∧ e = .fault (.tooManyPlaces places)

/-- What is written for a record of an outline: a well-formed text as wide as the outline, or an
error. -/
def Answers (o : Outline) (r : Record) : Except Error Text → Prop
  | .ok line => Text.WellFormed line ∧ countFrom nothing line = o.width
  | .error e => o.Refuses r e

variable {o p : Outline} {r i : Record} {e : Error}

theorem Refuses.lift (h : p.Refuses i e) (hcodecs : ∀ c ∈ p.codecs, c ∈ o.codecs)
    (hvalues : ∀ x, i.Contains x → r.Contains x) : o.Refuses r e := by
  rcases h with h | ⟨c, x, places, hc, hx, hplaces, hmore, rfl⟩
  · exact .inl h
  · exact .inr ⟨c, x, places, hcodecs _ hc, hvalues _ hx, hplaces, hmore, rfl⟩

theorem Countable.lift (h : o.Countable r) (hcodecs : ∀ c ∈ p.codecs, c ∈ o.codecs)
    (hvalues : ∀ x, i.Contains x → r.Contains x) : p.Countable i :=
  ⟨fun c hc => h.padding c (hcodecs _ hc),
    fun c hc x t hx => h.text c (hcodecs _ hc) x t (hvalues x hx)⟩

/-- Slots side by side are as wide as both. -/
theorem answers_append {first rest : Except Error Text}
    (hfirst : p.Answers i first) (hcodecs : ∀ c ∈ p.codecs, c ∈ o.codecs)
    (hvalues : ∀ x, i.Contains x → r.Contains x) {q : Outline} (hrest : q.Answers r rest)
    (hcodecs' : ∀ c ∈ q.codecs, c ∈ o.codecs) (hwidth : o.width = p.width + q.width) :
    o.Answers r (first >>= fun slot => rest >>= fun more => .ok (slot ++ more)) := by
  cases first with
  | error e => exact hfirst.lift hcodecs hvalues
  | ok slot =>
    cases rest with
    | error e => exact hrest.lift hcodecs' fun _ hx => hx
    | ok more =>
      obtain ⟨hslot, hcount⟩ := hfirst
      obtain ⟨hmore, hcount'⟩ := hrest
      refine ⟨hslot.append hmore, ?_⟩
      rw [countFrom_append_of_apart (hslot.apart_right _), hcount, hcount', hwidth]

/-- A slot that a plain column writes, or the reason why it writes none. -/
theorem answers_slot {c : Codec} (hplain : c.Plain)
    (hsettled : ∀ col : Column, c = .column col → col.Settled) (hshort : 4 * c.width.toNat < 2 ^ 31)
    (hwell : r.WellFormed) (hcount : (column c done).Countable r) (name : Text) :
    (column c done).Answers r (columnValue name r c >>= c.format) := by
  cases hvalue : columnValue name r c with
  | error e => exact .inl (Walkable.columnValue_code hvalue)
  | ok x =>
    show (column c done).Answers r (c.format x)
    have htext (t : Text) (ht : x = .text t) : Text.WellFormed t := by
      rcases columnValue_contained hvalue with rfl | hx
      · exact absurd ht nofun
      · exact hwell t (ht ▸ hx)
    cases hslot : c.format x with
    | ok slot =>
      obtain ⟨col, pad, rfl, hpad, -⟩ := id hplain
      have hlen := Column.length_format_le (hsettled col rfl) hpad
        (hcount.padding col List.mem_cons_self pad hpad) (fun t ht => ?_) hslot
      · exact hplain.slot hsettled htext hslot (Nat.lt_of_le_of_lt hlen hshort)
      · rcases columnValue_contained hvalue with rfl | hx
        · obtain rfl := Except.ok.inj ht
          exact Nat.two_pow_pos 31
        · exact hcount.text col List.mem_cons_self x t hx ht
    | error e =>
      obtain ⟨col, pad, rfl, -⟩ := hplain
      rcases Column.format_refuses (hsettled col rfl) hslot with
        hcode | ⟨y, places, rfl, hplaces, hmore, rfl⟩
      · exact .inl hcode
      · refine .inr ⟨col, y, places, List.mem_cons_self, ?_, hplaces, hmore, rfl⟩
        exact (columnValue_contained hvalue).resolve_left nofun

/-- **What an outline writes is as wide as it is**: the characters of all slots are counted, and no
others. -/
theorem write_answers (hplain : ∀ c ∈ o.codecs, c.Plain)
    (hsettled : ∀ col : Column, .column col ∈ o.codecs → col.Settled)
    (hshort : 4 * o.width < 2 ^ 31) (hwell : r.WellFormed) (hcount : o.Countable r) (name : Text) :
    o.Answers r (o.write name r) := by
  induction o generalizing r name with
  | done => exact ⟨wellFormed_nil, rfl⟩
  | column c rest ih =>
    -- the slot counts as an outline of its own, with one column
    have hwidth : (column c rest).width = (column c done).width + rest.width := rfl
    have hc : ∀ d ∈ (column c done).codecs, d ∈ (column c rest).codecs := fun d hd =>
      List.mem_singleton.mp hd ▸ List.mem_cons_self
    have hrest : ∀ d ∈ rest.codecs, d ∈ (column c rest).codecs := fun d hd =>
      List.mem_cons_of_mem _ hd
    rw [width] at hshort
    have hslot := answers_slot (hplain c List.mem_cons_self)
      (fun col hcol => hsettled col (hcol ▸ List.mem_cons_self)) (by omega) hwell
      (hcount.lift hc fun _ hx => hx) name
    have hmore := ih (fun d hd => hplain d (hrest d hd))
      (fun col hcol => hsettled col (hrest _ hcol)) (by omega) hwell
      (hcount.lift hrest fun _ hx => hx) name
    rw [write_column]
    exact answers_append hslot hc (fun _ hx => hx) hmore hrest hwidth
  | branch key t inside inner rest ihinner ihrest =>
    have hwidth : (branch key t inside inner rest).width = inner.width + rest.width := rfl
    have hinner : ∀ d ∈ inner.codecs, d ∈ (branch key t inside inner rest).codecs := fun d hd =>
      List.mem_append_left _ hd
    have hrest : ∀ d ∈ rest.codecs, d ∈ (branch key t inside inner rest).codecs := fun d hd =>
      List.mem_append_right _ hd
    have hmore := ihrest (fun d hd => hplain d (hrest d hd))
      (fun col hcol => hsettled col (hrest _ hcol)) (by omega) hwell
      (hcount.lift hrest fun _ hx => hx) name
    rw [write_branch]
    cases hi : nestedRecord name r key with
    | error e => exact .inl (Walkable.nestedRecord_code hi)
    | ok i =>
      -- the values of the record inside are values of this one, so the same is known of them
      have hvalues (x : Value) (hx : i.Contains x) : r.Contains x := nestedRecord_contained hi hx
      have hslot := ihinner (fun d hd => hplain d (hinner d hd))
        (fun col hcol => hsettled col (hinner _ hcol)) (by omega)
        (fun t ht => hwell t (hvalues _ ht)) (hcount.lift hinner hvalues) inside
      exact answers_append hslot hinner hvalues hmore hrest hwidth

end Outline

/-! ### Lines of a validated schema -/

namespace Session

open Layout Build

/-- **A validated schema writes a line of its width, or refuses the record**, if its columns have
well-formed paddings, the texts of the record are well-formed, and the texts that go into the line
are short enough to be counted; unless a number is to be written with more digits after the point
than can be counted. -/
theorem Reached.format_line {S : Session} (hS : S.Reached Possible) {s : SchemaId}
    (hs : s < S.layout.schemas.length) {M N : Layout} (hvalid : validate s S.layout = .ok () M)
    (hMN : M.Develops N) :
    ∃ o, N.Unfolds s o ∧ ((∀ c ∈ o.codecs, c.Plain) → 4 * o.width < 2 ^ 31 →
      ∀ r : Record, r.WellFormed → o.Countable r →
        (∃ characters : List Char, format s r N = .ok (encode characters) N
          ∧ characters.length = o.width)
        ∨ ∃ e, format s r N = .error e N ∧ o.Refuses r e) := by
  have hsane := hS.sane.layout
  obtain ⟨hLM, p, hp⟩ := validate_ok hsane.wellMade hs hvalid
  obtain ⟨o, ho, -⟩ := hp.develop hMN
  have htabled := ((hLM.trans hMN).sane hsane).tabled
  refine ⟨o, ho.unfolds, fun hplain hshort r hwell hcount => ?_⟩
  have hanswers := Outline.write_answers hplain (UnfoldsTo.codecs_settled htabled ho.unfolds) hshort
    hwell hcount (N.schema s).name
  have hreports := ho.reports_format (by omega) r
  unfold Reports at hreports
  rw [hreports]
  cases hwrite : o.write (N.schema s).name r with
  | error e =>
    rw [hwrite] at hanswers
    exact .inr ⟨e, rfl, hanswers⟩
  | ok line =>
    rw [hwrite] at hanswers
    obtain ⟨⟨characters, rfl⟩, hline⟩ := hanswers
    -- a character has four bytes at most, so the line is short enough to be counted once more
    have hlen : (encode characters).length < 2 ^ 31 := by
      have hle := length_encode_le characters
      rw [countFrom_encode] at hline
      omega
    refine .inl ⟨characters, ?_, (countFrom_encode characters).symm.trans hline⟩
    show Build.ofExcept (if (encode characters).width = o.width then _ else _) N = _
    rw [if_pos ((width_of_lt hlen).trans hline)]
    rfl

/-! ### A column of numbers -/

/-- The column of a price, padded with a character of three bytes, that asks for more digits after
the point than can be counted. -/
def IsPrice (c : Column) : Prop :=
  c.name = "price" ∧ c.group = none ∧ c.width = 3 ∧ c.isFiller = false
    ∧ c.padding.toOption = some (Text.ofString "€") ∧ c.precision = some (2 ^ 31)

instance (c : Column) : Decidable (IsPrice c) := inferInstanceAs (Decidable (_ ∧ _))

/-- A schema with a price. -/
def priced : Session :=
  [.createSchema .detached "row" .empty,
    .declare 0 (.column "price" 3 (.ofList [(OptionName.type, .text "float"),
      (OptionName.precision, .int 2147483648), (OptionName.padding, .text "€")]))].foldl
    step ⟨[], .empty⟩

/-- Its layout after it has been validated. -/
def validatedPrice : Layout := (validate 0).after priced.layout

theorem reached_priced : priced.Reached Possible :=
  Reached.start.moves ⟨trivial, ⟨show 0 < List.length _ by decide, trivial⟩, trivial⟩

theorem validate_priced : validate 0 priced.layout = .ok () validatedPrice :=
  ok_of_gives (by decide +kernel)

/-- Whether a field is a price. -/
def isPriceField : Option Field → Bool
  | some (.column (.column c)) => decide (IsPrice c)
  | _ => false

theorem unfolds_validatedPrice : ∃ c : Column, IsPrice c ∧ c.padding = .ok (Text.ofString "€")
    ∧ validatedPrice.Unfolds 0 (.column (.column c) .done) := by
  have hcheck : isPriceField (validatedPrice.known? 0 "price") = true := by decide +kernel
  have hfields : (validatedPrice.schema 0).fields = [Text.ofString "price"] := by decide +kernel
  unfold isPriceField at hcheck
  split at hcheck
  · next c hc =>
    have hprice := of_decide_eq_true hcheck
    refine ⟨c, hprice, ?_, ?_⟩
    · obtain ⟨-, -, -, -, hpad, -⟩ := hprice
      cases hc : c.padding with
      | ok pad =>
        rw [hc] at hpad
        exact congrArg Except.ok (Option.some.inj hpad)
      | error e =>
        rw [hc] at hpad
        exact absurd hpad nofun
    · unfold Unfolds
      rw [hfields]
      exact .column hc (.nil 0)
  · exact absurd hcheck (by simp)

theorem plain_price {c : Column} (hpad : c.padding = .ok (Text.ofString "€")) :
    ∀ d ∈ (Outline.column (.column c) .done).codecs, d.Plain := fun _ hd =>
  ⟨c, _, List.mem_singleton.mp hd, hpad, ['€'], by decide⟩

theorem width_price {c : Column} (hc : IsPrice c) : (Outline.column (.column c) .done).width = 3 :=
  congrArg UInt64.toNat hc.2.2.1

/-- A text goes into the column, with the padding before it. -/
theorem format_line_priced : validate 0 priced.layout = .ok () validatedPrice
    ∧ ∃ characters : List Char, format 0 [("price", .text "ab")] validatedPrice
        = .ok (encode characters) validatedPrice ∧ characters.length = 3 := by
  refine ⟨validate_priced, ?_⟩
  obtain ⟨c, hc, hpad, hexpected⟩ := unfolds_validatedPrice
  obtain ⟨o, ho, hline⟩ := reached_priced.format_line (s := 0)
    (show 0 < List.length _ by decide) validate_priced (.refl _)
  obtain rfl := UnfoldsTo.unique ho hexpected
  have htext {x : Value} (hx : Record.Contains [("price", Value.text "ab")] x) :
      x = .text "ab" := by
    obtain ⟨key, hmem⟩ := hx.of_flat (by decide)
    exact congrArg Prod.snd (List.mem_singleton.mp hmem)
  have hcount : (Outline.column (.column c) .done).Countable [("price", .text "ab")] := by
    refine ⟨fun d hd pad hpad' => ?_, fun d hd x t hx ht => ?_⟩
    · obtain rfl := Codec.column.inj (List.mem_singleton.mp hd)
      rw [← Except.ok.inj (hpad.symm.trans hpad')]
      decide
    · obtain rfl := htext hx
      rw [← Except.ok.inj ht]
      decide
  have hwell : Record.WellFormed [("price", .text "ab")] := fun t ht => by
    rw [Value.text.inj (htext ht)]
    exact wellFormed_of_ascii (by decide +kernel)
  rcases hline (plain_price hpad) (by rw [width_price hc]; decide) _ hwell hcount with
    hok | ⟨e, herror, -⟩
  · rwa [width_price hc] at hok
  · have hok : (match format 0 [("price", .text "ab")] validatedPrice with
        | .ok _ _ => true
        | .error _ _ => false) = true := by decide +kernel
    rw [herror] at hok
    exact absurd hok (by simp)

/-- An infinity does not go into it, which has no digits at all and would fit: the column fails
without refusing the record. -/
theorem format_tooManyPlaces : priced.Reached Possible
    ∧ validate 0 priced.layout = .ok () validatedPrice
    ∧ ∃ o, validatedPrice.Unfolds 0 o ∧ (∀ c ∈ o.codecs, c.Plain) ∧ 4 * o.width < 2 ^ 31
      ∧ Record.WellFormed [("price", .float ⟨0x7FF0000000000000⟩)]
      ∧ ∃ e, (format 0 [("price", .float ⟨0x7FF0000000000000⟩)]).outcome validatedPrice = .error e
        ∧ e.code = .error := by
  obtain ⟨c, hc, hpad, hunfolds⟩ := unfolds_validatedPrice
  refine ⟨reached_priced, validate_priced, _, hunfolds, plain_price hpad,
    by rw [width_price hc]; decide, fun t ht => ?_, ?_⟩
  · obtain ⟨key, hmem⟩ := ht.of_flat (by decide)
    exact absurd (congrArg Prod.snd (List.mem_singleton.mp hmem)) nofun
  · exact error_of_failsWith (by decide +kernel)

/-- A text that is too long to be counted goes into it whole, and the line has not the width of the
schema. -/
theorem format_uncounted {t : Text} (hlong : 2 ^ 31 ≤ t.length) (hlt : t.length + 9 < 2 ^ 32) :
    ∃ e, (format 0 [("price", .text t)]).outcome validatedPrice = .error e
      ∧ e.code = .internal := by
  obtain ⟨c, hc, hpad, hunfolds⟩ := unfolds_validatedPrice
  have hsane := reached_priced.sane.layout
  obtain ⟨hdevelops, o, ho⟩ := validate_ok hsane.wellMade (show 0 < List.length _ by decide)
    validate_priced
  obtain rfl := UnfoldsTo.unique ho.unfolds hunfolds
  obtain ⟨left, hfills⟩ := Column.Settled.fills_with (UnfoldsTo.codecs_settled
    (hdevelops.sane hsane).tabled hunfolds c List.mem_cons_self) hpad
  obtain ⟨hname, hgroup, hthree, hfiller, -⟩ := hc
  have hnine : c.width.toNat * (Text.ofString "€").length = 9 := by
    rw [hthree]
    decide
  rw [← show c.name = Text.ofString "price" from hname]
  exact ho.format_uncounted hfills hfiller hgroup (by rw [hthree]; decide) hlong (by omega)

end Session

end RecordLayout
