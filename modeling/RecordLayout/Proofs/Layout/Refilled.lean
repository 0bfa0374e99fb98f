import RecordLayout.Proofs.Layout.RoundTrip

/-!
# Lines that come back

A line is read by cutting it at counted positions, which may leave any bytes in the slots, and
columns of texts write the slots that they have read.  What is written differs from the line in its
fillers only, which hold their padding again.  A padding is well-formed, so no bytes beside it run
into it, and other slots meet as they did in the line; so what is written has the same width.

## Main definitions

* `Codec.filling`, `Text.refilled`: what a filler writes, and a line with all fillers so written.
* `Codec.Rewrites`: a filler, or a column of texts that writes what it has read.

## Main results

* `Text.countFrom_refilled`: a refilled line is as wide as the line.
* `Outline.rewrites`: what an outline writes after it has read a line.
* `Session.Reached.line_roundTrip`: **lines come back**.
-/

namespace RecordLayout

open Text Text.Owed

/-! ### Fillers that are written -/

/-- What a filler writes: its padding, repeated to its width. -/
def Codec.filling : Codec → Text
  | .column c => (c.padding.toOption.getD []).copies c.width.toNat
  | .custom _ => []

theorem Codec.filling_eq {c : Column} {pad : Text} (h : c.padding = .ok pad) :
    (Codec.column c).filling = pad.copies c.width.toNat := by
  show (c.padding.toOption.getD []).copies c.width.toNat = _
  rw [h]
  rfl

/-- What is written in the place of a codec: the filling of a filler, or else the window of a
line. -/
def Codec.slotIn (c : Codec) (line : Text) (start : Nat) : Text :=
  if c.isFiller then c.filling else line.window start c.width.toNat

/-- A line, from a position on, with the window of every filler replaced by its padding. -/
def Text.refilled (line : Text) : List Codec → Nat → Text
  | [], _ => []
  | c :: codecs, start => c.slotIn line start ++ refilled line codecs (start + c.width.toNat)

/-- The sum of the widths of some codecs, as a number. -/
def Codec.totalWidth : List Codec → Nat
  | [] => 0
  | c :: codecs => c.width.toNat + totalWidth codecs

/-- A filler with a well-formed padding, or a column of texts with one; where blank slots are read
as nothing, the padding is a space. -/
def Codec.Rewrites (c : Codec) : Prop :=
  ∃ col pad, c = .column col ∧ col.padding = .ok pad ∧ WellFormed pad
    ∧ (col.isFiller = true
      ∨ col.type = .ok "string" ∧ (col.readsBlankAsNull = false ∨ pad = space))

namespace Codec.Rewrites

variable {c : Codec} (hc : c.Rewrites)

include hc

variable (hsettled : ∀ col : Column, c = .column col → col.Settled)

include hsettled

theorem format_filler (hfiller : c.isFiller = true) (x : Value) : c.format x = .ok c.filling := by
  obtain ⟨col, pad, rfl, hpad, -⟩ := hc
  obtain ⟨left, hfills⟩ := (hsettled col rfl).fills_with hpad
  rw [filling_eq hpad]
  exact hfills.format_filler hfiller x

/-- A filling is well-formed and as wide as the filler. -/
theorem filling_wellFormed (hlen : c.filling.length < 2 ^ 31) :
    WellFormed c.filling ∧ countFrom nothing c.filling = c.width.toNat := by
  obtain ⟨col, pad, rfl, hpad, hwell, -⟩ := hc
  obtain ⟨left, hfills⟩ := (hsettled col rfl).fills_with hpad
  rw [filling_eq hpad] at hlen ⊢
  exact ⟨hwell.copies _, countFrom_copies_of_width hfills.width_pad hlen⟩

/-- A column of texts writes the slot that it has read. -/
theorem format_parse (hfiller : c.isFiller = false) {slot : Text} (hlen : slot.length < 2 ^ 31)
    (hwidth : slot.width = c.width.toNat) :
    ∃ v, c.parse slot = .ok v ∧ c.format v = .ok slot := by
  obtain ⟨col, pad, rfl, hpad, hwell, hkind⟩ := hc
  have hno : col.isFiller = false := hfiller
  obtain ⟨htype, hblank⟩ := hkind.resolve_left (by rw [hno]; exact Bool.false_ne_true)
  exact Column.format_parse (hsettled col rfl) hno htype hpad hwell hblank hlen hwidth

end Codec.Rewrites

/-! ### Lines with their fillers refilled -/

theorem Codec.totalWidth_append (codecs more : List Codec) :
    totalWidth (codecs ++ more) = totalWidth codecs + totalWidth more := by
  induction codecs with
  | nil => exact (Nat.zero_add _).symm
  | cons c codecs ih => rw [List.cons_append, totalWidth, ih, totalWidth, Nat.add_assoc]

theorem Outline.width_eq_total (o : Outline) : o.width = Codec.totalWidth o.codecs := by
  induction o with
  | done => rfl
  | column c rest ih =>
    rw [width, ih]
    rfl
  | branch _ _ _ inner rest ihinner ihrest =>
    rw [width, ihinner, ihrest, codecs, Codec.totalWidth_append]

namespace Text

theorem refilled_append (line : Text) (codecs more : List Codec) (start : Nat) :
    line.refilled (codecs ++ more) start
      = line.refilled codecs start ++ line.refilled more (start + Codec.totalWidth codecs) := by
  induction codecs generalizing start with
  | nil => rfl
  | cons c codecs ih =>
    have htotal : Codec.totalWidth (c :: codecs) = c.width.toNat + Codec.totalWidth codecs := rfl
    rw [List.cons_append, refilled, refilled, ih, htotal, List.append_assoc, Nat.add_assoc]

theorem rest_width {t : Text} (h : t.length < 2 ^ 31) : t.rest t.width = [] := by
  have hle := length_rest_le t t.width
  have hwidth := width_rest h t.width
  rw [Nat.sub_self] at hwidth
  exact (width_eq_zero_iff (by omega)).mp hwidth

/-- A line without fillers is what it was. -/
theorem refilled_eq {line : Text} (hlen : line.length < 2 ^ 31) {codecs : List Codec}
    (hfiller : ∀ c ∈ codecs, c.isFiller = false) (start : Nat)
    (hwidth : start + Codec.totalWidth codecs = line.width) :
    line.refilled codecs start = line.rest start := by
  induction codecs generalizing start with
  | nil =>
    rw [show start = line.width from hwidth, rest_width hlen]
    rfl
  | cons c codecs ih =>
    have hwidth' : start + c.width.toNat + Codec.totalWidth codecs = line.width := by
      rw [← hwidth, Nat.add_assoc]
      rfl
    rw [refilled, Codec.slotIn, hfiller c List.mem_cons_self, if_neg Bool.false_ne_true,
      ih (fun d hd => hfiller d (List.mem_cons_of_mem _ hd)) _ hwidth', rest_add hlen,
      window_eq_takeFront_rest, takeFront_append_rest]

/-- What a text is apart from depends on how it begins. -/
theorem Apart.append_right {s t : Text} (hst : Apart s t) (hne : t ≠ []) (u : Text) :
    Apart s (t ++ u) := by
  cases t with
  | nil => exact absurd rfl hne
  | cons b t => exact endsBefore_cons.mpr (endsBefore_cons.mp hst)

theorem Apart.of_append_right {s t u : Text} (h : Apart s (t ++ u)) (hne : t ≠ []) : Apart s t := by
  cases t with
  | nil => exact absurd rfl hne
  | cons b t => exact endsBefore_cons.mpr (endsBefore_cons.mp h)

/-- What is written in the place of a codec has its width, begins where the line went on, and is
apart from whatever the line goes on with. -/
theorem slotIn_spec {line : Text} (hlen : line.length < 2 ^ 31) {c : Codec} (hc : c.Rewrites)
    (hsettled : ∀ col : Column, c = .column col → col.Settled) (start : Nat)
    (hwidth : start + c.width.toNat ≤ line.width) (hshort : (c.slotIn line start).length < 2 ^ 31) :
    countFrom nothing (c.slotIn line start) = c.width.toNat
      ∧ (∀ s, c.slotIn line start ≠ [] → Apart s (line.rest start) → Apart s (c.slotIn line start))
      ∧ ∀ t, (∀ s, Apart s (line.rest (start + c.width.toNat)) → Apart s t) →
        Apart (c.slotIn line start) t := by
  unfold Codec.slotIn at hshort ⊢
  cases hfiller : c.isFiller with
  | true =>
    rw [if_pos hfiller] at hshort
    rw [if_pos rfl]
    obtain ⟨hwell, hcount⟩ := hc.filling_wellFormed hsettled hshort
    exact ⟨hcount, fun s _ _ => hwell.apart_left s, fun t _ => hwell.apart_right t⟩
  | false =>
    rw [if_neg Bool.false_ne_true, window_eq_takeFront_rest]
    have hrest := length_rest_le line start
    have hle := length_takeFront_le (line.rest start) c.width.toNat
    have hsplit := takeFront_append_rest (line.rest start) c.width.toNat
    refine ⟨?_, fun s hne hs => ?_, fun t ht => ht _ ?_⟩
    · have hwindow := width_takeFront (t := line.rest start) (by omega) c.width.toNat
      rw [width_of_lt (by omega), width_rest hlen] at hwindow
      omega
    · rw [← hsplit] at hs
      exact hs.of_append_right hne
    · rw [rest_add hlen]
      exact apart_takeFront_rest (by omega) _

/-- **A refilled line is as wide as the line**, and what is apart from the line is apart from it. -/
theorem countFrom_refilled {line : Text} (hlen : line.length < 2 ^ 31) {codecs : List Codec}
    (hrewrites : ∀ c ∈ codecs, c.Rewrites)
    (hsettled : ∀ col : Column, .column col ∈ codecs → col.Settled) (start : Nat)
    (hwidth : start + Codec.totalWidth codecs = line.width)
    (hshort : (line.refilled codecs start).length < 2 ^ 31) :
    countFrom nothing (line.refilled codecs start) = Codec.totalWidth codecs
      ∧ ∀ s, Apart s (line.rest start) → Apart s (line.refilled codecs start) := by
  induction codecs generalizing start with
  | nil => exact ⟨rfl, fun s _ => apart_nil_right s⟩
  | cons c codecs ih =>
    have htotal : Codec.totalWidth (c :: codecs) = c.width.toNat + Codec.totalWidth codecs := rfl
    rw [htotal] at hwidth ⊢
    rw [refilled] at hshort ⊢
    rw [List.length_append] at hshort
    obtain ⟨hcount, hapart⟩ := ih (fun d hd => hrewrites d (List.mem_cons_of_mem _ hd))
      (fun col hcol => hsettled col (List.mem_cons_of_mem _ hcol)) (start + c.width.toNat)
      (by omega) (by omega)
    obtain ⟨hslot, hleft, hright⟩ := slotIn_spec hlen (hrewrites c List.mem_cons_self)
      (fun col hcol => hsettled col (hcol ▸ List.mem_cons_self)) start (by omega) (by omega)
    refine ⟨by rw [countFrom_append_of_apart (hright _ hapart), hslot, hcount], fun s hs => ?_⟩
    by_cases hempty : c.slotIn line start = []
    · -- An empty slot has no width, so that the line goes on where it was.
      rw [hempty, countFrom_nil] at hslot
      rw [hempty, List.nil_append]
      refine hapart s ?_
      rwa [← hslot, Nat.add_zero]
    · exact (hleft s hempty hs).append_right hempty _

end Text

/-! ### Reading and writing again -/

/-- A value that is in its place is the value of its codec. -/
theorem Codec.valueIn_of_item {c : Codec} (hfiller : c.isFiller = false) {r : Record} {v : Value}
    (h : (c.item v).In r) : c.valueIn r = some v := by
  unfold item at h
  unfold valueIn
  rw [hfiller, if_neg Bool.false_ne_true]
  split at h
  · next group hsome =>
    obtain ⟨members, hmembers, hv⟩ := h
    simp only [hsome, hmembers, hv]
  · next hnone =>
    rw [hnone]
    exact h

/-- What a column reads from its slot it writes there again. -/
theorem Codec.Rewrites.reread {c : Codec} (hc : c.Rewrites)
    (hsettled : ∀ col : Column, c = .column col → col.Settled) (hfiller : c.isFiller = false)
    {line : Text} (hlen : line.length < 2 ^ 31) (start : Nat)
    (hwidth : start + c.width.toNat ≤ line.width) :
    ∃ v, c.parse (line.window start c.width.toNat) = .ok v
      ∧ c.format v = .ok (line.window start c.width.toNat) := by
  have hrest := length_rest_le line start
  have hshort := length_takeFront_le (line.rest start) c.width.toNat
  rw [window_eq_takeFront_rest]
  refine hc.format_parse hsettled hfiller (by omega) ?_
  rw [width_takeFront (by omega), width_rest hlen]
  omega

/-- **What an outline writes after it has read a line** is the line with its fillers refilled. -/
theorem Outline.rewrites {o : Outline} (hrewrites : ∀ c ∈ o.codecs, c.Rewrites)
    (hsettled : ∀ col : Column, .column col ∈ o.codecs → col.Settled) (hnamed : o.WellNamed)
    {line : Text} (hlen : line.length < 2 ^ 31) (start : Nat)
    (hwidth : start + o.width ≤ line.width) :
    ∃ items, o.items line start = .ok items ∧
      ∀ name r, (∀ item ∈ items, item.In r) →
        o.write name r = .ok (line.refilled o.codecs start) := by
  induction o generalizing start with
  | done => exact ⟨[], rfl, fun _ _ _ => rfl⟩
  | column c rest ih =>
    have htotal : (Outline.column c rest).width = c.width.toNat + rest.width := rfl
    rw [htotal] at hwidth
    obtain ⟨items, hread, hwrite⟩ :=
      ih (fun d hd => hrewrites d (List.mem_cons_of_mem _ hd))
        (fun col hcol => hsettled col (List.mem_cons_of_mem _ hcol)) hnamed (start + c.width.toNat)
        (by omega)
    have hc := hrewrites c List.mem_cons_self
    have hcol (col : Column) (h : c = .column col) : col.Settled :=
      hsettled col (h ▸ List.mem_cons_self)
    rw [Outline.items_column]
    -- a filler writes its padding whatever stands in the line, another column what it has read
    cases hfiller : c.isFiller with
    | true =>
      have hslot : c.slotIn line start = c.filling := if_pos hfiller
      rw [if_pos rfl]
      refine ⟨items, hread, fun name r hr => ?_⟩
      exact write_column_ok (Codec.columnValue_eq (if_pos hfiller) name)
        (hslot ▸ hc.format_filler hcol hfiller .null) (hwrite name r hr)
    | false =>
      have hslot : c.slotIn line start = line.window start c.width.toNat :=
        if_neg (by simp [hfiller])
      obtain ⟨v, hparse, hformat⟩ := hc.reread hcol hfiller hlen start (by omega)
      rw [if_neg Bool.false_ne_true, hparse, hread]
      refine ⟨c.item v :: items, rfl, fun name r hr => ?_⟩
      have hvalue := Codec.valueIn_of_item hfiller (hr _ List.mem_cons_self)
      exact write_column_ok (Codec.columnValue_eq hvalue name) (hslot ▸ hformat)
        (hwrite name r fun item hitem => hr item (List.mem_cons_of_mem _ hitem))
  | branch key t inside inner rest ihinner ihrest =>
    have htotal : (Outline.branch key t inside inner rest).width = inner.width + rest.width := rfl
    rw [htotal] at hwidth
    obtain ⟨hdistinct, hnamedInner, hnamedRest⟩ := hnamed
    obtain ⟨within, hreadWithin, hwriteWithin⟩ :=
      ihinner (fun d hd => hrewrites d (List.mem_append_left _ hd))
        (fun col hcol => hsettled col (List.mem_append_left _ hcol)) hnamedInner start (by omega)
    obtain ⟨items, hread, hwrite⟩ :=
      ihrest (fun d hd => hrewrites d (List.mem_append_right _ hd))
        (fun col hcol => hsettled col (List.mem_append_right _ hcol)) hnamedRest
        (start + inner.width) (by omega)
    rw [← labels_of_itemsBy hreadWithin] at hdistinct
    rw [Outline.items_branch, hreadWithin, hread]
    refine ⟨.field key (.record (gather within)) :: items, rfl, fun name r hr => ?_⟩
    have hi : r.find? key = some (.record (gather within)) := hr _ List.mem_cons_self
    have hinner := hwriteWithin inside (gather within) (in_gather hdistinct)
    have hmore := hwrite name r fun item hitem => hr item (List.mem_cons_of_mem _ hitem)
    unfold codecs
    rw [refilled_append, ← width_eq_total]
    exact write_branch_ok (Layout.nestedRecord_of_find hi) hinner hmore

/-! ### Lines of a validated schema -/

namespace Session

open Layout

/-- **Lines come back.**  A schema that has been validated reads a record from every line of its
width, well-formed or not, and writes the line for it with its fillers refilled, the very line if it
has none; if its columns are fillers or texts with well-formed paddings, builders have declared only
fields of the schema they build, and both lines are short enough to be counted. -/
theorem Reached.line_roundTrip {S : Session} (hS : S.Reached Orderly) {s : SchemaId}
    (hs : s < S.layout.schemas.length) {M N : Layout} (hvalid : validate s S.layout = .ok () M)
    (hMN : M.Develops N) :
    ∃ o, N.Unfolds s o ∧ width s N = .ok (UInt64.ofNat o.width) N ∧
      ((∀ c ∈ o.codecs, c.Rewrites) → o.width < 2 ^ 31 →
        ∀ line : Text, line.length < 2 ^ 31 → line.width = o.width →
          (line.refilled o.codecs 0).length < 2 ^ 31 →
          ∃ r, parse s line 0 N = .ok r N ∧ format s r N = .ok (line.refilled o.codecs 0) N
            ∧ ((∀ c ∈ o.codecs, c.isFiller = false) → line.refilled o.codecs 0 = line)) := by
  obtain ⟨o, ho, hsettled, hdistinct, hnamed⟩ := hS.settled hs hvalid hMN
  have htrust : N.Trusts s := Option.isSome_iff_exists.mpr ⟨_, ho.trusted⟩
  refine ⟨o, ho.unfolds, ho.unfolds.measures ho.wellMade.measured htrust maxDepth [],
    fun hrewrites hlt line hlen hwidth hshort => ?_⟩
  obtain ⟨items, hread, hwrite⟩ :=
    Outline.rewrites hrewrites hsettled hnamed hlen 0 (by omega)
  rw [← Outline.labels_of_itemsBy hread] at hdistinct
  have htotal : 0 + Codec.totalWidth o.codecs = line.width := by
    rw [hwidth, o.width_eq_total, Nat.zero_add]
  have hrefilled := (countFrom_refilled hlen hrewrites hsettled 0 htotal hshort).1
  rw [← o.width_eq_total, ← width_of_lt hshort] at hrefilled
  refine ⟨gather items, ho.parse_eq (by omega) hread, ho.format_eq (by omega)
    (hwrite _ _ (in_gather hdistinct)) hrefilled, fun hfiller => ?_⟩
  rw [refilled_eq hlen hfiller 0 htotal, rest_zero hlen]

theorem IsText.rewrites {c : Column} {name : Text} {width : UInt64} {text : Text}
    (h : IsText c name width text) : (Codec.column c).Rewrites :=
  ⟨c, space, rfl, h.padding_type.1, Text.wellFormed_space,
    .inr ⟨h.padding_type.2, .inr rfl⟩⟩

/-- A line for the columns inside, in which some bytes are no characters. -/
def roughLine : Text := [0x61, 0xFF, 0x20, 0x62, 0xE2, 0x82, 0x20, 0x63]

/-- The rough line comes back. -/
theorem line_roundTrip_grownInside : validate 0 grownInside.layout = .ok () validatedInside
    ∧ ∃ r, parse 0 roughLine 0 validatedInside = .ok r validatedInside
      ∧ format 0 r validatedInside = .ok roughLine validatedInside := by
  refine ⟨validate_grownInside, ?_⟩
  obtain ⟨first, second, hfirst, hsecond, hexpected⟩ := unfolds_validatedInside
  obtain ⟨o, ho, -, hroundTrip⟩ := orderly_grownInside.line_roundTrip (s := 0)
    (show 0 < List.length _ by decide +kernel) validate_grownInside (.refl _)
  obtain rfl := UnfoldsTo.unique ho hexpected
  have hwidth : first.width.toNat + (second.width.toNat + 0) + 0 = 7 := by
    rw [hfirst.2.1, hsecond.2.1]
    decide
  have hlen : roughLine.length < 2 ^ 31 := by decide
  have hline : roughLine.width = 7 := by decide
  have hfiller : ∀ c ∈ [Codec.column first, Codec.column second], c.isFiller = false := by
    intro c hc
    rcases List.mem_pair.mp hc with rfl | rfl
    · exact hfirst.2.2.2.1
    · exact hsecond.2.2.2.1
  have hsame : roughLine.refilled [.column first, .column second] 0 = roughLine := by
    refine (refilled_eq hlen hfiller 0 ?_).trans (rest_zero hlen)
    rw [hline, Nat.zero_add]
    exact hwidth
  have hrewrites : ∀ c ∈ [Codec.column first, Codec.column second], c.Rewrites := by
    intro c hc
    rcases List.mem_pair.mp hc with rfl | rfl
    · exact hfirst.rewrites
    · exact hsecond.rewrites
  obtain ⟨r, hparse, hformat, hback⟩ := hroundTrip hrewrites
    (lt_of_eq_of_lt hwidth (by decide)) roughLine hlen (hline.trans hwidth.symm)
    (lt_of_eq_of_lt (congrArg List.length hsame) hlen)
  exact ⟨r, hparse, hformat.trans (congrArg (EStateM.Result.ok · _) (hback hfiller))⟩

end Session

end RecordLayout
