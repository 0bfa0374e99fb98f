import RecordLayout.Proofs.Layout.CachedWidth
import RecordLayout.Proofs.Layout.Orderly

/-!
# Records that come back

Writing puts slots side by side, and reading cuts the line at counted positions.  Slots that are
well-formed meet at characters, so each is found again where it was put, however the schemas are
nested and however often one is referred to; and a record whose values come back from their slots
comes back itself.

## Main definitions

* `Codec.valueIn`, `Codec.Returns`: the value of a codec in a record, and values that come back.
* `Outline.Fits`: a record all of whose values come back.
* `Codec.Plain`: a column whose padding is well-formed.
* `Outline.ReadsBack`: a text from which an outline reads the values of a record.

## Main results

* `Outline.roundTrip`: what an outline writes is read back.
* `Session.Reached.record_roundTrip`: **records come back**.
* `Session.record_uncounted`: a record with a text that is too long to be counted does not.
-/

namespace RecordLayout

open Text Text.Owed

/-! ### Values that come back -/

namespace Codec

/-- The value of a codec in a record; a filler holds nothing. -/
def valueIn (c : Codec) (r : Record) : Option Value :=
  if c.isFiller then some .null
  else match c.group with
    | none => r.find? c.name
    | some group =>
      match r.find? group with
      | some (.record members) => Record.find? members c.name
      | _ => none

/-- An equal value is read from the slot that is written for a value, and the slot is short enough
to be counted. -/
def Returns (c : Codec) (x : Value) : Prop :=
  ∃ slot y, c.format x = .ok slot ∧ slot.length < 2 ^ 31 ∧ c.parse slot = .ok y ∧ y.equal x = true

instance (c : Codec) (x : Value) : Decidable (c.Returns x) :=
  match hslot : c.format x with
  | .error e => isFalse fun ⟨slot, _, h, _⟩ => absurd (hslot.symm.trans h) (by simp)
  | .ok slot =>
    match hparse : c.parse slot with
    | .error e => isFalse fun ⟨_, y, h, _, hy, _⟩ => by
        obtain rfl := Except.ok.inj (hslot.symm.trans h)
        exact absurd (hparse.symm.trans hy) (by simp)
    | .ok y => decidable_of_iff (slot.length < 2 ^ 31 ∧ y.equal x = true)
        ⟨fun h => ⟨slot, y, hslot, h.1, hparse, h.2⟩, fun ⟨_, _, h, hlen, hy, hequal⟩ => by
          obtain rfl := Except.ok.inj (hslot.symm.trans h)
          obtain rfl := Except.ok.inj (hparse.symm.trans hy)
          exact ⟨hlen, hequal⟩⟩

/-- A column whose padding is well-formed. -/
def Plain (c : Codec) : Prop :=
  ∃ col pad, c = .column col ∧ col.padding = .ok pad ∧ WellFormed pad

theorem columnValue_eq {c : Codec} {r : Record} {x : Value} (h : c.valueIn r = some x)
    (name : Text) : Layout.columnValue name r c = .ok x := by
  unfold valueIn at h
  unfold Layout.columnValue
  split at h
  · next hfiller => rw [if_pos hfiller, Option.some.inj h]
  · next hfiller =>
    rw [if_neg hfiller]
    cases hgroup : c.group with
    | none =>
      rw [hgroup] at h
      simp only [h, Option.getD_some]
    | some group =>
      rw [hgroup] at h
      dsimp only at h ⊢
      split at h
      · next members hmembers => simp only [hmembers, h, Option.getD_some]
      · exact absurd h (by simp)

/-- A value that is equal to the one in the record is an item that matches it. -/
theorem matches_item {c : Codec} (hfiller : c.isFiller = false) {r : Record} {x y : Value}
    (h : c.valueIn r = some x) (hequal : y.equal x = true) : (c.item y).Matches r := by
  unfold valueIn at h
  rw [hfiller, if_neg Bool.false_ne_true] at h
  unfold item
  split at h
  · next hnone =>
    rw [hnone]
    exact ⟨x, h, hequal⟩
  · next group hsome =>
    rw [hsome]
    split at h
    · next members hmembers => exact ⟨members, x, hmembers, h, hequal⟩
    · exact absurd h (by simp)

end Codec

/-- A record with a value for every place of an outline, where each leaf is a well-formed text or no
text, and comes back. -/
def Outline.Fits : Outline → Record → Prop
  | .done, _ => True
  | .column c rest, r =>
    (∃ x, c.valueIn r = some x ∧ (∀ t, x = .text t → WellFormed t) ∧ c.Returns x) ∧ rest.Fits r
  | .branch key _ _ inner rest, r =>
    (∃ i : Record, r.find? key = some (.record i) ∧ i.HasLabels inner.labels ∧ inner.Fits i)
      ∧ rest.Fits r

/-! ### Slots that are found again -/

/-- A slot that is written by a plain column is well-formed and as wide as the column. -/
theorem Codec.Plain.slot {c : Codec} (hc : c.Plain)
    (hsettled : ∀ col : Column, c = .column col → col.Settled) {x : Value}
    (hx : ∀ t, x = .text t → WellFormed t) {slot : Text} (h : c.format x = .ok slot)
    (hlen : slot.length < 2 ^ 31) :
    WellFormed slot ∧ countFrom nothing slot = c.width.toNat := by
  obtain ⟨col, pad, rfl, hpad, hwell⟩ := hc
  exact Column.format_wellFormed (hsettled col rfl) hpad hwell hx h hlen

/-- A well-formed text is found again between well-formed texts. -/
theorem Text.window_of_wellFormed {before slot after : Text} (hbefore : WellFormed before)
    (hslot : WellFormed slot) (hlen : (before ++ (slot ++ after)).length < 2 ^ 31) :
    (before ++ (slot ++ after)).window (countFrom nothing before) (countFrom nothing slot)
      = slot := by
  have hwindow := window_append hlen (hbefore.apart_right _) (hslot.apart_right after)
  have hsum : (before ++ (slot ++ after)).length = before.length + (slot ++ after).length :=
    List.length_append
  have hsum' : (slot ++ after).length = slot.length + after.length := List.length_append
  rwa [width_of_lt (t := before) (by omega), width_of_lt (t := slot) (by omega)] at hwindow

namespace Outline

/-- A well-formed text as wide as an outline, from which it reads values that match those of a
record, whatever well-formed texts stand before and after it. -/
structure ReadsBack (o : Outline) (line : Text) (r : Record) : Prop where
  wellFormed : WellFormed line
  count : countFrom nothing line = o.width
  items : ∀ before after, WellFormed before → WellFormed after →
    (before ++ (line ++ after)).length < 2 ^ 31 →
    ∃ items, o.items (before ++ (line ++ after)) (countFrom nothing before) = .ok items ∧
      items.map Item.label = o.labels ∧ ∀ item ∈ items, item.Matches r

namespace ReadsBack

variable {rest : Outline} {slot line : Text} {r : Record}

theorem done (r : Record) : Outline.done.ReadsBack [] r :=
  ⟨wellFormed_nil, rfl, fun _ _ _ _ _ => ⟨[], rfl, rfl, fun _ h => absurd h (by simp)⟩⟩

/-- What is read behind a slot does not depend on where the slot is counted. -/
theorem items_after (h : rest.ReadsBack line r) (hslot : WellFormed slot) {before after : Text}
    (hbefore : WellFormed before) (hafter : WellFormed after)
    (hlen : (before ++ (slot ++ line ++ after)).length < 2 ^ 31) :
    ∃ items, rest.items (before ++ (slot ++ line ++ after))
        (countFrom nothing before + countFrom nothing slot) = .ok items ∧
      items.map Item.label = rest.labels ∧ ∀ item ∈ items, item.Matches r := by
  have hshift : before ++ (slot ++ line ++ after) = before ++ slot ++ (line ++ after) := by
    simp only [List.append_assoc]
  rw [hshift] at hlen ⊢
  rw [← countFrom_append_of_apart (hbefore.apart_right slot)]
  exact h.items (before ++ slot) after (hbefore.append hslot) hafter hlen

theorem column {c : Codec} {x y : Value} (hslot : WellFormed slot)
    (hcount : countFrom nothing slot = c.width.toNat) (hparse : c.parse slot = .ok y)
    (hx : c.valueIn r = some x) (hequal : y.equal x = true) (h : rest.ReadsBack line r) :
    (Outline.column c rest).ReadsBack (slot ++ line) r := by
  refine ⟨hslot.append h.wellFormed, ?_, fun before after hbefore hafter hlen => ?_⟩
  · rw [countFrom_append_of_apart (hslot.apart_right _), hcount, h.count]
    rfl
  · obtain ⟨items, hread, hlabels, hmatches⟩ := h.items_after hslot hbefore hafter hlen
    rw [hcount] at hread
    rw [Outline.items_column]
    unfold labels
    cases hfiller : c.isFiller with
    | true =>
      rw [if_pos rfl, Codec.label?, if_pos hfiller]
      exact ⟨items, hread, hlabels, hmatches⟩
    | false =>
      have hwindow : (before ++ (slot ++ line ++ after)).window (countFrom nothing before)
          c.width.toNat = slot := by
        rw [List.append_assoc] at hlen ⊢
        rw [← hcount]
        exact window_of_wellFormed hbefore hslot hlen
      rw [if_neg Bool.false_ne_true, hwindow, hparse, hread, Codec.label?_eq hfiller y]
      refine ⟨c.item y :: items, rfl, ?_, fun item hitem => ?_⟩
      · rw [List.map_cons, hlabels]
        rfl
      · rcases List.mem_cons.mp hitem with rfl | hitem
        · exact Codec.matches_item hfiller hx hequal
        · exact hmatches item hitem

theorem branch {inner : Outline} {key inside : Text} {t : SchemaId} {i : Record}
    (hdistinct : Label.Distinct inner.labels) (hi : r.find? key = some (.record i))
    (hlabels : i.HasLabels inner.labels) (hinner : inner.ReadsBack slot i)
    (h : rest.ReadsBack line r) :
    (Outline.branch key t inside inner rest).ReadsBack (slot ++ line) r := by
  refine ⟨hinner.wellFormed.append h.wellFormed, ?_, fun before after hbefore hafter hlen => ?_⟩
  · rw [countFrom_append_of_apart (hinner.wellFormed.apart_right _), hinner.count, h.count]
    rfl
  · obtain ⟨items, hread, hmore, hmatches⟩ :=
      h.items_after hinner.wellFormed hbefore hafter hlen
    have hshift : before ++ (slot ++ line ++ after) = before ++ (slot ++ (line ++ after)) := by
      simp only [List.append_assoc]
    obtain ⟨within, hreadWithin, hwithin, hmatchesWithin⟩ :=
      hinner.items before (line ++ after) hbefore (h.wellFormed.append hafter) (hshift ▸ hlen)
    rw [hinner.count] at hread
    rw [← hshift] at hreadWithin
    have hequal : (gather within).equal i = true :=
      gather_equal (hwithin ▸ hdistinct) (hwithin ▸ hlabels) hmatchesWithin
    rw [Outline.items_branch]
    unfold labels
    rw [hreadWithin, hread]
    refine ⟨.field key (.record (gather within)) :: items, rfl, ?_, fun item hitem => ?_⟩
    · rw [List.map_cons, hmore]
      rfl
    · rcases List.mem_cons.mp hitem with rfl | hitem
      · exact ⟨.record i, hi, hequal⟩
      · exact hmatches item hitem

end ReadsBack

/-- **What an outline writes is read back.** -/
theorem roundTrip {o : Outline} (hplain : ∀ c ∈ o.codecs, c.Plain)
    (hsettled : ∀ col : Column, .column col ∈ o.codecs → col.Settled) (hnamed : o.WellNamed)
    {r : Record} (hfits : o.Fits r) (name : Text) :
    ∃ line, o.write name r = .ok line ∧ o.ReadsBack line r := by
  induction o generalizing r name with
  | done => exact ⟨[], rfl, .done r⟩
  | column c rest ih =>
    obtain ⟨⟨x, hx, htext, slot, y, hslot, hlen, hparse, hequal⟩, hrest⟩ := hfits
    obtain ⟨hwell, hcount⟩ := (hplain c List.mem_cons_self).slot
      (fun col hcol => hsettled col (hcol ▸ List.mem_cons_self)) htext hslot hlen
    obtain ⟨line, hline, hback⟩ := ih (fun d hd => hplain d (List.mem_cons_of_mem _ hd))
      (fun col hcol => hsettled col (List.mem_cons_of_mem _ hcol)) hnamed hrest name
    exact ⟨slot ++ line, write_column_ok (Codec.columnValue_eq hx name) hslot hline,
      .column hwell hcount hparse hx hequal hback⟩
  | branch key t inside inner rest ihinner ihrest =>
    obtain ⟨⟨i, hi, hlabels, hfitsInner⟩, hrest⟩ := hfits
    obtain ⟨hdistinct, hnamedInner, hnamedRest⟩ := hnamed
    obtain ⟨slot, hslot, hinner⟩ := ihinner (fun d hd => hplain d (List.mem_append_left _ hd))
      (fun col hcol => hsettled col (List.mem_append_left _ hcol)) hnamedInner hfitsInner inside
    obtain ⟨line, hline, hback⟩ := ihrest (fun d hd => hplain d (List.mem_append_right _ hd))
      (fun col hcol => hsettled col (List.mem_append_right _ hcol)) hnamedRest hrest name
    exact ⟨slot ++ line, write_branch_ok (Layout.nestedRecord_of_find hi) hslot hline,
      .branch hdistinct hi hlabels hinner hback⟩

end Outline

/-! ### Records of a validated schema -/

/-- A text that is too long to be counted is not what a schema of one column writes: the line with
the text in it is too long as well, and is taken for one without characters. -/
theorem Layout.Settled.format_uncounted {L : Layout} {s : SchemaId} {c : Column} {left : Bool}
    {pad t : Text} (h : L.Settled s (.column (.column c) .done)) (hc : c.Fills left pad)
    (hfiller : c.isFiller = false) (hgroup : c.group = none) (hpos : 0 < c.width.toNat)
    (hlong : 2 ^ 31 ≤ t.length) (hlt : t.length + c.width.toNat * pad.length < 2 ^ 32) :
    ∃ e, (Layout.format s [(c.name, .text t)]).outcome L = .error e ∧ e.code = .internal := by
  have hvalue (name : Text) :
      Layout.columnValue name [(c.name, .text t)] (.column c) = .ok (.text t) := by
    refine Codec.columnValue_eq ?_ name
    unfold Codec.valueIn
    rw [show (Codec.column c).isFiller = false from hfiller, if_neg Bool.false_ne_true,
      show (Codec.column c).group = none from hgroup]
    exact (Listing.find?_cons ..).trans (if_pos rfl)
  have hslot := hc.format_uncounted hfiller hlong (by omega)
  have hwrite (name : Text) : (Outline.column (.column c) .done).write name [(c.name, .text t)]
      = .ok (beside left t (pad.copies c.width.toNat) ++ []) :=
    Outline.write_column_ok (hvalue name) hslot rfl
  have hcounted : (beside left t (pad.copies c.width.toNat) ++ []).width = 0 := by
    have hlength := length_beside left t (pad.copies c.width.toNat)
    rw [length_copies] at hlength
    rw [List.append_nil]
    exact width_uncounted (by omega) (by omega)
  have hwidth : (Outline.column (.column c) .done).width = c.width.toNat := rfl
  have hreports := h.reports_format (by rw [hwidth]; exact c.width.toNat_lt) [(c.name, .text t)]
  rw [hwrite] at hreports
  refine ⟨_, hreports.outcome.trans (if_neg ?_), rfl⟩
  rw [hcounted, hwidth]
  omega

namespace Session

open Layout Build

/-- **Records come back.**  A schema that has been validated writes a line for every record with
exactly its places whose values come back from their slots, and reads an equal record from it; if
the columns have well-formed paddings, builders have declared only fields of the schema they build,
and the line is short enough to be counted. -/
theorem Reached.record_roundTrip {S : Session} (hS : S.Reached Orderly) {s : SchemaId}
    (hs : s < S.layout.schemas.length) {M N : Layout} (hvalid : validate s S.layout = .ok () M)
    (hMN : M.Develops N) :
    ∃ o, N.Unfolds s o ∧ ((∀ c ∈ o.codecs, c.Plain) → 4 * o.width < 2 ^ 31 →
      ∀ r : Record, r.HasLabels o.labels → o.Fits r →
        ∃ line r', format s r N = .ok line N ∧ parse s line 0 N = .ok r' N
          ∧ r'.equal r = true) := by
  obtain ⟨o, ho, hsettled, hdistinct, hnamed⟩ := hS.settled hs hvalid hMN
  refine ⟨o, ho.unfolds, fun hplain hlt r hlabels hfits => ?_⟩
  obtain ⟨line, hwrite, hback⟩ := Outline.roundTrip hplain hsettled hnamed hfits (N.schema s).name
  have hlen : line.length < 2 ^ 31 := by
    have hle := hback.wellFormed.length_le
    rw [hback.count] at hle
    omega
  obtain ⟨items, hread, hitems, hmatches⟩ :=
    hback.items [] [] wellFormed_nil wellFormed_nil (by rwa [List.nil_append, List.append_nil])
  rw [List.nil_append, List.append_nil] at hread
  have hwidth : line.width = o.width := (width_of_lt hlen).trans hback.count
  refine ⟨line, gather items, ho.format_eq (by omega) hwrite hwidth,
    ho.parse_eq (by omega) hread, ?_⟩
  exact gather_equal (hitems ▸ hdistinct) (hitems ▸ hlabels) hmatches

/-! ### A column added inside -/

/-- A column of texts, padded with spaces, in which a text of a record comes back. -/
def IsText (c : Column) (name : Text) (width : UInt64) (text : Text) : Prop :=
  c.name = name ∧ c.width = width ∧ c.group = none ∧ c.isFiller = false
    ∧ c.padding.toOption = some " " ∧ c.type.toOption = some "string"
    ∧ (Codec.column c).Returns (.text text)

instance (c : Column) (name : Text) (width : UInt64) (text : Text) :
    Decidable (IsText c name width text) :=
  inferInstanceAs (Decidable (_ ∧ _))

namespace IsText

variable {c : Column} {name : Text} {width : UInt64} {text : Text} (h : IsText c name width text)

include h

theorem padding_type : c.padding = .ok " " ∧ c.type = .ok "string" := by
  have hok {x : Except Error Text} {t : Text} (hx : x.toOption = some t) : x = .ok t := by
    cases x with
    | ok a => exact congrArg Except.ok (Option.some.inj hx)
    | error e => exact absurd hx (by simp [Except.toOption])
  obtain ⟨-, -, -, -, hpad, htype, -⟩ := h
  exact ⟨hok hpad, hok htype⟩

theorem plain : (Codec.column c).Plain :=
  ⟨c, " ", rfl, h.padding_type.1, wellFormed_of_ascii (by decide +kernel)⟩

theorem label?_eq : (Codec.column c).label? = some (.field name) := by
  obtain ⟨hname, -, hgroup, hfiller, -⟩ := h
  unfold Codec.label?
  rw [show (Codec.column c).isFiller = false from hfiller, if_neg Bool.false_ne_true,
    show (Codec.column c).group = none from hgroup]
  exact congrArg (fun name => some (Label.field name)) hname

theorem fits {r : Record} (hr : r.find? name = some (.text text)) (htext : ∀ b ∈ text, b < 0x80) :
    ∃ x, (Codec.column c).valueIn r = some x ∧ (∀ t, x = .text t → WellFormed t)
      ∧ (Codec.column c).Returns x := by
  obtain ⟨hname, -, hgroup, hfiller, -, -, hreturns⟩ := h
  refine ⟨.text text, ?_, fun t ht => ?_, hreturns⟩
  · unfold Codec.valueIn
    rw [show (Codec.column c).isFiller = false from hfiller, if_neg Bool.false_ne_true,
      show (Codec.column c).group = none from hgroup]
    show r.find? c.name = _
    rw [hname, hr]
  · rw [← Value.text.inj ht]
    exact wellFormed_of_ascii htext

end IsText

/-- The layout of `grownInside` after the outer schema has been validated. -/
def validatedInside : Layout := (validate 0).after grownInside.layout

theorem validate_grownInside : validate 0 grownInside.layout = .ok () validatedInside :=
  ok_of_gives (by decide +kernel)

theorem orderly_grownInside : grownInside.Reached Orderly :=
  Reached.start.moves ⟨⟨trivial, trivial⟩,
    ⟨show 0 < List.length _ by decide, by decide⟩,
    ⟨⟨by decide, trivial⟩, by decide⟩, ⟨trivial, trivial⟩, ⟨trivial, trivial⟩,
    ⟨⟨by decide +kernel, trivial⟩, by decide⟩, trivial⟩

/-- Whether a field is a column that a text passes through unchanged. -/
def isTextField (key : Text) (width : UInt64) (text : Text) : Option Field → Bool
  | some (.column (.column c)) => decide (IsText c key width text)
  | _ => false

theorem column_of_isTextField {key : Text} {width : UInt64} {text : Text} {f? : Option Field}
    (h : isTextField key width text f? = true) :
    ∃ c, IsText c key width text ∧ f? = some (.column (.column c)) := by
  unfold isTextField at h
  split at h
  · next c => exact ⟨c, of_decide_eq_true h, rfl⟩
  · exact absurd h (by simp)

/-- The outline of the outer schema: both columns, inside. -/
theorem unfolds_validatedInside : ∃ first second : Column, IsText first "first" 3 "ab"
    ∧ IsText second "second" 4 "cd" ∧ validatedInside.Unfolds 0 (.branch "inner" 1 "inner"
        (.column (.column first) (.column (.column second) .done)) .done) := by
  have hcheck : isTextField "first" 3 "ab" (validatedInside.known? 1 "first") = true := by
    decide +kernel
  have hcheck' : isTextField "second" 4 "cd" (validatedInside.known? 1 "second") = true := by
    decide +kernel
  obtain ⟨first, hfirstText, hfirst⟩ := column_of_isTextField hcheck
  obtain ⟨second, hsecondText, hsecond⟩ := column_of_isTextField hcheck'
  have houter : (validatedInside.schema 0).fields = [Text.ofString "inner"] := by decide +kernel
  have hinside : (validatedInside.schema 1).fields
      = [Text.ofString "first", Text.ofString "second"] := by decide +kernel
  have hname : (validatedInside.schema 1).name = "inner" := by decide +kernel
  have hnested : ((validatedInside.schema 0).find? "inner").bind Entry.nested? = some 1 := by
    decide +kernel
  have hinner : validatedInside.known? 0 "inner" = some (.nested "inner" 1) := by
    obtain ⟨e, he, hchild⟩ := Option.bind_eq_some_iff.mp hnested
    cases e with
    | column | reference => exact absurd hchild (by simp [Entry.nested?])
    | nested t => rw [known_of_nested he, Option.some.inj hchild]
  have hcolumns := UnfoldsTo.column hfirst (.column hsecond (.nil 1))
  rw [← hinside] at hcolumns
  have hall := UnfoldsTo.branch hinner rfl hcolumns (.nil 0)
  rw [← houter, hname] at hall
  exact ⟨first, second, hfirstText, hsecondText, hall⟩

/-- A record for the columns inside comes back. -/
theorem record_roundTrip_grownInside : validate 0 grownInside.layout = .ok () validatedInside
    ∧ ∃ line r', format 0
        [("inner", .record [("first", .text "ab"), ("second", .text "cd")])] validatedInside
          = .ok line validatedInside
      ∧ parse 0 line 0 validatedInside = .ok r' validatedInside
      ∧ Record.equal r' [("inner", .record [("first", .text "ab"), ("second", .text "cd")])]
        = true := by
  refine ⟨validate_grownInside, ?_⟩
  obtain ⟨first, second, hfirst, hsecond, hexpected⟩ := unfolds_validatedInside
  obtain ⟨o, ho, hroundTrip⟩ := orderly_grownInside.record_roundTrip (s := 0)
    (show 0 < List.length _ by decide +kernel) validate_grownInside (.refl _)
  obtain rfl := UnfoldsTo.unique ho hexpected
  refine hroundTrip (fun c hc => ?_) ?_ _ ?_ ⟨⟨_, rfl, ?_, ?_, ?_, trivial⟩, trivial⟩
  · rcases List.mem_pair.mp hc with rfl | rfl
    · exact hfirst.plain
    · exact hsecond.plain
  · show 4 * (first.width.toNat + (second.width.toNat + 0) + 0) < 2 ^ 31
    rw [hfirst.2.1, hsecond.2.1]
    decide
  · exact Record.hasLabels_of_keys (r := [_]) (by decide)
  · show Record.HasLabels _
      ((Codec.column first).label?.toList ++ ((Codec.column second).label?.toList ++ []))
    rw [hfirst.label?_eq, hsecond.label?_eq]
    exact Record.hasLabels_of_keys (r := [_, _]) (by decide)
  · refine hfirst.fits (r := [_, _]) ?_ (by decide +kernel)
    exact Listing.find?_eq_some_of_mem (by decide) List.mem_cons_self
  · refine hsecond.fits (r := [_, _]) ?_ (by decide +kernel)
    exact Listing.find?_eq_some_of_mem (by decide)
      (List.mem_cons_of_mem _ List.mem_cons_self)

/-! ### A text that is too long to be counted -/

/-- A schema with a column of one character. -/
def slim : Session :=
  [.createSchema .detached "row" .empty, .declare 0 (.column "a" 1 .empty)].foldl step ⟨[], .empty⟩

/-- Its layout after it has been validated. -/
def validatedSlim : Layout := (validate 0).after slim.layout

theorem orderly_slim : slim.Reached Orderly :=
  Reached.start.moves ⟨⟨trivial, trivial⟩,
    ⟨⟨show 0 < List.length _ by decide, trivial⟩, fun _ h => absurd h nofun⟩, trivial⟩

theorem validate_slim : validate 0 slim.layout = .ok () validatedSlim :=
  ok_of_gives (by decide +kernel)

theorem unfolds_validatedSlim : ∃ c : Column, IsText c "a" 1 ""
    ∧ validatedSlim.Unfolds 0 (.column (.column c) .done) := by
  have hcheck : isTextField "a" 1 "" (validatedSlim.known? 0 "a") = true := by decide +kernel
  have hfields : (validatedSlim.schema 0).fields = [Text.ofString "a"] := by decide +kernel
  obtain ⟨c, htext, hc⟩ := column_of_isTextField hcheck
  refine ⟨c, htext, ?_⟩
  unfold Unfolds
  rw [hfields]
  exact .column hc (.nil 0)

/-- **A record that does not come back**, although its value does: `2 ^ 31` letters are not counted.
The column writes them whole and reads them back, and then the line has not the width of the
schema. -/
theorem record_uncounted : slim.Reached Orderly ∧ validate 0 slim.layout = .ok () validatedSlim
    ∧ ∃ (c : Column) (t : Text), validatedSlim.Unfolds 0 (.column (.column c) .done)
      ∧ (Codec.column c).Plain ∧ 4 * (Outline.column (.column c) .done).width < 2 ^ 31
      ∧ Record.HasLabels [("a", .text t)] (Outline.column (.column c) .done).labels
      ∧ WellFormed t
      ∧ (∃ slot, c.format (.text t) = .ok slot ∧ c.parse slot = .ok (.text t))
      ∧ ∃ e, (format 0 [("a", .text t)]).outcome validatedSlim = .error e
        ∧ e.code = .internal := by
  obtain ⟨c, hc, hunfolds⟩ := unfolds_validatedSlim
  obtain ⟨t, ht⟩ : ∃ t, t = Text.copies "a" (2 ^ 31) := ⟨_, rfl⟩
  have hlength : t.length = 2 ^ 31 := ht ▸ (Text.length_copies _ _).trans (Nat.mul_one _)
  have hletters : ∀ b ∈ t, b = 0x61 := fun b hb =>
    List.mem_singleton.mp (mem_of_mem_copies (ht ▸ hb))
  have hsane := (orderly_slim.mono fun _ _ h => h.1).sane.layout
  obtain ⟨hdevelops, o, ho⟩ := validate_ok hsane.wellMade (show 0 < List.length _ by decide)
    validate_slim
  obtain rfl := UnfoldsTo.unique ho.unfolds hunfolds
  obtain ⟨hpad, htype⟩ := hc.padding_type
  obtain ⟨left, hfills⟩ := Column.Settled.fills_with (UnfoldsTo.codecs_settled
    (hdevelops.sane hsane).tabled hunfolds c List.mem_cons_self) hpad
  obtain ⟨hname, hone, hgroup, hfiller, -⟩ := id hc
  have hslot := hfills.format_uncounted hfiller (t := t) (by omega) (by omega)
  -- there is no space among the letters, so the padding comes off and nothing else does
  have hnotBlank : isBlank " " (beside left t (Text.copies " " c.width.toNat)) = false := by
    refine Bool.eq_false_iff.mpr fun hblank => ?_
    obtain ⟨b, hb⟩ := List.exists_mem_of_length_pos (show 0 < t.length by omega)
    have hspace := eq_space_of_isBlank hblank b (mem_beside.mpr (.inl hb))
    exact absurd ((hletters b hb).symm.trans hspace) (by decide)
  have hnotBears : ¬ Bears left " " t := fun hbears =>
    absurd (hletters 0x20 (hbears.mem List.mem_cons_self)) (by decide)
  have hback : c.parse (beside left t (Text.copies " " c.width.toNat)) = .ok (.text t) := by
    rw [hfills.parse_text hfiller htype, hnotBlank, Bool.and_false, if_neg Bool.false_ne_true,
      stripped_beside hfills.pad_ne_nil,
      (stripped_eq_self_iff hfills.pad_ne_nil left).mpr hnotBears]
  refine ⟨orderly_slim, validate_slim, c, t, hunfolds, hc.plain, ?_, ?_, ?_, ⟨_, hslot, hback⟩, ?_⟩
  · show 4 * (c.width.toNat + 0) < 2 ^ 31
    rw [hone]
    decide
  · show Record.HasLabels _ ((Codec.column c).label?.toList ++ [])
    rw [hc.label?_eq]
    exact Record.hasLabels_of_keys (r := [_]) (List.nodup_singleton _)
  · exact wellFormed_of_ascii fun b hb => by rw [hletters b hb]; decide
  · rw [← show c.name = Text.ofString "a" from hname]
    exact ho.format_uncounted hfills hfiller hgroup (by rw [hone]; decide) (by omega)
      (by rw [hone, hlength]; decide)

end Session

end RecordLayout
