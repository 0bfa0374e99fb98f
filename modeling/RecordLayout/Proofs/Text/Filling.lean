import RecordLayout.Proofs.Text.Seams

/-!
# Copies of a padding

Stripping takes whole copies of the padding off a text, at its front or at its end, so the text is
what is left with those copies put back.

## Main results

* `Text.exists_copies_dropLeading`, `Text.exists_copies_dropTrailing`: what stripping takes off.
* `Text.eq_copies_space`: a text of spaces only is copies of one.
-/

namespace RecordLayout

namespace Text

open Owed

theorem copies_add (unit : Text) (m n : Nat) :
    unit.copies (m + n) = unit.copies m ++ unit.copies n := by
  unfold copies
  rw [← List.replicate_append_replicate, List.flatten_append]

theorem copies_succ' (unit : Text) (n : Nat) : unit.copies (n + 1) = unit.copies n ++ unit := by
  rw [copies_add, copies_succ, copies_zero, List.append_nil]

theorem reverse_copies (unit : Text) (n : Nat) :
    (unit.copies n).reverse = copies unit.reverse n := by
  induction n with
  | zero => rfl
  | succ n ih => rw [copies_succ, List.reverse_append, ih, copies_succ']

/-- What stripping takes off the front is some copies of the padding. -/
theorem exists_copies_dropLeading (unit t : Text) :
    ∃ k, t = unit.copies k ++ dropLeading unit t := by
  fun_induction dropLeading unit t with
  | case1 t => exact ⟨0, rfl⟩
  | case2 t _ rest hrest ih =>
    obtain ⟨k, hk⟩ := ih
    refine ⟨k + 1, ?_⟩
    rw [copies_succ, List.append_assoc, ← hk]
    exact eq_append_of_isPrefixOf? hrest
  | case3 t => exact ⟨0, rfl⟩

/-- What stripping takes off the end is some copies of the padding. -/
theorem exists_copies_dropTrailing (unit t : Text) :
    ∃ k, t = dropTrailing unit t ++ unit.copies k := by
  obtain ⟨k, hk⟩ := exists_copies_dropLeading unit.reverse t.reverse
  refine ⟨k, ?_⟩
  have hreverse := congrArg List.reverse hk
  rw [List.reverse_append, reverse_copies, List.reverse_reverse, List.reverse_reverse] at hreverse
  exact hreverse

/-! ### Spaces -/

theorem eq_copies_space {t : Text} (h : ∀ b ∈ t, b = 0x20) : t = space.copies t.length := by
  induction t with
  | nil => rfl
  | cons b t ih =>
    rw [List.length_cons, copies_succ, ← ih fun c hc => h c (List.mem_cons_of_mem b hc),
      h b List.mem_cons_self]
    rfl

theorem wellFormed_space : WellFormed space := wellFormed_of_ascii (by decide +kernel)

theorem isCharacter_space : space.IsCharacter := by
  unfold IsCharacter
  decide

end Text

end RecordLayout
