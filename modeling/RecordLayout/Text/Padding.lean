import RecordLayout.Text.Basic

/-!
# Padding

A slot of a record is filled up with copies of a padding text on one side, and what is read from
it is freed of them again.  Copies are compared byte by byte.

## Main definitions

* `Text.copies`: a text repeated.
* `Text.dropLeading`, `Text.dropTrailing`: a text without the copies at one end.
* `Text.isBlank`: whether a slot holds nothing but padding and spaces.
-/

namespace RecordLayout

namespace Text

/-- `n` copies of a text, one after the other. -/
def copies (unit : Text) (n : Nat) : Text := (List.replicate n unit).flatten

@[simp] theorem copies_zero (unit : Text) : copies unit 0 = [] := rfl

theorem copies_succ (unit : Text) (n : Nat) : copies unit (n + 1) = unit ++ copies unit n := by
  simp [copies, List.replicate_succ]

@[simp] theorem length_copies (unit : Text) (n : Nat) :
    (copies unit n).length = n * unit.length := by
  simp [copies]

theorem eq_append_of_isPrefixOf? {unit t rest : Text} (h : unit.isPrefixOf? t = some rest) :
    t = unit ++ rest := by
  induction unit generalizing t with
  | nil => exact Option.some.inj h
  | cons b unit ih =>
    cases t with
    | nil => exact absurd h nofun
    | cons c t =>
      change (if b == c then unit.isPrefixOf? t else none) = some rest at h
      split at h
      · rename_i hbc
        rw [eq_of_beq hbc, ih h, List.cons_append]
      · exact absurd h (by simp)

theorem isPrefixOf?_append (unit t : Text) : unit.isPrefixOf? (unit ++ t) = some t := by
  induction unit with
  | nil => rfl
  | cons b unit ih =>
    show (if b == b then unit.isPrefixOf? (unit ++ t) else none) = some t
    rw [if_pos (beq_self_eq_true b), ih]

theorem length_lt_of_isPrefixOf? {unit t rest : Text} (hunit : unit ≠ [])
    (h : unit.isPrefixOf? t = some rest) : rest.length < t.length := by
  have hpos := List.length_pos_iff.2 hunit
  rw [eq_append_of_isPrefixOf? h, List.length_append]
  omega

/-- The text after its leading copies of `unit`; there is nothing to drop if `unit` is empty. -/
def dropLeading (unit t : Text) : Text :=
  if _ : unit = [] then t
  else match _ : unit.isPrefixOf? t with
    | some rest => dropLeading unit rest
    | none => t
termination_by t.length
decreasing_by exact length_lt_of_isPrefixOf? ‹_› ‹_›

/-- The text before its trailing copies of `unit`; there is nothing to drop if `unit` is empty. -/
def dropTrailing (unit t : Text) : Text := (dropLeading unit.reverse t.reverse).reverse

@[simp] theorem dropLeading_nil (t : Text) : dropLeading [] t = t := by
  rw [dropLeading, dif_pos rfl]

theorem dropLeading_append {unit : Text} (h : unit ≠ []) (t : Text) :
    dropLeading unit (unit ++ t) = dropLeading unit t := by
  have hrest := isPrefixOf?_append unit t
  conv => lhs; rw [dropLeading, dif_neg h]
  split
  · rename_i rest heq
    rw [Option.some.inj (heq.symm.trans hrest)]
  · rename_i heq
    exact absurd (heq.symm.trans hrest) (by simp)

theorem length_dropLeading_le (unit t : Text) : (dropLeading unit t).length ≤ t.length := by
  fun_induction dropLeading unit t with
  | case1 => exact Nat.le_refl _
  | case2 t _ rest hrest ih =>
    rw [eq_append_of_isPrefixOf? hrest, List.length_append]
    omega
  | case3 => exact Nat.le_refl _

theorem dropLeading_of_not_isPrefixOf {unit t : Text} (h : unit.isPrefixOf t = false) :
    dropLeading unit t = t := by
  rw [dropLeading]
  split
  · rfl
  · split
    · rename_i rest hrest
      have hprefix : unit.isPrefixOf t = true :=
        List.isPrefixOf_iff_prefix.2 ⟨rest, (eq_append_of_isPrefixOf? hrest).symm⟩
      exact absurd (h.symm.trans hprefix) (by decide)
    · rfl

theorem length_dropLeading_lt {unit t : Text} (hunit : unit ≠ []) (h : unit.isPrefixOf t = true) :
    (dropLeading unit t).length < t.length := by
  obtain ⟨rest, rfl⟩ := List.isPrefixOf_iff_prefix.1 h
  have hpos := List.length_pos_iff.2 hunit
  have hle := length_dropLeading_le unit rest
  rw [dropLeading_append hunit, List.length_append]
  omega

/-- A single space. -/
def space : Text := [0x20]

/-- A text after its leading copies of `pad` and the spaces that follow them. -/
def dropBlank (pad t : Text) : Text := dropLeading space (dropLeading pad t)

/-- Whether a text begins with `pad`, unless that is empty, or with a space. -/
def beginsBlank (pad t : Text) : Bool := (pad != [] && pad.isPrefixOf t) || space.isPrefixOf t

theorem length_dropBlank_lt {pad t : Text} (h : beginsBlank pad t = true) :
    (dropBlank pad t).length < t.length := by
  have hle := length_dropLeading_le space (dropLeading pad t)
  rcases (Bool.or_eq_true _ _).mp h with hpad | hspace
  · obtain ⟨hne, hprefix⟩ := (Bool.and_eq_true _ _).mp hpad
    have hlt := length_dropLeading_lt (bne_iff_ne.1 hne) hprefix
    exact Nat.lt_of_le_of_lt hle hlt
  · by_cases hpad : pad ≠ [] ∧ pad.isPrefixOf t = true
    · exact Nat.lt_of_le_of_lt hle (length_dropLeading_lt hpad.1 hpad.2)
    · have hsame : dropLeading pad t = t := by
        by_cases hne : pad = []
        · rw [hne, dropLeading_nil]
        · exact dropLeading_of_not_isPrefixOf (Bool.eq_false_iff.2 fun hp => hpad ⟨hne, hp⟩)
      unfold dropBlank
      rw [hsame]
      exact length_dropLeading_lt (by decide) hspace

/-- Whether a text is used up by taking away, in turn, leading copies of `pad` and leading
spaces. -/
def isBlank (pad t : Text) : Bool :=
  if t = [] then true
  else if _ : beginsBlank pad t = true then isBlank pad (dropBlank pad t)
  else false
termination_by t.length
decreasing_by exact length_dropBlank_lt ‹_›

end Text

end RecordLayout
