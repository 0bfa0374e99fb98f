import RecordLayout.Proofs.Text.Sides

/-!
# Blank texts

A text is blank when it is put together of copies of the padding and of spaces, in any order.  The
test takes them off in front as they come and never goes back, which is right because it never has a
choice: a padding of one character that begins with a space is a space.  For the same reason copies
that are put beside a text make no difference, at the one side or the other.

## Main definitions

* `Text.Blank`: copies of the padding and spaces, one after the other.
* `Text.Definite`: a padding that is not mistaken for a space.

## Main results

* `Text.isBlank_iff`: **the test finds out which texts are blank**.
* `Text.IsCharacter.blank_beside_iff`: copies beside a text do not count.
* `Text.isBlank_overlong`: a padding that is too long to be counted can mislead the test.
* `Text.Blank.bears`: a blank text without spaces has a copy of the padding at either side.
-/

namespace RecordLayout

namespace Text

open Owed

/-- Copies of `pad` and spaces, one after the other. -/
inductive Blank (pad : Text) : Text → Prop
  | nil : Blank pad []
  | copy {t : Text} (h : Blank pad t) : Blank pad (pad ++ t)
  | space {t : Text} (h : Blank pad t) : Blank pad (0x20 :: t)

/-- A padding that is not empty, and that is a space if it begins with one. -/
def Definite (pad : Text) : Prop := pad ≠ [] ∧ (pad.head? = some 0x20 → pad = space)

variable {pad s t : Text}

namespace Blank

theorem append (hs : Blank pad s) (ht : Blank pad t) : Blank pad (s ++ t) := by
  induction hs with
  | nil => exact ht
  | copy _ ih => rw [List.append_assoc]; exact ih.copy
  | space _ ih => exact ih.space

theorem reverse (h : Blank pad t) : Blank pad.reverse t.reverse := by
  induction h with
  | nil => exact .nil
  | copy _ ih =>
    rw [List.reverse_append]
    simpa using ih.append (copy nil)
  | space _ ih =>
    rw [List.reverse_cons]
    exact ih.append (space nil)

/-- There is nothing in a blank text but the bytes of the padding and spaces. -/
theorem mem (h : Blank pad t) {b : UInt8} (hb : b ∈ t) : b ∈ pad ∨ b = 0x20 := by
  induction h with
  | nil => exact absurd hb List.not_mem_nil
  | copy _ ih => exact (List.mem_append.mp hb).elim .inl ih
  | space _ ih => exact (List.mem_cons.mp hb).elim .inr ih

/-- A blank text that is not empty begins with a copy of the padding or with a space. -/
theorem begins (h : Blank pad t) (hne : t ≠ []) : pad <+: t ∨ t.head? = some 0x20 := by
  cases h with
  | nil => exact absurd rfl hne
  | copy h => exact .inl (List.prefix_append _ _)
  | space h => exact .inr rfl

/-- **A blank text without spaces has a copy of the padding at either side.** -/
theorem bears (h : Blank pad t) (hne : t ≠ []) (hspace : 0x20 ∉ t) (left : Bool) :
    Bears left pad t := by
  have hfront {pad t : Text} (h : Blank pad t) (hne : t ≠ []) (hspace : 0x20 ∉ t) : pad <+: t := by
    rcases h.begins hne with hprefix | hhead
    · exact hprefix
    · exact absurd (List.mem_of_mem_head? hhead) hspace
  cases left with
  | false => exact hfront h hne hspace
  | true =>
    apply List.reverse_prefix.mp
    exact hfront h.reverse (by simpa using hne) (by simpa using hspace)

end Blank

theorem blank_reverse_iff : Blank pad.reverse t.reverse ↔ Blank pad t := by
  refine ⟨fun h => ?_, Blank.reverse⟩
  have hback := h.reverse
  rwa [List.reverse_reverse, List.reverse_reverse] at hback

/-! ### What is taken off in front -/

/-- A text that is not empty begins with the first byte of all that it begins. -/
theorem head?_of_append_eq {u : Text} {b : UInt8} (hne : s ≠ []) (h : s ++ t = b :: u) :
    s.head? = some b := by
  cases s with
  | nil => exact absurd rfl hne
  | cons c s => rw [(List.cons_eq_cons.mp h).1, List.head?_cons]

/-- A copy of the padding in front is one that was put there. -/
theorem Definite.blank_append_iff (hpad : Definite pad) : Blank pad (pad ++ t) ↔ Blank pad t := by
  refine ⟨fun h => ?_, Blank.copy⟩
  generalize hs : pad ++ t = s at h
  cases h with
  | nil => exact absurd (List.append_eq_nil_iff.mp hs).1 hpad.1
  | copy h => rwa [List.append_cancel_left hs]
  | space h =>
    have hhead : pad.head? = some 0x20 := head?_of_append_eq hpad.1 hs
    rw [hpad.2 hhead] at hs h ⊢
    have ht : t = _ := (List.cons_eq_cons.mp hs).2
    rwa [ht]

/-- A space in front is one that was put there. -/
theorem Definite.blank_space_iff (hpad : Definite pad) : Blank pad (0x20 :: t) ↔ Blank pad t := by
  refine ⟨fun h => ?_, Blank.space⟩
  generalize hs : 0x20 :: t = s at h
  cases h with
  | nil => exact absurd hs (by simp)
  | copy h =>
    have hhead : pad.head? = some 0x20 := head?_of_append_eq hpad.1 hs.symm
    rw [hpad.2 hhead] at hs h ⊢
    rwa [(List.cons_eq_cons.mp hs).2]
  | space h => rwa [(List.cons_eq_cons.mp hs).2]

/-- Copies in front make no difference where one makes none. -/
theorem blank_copies_append_iff {unit : Text} (h : ∀ t, Blank pad (unit ++ t) ↔ Blank pad t)
    (k : Nat) : Blank pad (unit.copies k ++ t) ↔ Blank pad t := by
  induction k with
  | zero => rfl
  | succ k ih => rw [copies_succ, List.append_assoc, h, ih]

theorem Definite.blank_dropBlank_iff (hpad : Definite pad) :
    Blank pad (dropBlank pad t) ↔ Blank pad t := by
  obtain ⟨k, hk⟩ := exists_copies_dropLeading pad t
  obtain ⟨n, hn⟩ := exists_copies_dropLeading space (dropLeading pad t)
  conv => rhs; rw [hk, hn]
  rw [blank_copies_append_iff (fun _ => hpad.blank_append_iff),
    blank_copies_append_iff (fun _ => hpad.blank_space_iff)]
  rfl

/-- **The test finds out which texts are blank.** -/
theorem isBlank_iff (hpad : Definite pad) : isBlank pad t = true ↔ Blank pad t := by
  fun_induction isBlank pad t with
  | case1 => exact iff_of_true rfl .nil
  | case2 t _ _ ih => exact ih.trans hpad.blank_dropBlank_iff
  | case3 t hne hbegins =>
    refine iff_of_false Bool.false_ne_true fun h => hbegins ?_
    unfold beginsBlank
    rcases h.begins hne with hprefix | hhead
    · simp [hpad.1, List.isPrefixOf_iff_prefix.mpr hprefix]
    · cases t with
      | nil => exact absurd rfl hne
      | cons b t =>
        rw [List.head?_cons, Option.some_inj] at hhead
        simp [hhead, space]

/-! ### Paddings of one character -/

namespace IsCharacter

variable (hpad : pad.IsCharacter)

include hpad

/-- A character that begins with a space has no more bytes. -/
theorem definite : Definite pad := by
  refine ⟨hpad.ne_nil, fun hhead => ?_⟩
  cases pad with
  | nil => exact absurd rfl hpad.ne_nil
  | cons b u =>
    rw [List.head?_cons, Option.some_inj] at hhead
    subst hhead
    have hcount : countFrom nothing (0x20 :: u) = 1 + countFrom nothing u := rfl
    have hone : countFrom nothing (0x20 :: u) = 1 := hpad
    by_cases hu : u = []
    · rw [hu]; rfl
    · have hpos := countFrom_pos hu
      omega

/-- A character that ends with a space has no more bytes either. -/
theorem definite_reverse : Definite pad.reverse := by
  refine ⟨by simpa using hpad.ne_nil, fun hlast => ?_⟩
  rw [List.head?_reverse] at hlast
  obtain ⟨u, rfl⟩ := List.getLast?_eq_some_iff.mp hlast
  -- a space is never owed, so it is a character of its own
  have happart : Apart u [0x20] := wellFormed_space.apart_left u
  have hcount : countFrom nothing (u ++ [0x20]) = countFrom nothing u + 1 :=
    countFrom_append_of_apart happart
  have hone : countFrom nothing (u ++ [0x20]) = 1 := hpad
  by_cases hu : u = []
  · rw [hu]; rfl
  · have hpos := countFrom_pos hu
    omega

/-- **Copies of the padding beside a text do not count.** -/
theorem blank_beside_iff (left : Bool) (k : Nat) :
    Blank pad (beside left t (pad.copies k)) ↔ Blank pad t := by
  cases left with
  | false => exact blank_copies_append_iff (fun _ => hpad.definite.blank_append_iff) k
  | true =>
    show Blank pad (t ++ pad.copies k) ↔ Blank pad t
    rw [← blank_reverse_iff, List.reverse_append, reverse_copies,
      blank_copies_append_iff (fun _ => hpad.definite_reverse.blank_append_iff), blank_reverse_iff]

end IsCharacter

/-- With a space for the padding, a blank text has spaces only. -/
theorem eq_space_of_isBlank (h : isBlank space t = true) : ∀ b ∈ t, b = 0x20 := by
  intro b hb
  rcases ((isBlank_iff isCharacter_space.definite).mp h).mem hb with hpad | hspace
  · exact List.mem_singleton.mp hpad
  · exact hspace

/-! ### A padding that is too long -/

/-- A space and `2 ^ 32` letters: of so many bytes only the first is counted. -/
def overlong : Text := 0x20 :: List.replicate (2 ^ 32) 0x61

theorem length_overlong : overlong.length = 2 ^ 32 + 1 := by
  unfold overlong
  rw [List.length_cons, List.length_replicate]

theorem width_overlong : overlong.width = 1 := by
  have hone : word32 overlong.length = 1 := by
    rw [length_overlong]
    decide
  unfold width scanned
  rw [hone]
  rfl

theorem overlong_eq : ∃ t, overlong = 0x20 :: 0x61 :: t :=
  ⟨_, congrArg (0x20 :: ·) (List.replicate_succ (n := 2 ^ 32 - 1))⟩

theorem beside_space (pad : Text) : beside true " " (pad.copies 1) = 0x20 :: pad := by
  rw [copies_succ, copies_zero, List.append_nil]
  rfl

/-- A space before a padding is blank. -/
theorem blank_space_cons (pad : Text) : Blank pad (0x20 :: pad) := by
  rw [← beside_space]
  exact Blank.nil.copy.space

/-- **The test misses this** with a padding that is too long to be counted and begins with a space:
a space may be one of its own or the beginning of a copy, and the test takes the wrong one. -/
theorem isBlank_overlong : isBlank overlong (0x20 :: overlong) = false := by
  obtain ⟨t, ht⟩ := overlong_eq
  -- no copy begins the text, so both spaces are dropped, and the rest begins with neither
  have hfirst : dropLeading overlong (0x20 :: overlong) = 0x20 :: overlong := by
    apply (dropLeading_eq_self_iff (by simp [ht])).mpr
    simp [ht]
  have hrest : dropLeading space (0x61 :: t) = 0x61 :: t := by
    apply (dropLeading_eq_self_iff space_ne_nil).mpr
    simp [space]
  have hspaces : dropLeading space (0x20 :: overlong) = 0x61 :: t := by
    rw [ht]
    exact (dropLeading_append space_ne_nil (0x20 :: 0x61 :: t)).trans
      ((dropLeading_append space_ne_nil (0x61 :: t)).trans hrest)
  have hbegins : beginsBlank overlong (0x20 :: overlong) = true := by
    simp [beginsBlank, space]
  have hdrop : dropBlank overlong (0x20 :: overlong) = 0x61 :: t := by
    rw [dropBlank, hfirst, hspaces]
  rw [isBlank, if_neg (List.cons_ne_nil _ _), dif_pos hbegins, hdrop, isBlank,
    if_neg (List.cons_ne_nil _ _), dif_neg (by simp [beginsBlank, space, ht])]

end Text

end RecordLayout
