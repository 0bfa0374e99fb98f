import Mathlib.Data.List.Basic
import RecordLayout.Proofs.Text.Seams

/-!
# Torn characters

Bytes that are owed after a text go on with a character that the text ends in.  They are owed for a
reason: with all of them the bytes so far are the UTF-8 encoding of a character.  Hence two texts
have fewer characters together than one by one exactly if an encoded character is torn between
them, and after a well-formed text nothing is ever torn.

## Main definitions

* `Text.Owed.Begins`: bytes that become the encoding of a character with all that is owed.
* `Text.Owed.Ongoing`: what is owed after a text, with the bytes it is owed for.
* `Text.Torn`: a character of which one text has the first bytes and another those that follow.

## Main results

* `Text.Owed.begins_afterLead`: the trail bytes owed after a lead byte complete a character.
* `Text.Owed.Ongoing.afterText`: what a whole text owes is owed for bytes at its end.
* `Text.apart_iff_not_torn`: **texts are apart exactly if no character is torn between them**.
* `Text.width_append_exact`: **widths of texts put together**.
-/

namespace RecordLayout

namespace Text

open Owed

variable {o : Owed} {b x y z : UInt8} {p s t ts : Text}

/-! ### Bytes that encode a character -/

/-- Every number outside the surrogates and in the range of Unicode is that of a character. -/
theorem exists_char {n : Nat} (h : n < 0xD800 ∨ 0xDFFF < n ∧ n < 0x110000) :
    ∃ c : Char, c.val.toNat = n := by
  have hn : (UInt32.ofNat n).toNat = n := UInt32.toNat_ofNat_of_lt' (show n < 2 ^ 32 by omega)
  refine ⟨⟨UInt32.ofNat n, ?_⟩, hn⟩
  show (UInt32.ofNat n).toNat.isValidChar
  rw [hn]
  exact h

theorem ofNat_of_toNat {n : Nat} (h : n = b.toNat) : UInt8.ofNat n = b := by
  rw [h, UInt8.ofNat_toNat]

/-- A trail byte, by its number. -/
def Trail (b : UInt8) : Prop := 0x80 ≤ b.toNat ∧ b.toNat ≤ 0xBF

theorem exists_char_two (hb : 0xC2 ≤ b.toNat ∧ b.toNat < 0xE0) (hx : Trail x) :
    ∃ c, [b, x] = String.utf8EncodeChar c := by
  obtain ⟨hlow, hhigh⟩ := hx
  obtain ⟨c, hc⟩ := exists_char (n := (b.toNat - 0xC0) * 64 + (x.toNat - 0x80)) (by omega)
  refine ⟨c, ?_⟩
  unfold String.utf8EncodeChar
  simp only [hc]
  rw [if_neg (by omega), if_pos (by omega), ofNat_of_toNat (b := b) (by omega),
    ofNat_of_toNat (b := x) (by omega)]

/-- The second byte is in a narrower range after `E0` and `ED`. -/
theorem exists_char_three (hb : 0xE0 ≤ b.toNat ∧ b.toNat < 0xF0) (hx : Trail x) (hy : Trail y)
    (hE0 : b.toNat = 0xE0 → 0xA0 ≤ x.toNat) (hED : b.toNat = 0xED → x.toNat ≤ 0x9F) :
    ∃ c, [b, x, y] = String.utf8EncodeChar c := by
  obtain ⟨hxlow, hxhigh⟩ := hx
  obtain ⟨hylow, hyhigh⟩ := hy
  obtain ⟨c, hc⟩ := exists_char
    (n := (b.toNat - 0xE0) * 4096 + (x.toNat - 0x80) * 64 + (y.toNat - 0x80)) (by omega)
  refine ⟨c, ?_⟩
  unfold String.utf8EncodeChar
  simp only [hc]
  rw [if_neg (by omega), if_neg (by omega), if_pos (by omega), ofNat_of_toNat (b := b) (by omega),
    ofNat_of_toNat (b := x) (by omega), ofNat_of_toNat (b := y) (by omega)]

/-- The second byte is in a narrower range after `F0` and `F4`. -/
theorem exists_char_four (hb : 0xF0 ≤ b.toNat ∧ b.toNat ≤ 0xF4) (hx : Trail x) (hy : Trail y)
    (hz : Trail z) (hF0 : b.toNat = 0xF0 → 0x90 ≤ x.toNat)
    (hF4 : b.toNat = 0xF4 → x.toNat ≤ 0x8F) : ∃ c, [b, x, y, z] = String.utf8EncodeChar c := by
  obtain ⟨hxlow, hxhigh⟩ := hx
  obtain ⟨hylow, hyhigh⟩ := hy
  obtain ⟨hzlow, hzhigh⟩ := hz
  obtain ⟨c, hc⟩ := exists_char
    (n := (b.toNat - 0xF0) * 262144 + (x.toNat - 0x80) * 4096 + (y.toNat - 0x80) * 64
      + (z.toNat - 0x80)) (by omega)
  refine ⟨c, ?_⟩
  unfold String.utf8EncodeChar
  simp only [hc]
  rw [if_neg (by omega), if_neg (by omega), if_neg (by omega),
    ofNat_of_toNat (b := b) (by omega), ofNat_of_toNat (b := x) (by omega),
    ofNat_of_toNat (b := y) (by omega), ofNat_of_toNat (b := z) (by omega)]

namespace Owed

/-! ### What a lead byte owes -/

/-- A lead byte by the number of bytes that it owes, with the range of the second byte. -/
theorem afterLead_cases (h : (afterLead b).more ≠ 0) :
    (afterLead b = ⟨1, 0x80, 0xBF⟩ ∧ 0xC2 ≤ b.toNat ∧ b.toNat < 0xE0)
      ∨ (∃ low high, afterLead b = ⟨2, low, high⟩ ∧ (0xE0 ≤ b.toNat ∧ b.toNat < 0xF0)
        ∧ (0x80 ≤ low.toNat ∧ high.toNat ≤ 0xBF)
        ∧ (b.toNat = 0xE0 → low.toNat = 0xA0) ∧ (b.toNat = 0xED → high.toNat = 0x9F))
      ∨ (∃ low high, afterLead b = ⟨3, low, high⟩ ∧ (0xF0 ≤ b.toNat ∧ b.toNat ≤ 0xF4)
        ∧ (0x80 ≤ low.toNat ∧ high.toNat ≤ 0xBF)
        ∧ (b.toNat = 0xF0 → low.toNat = 0x90) ∧ (b.toNat = 0xF4 → high.toNat = 0x8F)) := by
  have hlead := afterLead_ofNat (n := b.toNat) b.toNat_lt
  rw [UInt8.ofNat_toNat] at hlead
  split at hlead
  · exact absurd (congrArg more hlead) h
  split at hlead
  · exact .inl ⟨hlead, by omega, by omega⟩
  -- the ranges after `E0`, `ED` and the other lead bytes of three
  split at hlead
  · exact .inr (.inl ⟨_, _, hlead, by omega, by decide, fun _ => rfl, by omega⟩)
  split at hlead
  · exact .inr (.inl ⟨_, _, hlead, by omega, by decide, by omega, fun _ => rfl⟩)
  split at hlead
  · exact .inr (.inl ⟨_, _, hlead, by omega, by decide, by omega, by omega⟩)
  -- the ranges after `F0`, the lead bytes between, and `F4`
  split at hlead
  · exact .inr (.inr ⟨_, _, hlead, by omega, by decide, fun _ => rfl, by omega⟩)
  split at hlead
  · exact .inr (.inr ⟨_, _, hlead, by omega, by decide, by omega, by omega⟩)
  split at hlead
  · exact .inr (.inr ⟨_, _, hlead, by omega, by decide, by omega, fun _ => rfl⟩)
  · exact absurd (congrArg more hlead) h

/-- The bytes that are taken without beginning a character are those that are owed. -/
theorem countFrom_cons_eq_zero {k : Nat} {low high : UInt8} :
    countFrom ⟨k + 1, low, high⟩ (x :: ts) = 0
      ↔ (low.toNat ≤ x.toNat ∧ x.toNat ≤ high.toNat) ∧ countFrom ⟨k, 0x80, 0xBF⟩ ts = 0 := by
  rw [← UInt8.le_iff_toNat_le, ← UInt8.le_iff_toNat_le]
  by_cases hx : low ≤ x ∧ x ≤ high
  · obtain ⟨haccepts, hnext⟩ := accepts_of_between (k := k) hx
    rw [countFrom_cons, if_pos haccepts, hnext, Nat.zero_add]
    exact (and_iff_right hx).symm
  · have haccepts : (⟨k + 1, low, high⟩ : Owed).accepts x = false := by
      simpa [accepts] using hx
    rw [countFrom_cons, haccepts]
    simp [hx]

/-! ### What is owed, and for what -/

/-- With all that is owed the bytes so far are the encoding of a character. -/
def Begins (o : Owed) (p : Text) : Prop :=
  ∀ ts : Text, ts.length = o.more → countFrom o ts = 0 → ∃ c, p ++ ts = String.utf8EncodeChar c

/-- **The trail bytes that are owed after a lead byte complete a character.** -/
theorem begins_afterLead (h : (afterLead b).more ≠ 0) : Begins (afterLead b) [b] := by
  intro ts hlength hcount
  obtain ⟨hlead, hlow, hhigh⟩ | ⟨low, high, hlead, hb, ⟨hlow, hhigh⟩, hfirst, hlast⟩
    | ⟨low, high, hlead, hb, ⟨hlow, hhigh⟩, hfirst, hlast⟩ := afterLead_cases h
  · rw [hlead] at hlength hcount
    obtain ⟨x, rfl⟩ := List.length_eq_one_iff.mp hlength
    exact exists_char_two ⟨hlow, hhigh⟩ (countFrom_cons_eq_zero.mp hcount).1
  · rw [hlead] at hlength hcount
    obtain ⟨x, y, rfl⟩ := List.length_eq_two.mp hlength
    obtain ⟨hx, hcount⟩ := countFrom_cons_eq_zero.mp hcount
    obtain ⟨hy, -⟩ := countFrom_cons_eq_zero.mp hcount
    exact exists_char_three hb ⟨by omega, by omega⟩ hy (by omega) (by omega)
  · rw [hlead] at hlength hcount
    obtain ⟨x, y, z, rfl⟩ := List.length_eq_three.mp hlength
    obtain ⟨hx, hcount⟩ := countFrom_cons_eq_zero.mp hcount
    obtain ⟨hy, hcount⟩ := countFrom_cons_eq_zero.mp hcount
    obtain ⟨hz, -⟩ := countFrom_cons_eq_zero.mp hcount
    exact exists_char_four hb ⟨by omega, by omega⟩ hy hz (by omega) (by omega)

theorem more_ne_zero (h : o.accepts b = true) : o.more ≠ 0 := by
  intro hzero
  simp [accepts, hzero] at h

theorem more_next (h : o.accepts b = true) : (o.next b).more = o.more - 1 := by
  unfold next
  rw [if_pos h]

/-- A byte that is owed is one of those that complete the character. -/
theorem Begins.next (hbegins : Begins o p) (h : o.accepts b = true) :
    Begins (o.next b) (p ++ [b]) := by
  intro ts hlength hcount
  have hmore := more_ne_zero h
  rw [more_next h] at hlength
  rw [List.append_assoc, List.singleton_append]
  refine hbegins (b :: ts) ?_ ?_
  · rw [List.length_cons]
    omega
  · rw [countFrom_cons, if_pos h, hcount]

/-- What is owed is owed for bytes at the end of what was read. -/
def Ongoing (o : Owed) (s : Text) : Prop :=
  o.more ≠ 0 → ∃ u p, s = u ++ p ∧ p ≠ [] ∧ Begins o p

theorem Ongoing.next (hongoing : Ongoing o s) (b : UInt8) : Ongoing (o.next b) (s ++ [b]) := by
  intro hmore
  by_cases hb : o.accepts b = true
  · obtain ⟨u, p, rfl, hne, hbegins⟩ := hongoing (more_ne_zero hb)
    exact ⟨u, p ++ [b], List.append_assoc u p [b], by simp, hbegins.next hb⟩
  · rw [next_of_not_accepts (Bool.eq_false_iff.mpr hb), next_nothing] at hmore ⊢
    exact ⟨s, [b], rfl, by simp, begins_afterLead hmore⟩

/-- **What a whole text owes is owed for bytes at its end.** -/
theorem Ongoing.afterText (hongoing : Ongoing o s) (t : Text) :
    Ongoing (o.afterText t) (s ++ t) := by
  induction t generalizing o s with
  | nil => rwa [List.append_nil]
  | cons b t ih =>
    have hnext := ih (hongoing.next b)
    rwa [List.append_assoc, List.singleton_append] at hnext

theorem ongoing_nothing (s : Text) : Ongoing (nothing.afterText s) s :=
  Ongoing.afterText (s := []) (fun h => absurd rfl h) s

/-- An owed byte goes on with the bytes that it is owed for. -/
theorem Begins.prefix_of_accepts (hbegins : Begins o p) (h : o.accepts b = true) :
    ∃ c, p ++ [b] <+: String.utf8EncodeChar c := by
  have hnext : o.next b = ⟨o.more - 1, 0x80, 0xBF⟩ := by
    unfold Owed.next
    rw [if_pos h]
  -- any trail bytes will do for the others
  have htrails : ∀ x ∈ List.replicate (o.more - 1) (0x80 : UInt8), 0x80 ≤ x ∧ x ≤ 0xBF := by
    intro x hx
    rw [List.eq_of_mem_replicate hx]
    decide
  have hcount := (trails_taken htrails).2
  rw [List.length_replicate] at hcount
  obtain ⟨c, hc⟩ := hbegins.next h (List.replicate (o.more - 1) 0x80)
    (by rw [List.length_replicate, hnext]) (by rw [hnext, hcount])
  exact ⟨c, _, hc⟩

end Owed

/-! ### Torn characters -/

/-- A character is torn: one text ends with the first of its bytes, and another begins with those
that follow. -/
def Torn (s t : Text) : Prop :=
  ∃ (c : Char) (u p q r : Text), s = u ++ p ∧ t = q ++ r ∧ p ≠ [] ∧ q ≠ []
    ∧ p ++ q <+: String.utf8EncodeChar c

/-- Nothing goes on into the first bytes of a character from what is before them. -/
theorem apart_of_isPrefix {c : Char} {p : Text} (hp : p <+: String.utf8EncodeChar c) (hne : p ≠ [])
    (s : Text) : Apart s p := by
  obtain ⟨q, hq⟩ := hp
  have hwhole : WellFormed (p ++ q) := ⟨[c], by rw [hq]; exact (List.append_nil _).symm⟩
  exact (apart_append_iff hne q).mp (hwhole.apart_left s)

/-- The first bytes of a character count as one at most. -/
theorem countFrom_le_one {c : Char} {p : Text} (hp : p <+: String.utf8EncodeChar c) :
    countFrom nothing p ≤ 1 := by
  obtain ⟨q, hq⟩ := hp
  have hone := (encodeChar_counts_once c).2
  rw [← hq, countFrom_append] at hone
  omega

/-- Two parts of one character are not apart. -/
theorem not_apart_of_isPrefix {c : Char} {p q : Text} (hpq : p ++ q <+: String.utf8EncodeChar c)
    (hp : p ≠ []) (hq : q ≠ []) : ¬ Apart p q := by
  intro hapart
  have hsum := countFrom_append_of_apart hapart
  have hle := countFrom_le_one hpq
  have hleft := countFrom_pos hp
  have hright := countFrom_pos hq
  omega

theorem Torn.not_apart (h : Torn s t) : ¬ Apart s t := by
  obtain ⟨c, u, p, q, r, rfl, rfl, hp, hq, hpq⟩ := h
  have hlead : Apart u p := apart_of_isPrefix ((List.prefix_append p q).trans hpq) hp u
  rw [apart_append_iff hq]
  -- what is owed after the first bytes does not depend on what was before them
  unfold Apart
  rw [afterText_append, afterText_of_endsBefore hlead hp]
  exact not_apart_of_isPrefix hpq hp hq

theorem torn_of_not_apart (h : ¬ Apart s t) : Torn s t := by
  cases t with
  | nil => exact absurd (apart_nil_right s) h
  | cons b t =>
    have hb : (nothing.afterText s).accepts b = true := by
      refine Classical.byContradiction fun hnot => h ?_
      exact endsBefore_cons.mpr (Bool.eq_false_iff.mpr hnot)
    obtain ⟨u, p, hs, hp, hbegins⟩ := ongoing_nothing s (more_ne_zero hb)
    obtain ⟨c, hc⟩ := hbegins.prefix_of_accepts hb
    exact ⟨c, u, p, [b], t, hs, rfl, hp, by simp, hc⟩

/-- **Texts are apart exactly if no character is torn between them.** -/
theorem apart_iff_not_torn : Apart s t ↔ ¬ Torn s t :=
  ⟨fun hapart htorn => htorn.not_apart hapart,
    fun hnot => Classical.byContradiction fun h => hnot (torn_of_not_apart h)⟩

/-! ### Widths of texts put together -/

/-- **A well-formed text has the width of its characters, which add up with those of any text.**
Together two texts have at most as many characters as one by one, and fewer exactly if a character
is torn between them. -/
theorem width_append_exact (h : (s ++ t).length < 2 ^ 31) :
    (∀ cs, s = encode cs → s.width = cs.length ∧ (s ++ t).width = s.width + t.width)
      ∧ (s ++ t).width ≤ s.width + t.width
      ∧ ((s ++ t).width < s.width + t.width ↔ Torn s t) := by
  have hsum : (s ++ t).length = s.length + t.length := List.length_append
  have hs : s.width = countFrom nothing s := width_of_lt (by omega)
  have ht : t.width = countFrom nothing t := width_of_lt (by omega)
  have hle : (s ++ t).width ≤ s.width + t.width := by
    rw [width_of_lt h, hs, ht]
    exact countFrom_append_le s t
  have hadds : (s ++ t).width = s.width + t.width ↔ Apart s t := by
    rw [width_of_lt h, hs, ht]
    exact countFrom_append_eq_iff
  refine ⟨fun cs hcs => ⟨?_, hadds.mpr (WellFormed.apart_right ⟨cs, hcs⟩ t)⟩, hle, ?_⟩
  · rw [hs, hcs, countFrom_encode]
  · rw [Nat.lt_iff_le_and_ne, and_iff_right hle, ne_eq, hadds, apart_iff_not_torn,
      Classical.not_not]

/-- The euro sign, written out before a byte and torn before one. -/
theorem width_append_exact_euro :
    (("€" : Text) ++ [0x82]).width = ("€" : Text).width + 1
      ∧ (([0xE2, 0x82] : Text) ++ [0xAC] : Text).width = 1 ∧ Torn [0xE2, 0x82] [0xAC] := by
  have hwhole := width_append_exact (s := "€") (t := [0x82]) (by decide)
  have htorn := width_append_exact (s := [0xE2, 0x82]) (t := [0xAC]) (by decide)
  refine ⟨(hwhole.1 ['€'] (by decide)).2, by decide, htorn.2.2.mp ?_⟩
  decide

end Text

end RecordLayout
