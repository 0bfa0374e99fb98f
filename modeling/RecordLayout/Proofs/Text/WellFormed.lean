import RecordLayout.Proofs.Text.Counting
import RecordLayout.Text.Padding

/-!
# Well-formed UTF-8

A text is well-formed when it is the encoding of a list of characters.  On such texts the counting
of bytes by what is owed is exact: every encoding of a character counts once, nothing is owed after
it, and it begins with a byte that is never owed.  So a well-formed text is apart from every text
before and after it.

## Main definitions

* `Text.encode`: the UTF-8 bytes of a list of characters.
* `Text.WellFormed`: a text that encodes characters.

## Main results

* `Text.countFrom_encode`: a well-formed text counts its characters.
* `Text.WellFormed.apart_right`, `Text.WellFormed.apart_left`.
* `Text.wellFormed_of_ascii`: texts of ASCII bytes are well-formed.
-/

namespace RecordLayout

namespace Text

open Owed

/-- The UTF-8 bytes of a list of characters. -/
def encode (cs : List Char) : Text := cs.flatMap String.utf8EncodeChar

/-- A text that encodes characters. -/
def WellFormed (t : Text) : Prop := ∃ cs : List Char, t = encode cs

@[simp] theorem encode_cons (c : Char) (cs : List Char) :
    encode (c :: cs) = String.utf8EncodeChar c ++ encode cs := rfl

theorem encode_append (cs ds : List Char) : encode (cs ++ ds) = encode cs ++ encode ds :=
  List.flatMap_append

theorem wellFormed_encode (cs : List Char) : WellFormed (encode cs) := ⟨cs, rfl⟩

theorem wellFormed_nil : WellFormed [] := ⟨[], rfl⟩

theorem WellFormed.append {s t : Text} (hs : WellFormed s) (ht : WellFormed t) :
    WellFormed (s ++ t) := by
  obtain ⟨cs, rfl⟩ := hs
  obtain ⟨ds, rfl⟩ := ht
  exact ⟨cs ++ ds, (encode_append cs ds).symm⟩

theorem WellFormed.copies {t : Text} (h : WellFormed t) (n : Nat) : WellFormed (t.copies n) := by
  induction n with
  | zero => exact wellFormed_nil
  | succ n ih => rw [copies_succ]; exact h.append ih

/-! ### One character -/

/-- Comparisons of a byte are comparisons of its number. -/
theorem afterLead_ofNat {n : Nat} (h : n < 256) :
    afterLead (UInt8.ofNat n)
      = if n < 0xC2 then nothing
        else if n < 0xE0 then ⟨1, 0x80, 0xBF⟩
        else if n = 0xE0 then ⟨2, 0xA0, 0xBF⟩
        else if n = 0xED then ⟨2, 0x80, 0x9F⟩
        else if n < 0xF0 then ⟨2, 0x80, 0xBF⟩
        else if n = 0xF0 then ⟨3, 0x90, 0xBF⟩
        else if n < 0xF4 then ⟨3, 0x80, 0xBF⟩
        else if n = 0xF4 then ⟨3, 0x80, 0x8F⟩
        else nothing := by
  have hn : (UInt8.ofNat n).toNat = n := UInt8.toNat_ofNat_of_lt' h
  have heq (m : Nat) (hm : m < 256) : UInt8.ofNat n = UInt8.ofNat m ↔ n = m := by
    rw [← UInt8.toNat_inj, hn, UInt8.toNat_ofNat_of_lt' hm]
  have he0 : UInt8.ofNat n = 0xE0 ↔ n = 0xE0 := heq 0xE0 (by omega)
  have hed : UInt8.ofNat n = 0xED ↔ n = 0xED := heq 0xED (by omega)
  have hf0 : UInt8.ofNat n = 0xF0 ↔ n = 0xF0 := heq 0xF0 (by omega)
  have hf4 : UInt8.ofNat n = 0xF4 ↔ n = 0xF4 := heq 0xF4 (by omega)
  unfold afterLead
  simp only [UInt8.lt_iff_toNat_lt, hn, he0, hed, hf0, hf4]
  rfl

/-- A byte lies between two others as its number does. -/
theorem between_ofNat {n : Nat} {low high : UInt8} (h : n < 256) (hlow : low.toNat ≤ n)
    (hhigh : n ≤ high.toNat) : low ≤ UInt8.ofNat n ∧ UInt8.ofNat n ≤ high := by
  rw [UInt8.le_iff_toNat_le, UInt8.le_iff_toNat_le, UInt8.toNat_ofNat_of_lt' h]
  exact ⟨hlow, hhigh⟩

theorem trail_ofNat (n : Nat) :
    (0x80 : UInt8) ≤ UInt8.ofNat (n % 0x40 + 0x80) ∧ UInt8.ofNat (n % 0x40 + 0x80) ≤ 0xBF :=
  between_ofNat (by omega) (show 0x80 ≤ _ by omega) (show _ ≤ 0xBF by omega)

/-- A byte that is owed is taken, and one byte less is owed after it. -/
theorem accepts_of_between {k : Nat} {low high b : UInt8} (h : low ≤ b ∧ b ≤ high) :
    (⟨k + 1, low, high⟩ : Owed).accepts b = true
      ∧ (⟨k + 1, low, high⟩ : Owed).next b = ⟨k, 0x80, 0xBF⟩ := by
  have haccepts : (⟨k + 1, low, high⟩ : Owed).accepts b = true := by
    unfold accepts
    rw [decide_eq_true h.1, decide_eq_true h.2]
    rfl
  refine ⟨haccepts, ?_⟩
  unfold next
  rw [if_pos haccepts]
  rfl

/-- As many trail bytes as are owed are taken, and begin no character. -/
theorem trails_taken {ts : Text} (h : ∀ b ∈ ts, 0x80 ≤ b ∧ b ≤ 0xBF) :
    (⟨ts.length, 0x80, 0xBF⟩ : Owed).afterText ts = nothing
      ∧ countFrom ⟨ts.length, 0x80, 0xBF⟩ ts = 0 := by
  induction ts with
  | nil => exact ⟨rfl, rfl⟩
  | cons b ts ih =>
    obtain ⟨haccepts, hnext⟩ := accepts_of_between (k := ts.length) (h b List.mem_cons_self)
    obtain ⟨hafter, hcount⟩ := ih fun c hc => h c (List.mem_cons_of_mem b hc)
    rw [List.length_cons, afterText_cons, countFrom_cons, hnext, if_pos haccepts, hcount]
    exact ⟨hafter, rfl⟩

/-- A lead byte with all that it owes is one character. -/
theorem lead_counts_once {a b low high : UInt8} {ts : Text}
    (ha : afterLead a = ⟨ts.length + 1, low, high⟩) (hb : low ≤ b ∧ b ≤ high)
    (hts : ∀ c ∈ ts, 0x80 ≤ c ∧ c ≤ 0xBF) :
    nothing.afterText (a :: b :: ts) = nothing ∧ countFrom nothing (a :: b :: ts) = 1 := by
  obtain ⟨haccepts, hnext⟩ := accepts_of_between (k := ts.length) hb
  obtain ⟨hafter, hcount⟩ := trails_taken hts
  rw [afterText_cons, countFrom_cons, next_nothing, accepts_nothing, ha, afterText_cons,
    countFrom_cons, hnext, if_pos haccepts, hcount]
  exact ⟨hafter, rfl⟩

/-- The second byte of a character of three has a narrower range after E0 and ED. -/
theorem second_of_three {v : Nat} (hlow : 0x800 ≤ v) (hhigh : v < 0x10000)
    (hvalid : v < 0xD800 ∨ 0xDFFF < v) : ∃ low high : UInt8,
      afterLead (UInt8.ofNat (v / 4096 % 0x10 + 0xE0)) = ⟨2, low, high⟩
        ∧ low.toNat ≤ v / 64 % 0x40 + 0x80 ∧ v / 64 % 0x40 + 0x80 ≤ high.toNat := by
  rw [afterLead_ofNat (by omega), if_neg (by omega), if_neg (by omega)]
  split
  · exact ⟨0xA0, 0xBF, rfl, show 0xA0 ≤ _ by omega, show _ ≤ 0xBF by omega⟩
  split
  · exact ⟨0x80, 0x9F, rfl, show 0x80 ≤ _ by omega, show _ ≤ 0x9F by omega⟩
  · rw [if_pos (by omega)]
    exact ⟨0x80, 0xBF, rfl, show 0x80 ≤ _ by omega, show _ ≤ 0xBF by omega⟩

/-- That of a character of four has one after F0 and F4. -/
theorem second_of_four {v : Nat} (hlow : 0x10000 ≤ v) (hhigh : v < 0x110000) :
    ∃ low high : UInt8,
      afterLead (UInt8.ofNat (v / 262144 % 0x08 + 0xF0)) = ⟨3, low, high⟩
        ∧ low.toNat ≤ v / 4096 % 0x40 + 0x80 ∧ v / 4096 % 0x40 + 0x80 ≤ high.toNat := by
  rw [afterLead_ofNat (by omega), if_neg (by omega), if_neg (by omega), if_neg (by omega),
    if_neg (by omega), if_neg (by omega)]
  split
  · exact ⟨0x90, 0xBF, rfl, show 0x90 ≤ _ by omega, show _ ≤ 0xBF by omega⟩
  split
  · exact ⟨0x80, 0xBF, rfl, show 0x80 ≤ _ by omega, show _ ≤ 0xBF by omega⟩
  · rw [if_pos (by omega)]
    exact ⟨0x80, 0x8F, rfl, show 0x80 ≤ _ by omega, show _ ≤ 0x8F by omega⟩

/-- After the encoding of a character nothing is owed, and it counts once. -/
theorem encodeChar_counts_once (c : Char) :
    nothing.afterText (String.utf8EncodeChar c) = nothing
      ∧ countFrom nothing (String.utf8EncodeChar c) = 1 := by
  obtain ⟨v, hv⟩ : ∃ v, v = c.val.toNat := ⟨_, rfl⟩
  have hvalid : v < 0xD800 ∨ 0xDFFF < v ∧ v < 0x110000 := hv ▸ c.valid
  unfold String.utf8EncodeChar
  simp only [← hv]
  split
  · have hlead : afterLead (UInt8.ofNat v) = nothing := by
      rw [afterLead_ofNat (by omega), if_pos (by omega)]
    rw [afterText_cons, countFrom_cons, next_nothing, accepts_nothing, hlead]
    exact ⟨rfl, rfl⟩
  split
  · refine @lead_counts_once _ _ 0x80 0xBF _ ?_ (trail_ofNat v) (by simp)
    rw [afterLead_ofNat (by omega), if_neg (by omega), if_pos (by omega)]
    rfl
  split
  · obtain ⟨low, high, hlead, hlow, hhigh⟩ :=
      second_of_three (v := v) (by omega) (by omega) (by omega)
    refine lead_counts_once hlead (between_ofNat (by omega) hlow hhigh) fun c hc => ?_
    rw [List.mem_singleton.mp hc]
    exact trail_ofNat v
  · obtain ⟨low, high, hlead, hlow, hhigh⟩ := second_of_four (v := v) (by omega) (by omega)
    refine lead_counts_once hlead (between_ofNat (by omega) hlow hhigh) fun c hc => ?_
    rcases List.mem_cons.mp hc with rfl | hc
    · exact trail_ofNat (v / 64)
    · rw [List.mem_singleton.mp hc]
      exact trail_ofNat v

/-- The first byte of a character is no byte that may be owed. -/
theorem head_encodeChar (c : Char) : ∃ b t, String.utf8EncodeChar c = b :: t
    ∧ (b < 0x80 ∨ 0xBF < b) := by
  obtain ⟨v, hv⟩ : ∃ v, v = c.val.toNat := ⟨_, rfl⟩
  have hbyte (n : Nat) (hn : n < 256) (h : n < 0x80 ∨ 0xBF < n) :
      UInt8.ofNat n < 0x80 ∨ 0xBF < UInt8.ofNat n := by
    rw [UInt8.lt_iff_toNat_lt, UInt8.lt_iff_toNat_lt, UInt8.toNat_ofNat_of_lt' hn]
    exact h
  unfold String.utf8EncodeChar
  simp only [← hv]
  split
  · exact ⟨_, _, rfl, hbyte _ (by omega) (by omega)⟩
  split
  · exact ⟨_, _, rfl, hbyte _ (by omega) (by omega)⟩
  split
  · exact ⟨_, _, rfl, hbyte _ (by omega) (by omega)⟩
  · exact ⟨_, _, rfl, hbyte _ (by omega) (by omega)⟩

theorem length_encodeChar_le (c : Char) : (String.utf8EncodeChar c).length ≤ 4 := by
  rw [String.length_utf8EncodeChar]
  exact c.utf8Size_le_four

/-! ### Many characters -/

theorem afterText_encode (cs : List Char) : nothing.afterText (encode cs) = nothing := by
  induction cs with
  | nil => rfl
  | cons c cs ih => rw [encode_cons, afterText_append, (encodeChar_counts_once c).1, ih]

/-- **A well-formed text counts its characters.** -/
theorem countFrom_encode (cs : List Char) : countFrom nothing (encode cs) = cs.length := by
  induction cs with
  | nil => rfl
  | cons c cs ih =>
    rw [encode_cons, countFrom_append, (encodeChar_counts_once c).1, (encodeChar_counts_once c).2,
      ih, List.length_cons, Nat.add_comm]

theorem length_encode_le (cs : List Char) : (encode cs).length ≤ 4 * cs.length := by
  induction cs with
  | nil => exact Nat.le_refl 0
  | cons c cs ih =>
    have hc := length_encodeChar_le c
    rw [encode_cons, List.length_append, List.length_cons]
    omega

/-- The bytes of a well-formed text are at most four for each character. -/
theorem WellFormed.length_le {t : Text} (h : WellFormed t) :
    t.length ≤ 4 * countFrom nothing t := by
  obtain ⟨cs, rfl⟩ := h
  rw [countFrom_encode]
  exact length_encode_le cs

/-- Nothing goes on from a well-formed text into what follows. -/
theorem WellFormed.apart_right {s : Text} (h : WellFormed s) (t : Text) : Apart s t := by
  obtain ⟨cs, rfl⟩ := h
  unfold Apart
  rw [afterText_encode]
  exact nothing_endsBefore t

/-- What may be owed after some text is a byte that goes on with a character. -/
theorem afterText_bounds {o : Owed} (ho : 0x80 ≤ o.least ∧ o.greatest ≤ 0xBF) (t : Text) :
    0x80 ≤ (o.afterText t).least ∧ (o.afterText t).greatest ≤ 0xBF := by
  induction t generalizing o with
  | nil => exact ho
  | cons b t ih =>
    rw [afterText_cons]
    refine ih ?_
    unfold next
    split
    · exact ⟨UInt8.le_refl _, UInt8.le_refl _⟩
    · unfold afterLead
      repeat' split
      all_goals exact ⟨by decide, by decide⟩

/-- Nothing goes on into a well-formed text from what is before it. -/
theorem WellFormed.apart_left {t : Text} (h : WellFormed t) (s : Text) : Apart s t := by
  obtain ⟨cs, rfl⟩ := h
  cases cs with
  | nil => exact apart_nil_right s
  | cons c cs =>
    obtain ⟨b, u, hc, hb⟩ := head_encodeChar c
    obtain ⟨hleast, hgreatest⟩ := afterText_bounds (o := nothing) ⟨by decide, by decide⟩ s
    rw [encode_cons, hc, List.cons_append]
    refine endsBefore_cons.mpr ?_
    unfold accepts
    rcases hb with hb | hb
    · have hnot : ¬ (nothing.afterText s).least ≤ b := fun hle =>
        UInt8.not_le.mpr hb (UInt8.le_trans hleast hle)
      rw [decide_eq_false hnot, Bool.and_false, Bool.false_and]
    · have hnot : ¬ b ≤ (nothing.afterText s).greatest := fun hle =>
        UInt8.not_le.mpr hb (UInt8.le_trans hle hgreatest)
      rw [decide_eq_false hnot, Bool.and_false]

theorem width_encode {cs : List Char} (h : (encode cs).length < 2 ^ 31) :
    (encode cs).width = cs.length := by
  rw [width_of_lt h, countFrom_encode]

/-! ### Cuts -/

theorem offsetFrom_encode (cs ds : List Char) :
    offsetFrom nothing cs.length (encode (cs ++ ds)) = (encode cs).length := by
  have happart : (nothing.afterText (encode cs)).EndsBefore (encode ds) :=
    (wellFormed_encode cs).apart_right _
  have hoffset := offsetFrom_append happart 0
  rw [countFrom_encode, offsetFrom_zero (nothing_endsBefore _)] at hoffset
  rw [encode_append]
  exact hoffset

/-- The first characters of a text that is well-formed as far as they go. -/
theorem takeFront_wellFormed {t : Text} (h : WellFormed t) {n : Nat} (hn : n < t.width) :
    WellFormed (t.takeFront n) ∧ countFrom nothing (t.takeFront n) = n := by
  obtain ⟨cs, rfl⟩ := h
  have hscanned : encode cs = scanned (encode cs) ++ (encode cs).drop (word32 (encode cs).length) :=
    (List.take_append_drop _ _).symm
  -- the cut is where it would be if the whole text were looked at
  have hoffset : (encode cs).offset n = offsetFrom nothing n (encode cs) := by
    conv => rhs; rw [hscanned]
    exact (offsetFrom_append_of_lt _ hn).symm
  have hle : n ≤ cs.length := by
    have hcount := congrArg (countFrom nothing) hscanned
    rw [countFrom_encode, countFrom_append] at hcount
    unfold width at hn
    omega
  have hsplit : encode cs = encode (cs.take n) ++ encode (cs.drop n) := by
    rw [← encode_append, List.take_append_drop]
  have hcut := offsetFrom_encode (cs.take n) (cs.drop n)
  rw [List.take_append_drop, List.length_take, Nat.min_eq_left hle] at hcut
  have htake : (encode cs).takeFront n = encode (cs.take n) := by
    unfold takeFront
    rw [hoffset, hcut, hsplit, List.take_left]
  rw [htake, countFrom_encode, List.length_take, Nat.min_eq_left hle]
  exact ⟨wellFormed_encode _, rfl⟩

/-- The last characters of a well-formed text. -/
theorem takeBack_wellFormed {t : Text} (h : WellFormed t) (hlen : t.length < 2 ^ 31) {n : Nat}
    (hn : n < t.width) : WellFormed (t.takeBack n) ∧ countFrom nothing (t.takeBack n) = n := by
  obtain ⟨cs, rfl⟩ := h
  rw [width_encode hlen] at hn
  have hcut := offsetFrom_encode (cs.take (cs.length - n)) (cs.drop (cs.length - n))
  rw [List.take_append_drop, List.length_take, Nat.min_eq_left (Nat.sub_le _ _)] at hcut
  have hsplit : encode cs
      = encode (cs.take (cs.length - n)) ++ encode (cs.drop (cs.length - n)) := by
    rw [← encode_append, List.take_append_drop]
  have hback : (encode cs).takeBack n = encode (cs.drop (cs.length - n)) := by
    unfold takeBack
    rw [width_encode hlen, if_neg (by omega), offset_of_lt hlen, hcut]
    conv => lhs; rw [hsplit]
    rw [List.drop_left]
  rw [hback, countFrom_encode, List.length_drop]
  exact ⟨wellFormed_encode _, by omega⟩

/-! ### ASCII -/

/-- **Texts of ASCII bytes are well-formed.** -/
theorem wellFormed_of_ascii {t : Text} (h : ∀ b ∈ t, b < 0x80) : WellFormed t := by
  induction t with
  | nil => exact wellFormed_nil
  | cons b t ih =>
    obtain ⟨cs, hcs⟩ := ih fun c hc => h c (List.mem_cons_of_mem b hc)
    have hb : b.toNat < 0x80 := UInt8.lt_iff_toNat_lt.mp (h b List.mem_cons_self)
    have hval : (Char.ofUInt8 b).val.toNat = b.toNat := UInt8.toNat_toUInt32 b
    refine ⟨Char.ofUInt8 b :: cs, ?_⟩
    rw [encode_cons, ← hcs]
    unfold String.utf8EncodeChar
    dsimp only
    rw [hval, if_pos (by omega), UInt8.ofNat_toNat]
    rfl

end Text

end RecordLayout
