import RecordLayout.Layout.Repeated
import RecordLayout.Proofs.Layout.CachedWidth
import RecordLayout.Proofs.Layout.Concluding
import RecordLayout.Proofs.Text.Filling
import RecordLayout.Proofs.Text.Seams
import RecordLayout.Proofs.Text.WellFormed

/-!
# Lines that fit

Whether a line fits is found from two numbers, and neither is exact: the width of a schema is a sum
of words, and the characters of a line are counted through a signed word.  The sum never hides a
line that is too wide, because a sum of words is at most the sum of the numbers.  The count does: a
line of `2 ^ 31` bytes and more counts as if it had no characters at all, so that it fits every
schema.  A character that is cut off counts once, whatever is left of it.

## Main results

* `Text.countFrom_cutOff`: what is left of a character counts once.
* `Layout.matchesRepeated_eq`: copies of a text fit as the text written out does.
* `Session.Reached.matchesLine_fits`: **a line that fits has no more characters than the schema is
  wide**, if it is short enough to be counted.
* `Session.matchesLine_tooWide`: lines that fit and are too wide.
-/

namespace RecordLayout

/-! ### White space at the end -/

namespace Text

/-- White space at the end of two texts goes into the first one if the second has nothing else. -/
theorem trimEnd_append (p : UInt8 → Bool) (s t : Text) :
    trimEnd p (s ++ t) = if trimEnd p t = [] then trimEnd p s else s ++ trimEnd p t := by
  unfold trimEnd
  rw [List.reverse_append, List.dropWhile_append]
  simp only [List.isEmpty_iff, List.reverse_eq_nil_iff]
  split
  · rfl
  · rw [List.reverse_append, List.reverse_reverse]

theorem trimEnd_copies_of_blank {p : UInt8 → Bool} {unit : Text} (h : trimEnd p unit = [])
    (n : Nat) : trimEnd p (unit.copies n) = [] := by
  induction n with
  | zero => rfl
  | succ n ih => rw [copies_succ', trimEnd_append, if_pos h, ih]

theorem trimEnd_copies_succ {p : UInt8 → Bool} {unit : Text} (h : trimEnd p unit ≠ []) (n : Nat) :
    trimEnd p (unit.copies (n + 1)) = unit.copies n ++ trimEnd p unit := by
  rw [copies_succ', trimEnd_append, if_neg h]

/-- Copies of a text without white space at its end have none at theirs. -/
theorem trimEnd_copies {p : UInt8 → Bool} {unit : Text} (hne : unit ≠ [])
    (h : trimEnd p unit = unit) (n : Nat) : trimEnd p (unit.copies n) = unit.copies n := by
  cases n with
  | zero => rfl
  | succ n => rw [trimEnd_copies_succ (h.symm ▸ hne), h, ← copies_succ']

namespace Repeated

theorem length_trimEnd (r : Repeated) : (r.text.trimEnd isWhite).length = r.trimmedLength := by
  unfold trimmedLength text
  cases r.count with
  | zero => rfl
  | succ n =>
    dsimp only
    split
    · next h => rw [trimEnd_copies_of_blank h, List.length_nil]
    · next h => rw [trimEnd_copies_succ h, List.length_append, length_copies]

/-- A text of which no bytes are looked at has no characters. -/
theorem width_of_word32 {t : Text} (h : word32 t.length = 0) : t.width = 0 := by
  unfold Text.width scanned
  rw [h]
  rfl

/-- **Copies have the characters of the text written out.** -/
theorem width_eq (r : Repeated) : r.width = r.text.width := by
  unfold width
  split
  · next h => exact (width_of_word32 (h ▸ congrArg word32 (length_copies _ _))).symm
  · rfl

theorem trimmedWidth_eq (r : Repeated) : r.trimmedWidth = (r.text.trimEnd isWhite).width := by
  unfold trimmedWidth
  split
  · next h => exact (width_of_word32 (r.length_trimEnd ▸ h)).symm
  · rfl

end Repeated

/-! ### Characters that are cut off -/

/-- What is left of a character counts once, however much that is. -/
theorem countFrom_cutOff {c : Char} {t : Text} (h : t <+: encode [c]) (hne : t ≠ []) :
    countFrom .nothing t = 1 := by
  obtain ⟨u, hu⟩ := h
  have hpos := countFrom_pos hne
  have hone : countFrom .nothing (t ++ u) = 1 := by rw [hu, countFrom_encode]; rfl
  rw [countFrom_append] at hone
  omega

end Text

namespace Layout

open Build

/-- **Copies of a text fit as the text written out does.** -/
theorem matchesRepeated_eq (s : SchemaId) (r : Text.Repeated) :
    matchesRepeated s r = matchesLine s r.text := by
  unfold matchesRepeated
  rw [r.trimmedWidth_eq]
  rfl

/-! ### What fits -/

/-- Asking whether a line fits measures the schema, and gives an answer unless this goes on for
ever. -/
theorem matchesLine_eq (s : SchemaId) (line : Text) (L : Layout) :
    matchesLine s line L = match width s L with
      | .ok total M => .ok ((line.trimEnd Text.isWhite).width ≤ total.toNat
          && (M.schema s).condition?.all (· line)) M
      | .error e M => if e.isEndless then .error e M else .ok false M := by
  show EStateM.bind (Build.attempt (width s)) _ L = _
  unfold EStateM.bind Build.attempt
  cases width s L with
  | ok total M => rfl
  | error e M =>
    dsimp only
    by_cases hendless : e.isEndless = true
    · rw [if_pos hendless, if_pos hendless]
    · rw [if_neg hendless, if_neg hendless]
      rfl

/-- There is no answer only where the schema is measured for ever. -/
theorem outcome_width_of_matchesLine {s : SchemaId} {line : Text} {L : Layout} {e : Error}
    (h : (matchesLine s line).outcome L = .error e) :
    (width s).outcome L = .error e ∧ e.isEndless = true := by
  unfold outcome at h ⊢
  rw [matchesLine_eq] at h
  cases hwidth : width s L with
  | ok total M =>
    rw [hwidth] at h
    exact absurd h nofun
  | error f M =>
    rw [hwidth] at h
    by_cases hendless : f.isEndless = true
    · simp only [if_pos hendless] at h
      obtain rfl := Except.error.inj h
      exact ⟨rfl, hendless⟩
    · simp only [if_neg hendless] at h
      exact absurd h nofun

/-- A line that is too long to be counted fits every schema that has a width and no further
condition. -/
theorem matchesLine_of_uncounted {s : SchemaId} {line : Text} {L M : Layout} {total : UInt64}
    (hwidth : width s L = .ok total M) (hcondition : (M.schema s).condition? = none)
    (hlong : 2 ^ 31 ≤ (line.trimEnd Text.isWhite).length)
    (hlt : (line.trimEnd Text.isWhite).length < 2 ^ 32) : matchesLine s line L = .ok true M := by
  rw [matchesLine_eq, hwidth]
  dsimp only
  rw [Text.width_uncounted hlong hlt, hcondition]
  rfl

end Layout

namespace Session

open Layout Build

/-- **Which lines fit a schema**, in any session and for a line of any size:

* There always is an answer, unless the schema is measured for ever; and it is not if no NaN has
  been propagated.
* If a line fits, then what is counted of it, without white space at its end, is at most the sum of
  the widths of all codecs of the schema, as a number; and all of it is counted if that are fewer
  than `2 ^ 31` bytes.
* From `2 ^ 31` bytes on, as long as a word holds their number, nothing is counted: the line fits
  every schema that has a width and no further condition. -/
theorem Reached.matchesLine_fits {S : Session} (hS : S.Reached Possible) (s : SchemaId)
    (line : Text) :
    (∀ e, (matchesLine s line).outcome S.layout = .error e →
        (width s).outcome S.layout = .error e ∧ e.isEndless = true)
      ∧ (S.Reached (fun T m => T.Possible m ∧ m.Proper) →
        ∃ fits, (matchesLine s line).outcome S.layout = .ok fits)
      ∧ ∀ fits M, matchesLine s line S.layout = .ok fits M →
        (fits = true → ∃ o, M.Unfolds s o ∧ (∀ p, M.Unfolds s p → p = o)
          ∧ (line.trimEnd Text.isWhite).width ≤ o.width
          ∧ ((line.trimEnd Text.isWhite).length < 2 ^ 31 →
            Text.countFrom .nothing (line.trimEnd Text.isWhite) ≤ o.width))
        ∧ ∀ total, width s S.layout = .ok total M → (M.schema s).condition? = none →
          2 ^ 31 ≤ (line.trimEnd Text.isWhite).length →
          (line.trimEnd Text.isWhite).length < 2 ^ 32 → fits = true := by
  refine ⟨fun e => outcome_width_of_matchesLine, fun hproper => ?_, fun fits M hmatches =>
    ⟨fun hfits => ?_, fun total hwidth hcondition hlong hlt => ?_⟩⟩
  · obtain ⟨-, -, hhalts⟩ := ends_iff.mp
      (concludes_matchesLine s line S.layout hS.sane.layout.wellMade hproper.selfsame)
    cases hres : (matchesLine s line).outcome S.layout with
    | ok fits => exact ⟨fits, rfl⟩
    | error e =>
      have hends := hhalts e hres
      exact absurd (outcome_width_of_matchesLine hres).2 (by simp [hends])
  · -- only a schema that has a width has lines that fit
    rw [matchesLine_eq] at hmatches
    cases hwidth : width s S.layout with
    | error e N =>
      simp only [hwidth] at hmatches
      split at hmatches
      · exact absurd hmatches nofun
      · exact absurd ((EStateM.Result.ok.inj hmatches).1.trans hfits) nofun
    | ok total N =>
      simp only [hwidth] at hmatches
      obtain ⟨rfl, rfl⟩ := EStateM.Result.ok.inj hmatches
      obtain ⟨o, ho, htotal, hunique⟩ := hS.width_eq_outline hwidth
      have hle : total.toNat ≤ o.width := htotal ▸ Nat.mod_le o.width (2 ^ 64)
      have hcount := Nat.le_trans (of_decide_eq_true (Bool.and_eq_true_iff.mp hfits).1) hle
      refine ⟨o, ho, hunique, hcount, fun hshort => ?_⟩
      rwa [Text.width_of_lt hshort] at hcount
  · have hlong := matchesLine_of_uncounted hwidth hcondition hlong hlt
    exact (EStateM.Result.ok.inj (hmatches.symm.trans hlong)).1

/-! ### A narrow schema -/

/-- A schema with a column of one character. -/
def narrow : Session :=
  [.createSchema .detached "row" .empty, .declare 0 (.column "a" 1 .empty)].foldl step ⟨[], .empty⟩

theorem reached_narrow : narrow.Reached Possible :=
  Reached.start.moves ⟨trivial, ⟨show 0 < List.length _ by decide, trivial⟩, trivial⟩

/-- Its layout after it has been measured. -/
def measuredNarrow : Layout := (width 0).after narrow.layout

theorem width_narrow : width 0 narrow.layout = .ok 1 measuredNarrow :=
  ok_of_gives (by decide +kernel)

/-- A letter fits it, with spaces behind it. -/
theorem matchesLine_fits_narrow : narrow.Reached Possible
    ∧ matchesLine 0 "a  " narrow.layout = .ok true measuredNarrow
    ∧ ∃ o, measuredNarrow.Unfolds 0 o
      ∧ Text.countFrom .nothing ((Text.ofString "a  ").trimEnd Text.isWhite) ≤ o.width := by
  obtain ⟨-, -, hanswered⟩ := reached_narrow.matchesLine_fits 0 "a  "
  have hok : matchesLine 0 "a  " narrow.layout = .ok true measuredNarrow := by
    rw [matchesLine_eq, width_narrow]
    exact congrArg (EStateM.Result.ok · measuredNarrow) (by decide +kernel)
  obtain ⟨o, ho, -, -, hcount⟩ := (hanswered true measuredNarrow hok).1 rfl
  exact ⟨reached_narrow, hok, o, ho, hcount (by decide)⟩

/-- Whether a field is a column of one character. -/
def isNarrowField : Option Field → Bool
  | some (.column codec) => codec.width == 1
  | _ => false

theorem unfolds_measuredNarrow :
    ∃ codec : Codec, codec.width = 1 ∧ measuredNarrow.Unfolds 0 (.column codec .done) := by
  have hcheck : isNarrowField (measuredNarrow.known? 0 "a") = true := by decide +kernel
  have hfields : (measuredNarrow.schema 0).fields = [Text.ofString "a"] := by decide +kernel
  unfold isNarrowField at hcheck
  split at hcheck
  · next codec hcodec =>
    refine ⟨codec, eq_of_beq hcheck, ?_⟩
    unfold Unfolds
    rw [hfields]
    exact .column hcodec (.nil 0)
  · exact absurd hcheck (by simp)

/-- A line of letters that is too long to be counted. -/
def letters : Text := Text.copies "a" (2 ^ 31)

theorem trimEnd_letters : letters.trimEnd Text.isWhite = letters :=
  Text.trimEnd_copies (by decide) (by decide) _

theorem length_letters : letters.length = 2 ^ 31 := (Text.length_copies _ _).trans (Nat.mul_one _)

theorem matchesLine_letters : matchesLine 0 letters narrow.layout = .ok true measuredNarrow := by
  refine matchesLine_of_uncounted width_narrow
    (Option.isNone_iff_eq_none.mp (by decide +kernel)) ?_ ?_
  · rw [trimEnd_letters, length_letters]
  · rw [trimEnd_letters, length_letters]
    decide

/-- The beginning of a character of three bytes, without the last one. -/
def cutOff : Text := [0xE2, 0x82]

theorem width_cutOff : (cutOff.trimEnd Text.isWhite).width = 1 := by
  rw [show cutOff.trimEnd Text.isWhite = cutOff by decide, Text.width_of_lt (by decide)]
  exact Text.countFrom_cutOff (c := '€') (by decide) (by decide)

theorem matchesLine_cutOff : matchesLine 0 cutOff narrow.layout = .ok true measuredNarrow := by
  rw [matchesLine_eq, width_narrow]
  dsimp only
  rw [width_cutOff]
  exact congrArg (EStateM.Result.ok · measuredNarrow) (by decide +kernel)

/-- **Lines that fit and are too wide**, where the schema has room for one character:

* A line of `2 ^ 31` letters.
* A line of two bytes, neither of which is a character, nor are both together. -/
theorem matchesLine_tooWide : narrow.Reached Possible
    ∧ (∃ o, measuredNarrow.Unfolds 0 o ∧ o.width = 1)
    ∧ (matchesLine 0 letters narrow.layout = .ok true measuredNarrow
      ∧ Text.countFrom .nothing (letters.trimEnd Text.isWhite) = 2 ^ 31)
    ∧ (matchesLine 0 cutOff narrow.layout = .ok true measuredNarrow
      ∧ ¬ Text.WellFormed [0xE2] ∧ ¬ Text.WellFormed [0x82] ∧ ¬ Text.WellFormed [0xE2, 0x82]) := by
  obtain ⟨codec, hone, hunfolds⟩ := unfolds_measuredNarrow
  have hcharacter : Text.IsCharacter "a" :=
    show Text.countFrom .nothing "a" = 1 by decide
  -- a byte that is owed neither begins a well-formed text nor comes after one
  have howed : ¬ Text.Apart [0xE2] [0x82] := fun h => absurd (h 0x82 rfl) (by decide)
  have howed' : ¬ Text.Apart [0xE2, 0x82] [0x82] := fun h => absurd (h 0x82 rfl) (by decide)
  refine ⟨reached_narrow, ⟨_, hunfolds, ?_⟩, ⟨matchesLine_letters, ?_⟩, matchesLine_cutOff,
    fun h => howed (h.apart_right _), fun h => howed (h.apart_left _),
    fun h => howed' (h.apart_right _)⟩
  · show codec.width.toNat + 0 = 1
    rw [hone]
    rfl
  · rw [trimEnd_letters]
    exact hcharacter.countFrom_copies _

end Session

end RecordLayout
