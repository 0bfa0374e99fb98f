import RecordLayout.Proofs.Layout.Refilled
import RecordLayout.Proofs.Text.Windows

/-!
# Reading from a position

A schema that has been validated reads one slot after the other, from the position where it starts
to the end of its width, also where slots are inside other schemas.  So nothing but the window of
its width matters: the record, or the error, is the one that is read from that window alone.  The
bytes of the line are arbitrary, and it may end anywhere.

## Main results

* `Outline.items_window`: what an outline reads from a window is what it reads from the line.
* `Session.Reached.parse_window`: **reading depends on the window of the schema only**.
-/

namespace RecordLayout

open Text Layout

/-- **What an outline reads from a window is what it reads from the line**, if it lies inside. -/
theorem Outline.items_window (o : Outline) {line : Text} (hlen : line.length < 2 ^ 31)
    {first count start : Nat} (h : start + o.width ≤ count) :
    o.items (line.window first count) start = o.items line (first + start) := by
  induction o generalizing start with
  | done => rw [items_done, items_done]
  | column c rest ih =>
    rw [width] at h
    have hslot := window_window hlen (show start + c.width.toNat ≤ count by omega) first
    have hrest := ih (show start + c.width.toNat + rest.width ≤ count by omega)
    rw [items_column, items_column, hslot, hrest, Nat.add_assoc]
  | branch key t inside inner rest ihinner ihrest =>
    rw [width] at h
    have hinner := ihinner (show start + inner.width ≤ count by omega)
    have hrest := ihrest (show start + inner.width + rest.width ≤ count by omega)
    rw [items_branch, items_branch, hinner, hrest, Nat.add_assoc]

namespace Layout.Settled

variable {L : Layout} {s : SchemaId} {o : Outline}

/-- A settled schema reads from a position what it reads from the window there. -/
theorem parse_eq_window (h : L.Settled s o) {line : Text} (hlen : line.length < 2 ^ 31)
    {start : UInt64} (hfits : start.toNat + o.width < 2 ^ 64) :
    parse s line start L = parse s (line.window start.toNat o.width) 0 L := by
  have hzero : (0 : UInt64).toNat = 0 := rfl
  have hwindow : o.items (line.window start.toNat o.width) 0 = o.items line (start.toNat + 0) :=
    o.items_window hlen (Nat.le_of_eq (Nat.zero_add o.width))
  have hline := h.reports_parse line hfits
  have hslice := h.reports_parse (line.window start.toNat o.width)
    (show (0 : UInt64).toNat + o.width < 2 ^ 64 by omega)
  rw [hzero, hwindow, Nat.add_zero] at hslice
  exact hline.trans hslice.symm

end Layout.Settled

namespace Session

/-- **Reading depends on the window of the schema only.**  A schema that has been validated has a
width, and what it gives for a line from a position, a record or an error, is what it gives for the
window of that width at that position; so lines with the same window there are read alike, whatever
is before and behind it. -/
theorem Reached.parse_window {S : Session} (hS : S.Reached Possible) {s : SchemaId}
    (hs : s < S.layout.schemas.length) {M N : Layout} (hvalid : validate s S.layout = .ok () M)
    (hMN : M.Develops N) :
    ∃ o, N.Unfolds s o ∧ ∀ (line : Text) (start : UInt64), line.length < 2 ^ 31 →
      start.toNat + o.width < 2 ^ 64 →
        ∃ total : UInt64, width s N = .ok total N ∧ total.toNat = o.width
          ∧ parse s line start N = parse s (line.window start.toNat total.toNat) 0 N
          ∧ ∀ (line' : Text) (start' : UInt64), line'.length < 2 ^ 31 →
            start'.toNat + o.width < 2 ^ 64 →
            line'.window start'.toNat total.toNat = line.window start.toNat total.toNat →
            parse s line' start' N = parse s line start N := by
  obtain ⟨-, p, hp⟩ := validate_ok hS.sane.layout.wellMade hs hvalid
  obtain ⟨o, ho, -⟩ := hp.develop hMN
  refine ⟨o, ho.unfolds, fun line start hlen hfits => ?_⟩
  have htotal : (UInt64.ofNat o.width).toNat = o.width :=
    UInt64.toNat_ofNat_of_lt' (show o.width < 2 ^ 64 by omega)
  refine ⟨UInt64.ofNat o.width, ho.yields_width, htotal, ?_, ?_⟩
  · rw [htotal]
    exact ho.parse_eq_window hlen hfits
  · intro line' start' hlen' hfits' hsame
    rw [htotal] at hsame
    rw [ho.parse_eq_window hlen' hfits', ho.parse_eq_window hlen hfits, hsame]

/-- The rough line is read from behind bytes that are no characters as it is read alone. -/
theorem parse_window_grownInside : validate 0 grownInside.layout = .ok () validatedInside
    ∧ parse 0 ([0xE2, 0x80, 0xFF] ++ roughLine ++ ofString "more") 2 validatedInside
      = parse 0 roughLine 0 validatedInside := by
  refine ⟨validate_grownInside, ?_⟩
  obtain ⟨first, second, hfirst, hsecond, hexpected⟩ := unfolds_validatedInside
  have hpossible : grownInside.Reached Possible :=
    Reached.mono (fun _ _ h => h.1) orderly_grownInside
  obtain ⟨o, ho, hparse⟩ := hpossible.parse_window (s := 0)
    (show 0 < List.length _ by decide +kernel) validate_grownInside (.refl _)
  obtain rfl := UnfoldsTo.unique ho hexpected
  have hwidth : first.width.toNat + (second.width.toNat + 0) + 0 = 7 := by
    rw [hfirst.2.1, hsecond.2.1]
    decide
  have hfits : 2 + (first.width.toNat + (second.width.toNat + 0) + 0) < 2 ^ 64 := by
    rw [hwidth]
    decide
  obtain ⟨total, -, htotal, hsame, -⟩ :=
    hparse ([0xE2, 0x80, 0xFF] ++ roughLine ++ ofString "more") 2 (by decide) hfits
  rw [hsame, htotal]
  show parse 0 (window _ 2 (first.width.toNat + (second.width.toNat + 0) + 0)) 0 validatedInside = _
  rw [hwidth, show window ([0xE2, 0x80, 0xFF] ++ roughLine ++ ofString "more") 2 7 = roughLine by
    decide]

end Session

end RecordLayout
