import RecordLayout.Proofs.Layout.CachedWidth
import RecordLayout.Proofs.Layout.Warm

/-!
# Queries do not change answers

Queries resolve references and note widths, so they change the layout.  What has been asked before
makes no difference for whether a schema has a width, which one, and which lines match, as long as a
walk that trusts no width is not too deep and no waiting option set is refused.  Both conditions are
needed: a width that is trusted takes a walk past the greatest depth, and a set that is refused is
refused only once.

## Main definitions

* `Session.chain`: a schema with schemas inside one another, one more than a walk can be inside of.

## Main results

* `Session.Reached.answers_agree`: **queries do not change widths and matches exactly where no walk
  is too deep**.
* `Session.answers_differ_chain`, `Session.answers_differ_refusing`: without the conditions they do.
-/

namespace RecordLayout

namespace Layout

open Build

variable {L : Layout}

/-- After any queries a width that is asked for is the one without trust. -/
theorem width_asked (hL : L.WellMade) (hcalm : L.Calm) {s : SchemaId}
    (hdeep : ¬ IsTooDeep (L.coldWidth s)) (queries : List Query) :
    (width s).outcome (L.asked queries) = L.coldWidth s
      ∧ (L.asked queries).coldWidth s = L.coldWidth s := by
  obtain ⟨hdevelops, hpreserves⟩ := asked_develops hL queries
  have hcold : (L.asked queries).coldWidth s = L.coldWidth s :=
    (hdevelops.follows hL).coldWidthWithin_eq hL.coherent maxDepth [] s
  rw [← hcold] at hdeep ⊢
  exact ⟨width_cold s (hdevelops.wellMade hL) (hpreserves _ calm_kept hcalm) hdeep, rfl⟩

/-- After any queries a line matches if it matched before. -/
theorem matchesLine_asked (hL : L.WellMade) (hcalm : L.Calm) {s : SchemaId}
    (hdeep : ¬ IsTooDeep (L.coldWidth s)) (queries : List Query) (line : Text) :
    (matchesLine s line).outcome (L.asked queries) = (matchesLine s line).outcome L := by
  have hdevelops := (asked_develops hL queries).1
  have hfits : (L.asked queries).fitsMeasured s line = L.fitsMeasured s line := by
    funext measured
    unfold fitsMeasured
    rw [((hdevelops.follows hL).schema s).condition]
  rw [outcome_matchesLine s line hL, outcome_matchesLine s line (hdevelops.wellMade hL), hfits,
    (width_asked hL hcalm hdeep queries).1, width_cold s hL hcalm hdeep]

end Layout

namespace Session

open Layout Build

/-- Queries do not change widths and matches, as long as a walk that trusts no width is not too
deep. -/
theorem agree_of_not_tooDeep {L : Layout} (hL : L.WellMade) (hcalm : L.Calm) {s : SchemaId}
    (hdeep : ¬ IsTooDeep (L.coldWidth s)) (queries : List Query) :
    (width s).outcome (L.asked queries) = (width s).outcome L
      ∧ (∀ line, (matchesLine s line).outcome (L.asked queries) = (matchesLine s line).outcome L)
      ∧ (∀ n, (width s).outcome (L.asked queries) = .ok n →
          (errors s).outcome (L.asked queries) = .ok [])
      ∧ ∀ line, (matchesLine s line).outcome (L.asked queries) = .ok true →
          (errors s).outcome (L.asked queries) = .ok [] := by
  obtain ⟨hdevelops, hpreserves⟩ := asked_develops hL queries
  have hmade := hdevelops.wellMade hL
  obtain ⟨hwidth, hcold⟩ := width_asked hL hcalm hdeep queries
  have hsound (n : UInt64) (hn : (width s).outcome (L.asked queries) = .ok n) :
      (errors s).outcome (L.asked queries) = .ok [] := by
    refine errors_of_cold hmade (hpreserves _ calm_kept hcalm) (n := n) ?_
    rw [hcold, ← hwidth, hn]
  refine ⟨by rw [hwidth, width_cold s hL hcalm hdeep],
    matchesLine_asked hL hcalm hdeep queries, hsound, fun line hline => ?_⟩
  -- a line fits only where a width is given
  rw [outcome_matchesLine s line hmade] at hline
  cases hn : (width s).outcome (L.asked queries) with
  | ok n => exact hsound n hn
  | error e =>
    obtain ⟨measured, hmeasured, hfits⟩ := Success.of_map hline
    rw [eq_of_attempted hmeasured, hn] at hfits
    exact absurd hfits nofun

/-- A schema that is too deep for a walk that trusts no width has a width after some queries,
although it has an error. -/
theorem differ_of_tooDeep {L : Layout} (hL : L.WellMade) {s : SchemaId} {o : Outline}
    (ho : L.Unfolds s o) (hdeep : IsTooDeep (L.coldWidth s)) :
    ∃ queries, (width s).outcome (L.asked queries) = .ok (UInt64.ofNat o.width)
      ∧ (errors s).outcome (L.asked queries) ≠ .ok [] := by
  refine ⟨o.insideOut.map .width, ho.width_insideOut hL, ?_⟩
  obtain ⟨hdevelops, -⟩ := asked_develops hL (o.insideOut.map .width)
  have hfollows := hdevelops.follows hL
  obtain ⟨p, hp, -⟩ := ho.follow hfollows
  refine hp.errors_ne_nil (hdevelops.wellMade hL) ?_
  rwa [show (L.asked _).coldWidth s = L.coldWidth s from
    hfollows.coldWidthWithin_eq hL.coherent maxDepth [] s]

/-- **Queries do not change widths and matches exactly where no walk is too deep.**  In a calm
layout, as long as a walk through a schema that trusts no width is not too deep, the width of the
schema, or the reason why there is none, and the lines that match it are the same after any queries,
and only a schema without errors has a width or matches a line.  If the walk is too deep and all
references have been resolved, there are queries after which the schema has a width, although it has
an error. -/
theorem Reached.answers_agree {S : Session} (hS : S.Reached Possible) (hcalm : S.layout.Calm)
    (s : SchemaId) :
    (¬ IsTooDeep (S.layout.coldWidth s) → ∀ queries,
      (width s).outcome (S.layout.asked queries) = (width s).outcome S.layout
        ∧ (∀ line, (matchesLine s line).outcome (S.layout.asked queries)
            = (matchesLine s line).outcome S.layout)
        ∧ (∀ n, (width s).outcome (S.layout.asked queries) = .ok n →
            (errors s).outcome (S.layout.asked queries) = .ok [])
        ∧ ∀ line, (matchesLine s line).outcome (S.layout.asked queries) = .ok true →
            (errors s).outcome (S.layout.asked queries) = .ok [])
      ∧ (IsTooDeep (S.layout.coldWidth s) → ∀ o, S.layout.Unfolds s o →
        ∃ queries, (width s).outcome (S.layout.asked queries) = .ok (UInt64.ofNat o.width)
          ∧ (errors s).outcome (S.layout.asked queries) ≠ .ok []) := by
  have hL := hS.sane.layout.wellMade
  exact ⟨fun hdeep queries => agree_of_not_tooDeep hL hcalm hdeep queries,
    fun hdeep o ho => differ_of_tooDeep hL ho hdeep⟩

/-- What is known of the column that was added inside does not depend on what was asked. -/
theorem answers_agree_grownInside :
    ¬ IsTooDeep (grownInside.layout.coldWidth 0)
      ∧ (width 0).outcome (grownInside.layout.asked [.width 1, .validate 0])
        = (width 0).outcome grownInside.layout := by
  have hreached : grownInside.Reached fun S m => S.Possible m ∧ m.Sound :=
    Reached.start.moves ⟨⟨trivial, trivial⟩, ⟨show 0 < List.length _ by decide, trivial⟩,
      ⟨⟨by decide, trivial⟩, trivial⟩, ⟨trivial, trivial⟩, ⟨trivial, trivial⟩,
      ⟨⟨by decide +kernel, trivial⟩, trivial⟩, trivial⟩
  have hdeep : ¬ IsTooDeep (grownInside.layout.coldWidth 0) := by
    rintro ⟨name, h⟩
    have hok : (grownInside.layout.coldWidth 0).isOk = true := by decide +kernel
    rw [h] at hok
    exact absurd hok (by simp [Except.isOk, Except.toBool])
  exact ⟨hdeep, (((hreached.mono fun _ _ h => h.1).answers_agree hreached.calm 0).1 hdeep
    [.width 1, .validate 0]).1⟩

/-- Schemas that are being built inside one another, the innermost with `n` around it. -/
def descent : Nat → Session
  | 0 => (⟨[], .empty⟩ : Session).step (.createSchema .detached "outer" .empty)
  | n + 1 => (descent n).step (.beginNested n "inner" .empty)

/-- The session after `n` builders have succeeded. -/
def ascent : Nat → Session → Session
  | 0, S => S
  | n + 1, S => ascent n (S.step (.finish true))

/-- A schema with as many schemas inside one another as a walk can be inside of. -/
def chain : Session := ascent maxDepth (descent maxDepth)

theorem reached_chain : chain.Reached Possible := by
  have hlength : ∀ n < maxDepth, n < (descent n).layout.schemas.length := by decide
  have hdescent (n : Nat) (hn : n ≤ maxDepth) : (descent n).Reached Possible := by
    induction n with
    | zero => exact .step .start trivial
    | succ n ih => exact .step (ih (Nat.le_of_succ_le hn)) (hlength n hn)
  have hascent (n : Nat) (S : Session) (hS : S.Reached Possible) :
      (ascent n S).Reached Possible := by
    induction n generalizing S with
    | zero => exact hS
    | succ n ih => exact ih _ (.step hS trivial)
  exact hascent _ _ (hdescent _ (Nat.le_refl _))

/-- The outermost schema has no width, and it gets one when that of the next schema is asked for
before; but it has an error still, and a line that did not match does. -/
theorem answers_differ_chain : chain.Reached Possible
    ∧ (∀ n, (width 0).outcome chain.layout ≠ .ok n)
    ∧ (width 0).outcome (chain.layout.asked [.width 1]) = .ok 0
    ∧ (matchesLine 0 "").outcome chain.layout = .ok false
    ∧ (matchesLine 0 "").outcome (chain.layout.asked [.width 1]) = .ok true
    ∧ (errors 0).outcome (chain.layout.asked [.width 1]) ≠ .ok [] := by
  refine ⟨reached_chain, fun n hn => ?_, ?_, ?_, ?_, fun hnone => ?_⟩
  · have hfails : ((width 0).outcome chain.layout).isOk = false := by decide +kernel
    rw [hn] at hfails
    exact absurd hfails (by simp [Except.isOk, Except.toBool])
  · exact outcome_eq_ok_iff.mpr (ok_of_gives (by decide +kernel))
  · exact outcome_eq_ok_iff.mpr (ok_of_gives (by decide +kernel))
  · exact outcome_eq_ok_iff.mpr (ok_of_gives (by decide +kernel))
  · have hsome : (match (errors 0).outcome (chain.layout.asked [.width 1]) with
        | .ok found => found.isEmpty
        | .error _ => true) = false := by decide +kernel
    rw [hnone] at hsome
    exact absurd hsome (by decide)

/-- A schema with two references to one target.  Options wait at the first of them; the second is
resolved before the target gets a schema that cannot take these options over. -/
def refusing : Session :=
  [ .addDefinition "catalog" .empty,
    .addSchema 0 "target" .empty,
    .addSchema 0 "outer" (NameMap.empty.insert OptionName.align (.text "left")),
    .declare 1 (.reference "target" "late" .empty),
    .propagate (NameMap.empty.insert OptionName.align (.int 5)) 1,
    .declare 1 (.reference "target" "early" .empty),
    .beginNested 0 "inner" .empty,
    .ask (.field 1 "early"),
    .finish true].foldl step ⟨[], .empty⟩

/-- The width is asked for twice; the options that wait are refused the first time only. -/
theorem answers_differ_refusing : refusing.Reached Possible
    ∧ (∀ n, (width 1).outcome refusing.layout ≠ .ok n)
    ∧ (width 1).outcome (refusing.layout.asked [.width 1]) = .ok 0 := by
  refine ⟨Reached.start.moves ?_, fun n hn => ?_, outcome_eq_ok_iff.mpr (ok_of_gives ?_)⟩
  · exact ⟨trivial, show 0 < List.length _ by decide,
      show 0 < List.length _ by decide,
      ⟨by decide, trivial⟩, show 1 < List.length _ by decide,
      ⟨by decide, trivial⟩, show 0 < List.length _ by decide, trivial, trivial,
      trivial⟩
  · have hfails : ((width 1).outcome refusing.layout).isOk = false := by decide +kernel
    rw [hn] at hfails
    exact absurd hfails (by simp [Except.isOk, Except.toBool])
  · decide +kernel

end Session

end RecordLayout
