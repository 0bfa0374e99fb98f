import RecordLayout.Proofs.Layout.Measure

/-!
# What queries leave

All that is asked of a layout changes it in three ways: a reference gets its target, it is noted why
there is none, and a width is noted.  So a property that each of these leaves, wherever it ends, is
left by every query.  No more has to be known of the layout, and the query need not succeed.

## Main definitions

* `Build.Leaves`: a computation that leaves a property of the layout, also where it fails.
* `Layout.Lasting`: a property that the three changes leave.

## Main results

* `Layout.Lasting.pervasive`: **a lasting property is left by all that is asked**.
-/

namespace RecordLayout

namespace Build

variable {I : Layout → Prop} {α : Type}

/-- A computation that leaves a property of the layout, however it ends. -/
def Leaves (I : Layout → Prop) (x : Build α) : Prop := ∀ L, I L → x.Ends L fun _ M => I M

theorem leaves_composes (I : Layout → Prop) : Composes (Leaves I) where
  done _ := fun _ hL => hL
  failed _ := fun _ hL => hL
  schema _ := fun _ hL => hL
  bind := by
    intro α β x f hx hf L hL
    refine ends_bind.mpr ((hx L hL).mono fun res M hM => ?_)
    cases res with
    | error e => exact hM
    | ok a => exact hf a M hM
  attempt hx := fun L hL => ends_attempt.mpr (hx L hL)
  of_eq := by
    intro α x h L hL
    obtain ⟨y, heq, hy⟩ := h L
    exact .of_eq heq (hy L hL)

end Build

namespace Layout

open Build

/-- A property that is left where a reference gets a target, where a search has failed, and where a
width is noted. -/
structure Lasting (I : Layout → Prop) : Prop where
  /-- A reference gets a target, and passes options on to it as far as none is refused. -/
  bound : ∀ s key target, Leaves I (bind s key target)
  /-- A search for a target has failed. -/
  refused : ∀ s key ref reason, Leaves I (refuse s key ref reason)
  /-- The width of a schema is noted. -/
  measured : ∀ s total generation, Leaves I (keepWidth s total generation)

theorem leaves_listedSchema (I : Layout → Prop) (s : SchemaId) (missing : Error) (name : Text) :
    Leaves I (listedSchema s missing name) :=
  (leaves_composes I).of_eq fun L =>
    ⟨_, listedSchema_eq L s missing name, (leaves_composes I).ofExcept _⟩

namespace Lasting

variable {I : Layout → Prop} (hI : Lasting I)

include hI

/-! ### Names -/

theorem resolveBy {search : Text → Build SchemaId} (hsearch : ∀ name, Leaves I (search name))
    (s : SchemaId) (key : Text) (ref : Reference) : Leaves I (resolveBy search s key ref) := by
  have h := leaves_composes I
  unfold Layout.resolveBy
  split
  · exact h.done _
  · refine h.bind (h.attempt (hsearch _)) fun res => ?_
    cases res with
    | ok t => exact h.bind (hI.bound s key t) fun _ => h.done t
    | error reason => exact hI.refused s key ref reason

theorem visibleFrom {above : Error → Text → Build SchemaId}
    (habove : ∀ missing name, Leaves I (above missing name)) (s : SchemaId) (name : Text) :
    Leaves I (visibleFrom above s name) := by
  have h := leaves_composes I
  refine h.of_eq fun L => ?_
  cases hfind : (L.schema s).find? name with
  | none =>
    exact ⟨above (.notVisible name (L.schema s).name) name,
      by simp only [Layout.visibleFrom, hfind], habove _ _⟩
  | some e =>
    cases e with
    | column c =>
      exact ⟨throw (.columnInstead name (L.schema s).name),
        by simp only [Layout.visibleFrom, hfind]; rfl, h.failed _⟩
    | nested t => exact ⟨pure t, by simp only [Layout.visibleFrom, hfind]; rfl, h.done t⟩
    | reference ref =>
      exact ⟨Layout.resolveBy (above (.noParent (L.schema s).name)) s name ref,
        by simp only [Layout.visibleFrom, hfind], hI.resolveBy (habove _) s name ref⟩

theorem visibleIn (around : List SchemaId) (s : SchemaId) (name : Text) :
    Leaves I (visibleIn around s name) := by
  induction around generalizing s name with
  | nil => exact hI.visibleFrom (leaves_listedSchema I s) s name
  | cons parent around ih => exact hI.visibleFrom (fun _ => ih parent) s name

theorem visibleSchema (s : SchemaId) (name : Text) : Leaves I (visibleSchema s name) :=
  (leaves_composes I).of_eq fun L =>
    ⟨Layout.visibleIn (L.schema s).ancestors s name, rfl, hI.visibleIn _ s name⟩

theorem visibleAbove (s : SchemaId) (name : Text) : Leaves I (visibleAbove s name) := by
  refine (leaves_composes I).of_eq fun L => ?_
  cases haround : (L.schema s).ancestors with
  | nil =>
    exact ⟨Layout.listedSchema s (.noParent (L.schema s).name) name,
      by simp only [Layout.visibleAbove, haround], leaves_listedSchema I s _ name⟩
  | cons parent around =>
    exact ⟨Layout.visibleIn around parent name,
      by simp only [Layout.visibleAbove, haround], hI.visibleIn around parent name⟩

theorem resolve (s : SchemaId) (key : Text) (ref : Reference) : Leaves I (resolve s key ref) :=
  hI.resolveBy (hI.visibleAbove s) s key ref

theorem field (s : SchemaId) (key : Text) : Leaves I (field s key) := by
  have h := leaves_composes I
  refine h.of_eq fun L => ?_
  cases hfind : (L.schema s).find? key with
  | none =>
    exact ⟨throw (.noField key (L.schema s).name), by simp only [Layout.field, hfind]; rfl,
      h.failed _⟩
  | some e =>
    cases e with
    | column c => exact ⟨pure (.column c), by simp only [Layout.field, hfind]; rfl, h.done _⟩
    | nested t => exact ⟨pure (.nested key t), by simp only [Layout.field, hfind]; rfl, h.done _⟩
    | reference ref =>
      exact ⟨Field.reference ref.storeName <$> Layout.resolve s key ref,
        by simp only [Layout.field, hfind], h.map (hI.resolve s key ref) _⟩

/-! ### All that is asked -/

theorem fieldWidth {descend : SchemaId → Build UInt64} (hdescend : ∀ t, Leaves I (descend t))
    (s : SchemaId) (key : Text) : Leaves I (fieldWidth descend s key) := by
  have h := leaves_composes I
  refine h.bind (hI.field s key) fun f => ?_
  cases f with
  | column c => exact h.done _
  | nested _ t => exact hdescend t
  | reference _ t => exact hdescend t

theorem widthWithin (room : Nat) (path : List SchemaId) (s : SchemaId) :
    Leaves I (widthWithin room path s) := by
  have h := leaves_composes I
  induction room generalizing path s with
  | zero =>
    exact fun L hL => ends_widthWithin (fun _ _ => hL) (fun _ _ => hL) (fun _ _ _ => hL)
      fun _ d hd => absurd hd (by omega)
  | succ room ih =>
    refine fun L hL => ends_widthWithin (fun _ _ => hL) (fun _ _ => hL) (fun _ _ _ => hL)
      fun _ d hd _ => ?_
    obtain rfl : room = d := by omega
    refine (h.foldlM (fun _ key => h.map (hI.fieldWidth (ih (s :: path)) s key) _) _ 0 L hL).mono
      fun res M hM => ?_
    cases res with
    | error e => exact hM
    | ok total => exact hI.measured s total L.generation M hM

theorem fieldErrors {descend : SchemaId → Build (List Error)} (hdescend : ∀ t, Leaves I (descend t))
    (s : SchemaId) (found : List Error) (key : Text) :
    Leaves I (fieldErrors descend s found key) := by
  intro L hL
  refine ends_fieldErrors (fun _ _ => hL) (fun t _ => hdescend t L hL) fun ref _ => ?_
  refine (hI.resolve s key ref L hL).mono fun res M hM => ?_
  cases res with
  | ok t => exact hdescend t M hM
  | error e => exact ⟨fun _ => hM, fun _ => hM⟩

/-- **A lasting property is left by all that is asked.** -/
theorem pervasive : Pervasive (Leaves I) where
  toComposes := leaves_composes I
  field := hI.field
  visibleSchema := hI.visibleSchema
  widthWithin := hI.widthWithin
  fieldErrors := hI.fieldErrors

end Lasting

end Layout

end RecordLayout
