import RecordLayout.Proofs.Layout.Session

/-!
# Two layouts measured at once

Whatever is looked up, no width is noted on the way: only the walk that measures notes widths.  So
in two layouts whose keys stand for schemas at the same places and for leaves of the same widths,
and in which the same widths are known, every walk comes to the same result or to the same error.

## Main definitions

* `Build.Abreast`: runs that have come to the same result.
* `Layout.Unweighed`, `Build.Weightless`: no width has been noted.
* `Field.extent`: what the width of a field is taken from.
* `Layout.Level`: layouts in which widths are the same.

## Main results

* `Build.weightless_field`: no width is noted where a field is looked up.
* `Layout.Level.width`: **level layouts are measured alike**.
-/

namespace RecordLayout

/-! ### Two runs -/

namespace Build

variable {σ α β : Type} {R R' : σ → σ → Prop}

/-- Runs that have come to the same result or the same error, in states that are related. -/
inductive Abreast (R : σ → σ → Prop) :
    EStateM.Result Error σ α → EStateM.Result Error σ α → Prop
  | ok (a : α) {s t : σ} (h : R s t) : Abreast R (.ok a s) (.ok a t)
  | error (e : Error) {s t : σ} (h : R s t) : Abreast R (.error e s) (.error e t)

namespace Abreast

theorem mono {x y : EStateM.Result Error σ α} (h : Abreast R x y) (hR : ∀ s t, R s t → R' s t) :
    Abreast R' x y := by
  cases h with
  | ok a h => exact .ok a (hR _ _ h)
  | error e h => exact .error e (hR _ _ h)

theorem bind {x : EStateM Error σ α} {f : α → EStateM Error σ β} {s t : σ}
    (hx : Abreast R (x s) (x t)) (hf : ∀ a s t, R s t → Abreast R' (f a s) (f a t))
    (hR : ∀ s t, R s t → R' s t) : Abreast R' ((x >>= f) s) ((x >>= f) t) := by
  rw [Session.bind_apply, Session.bind_apply]
  generalize x s = first at hx ⊢
  generalize x t = second at hx ⊢
  cases hx with
  | ok a h => exact hf a _ _ h
  | error e h => exact .error e (hR _ _ h)

theorem map {x : EStateM Error σ α} {s t : σ} (hx : Abreast R (x s) (x t)) (f : α → β) :
    Abreast R ((f <$> x) s) ((f <$> x) t) := by
  show Abreast R (EStateM.map f x s) (EStateM.map f x t)
  unfold EStateM.map
  generalize x s = first at hx ⊢
  generalize x t = second at hx ⊢
  cases hx with
  | ok a h => exact .ok _ h
  | error e h => exact .error e h

theorem foldlM {f : β → α → EStateM Error σ β}
    (hf : ∀ b a s t, R s t → Abreast R (f b a s) (f b a t)) (l : List α) (b : β) {s t : σ}
    (h : R s t) : Abreast R (l.foldlM f b s) (l.foldlM f b t) := by
  induction l generalizing b s t with
  | nil => exact .ok b h
  | cons a l ih =>
    rw [List.foldlM_cons]
    exact (hf b a s t h).bind (fun b _ _ h => ih b h) fun _ _ => id

end Abreast

end Build

/-! ### What notes no width -/

namespace Layout

variable {L M N : Layout}

/-- The same widths are known of the same generation. -/
structure Unweighed (L M : Layout) : Prop where
  generation : M.generation = L.generation
  known : ∀ s, (M.schema s).knownWidth? = (L.schema s).knownWidth?

namespace Unweighed

theorem refl (L : Layout) : L.Unweighed L := ⟨rfl, fun _ => rfl⟩

theorem trans (h : L.Unweighed M) (h' : M.Unweighed N) : L.Unweighed N :=
  ⟨h'.generation.trans h.generation, fun s => (h'.known s).trans (h.known s)⟩

theorem symm (h : L.Unweighed M) : M.Unweighed L :=
  ⟨h.generation.symm, fun s => (h.known s).symm⟩

theorem modify {s : SchemaId} {f : Schema → Schema}
    (hf : (f (L.schema s)).knownWidth? = (L.schema s).knownWidth?) :
    L.Unweighed (L.modify s f) := ⟨rfl, knownWidth?_modify hf⟩

theorem modifyEntry (s : SchemaId) (key : Text) (f : Entry → Entry) :
    L.Unweighed (L.modifyEntry s key f) := .modify rfl

theorem trusted (h : L.Unweighed M) (s : SchemaId) :
    (M.schema s).trustedWidth? M.generation = (L.schema s).trustedWidth? L.generation := by
  unfold Schema.trustedWidth?
  rw [h.known, h.generation]

end Unweighed

end Layout

namespace Build

open Layout

variable {α β : Type}

/-- A computation that notes no width. -/
def Weightless (x : Build α) : Prop := ∀ L : Layout, x.Ends L fun _ M => L.Unweighed M

theorem weightless_pure (a : α) : Weightless (pure a) := .refl

theorem weightless_throw (e : Error) : Weightless (throw e : Build α) := .refl

theorem weightless_ofExcept (r : Except Error α) : Weightless (Build.ofExcept r) :=
  fun L => ends_ofExcept.mpr (.refl L)

theorem Weightless.bind {x : Build α} {f : α → Build β} (hx : Weightless x)
    (hf : ∀ a, Weightless (f a)) : Weightless (x >>= f) := by
  refine fun L => ends_bind.mpr ((hx L).mono fun res M hM => ?_)
  cases res with
  | error e => exact hM
  | ok a => exact (hf a M).mono fun _ N hN => hM.trans hN

theorem Weightless.map {x : Build α} (hx : Weightless x) (f : α → β) : Weightless (f <$> x) :=
  fun L => ends_map.mpr (hx L)

theorem Weightless.attempt {x : Build α} (hx : Weightless x) : Weightless (Build.attempt x) :=
  fun L => ends_attempt.mpr (hx L)

theorem weightless_forM {f : α → Build Unit} (hf : ∀ a, Weightless (f a)) (l : List α) :
    Weightless (l.forM f) := by
  intro L
  exact ends_forM (I := fun M => L.Unweighed M) l (.refl L)
    fun a _ M hM => (hf a M).mono fun _ N hN => hM.trans hN

/-- A computation that is one without notes in each layout notes no width. -/
theorem weightless_of_eq {x : Build α} (h : ∀ L, ∃ y : Build α, x L = y L ∧ Weightless y) :
    Weightless x := by
  intro L
  obtain ⟨y, heq, hy⟩ := h L
  exact .of_eq heq (hy L)

theorem weightless_propagateWithin (depth : Nat) (options : OptionMap) (s : SchemaId) :
    Weightless (propagateWithin depth options s) := by
  induction depth generalizing s with
  | zero =>
    exact fun L => ends_propagateWithin (fun _ => .refl L) (fun _ _ => .refl L)
      fun _ _ d hd => by omega
  | succ depth ih =>
    refine fun L => ends_propagateWithin (fun _ => .refl L) (fun _ _ => .refl L)
      fun _ _ d hd => ?_
    obtain rfl : depth = d := by omega
    have hnote : Weightless (noteReceived s options) :=
      fun L => ends_noteReceived.mpr (Unweighed.modify rfl)
    have htake : Weightless (takeOverOptions s options) :=
      fun L => ends_takeOverOptions.mpr (Unweighed.modify rfl)
    refine (hnote.bind fun _ => htake.bind fun _ => weightless_forM (fun key L => ?_) _) L
    exact ends_propagateInto (fun _ _ => .modifyEntry ..) (fun t _ _ _ => ih t L)
      (fun _ _ _ => .modifyEntry ..) fun _ => .refl L

theorem weightless_propagate (options : OptionMap) (s : SchemaId) :
    Weightless (propagate options s) := fun L => weightless_propagateWithin _ options s L

theorem weightless_bind (s : SchemaId) (key : Text) (t : SchemaId) :
    Weightless (Layout.bind s key t) := by
  intro L
  have hpass (ref : Reference) (queued : List OptionMap) :
      Weightless (passOptions s ref queued t) :=
    .bind (weightless_propagate ref.options t) fun _ => .bind .refl fun _ =>
      .bind (weightless_propagate _ t) fun _ => weightless_forM (weightless_propagate · t) queued
  cases hfind : (L.schema s).find? key with
  | none => exact .of_eq (y := pure ()) (by simp only [Layout.bind, hfind]; rfl) (.refl L)
  | some e =>
    cases e with
    | column | nested =>
      exact .of_eq (y := pure ()) (by simp only [Layout.bind, hfind]; rfl) (.refl L)
    | reference ref =>
      exact (ends_bindReference hfind).mpr
        ((hpass ref _ _).mono fun _ N hN => (Unweighed.modifyEntry ..).trans hN)

theorem weightless_resolveBy {search : Text → Build SchemaId} (hsearch : ∀ n, Weightless (search n))
    (s : SchemaId) (key : Text) (ref : Reference) :
    Weightless (resolveBy search s key ref) := by
  unfold resolveBy
  cases ref.target? with
  | some t => exact weightless_pure t
  | none =>
    refine (hsearch _).attempt.bind fun found => ?_
    cases found with
    | ok t => exact (weightless_bind s key t).bind fun _ => weightless_pure t
    | error reason => exact fun L => .modifyEntry s key _

theorem weightless_listedSchema (s : SchemaId) (missing : Error) (name : Text) :
    Weightless (listedSchema s missing name) := by
  refine weightless_of_eq fun L =>
    ⟨Build.ofExcept (L.listedFor s missing name), ?_, weightless_ofExcept _⟩
  unfold listedSchema listedFor
  cases (L.schema s).catalog? with
  | none => rfl
  | some c =>
    dsimp only
    cases (L.catalog c).find? name <;> rfl

theorem weightless_visibleFrom {above : Error → Text → Build SchemaId}
    (habove : ∀ e n, Weightless (above e n)) (s : SchemaId) (name : Text) :
    Weightless (visibleFrom above s name) := by
  refine weightless_of_eq fun L => ?_
  cases hfind : (L.schema s).find? name with
  | none => exact ⟨_, by simp only [visibleFrom, hfind]; rfl, habove _ _⟩
  | some e =>
    cases e with
    | column c =>
      exact ⟨throw _, by simp only [visibleFrom, hfind]; rfl, weightless_throw _⟩
    | nested t => exact ⟨pure t, by simp only [visibleFrom, hfind]; rfl, weightless_pure t⟩
    | reference ref =>
      exact ⟨_, by simp only [visibleFrom, hfind]; rfl, weightless_resolveBy (habove _) s name ref⟩

theorem weightless_visibleIn (around : List SchemaId) (s : SchemaId) (name : Text) :
    Weightless (visibleIn around s name) := by
  induction around generalizing s name with
  | nil => exact weightless_visibleFrom (weightless_listedSchema s) s name
  | cons parent around ih => exact weightless_visibleFrom (fun _ n => ih parent n) s name

theorem weightless_visibleAbove (s : SchemaId) (name : Text) :
    Weightless (visibleAbove s name) := by
  refine weightless_of_eq fun L => ?_
  cases haround : (L.schema s).ancestors with
  | nil =>
    exact ⟨_, by simp only [visibleAbove, haround]; rfl, weightless_listedSchema s _ name⟩
  | cons parent around =>
    exact ⟨_, by simp only [visibleAbove, haround], weightless_visibleIn around parent name⟩

/-- **No width is noted where a field is looked up.** -/
theorem weightless_field (s : SchemaId) (key : Text) : Weightless (field s key) := by
  refine weightless_of_eq fun L => ?_
  cases hfind : (L.schema s).find? key with
  | none => exact ⟨throw _, by simp only [field, hfind]; rfl, weightless_throw _⟩
  | some e =>
    cases e with
    | column c => exact ⟨pure (.column c), by simp only [field, hfind]; rfl, weightless_pure _⟩
    | nested t => exact ⟨pure (.nested key t), by simp only [field, hfind]; rfl, weightless_pure _⟩
    | reference ref =>
      exact ⟨Field.reference ref.storeName <$> resolve s key ref, by simp only [field, hfind],
        (weightless_resolveBy (weightless_visibleAbove s) s key ref).map _⟩

end Build

/-! ### Widths in two layouts -/

/-- What the width of a field is taken from: the leaf itself, or else the schema. -/
def Field.extent : Field → UInt64 ⊕ SchemaId
  | .column codec => .inl codec.width
  | .nested _ t => .inr t
  | .reference _ t => .inr t

theorem Field.Follows.extent {f g : Field} (h : f.Follows g) : g.extent = f.extent := by
  cases h with
  | column h => exact congrArg Sum.inl h.width
  | nested | reference => rfl

namespace Layout

open Build

variable {α : Type} {L M N O : Layout}

/-- What the width of the field of a key is taken from. -/
def extentOf (L : Layout) (s : SchemaId) (key : Text) : Except Error (UInt64 ⊕ SchemaId) :=
  (L.fieldOf s key).map Field.extent

/-- Layouts with the same fields, as far as widths go, and with the same widths known. -/
structure Level (L M : Layout) : Prop where
  left : L.WellMade ∧ L.Calm
  right : M.WellMade ∧ M.Calm
  length : M.schemas.length = L.schemas.length
  name : ∀ s, (M.schema s).name = (L.schema s).name
  fields : ∀ s, (M.schema s).fields = (L.schema s).fields
  extent : ∀ s key, M.extentOf s key = L.extentOf s key
  unweighed : L.Unweighed M

theorem Follows.extentOf {r : Nat} (h : L.Follows r M) (hL : L.Coherent) (s : SchemaId)
    (key : Text) : M.extentOf s key = L.extentOf s key := by
  unfold Layout.extentOf
  rcases h.fieldOf hL s key with ⟨f, g, hf, hg, hfg⟩ | ⟨e, hf, hg⟩
  · rw [hf, hg]
    exact congrArg Except.ok hfg.extent
  · rw [hf, hg]

namespace Level

/-- Level layouts stay level if the same widths are noted in both. -/
theorem develop (h : L.Level M) (hLN : L.Develops N ∧ L.Preserves N)
    (hMO : M.Develops O ∧ M.Preserves O) (hNO : N.Unweighed O) : N.Level O := by
  obtain ⟨hmadeL, hcalmL⟩ := h.left
  obtain ⟨hmadeM, hcalmM⟩ := h.right
  have hN := hLN.1.follows hmadeL
  have hO := hMO.1.follows hmadeM
  refine ⟨⟨hLN.1.wellMade hmadeL, hLN.2 _ calm_kept hcalmL⟩,
    ⟨hMO.1.wellMade hmadeM, hMO.2 _ calm_kept hcalmM⟩, ?_, fun s => ?_, fun s => ?_,
    fun s key => ?_, hNO⟩
  · rw [hN.length, hO.length, h.length]
  · rw [(hN.schema s).name, (hO.schema s).name, h.name]
  · rw [(hN.schema s).fields, (hO.schema s).fields, h.fields]
  · rw [hN.extentOf hmadeL.coherent, hO.extentOf hmadeM.coherent, h.extent]

/-- A gentle run that notes the same widths in level layouts leaves them level. -/
theorem abreast (h : L.Level M) {x : Build α} (hx : Gentle x)
    (hruns : Abreast Unweighed (x L) (x M)) : Abreast Level (x L) (x M) := by
  have hL := hx L h.left.1
  have hM := hx M h.right.1
  unfold Ends at hL hM
  generalize x L = first at *
  generalize x M = second at *
  cases hruns with
  | ok a hNO => exact .ok a (h.develop hL hM hNO)
  | error e hNO => exact .error e (h.develop hL hM hNO)

theorem extentOf_abreast (h : L.Level M) (s : SchemaId) (key : Text) :
    Abreast Level ((Field.extent <$> field s key) L) ((Field.extent <$> field s key) M) := by
  refine h.abreast (gentle_composes.map (gentle_field s key) _) ?_
  -- in either layout the run answers what the key stands for there, and notes no width
  have hrun {N : Layout} (hN : N.WellMade ∧ N.Calm) :
      ∃ O, (Field.extent <$> field s key) N = Build.ofExcept (N.extentOf s key) O
        ∧ N.Unweighed O := by
    have hends := ((field_ends hN.1 s key).and (weightless_field s key N))
    show ∃ O, EStateM.map Field.extent (field s key) N = _ ∧ _
    unfold Ends at hends
    unfold EStateM.map extentOf
    cases hfield : field s key N with
    | ok f O =>
      rw [hfield] at hends
      obtain ⟨⟨-, -, hexact⟩, hweights⟩ := hends
      rw [← (hexact _ calm_kept hN.2).1]
      exact ⟨O, rfl, hweights⟩
    | error e O =>
      rw [hfield] at hends
      obtain ⟨⟨-, -, hexact⟩, hweights⟩ := hends
      rw [← (hexact _ calm_kept hN.2).1]
      exact ⟨O, rfl, hweights⟩
  obtain ⟨N, hN, hLN⟩ := hrun h.left
  obtain ⟨O, hO, hMO⟩ := hrun h.right
  rw [hN, hO, h.extent]
  have hweights : N.Unweighed O := hLN.symm.trans (h.unweighed.trans hMO)
  cases L.extentOf s key with
  | ok e => exact .ok e hweights
  | error e => exact .error e hweights

theorem fieldWidth {descend : SchemaId → Build UInt64}
    (hdescend : ∀ t (L M : Layout), L.Level M → Abreast Level (descend t L) (descend t M))
    (h : L.Level M) (s : SchemaId) (key : Text) :
    Abreast Level (Layout.fieldWidth descend s key L) (Layout.fieldWidth descend s key M) := by
  have hextent : Layout.fieldWidth descend s key = Field.extent <$> field s key >>= fun
      | .inl w => pure w
      | .inr t => descend t := by
    unfold Layout.fieldWidth
    rw [map_eq_pure_bind, bind_assoc]
    congr 1
    funext f
    rw [pure_bind]
    cases f <;> rfl
  rw [hextent]
  refine (h.extentOf_abreast s key).bind (fun e N O hNO => ?_) fun _ _ => id
  cases e with
  | inl w => exact .ok w hNO
  | inr t => exact hdescend t N O hNO

/-- **Level layouts are measured alike**, from wherever the walk comes. -/
theorem widthWithin (h : L.Level M) (room : Nat) (path : List SchemaId) (s : SchemaId) :
    Abreast Level (Layout.widthWithin room path s L) (Layout.widthWithin room path s M) := by
  induction room generalizing path s L M with
  | zero =>
    have hblocked : M.blocked path s = L.blocked path s := by
      unfold blocked
      rw [h.name]
    unfold Layout.widthWithin
    dsimp only
    rw [h.unweighed.trusted s, hblocked]
    cases (L.schema s).trustedWidth? L.generation with
    | some total => exact .ok total h
    | none => exact .error _ h
  | succ room ih =>
    -- the walk is gentle, so it is enough that it notes the same widths in both layouts
    refine h.abreast (fun N hN => (widthWithin_ends (room + 1) path s hN).mono
      fun _ _ hO => ⟨hO.1, hO.2.1⟩) ?_
    unfold Layout.widthWithin
    dsimp only
    rw [h.unweighed.trusted s]
    cases (L.schema s).trustedWidth? L.generation with
    | some total => exact .ok total h.unweighed
    | none =>
      dsimp only
      rw [h.name, h.fields, h.unweighed.generation]
      split
      · exact .error _ h.unweighed
      · have hfold := Abreast.foldlM (R := Level) (f := fun total key => (total + ·) <$>
          Layout.fieldWidth (Layout.widthWithin room (s :: path)) s key)
          (fun total key N O hNO =>
            (fieldWidth (fun t N O hNO => ih hNO (s :: path) t) hNO s key).map (total + ·))
          (L.schema s).fields 0 h
        refine hfold.bind (fun total N O hNO => .ok total ⟨hNO.unweighed.generation, fun t => ?_⟩)
          fun _ _ hNO => hNO.unweighed
        -- the sum is noted for the schema itself, and nothing is noted after the fields
        rw [schema_modify, schema_modify, hNO.length]
        split
        · rfl
        · exact hNO.unweighed.known t

end Level

end Layout

end RecordLayout
