import RecordLayout.Proofs.Layout.Composed
import RecordLayout.Proofs.Layout.Search

/-!
# Measuring schemas

A width that is computed is the width of an outline, and so is one that is trusted.  Measuring
resolves references midway and notes the widths that it has found, also when it fails later; all of
this is a run of changes.  So is everything else that is asked of a layout.

## Main definitions

* `Layout.Develops`: a layout to which some run of changes leads.
* `Build.Gentle`: a computation that does nothing but changes, and leaves what is kept.

## Main results

* `Layout.width_ends`: **a width that is given is the width of the schema's outline**.
* `Layout.gentle_pervasive`: **all that is asked of a layout is gentle**.
-/

namespace RecordLayout

namespace Layout

/-- Some run of changes leads from one layout to the other. -/
def Develops (L M : Layout) : Prop := ∃ r, L.Evolves r M

namespace Develops

variable {r : Nat} {L M N : Layout}

theorem refl (L : Layout) : L.Develops L := ⟨0, .refl 0 L⟩

theorem of_change (h : Change r L M) : L.Develops M := ⟨r, .single h⟩

theorem trans (h : L.Develops M) (h' : M.Develops N) : L.Develops N := by
  obtain ⟨r, h⟩ := h
  obtain ⟨r', h'⟩ := h'
  exact ⟨max r r', (h.mono (Nat.le_max_left r r')).trans (h'.mono (Nat.le_max_right r r'))⟩

theorem wellMade (h : L.Develops M) (hL : L.WellMade) : M.WellMade := h.choose_spec.wellMade hL

theorem follows (h : L.Develops M) (hL : L.WellMade) : L.Follows h.choose M :=
  h.choose_spec.follows hL

theorem trusts (h : L.Develops M) (hL : L.WellMade) {t : SchemaId} (ht : L.Trusts t) :
    M.Trusts t := h.choose_spec.trusts hL ht

end Develops

end Layout

namespace Build

open Layout

variable {α : Type}

/-- A computation that makes changes only, and leaves what is kept. -/
def Gentle (x : Build α) : Prop :=
  ∀ L : Layout, L.WellMade → x.Ends L fun _ M => L.Develops M ∧ L.Preserves M

theorem gentle_composes : Composes Gentle where
  done _ := fun L _ => ⟨.refl L, .refl L⟩
  failed _ := fun L _ => ⟨.refl L, .refl L⟩
  schema _ := fun L _ => ⟨.refl L, .refl L⟩
  bind := by
    intro α β x f hx hf L hL
    refine ends_bind.mpr ((hx L hL).mono fun res M hM => ?_)
    cases res with
    | error e => exact hM
    | ok a =>
      exact (hf a M (hM.1.wellMade hL)).mono
        fun _ N hN => ⟨hM.1.trans hN.1, hM.2.trans hN.2⟩
  attempt hx := fun L hL => ends_attempt.mpr (hx L hL)
  of_eq := by
    intro α x h L hL
    obtain ⟨y, heq, hy⟩ := h L
    exact .of_eq heq (hy L hL)

end Build

namespace Layout

open Build

variable {L M : Layout}

theorem Answers.gentle {r : Nat} {α : Type} {x : Build α} {p : Except Error α}
    (h : L.Answers r x p) : x.Ends L fun _ M => L.Develops M ∧ L.Preserves M :=
  Ends.mono h fun _ _ hM => ⟨⟨r, hM.1⟩, fun I hI hIL => (hM.2.2 I hI hIL).2.1⟩

theorem gentle_field (s : SchemaId) (key : Text) : Gentle (field s key) := fun _ hL =>
  (field_ends hL s key).mono
    fun _ _ hM => ⟨⟨s + 1, hM.1⟩, fun I hI hIL => (hM.2.2 I hI hIL).2.1⟩

theorem gentle_visibleSchema (s : SchemaId) (name : Text) : Gentle (visibleSchema s name) :=
  fun _ hL => (visibleSchema_answers hL s name).gentle

/-! ### Widths -/

/-- A width that is given is that of an outline, whose schemas are trusted from then on. -/
def Weighed (s : SchemaId) (res : Except Error UInt64) (M : Layout) : Prop :=
  ∀ total, res = .ok total → ∃ o, M.Unfolds s o ∧ total = UInt64.ofNat o.width
    ∧ (∀ t ∈ o.schemas, M.Trusts t) ∧ (s < M.schemas.length → M.Trusts s)

theorem ofNat_add_ofNat (m n : Nat) : UInt64.ofNat m + UInt64.ofNat n = UInt64.ofNat (m + n) :=
  (UInt64.ofNat_add m n).symm

theorem codec_width_eq (c : Codec) : c.width = UInt64.ofNat c.width.toNat :=
  (UInt64.ofNat_toNat).symm

/-- The outlines of one field and of those after it make up an outline. -/
theorem UnfoldsTo.cons {s : SchemaId} {key : Text} {keys : List Text} {o p : Outline}
    (ho : L.UnfoldsTo s [key] o) (hp : L.UnfoldsTo s keys p) :
    ∃ q, L.UnfoldsTo s (key :: keys) q ∧ q.width = o.width + p.width
      ∧ q.schemas = o.schemas ++ p.schemas ∧ q.height = max o.height p.height := by
  cases ho with
  | column h hrest =>
    cases hrest
    exact ⟨_, .column h hp, rfl, rfl, (Nat.zero_max p.height).symm⟩
  | branch h ht hinner hrest =>
    cases hrest
    refine ⟨_, .branch h ht hinner hp, rfl, ?_, ?_⟩
    · simp [Outline.schemas]
    · simp [Outline.height]

/-- The width of a field is that of its outline. -/
theorem fieldWidth_ends {descend : SchemaId → Build UInt64}
    (hdescend : ∀ t (M : Layout), M.WellMade → t < M.schemas.length →
      (descend t).Ends M fun res N => M.Develops N ∧ M.Preserves N ∧ Weighed t res N)
    (s : SchemaId) (key : Text) (hL : L.WellMade) :
    (fieldWidth descend s key).Ends L fun res M => L.Develops M ∧ L.Preserves M
      ∧ ∀ w, res = .ok w → ∃ o, M.UnfoldsTo s [key] o ∧ w = UInt64.ofNat o.width
        ∧ ∀ t ∈ o.schemas, M.Trusts t := by
  refine ends_bind.mpr ((field_ends hL s key).mono fun res M hM => ?_)
  obtain ⟨hevolves, hknown, hkept⟩ := hM
  have hdevelops : L.Develops M := ⟨s + 1, hevolves⟩
  have hpreserves : L.Preserves M := fun I hI hIL => (hkept I hI hIL).2.1
  have hmade := hevolves.wellMade hL
  cases res with
  | error e => exact ⟨hdevelops, hpreserves, fun w hw => absurd hw (by simp)⟩
  | ok f =>
    have hf := (hknown f rfl).2
    -- nested schemas and references are measured alike, in the layout that the lookup leaves
    have hinner (t : SchemaId) (ht : f.schema? = some t) :
        (descend t).Ends M fun res N => L.Develops N ∧ L.Preserves N
          ∧ ∀ w, res = .ok w → ∃ o, N.UnfoldsTo s [key] o ∧ w = UInt64.ofNat o.width
            ∧ ∀ u ∈ o.schemas, N.Trusts u := by
      have hlt := hmade.coherent.known_lt hf ht
      refine (hdescend t M hmade hlt).mono fun res N hN => ?_
      obtain ⟨hdevN, hpresN, hweighed⟩ := hN
      refine ⟨hdevelops.trans hdevN, hpreserves.trans hpresN, fun w hw => ?_⟩
      obtain ⟨o, ho, hwidth, htrusts, htrustt⟩ := hweighed w hw
      have hfollows := hdevN.follows hmade
      obtain ⟨g, hg, hfg⟩ := hfollows.known hf
      refine ⟨_, .branch hg (hfg.schema.trans ht) ho (.nil s), hwidth, fun u hu => ?_⟩
      rcases List.mem_cons.mp hu with rfl | hu
      · exact htrustt (hfollows.length ▸ hlt)
      · exact htrusts u (by simpa [Outline.schemas] using hu)
    cases f with
    | column c =>
      refine ends_pure.mpr ⟨hdevelops, hpreserves, fun w hw => ?_⟩
      refine ⟨.column c .done, .column hf (.nil s), ?_, fun t ht => ?_⟩
      · rw [← Except.ok.inj hw]
        exact codec_width_eq c
      · simp [Outline.schemas] at ht
    | nested _ t => exact hinner t rfl
    | reference _ t => exact hinner t rfl

/-- The widths of some fields add up to that of their outline. -/
theorem fold_fieldWidth_ends {descend : SchemaId → Build UInt64}
    (hdescend : ∀ t (M : Layout), M.WellMade → t < M.schemas.length →
      (descend t).Ends M fun res N => M.Develops N ∧ M.Preserves N ∧ Weighed t res N)
    (s : SchemaId) (keys : List Text) (total : UInt64) (hL : L.WellMade) :
    (keys.foldlM (fun total key => (total + ·) <$> fieldWidth descend s key) total).Ends L
      fun res M => L.Develops M ∧ L.Preserves M ∧ ∀ sum, res = .ok sum →
        ∃ o, M.UnfoldsTo s keys o ∧ sum = total + UInt64.ofNat o.width
          ∧ ∀ t ∈ o.schemas, M.Trusts t := by
  induction keys generalizing total L with
  | nil =>
    refine ends_pure.mpr ⟨.refl L, .refl L, fun sum hsum => ⟨.done, .nil s, ?_, fun t ht => ?_⟩⟩
    · rw [← Except.ok.inj hsum]
      exact (UInt64.add_zero total).symm
    · simp [Outline.schemas] at ht
  | cons key keys ih =>
    rw [List.foldlM_cons]
    refine ends_bind.mpr (ends_map.mpr ((fieldWidth_ends hdescend s key hL).mono ?_))
    intro res M hM
    obtain ⟨hdevelops, hpreserves, hfield⟩ := hM
    have hmade := hdevelops.wellMade hL
    cases res with
    | error e => exact ⟨hdevelops, hpreserves, fun sum hsum => absurd hsum (by simp)⟩
    | ok w =>
      obtain ⟨o, ho, hw, htrusts⟩ := hfield w rfl
      refine (ih (total + w) hmade).mono fun res N hN => ?_
      obtain ⟨hdevN, hpresN, hrest⟩ := hN
      refine ⟨hdevelops.trans hdevN, hpreserves.trans hpresN, fun sum hsum => ?_⟩
      obtain ⟨p, hp, hsum, htrustsp⟩ := hrest sum hsum
      -- the outline of the first field is still there when the others have been measured
      obtain ⟨o', ho', hoo'⟩ := ho.follow (hdevN.follows hmade)
      obtain ⟨q, hq, hwidth, hschemas, -⟩ := ho'.cons hp
      refine ⟨q, hq, ?_, fun t ht => ?_⟩
      · rw [hsum, hw, UInt64.add_assoc, ofNat_add_ofNat, hwidth, hoo'.width_eq]
      · rw [hschemas, hoo'.schemas_eq] at ht
        rcases List.mem_append.mp ht with ht | ht
        · exact hdevN.trusts hmade (htrusts t ht)
        · exact htrustsp t ht

/-- What happens where a width is asked for. -/
theorem ends_widthWithin {room : Nat} {path : List SchemaId} {s : SchemaId}
    {Q : Except Error UInt64 → Layout → Prop}
    (htrusted : ∀ total, (L.schema s).trustedWidth? L.generation = some total → Q (.ok total) L)
    (hend : (L.schema s).trustedWidth? L.generation = none → room = 0 →
      Q (.error (L.blocked path s)) L)
    (hcycle : (L.schema s).trustedWidth? L.generation = none → room ≠ 0 → s ∈ path →
      Q (.error (.cycle (L.schema s).name)) L)
    (hgo : (L.schema s).trustedWidth? L.generation = none → ∀ d, room = d + 1 → s ∉ path →
      ((L.schema s).fields.foldlM (fun total key =>
        (total + ·) <$> fieldWidth (widthWithin d (s :: path)) s key) 0).Ends L fun res M =>
          match res with
          | .ok total => Q (.ok total)
            (M.modify s fun node => { node with knownWidth? := some (total, L.generation) })
          | .error e => Q (.error e) M) :
    (widthWithin room path s).Ends L Q := by
  cases hknown : (L.schema s).trustedWidth? L.generation with
  | some total =>
    refine .of_eq (y := pure total) ?_ (ends_pure.mpr (htrusted total hknown))
    unfold widthWithin
    simp only [hknown]
    rfl
  | none =>
    cases room with
    | zero =>
      refine .of_eq (y := throw (L.blocked path s)) ?_ (ends_throw.mpr (hend hknown rfl))
      unfold widthWithin
      simp only [hknown]
      rfl
    | succ d =>
      by_cases hs : s ∈ path
      · refine .of_eq (y := throw (.cycle (L.schema s).name)) ?_
          (ends_throw.mpr (hcycle hknown (Nat.succ_ne_zero d) hs))
        unfold widthWithin
        simp only [hknown, if_pos hs]
        rfl
      · refine .of_eq (y := do
          let total ← (L.schema s).fields.foldlM (fun total key =>
            (total + ·) <$> fieldWidth (widthWithin d (s :: path)) s key) 0
          keepWidth s total L.generation
          return total) ?_ ?_
        · conv => lhs; unfold widthWithin
          simp only [hknown, if_neg hs]
        · refine ends_bind.mpr ((hgo hknown d rfl hs).mono fun res M hM => ?_)
          cases res with
          | error e => exact hM
          | ok total => exact hM

/-- A width that is trusted was measured. -/
theorem weighed_of_trusted {s : SchemaId} {total : UInt64} (hL : L.WellMade)
    (h : (L.schema s).trustedWidth? L.generation = some total) : Weighed s (.ok total) L := by
  intro w hw
  obtain ⟨o, ho, hwidth, htrusts⟩ := hL.measured.unfolds h
  refine ⟨o, ho, Except.ok.inj hw ▸ hwidth, htrusts, fun _ => ?_⟩
  rw [Trusts, h]
  rfl

/-- A width that is noted is trusted from then on, and the outline is still the same. -/
theorem weighed_of_noted {s : SchemaId} {o : Outline} (hL : L.WellMade) (ho : L.Unfolds s o)
    (htrusts : ∀ t ∈ o.schemas, L.Trusts t) :
    Weighed s (.ok (UInt64.ofNat o.width)) (L.modify s fun node =>
      { node with knownWidth? := some (UInt64.ofNat o.width, L.generation) }) := by
  intro w hw
  have hchange : Change 0 L _ := .measured ho htrusts
  obtain ⟨p, hp, hop⟩ := ho.follow hchange.follows
  refine ⟨p, hp, ?_, fun t ht => ?_, fun hlt => ?_⟩
  · rw [← Except.ok.inj hw, hop.width_eq]
  · rw [hop.schemas_eq] at ht
    exact (hchange.wellMade hL).2 t (htrusts t ht)
  · rw [length_modify] at hlt
    refine trusts_iff.mpr ⟨UInt64.ofNat o.width, ?_⟩
    rw [schema_modify, if_pos ⟨rfl, hlt⟩]
    rfl

/-- A width is measured, from wherever the walk comes. -/
theorem widthWithin_ends (room : Nat) (path : List SchemaId) (s : SchemaId) (hL : L.WellMade) :
    (widthWithin room path s).Ends L fun res M =>
      L.Develops M ∧ L.Preserves M ∧ Weighed s res M := by
  induction room generalizing path s L with
  | zero =>
    exact ends_widthWithin
      (fun total htotal => ⟨.refl L, .refl L, weighed_of_trusted hL htotal⟩)
      (fun _ _ => ⟨.refl L, .refl L, fun w hw => absurd hw (by simp)⟩)
      (fun _ h => absurd rfl h) fun _ d hd => absurd hd (by omega)
  | succ room ih =>
    refine ends_widthWithin
      (fun total htotal => ⟨.refl L, .refl L, weighed_of_trusted hL htotal⟩)
      (fun _ h => absurd h (Nat.succ_ne_zero room))
      (fun _ _ _ => ⟨.refl L, .refl L, fun w hw => absurd hw (by simp)⟩) fun _ d hd hs => ?_
    obtain rfl : room = d := by omega
    refine (fold_fieldWidth_ends (fun t M hM _ => ih (s :: path) t hM) s _ 0 hL).mono ?_
    intro res M hM
    obtain ⟨hdevelops, hpreserves, hsum⟩ := hM
    cases res with
    | error e => exact ⟨hdevelops, hpreserves, fun w hw => absurd hw (by simp)⟩
    | ok total =>
      obtain ⟨o, ho, htotal, htrusts⟩ := hsum total rfl
      rw [UInt64.zero_add] at htotal
      -- the fields and the generation that the walk began with are those that it ends with
      have hfollows := hdevelops.follows hL
      have ho : M.Unfolds s o := by
        unfold Unfolds
        rw [(hfollows.schema s).fields]
        exact ho
      rw [htotal, ← hfollows.generation]
      have hnoted : Change 0 M _ := .measured ho htrusts
      refine ⟨hdevelops.trans (.of_change hnoted), fun I hI hIL => ?_, ?_⟩
      · exact hI.measured (hpreserves I hI hIL) ho htrusts
      · exact weighed_of_noted (hdevelops.wellMade hL) ho htrusts

/-- **A width that is given is the width of the schema's outline.** -/
theorem width_ends (s : SchemaId) (hL : L.WellMade) :
    (width s).Ends L fun res M => L.Develops M ∧ L.Preserves M ∧ Weighed s res M :=
  widthWithin_ends maxDepth [] s hL

theorem gentle_widthWithin (room : Nat) (path : List SchemaId) (s : SchemaId) :
    Gentle (widthWithin room path s) := fun _ hL =>
  (widthWithin_ends room path s hL).mono fun _ _ hM => ⟨hM.1, hM.2.1⟩

/-! ### All that is asked -/

/-- What happens where errors are looked for behind a field. -/
theorem fieldErrors_reference {descend : SchemaId → Build (List Error)} {s : SchemaId}
    {found : List Error} {key : Text} {ref : Reference}
    (h : (L.schema s).find? key = some (.reference ref)) :
    fieldErrors descend s found key L =
      (do match ← Build.attempt (resolve s key ref) with
          | .ok target => (found ++ ·) <$> descend target
          | .error e => return found ++ [e] : Build (List Error)) L := by
  unfold fieldErrors
  generalize (L.schema s).find? key = entry? at h
  subst h
  rfl

theorem ends_fieldErrors {descend : SchemaId → Build (List Error)} {s : SchemaId}
    {found : List Error} {key : Text} {Q : Except Error (List Error) → Layout → Prop}
    (hleaf : (∀ f, L.known? s key = some f → f.schema? = none) →
      (∀ ref, (L.schema s).find? key ≠ some (.reference ref)) → Q (.ok found) L)
    (hnested : ∀ t, (L.schema s).find? key = some (.nested t) →
      (descend t).Ends L fun res M => Q (res.map (found ++ ·)) M)
    (hreference : ∀ ref, (L.schema s).find? key = some (.reference ref) →
      (resolve s key ref).Ends L fun res M =>
        match res with
        | .ok t => (descend t).Ends M fun res N => Q (res.map (found ++ ·)) N
        | .error e => (e.isEndless = true → Q (.error e) M)
          ∧ (e.isEndless = false → Q (.ok (found ++ [e])) M)) :
    (fieldErrors descend s found key).Ends L Q := by
  cases hfind : (L.schema s).find? key with
  | none =>
    refine .of_eq (y := pure found) (by simp only [fieldErrors, hfind]; rfl)
      (ends_pure.mpr (hleaf (fun f hf => ?_) fun ref href => ?_))
    · rw [known?, hfind] at hf
      exact absurd hf (by simp)
    · exact absurd (hfind.symm.trans href) (by simp)
  | some e =>
    cases e with
    | column c =>
      refine .of_eq (y := pure found) (by simp only [fieldErrors, hfind]; rfl)
        (ends_pure.mpr (hleaf (fun f hf => ?_) fun ref href => ?_))
      · rw [known?, hfind] at hf
        exact Option.some.inj hf ▸ rfl
      · exact absurd (hfind.symm.trans href) (by simp)
    | nested t =>
      refine .of_eq (y := (found ++ ·) <$> descend t) (by simp only [fieldErrors, hfind]) ?_
      exact ends_map.mpr (hnested t hfind)
    | reference ref =>
      refine .of_eq (fieldErrors_reference hfind) (ends_bind.mpr (ends_attempt.mpr ?_))
      refine (hreference ref hfind).mono fun res M hM => ?_
      cases res with
      | ok t => exact ends_map.mpr hM
      | error e =>
        cases hendless : e.isEndless with
        | true => exact attempted_of_endless (α := SchemaId) hendless ▸ hM.1 hendless
        | false => exact attempted_of_not_endless (α := SchemaId) hendless ▸ hM.2 hendless

theorem gentle_fieldErrors {descend : SchemaId → Build (List Error)}
    (hdescend : ∀ t, Gentle (descend t)) (s : SchemaId) (found : List Error) (key : Text) :
    Gentle (fieldErrors descend s found key) := by
  intro L hL
  refine ends_fieldErrors (fun _ _ => ⟨.refl L, .refl L⟩) (fun t _ => hdescend t L hL)
    fun ref href => (resolve_answers hL href).gentle.mono fun res M hM => ?_
  cases res with
  | ok t =>
    exact (hdescend t M (hM.1.wellMade hL)).mono
      fun _ N hN => ⟨hM.1.trans hN.1, hM.2.trans hN.2⟩
  | error e => exact ⟨fun _ => hM, fun _ => hM⟩

/-- **All that is asked of a layout is gentle.** -/
theorem gentle_pervasive : Pervasive Gentle where
  toComposes := gentle_composes
  field := gentle_field
  visibleSchema := gentle_visibleSchema
  widthWithin := gentle_widthWithin
  fieldErrors := gentle_fieldErrors

end Layout

end RecordLayout
