import RecordLayout.Proofs.Layout.Measure

/-!
# Measuring without trust

A width that is trusted is given before a walk asks where it is, so a walk that trusts widths gets
further than one that trusts none.  As long as the walk without trust does not end because it is too
deep, the two agree, whatever has been asked before.

## Main definitions

* `Layout.coldWidth`: the width of a schema, or why there is none, if no width is trusted.
* `Layout.IsTooDeep`: a walk has ended because it may go no deeper.
* `Layout.Leads`: a schema has another one as a field.

## Main results

* `Layout.width_cold`: **a width that is asked for is the one without trust**.
* `Layout.errors_of_cold`: a schema that has a width without trust has no errors.
-/

namespace RecordLayout

namespace Layout

open Build

variable {r : Nat} {L M : Layout}

/-- The width of a field, if no width is trusted; `descend` gives that of a schema. -/
def coldFieldWidth (L : Layout) (descend : SchemaId → Except Error UInt64) (s : SchemaId)
    (key : Text) : Except Error UInt64 :=
  match L.fieldOf s key with
  | .ok (.column codec) => .ok codec.width
  | .ok (.nested _ t) => descend t
  | .ok (.reference _ t) => descend t
  | .error e => .error e

/-- The width of a schema on a walk that trusts no width. -/
def coldWidthWithin (L : Layout) : Nat → List SchemaId → SchemaId → Except Error UInt64
  | 0, path, s => .error (L.blocked path s)
  | room + 1, path, s =>
    if s ∈ path then .error (.cycle (L.schema s).name)
    else (L.schema s).fields.foldlM (fun total key =>
      (total + ·) <$> L.coldFieldWidth (L.coldWidthWithin room (s :: path)) s key) 0

/-- The width of a schema, if no width is trusted. -/
def coldWidth (L : Layout) (s : SchemaId) : Except Error UInt64 := L.coldWidthWithin maxDepth [] s

/-- A walk has ended because it may go no deeper. -/
def IsTooDeep {α : Type} (res : Except Error α) : Prop :=
  ∃ name, res = .error (.tooDeep name maxDepth)

/-- A schema has another one as a field. -/
def Leads (L : Layout) (s t : SchemaId) : Prop :=
  ∃ key ∈ (L.schema s).fields, ∃ f, L.fieldOf s key = .ok f ∧ f.schema? = some t

/-! ### What does not change -/

namespace Follows

theorem coldFieldWidth_eq (h : L.Follows r M) (hL : L.Coherent)
    {descend descend' : SchemaId → Except Error UInt64} (hdescend : ∀ t, descend' t = descend t)
    (s : SchemaId) (key : Text) :
    M.coldFieldWidth descend' s key = L.coldFieldWidth descend s key := by
  unfold coldFieldWidth
  rcases h.fieldOf hL s key with ⟨f, g, hf, hg, hfg⟩ | ⟨e, hf, hg⟩
  · rw [hf, hg]
    cases hfg with
    | column hcd => exact congrArg Except.ok hcd.width
    | nested _ t => exact hdescend t
    | reference _ t => exact hdescend t
  · rw [hf, hg]

theorem blocked_eq (h : L.Follows r M) (path : List SchemaId) (s : SchemaId) :
    M.blocked path s = L.blocked path s := by
  unfold blocked
  rw [(h.schema s).name]

theorem coldWidthWithin_eq (h : L.Follows r M) (hL : L.Coherent) (room : Nat)
    (path : List SchemaId) (s : SchemaId) :
    M.coldWidthWithin room path s = L.coldWidthWithin room path s := by
  induction room generalizing path s with
  | zero => exact congrArg Except.error (h.blocked_eq path s)
  | succ room ih =>
    unfold coldWidthWithin
    rw [(h.schema s).name, (h.schema s).fields]
    have hfield (key : Text) :
        M.coldFieldWidth (M.coldWidthWithin room (s :: path)) s key
          = L.coldFieldWidth (L.coldWidthWithin room (s :: path)) s key :=
      h.coldFieldWidth_eq hL (ih (s :: path)) s key
    simp only [hfield]

theorem leads (h : L.Follows r M) (hL : L.Coherent) {s t : SchemaId} (hst : L.Leads s t) :
    M.Leads s t := by
  obtain ⟨key, hkey, f, hf, ht⟩ := hst
  rcases h.fieldOf hL s key with ⟨f', g, hf', hg, hfg⟩ | ⟨e, he, -⟩
  · obtain rfl := Except.ok.inj (hf.symm.trans hf')
    exact ⟨key, (h.schema s).fields ▸ hkey, g, hg, hfg.schema.trans ht⟩
  · exact absurd (hf.symm.trans he) (by simp)

theorem leads_path (h : L.Follows r M) (hL : L.Coherent) {path : List SchemaId} {s : SchemaId}
    (hpath : ∀ p ∈ path, Relation.TransGen L.Leads p s) :
    ∀ p ∈ path, Relation.TransGen M.Leads p s :=
  fun p hp => Relation.TransGen.mono (fun _ _ => h.leads hL) _ _ (hpath p hp)

end Follows

/-! ### Schemas with an outline -/

/-- What a schema with an outline leads to has a smaller one. -/
theorem Unfolds.leads {s t : SchemaId} {o : Outline} (ho : L.Unfolds s o) (hst : L.Leads s t) :
    ∃ i, L.Unfolds t i ∧ i.size < o.size := by
  obtain ⟨key, hkey, f, hf, ht⟩ := hst
  obtain ⟨g, hg⟩ := UnfoldsTo.known ho hkey
  obtain rfl := Except.ok.inj (hf.symm.trans (fieldOf_of_known hg))
  obtain ⟨i, hi, hsize, -⟩ := UnfoldsTo.inner ho hkey hg ht
  exact ⟨i, hi, hsize⟩

theorem Unfolds.leads_trans {s t : SchemaId} {o : Outline} (ho : L.Unfolds s o)
    (hst : Relation.TransGen L.Leads s t) : ∃ i, L.Unfolds t i ∧ i.size < o.size := by
  induction hst with
  | single hst => exact ho.leads hst
  | tail _ htu ih =>
    obtain ⟨i, hi, hsize⟩ := ih
    obtain ⟨j, hj, hsize'⟩ := hi.leads htu
    exact ⟨j, hj, Nat.lt_trans hsize' hsize⟩

/-- A schema with an outline does not lead to itself. -/
theorem Unfolds.not_leads_self {s : SchemaId} {o : Outline} (ho : L.Unfolds s o) :
    ¬ Relation.TransGen L.Leads s s := by
  intro h
  obtain ⟨i, hi, hsize⟩ := ho.leads_trans h
  rw [UnfoldsTo.unique hi ho] at hsize
  exact Nat.lt_irrefl _ hsize

theorem path_cons {path : List SchemaId} {s t : SchemaId}
    (hpath : ∀ p ∈ path, Relation.TransGen L.Leads p s) (hst : L.Leads s t) :
    ∀ p ∈ s :: path, Relation.TransGen L.Leads p t := by
  intro p hp
  rcases List.mem_cons.mp hp with rfl | hp
  · exact .single hst
  · exact (hpath p hp).tail hst

/-! ### Walks that are not too deep -/

theorem IsTooDeep.bind {α β : Type} {x : Except Error α} (h : IsTooDeep x)
    (f : α → Except Error β) : IsTooDeep (x >>= f) := by
  obtain ⟨name, rfl⟩ := h
  exact ⟨name, rfl⟩

theorem IsTooDeep.map {α β : Type} {x : Except Error α} (h : IsTooDeep x) (f : α → β) :
    IsTooDeep (f <$> x) := by
  obtain ⟨name, rfl⟩ := h
  exact ⟨name, rfl⟩

theorem coldFieldWidth_column {s : SchemaId} {key : Text} {c : Codec}
    (h : L.known? s key = some (.column c)) (descend : SchemaId → Except Error UInt64) :
    L.coldFieldWidth descend s key = .ok c.width := by
  unfold coldFieldWidth
  rw [fieldOf_of_known h]

theorem coldFieldWidth_schema {s t : SchemaId} {key : Text} {f : Field}
    (h : L.known? s key = some f) (ht : f.schema? = some t)
    (descend : SchemaId → Except Error UInt64) :
    L.coldFieldWidth descend s key = descend t := by
  unfold coldFieldWidth
  rw [fieldOf_of_known h]
  cases f with
  | column c => exact absurd ht (by simp [Field.schema?])
  | nested _ u => rw [← Option.some.inj ht]
  | reference _ u => rw [← Option.some.inj ht]

/-- Where there is an outline, the widths add up to its width without trust too. -/
theorem UnfoldsTo.cold {s : SchemaId} {keys : List Text} {o : Outline}
    (ho : L.UnfoldsTo s keys o) (hkeys : keys ⊆ (L.schema s).fields)
    {descend : SchemaId → Except Error UInt64}
    (hdescend : ∀ t i, L.Leads s t → L.Unfolds t i → ¬ IsTooDeep (descend t) →
      descend t = .ok (UInt64.ofNat i.width)) (total : UInt64)
    (hdeep : ¬ IsTooDeep (keys.foldlM (fun total key =>
      (total + ·) <$> L.coldFieldWidth descend s key) total)) :
    keys.foldlM (fun total key => (total + ·) <$> L.coldFieldWidth descend s key) total
      = .ok (total + UInt64.ofNat o.width) := by
  induction ho generalizing total with
  | nil s => exact congrArg Except.ok (UInt64.add_zero total).symm
  | @column s key keys c rest h _ ih =>
    rw [List.foldlM_cons, coldFieldWidth_column h] at hdeep ⊢
    refine (ih (fun k hk => hkeys (List.mem_cons_of_mem _ hk)) hdescend _ hdeep).trans ?_
    rw [codec_width_eq c, UInt64.add_assoc, ofNat_add_ofNat]
    rfl
  | @branch s t key keys f inner rest h ht hinner _ _ ih =>
    have hleads : L.Leads s t := ⟨key, hkeys List.mem_cons_self, f, fieldOf_of_known h, ht⟩
    rw [List.foldlM_cons, coldFieldWidth_schema h ht] at hdeep ⊢
    have hwidth := hdescend t inner hleads hinner fun h => hdeep ((h.map _).bind _)
    rw [hwidth] at hdeep ⊢
    refine (ih (fun k hk => hkeys (List.mem_cons_of_mem _ hk)) hdescend _ hdeep).trans ?_
    rw [UInt64.add_assoc, ofNat_add_ofNat]
    rfl

theorem Unfolds.cold {s : SchemaId} {o : Outline} (ho : L.Unfolds s o) {room : Nat}
    {path : List SchemaId} (hpath : ∀ p ∈ path, Relation.TransGen L.Leads p s)
    (hdeep : ¬ IsTooDeep (L.coldWidthWithin room path s)) :
    L.coldWidthWithin room path s = .ok (UInt64.ofNat o.width) := by
  have hs : s ∉ path := fun hs => ho.not_leads_self (hpath s hs)
  induction room generalizing path s o with
  | zero =>
    refine absurd ⟨(L.schema s).name, ?_⟩ hdeep
    show Except.error (L.blocked path s) = _
    unfold blocked
    rw [if_neg hs]
  | succ room ih =>
    unfold coldWidthWithin at hdeep ⊢
    rw [if_neg hs] at hdeep ⊢
    refine (UnfoldsTo.cold ho (List.Subset.refl _) (fun t i hst hi hdeep => ?_) 0 hdeep).trans ?_
    · have hpath' := path_cons hpath hst
      exact ih hi hpath' hdeep fun ht => hi.not_leads_self (hpath' t ht)
    · rw [UInt64.zero_add]

/-- Some fields whose outline is not too deep have their widths without trust. -/
theorem UnfoldsTo.cold_of_height {s : SchemaId} {keys : List Text} {o : Outline}
    (ho : L.UnfoldsTo s keys o) {height : Nat} (hheight : o.height ≤ height)
    {descend : SchemaId → Except Error UInt64} (hkeys : keys ⊆ (L.schema s).fields)
    (hdescend : ∀ t i, L.Leads s t → L.Unfolds t i → i.height < height →
      descend t = .ok (UInt64.ofNat i.width)) (total : UInt64) :
    keys.foldlM (fun total key => (total + ·) <$> L.coldFieldWidth descend s key) total
      = .ok (total + UInt64.ofNat o.width) := by
  induction ho generalizing total with
  | nil s => exact congrArg Except.ok (UInt64.add_zero total).symm
  | @column s key keys c rest h _ ih =>
    rw [List.foldlM_cons, coldFieldWidth_column h]
    refine (ih hheight (fun k hk => hkeys (List.mem_cons_of_mem _ hk)) hdescend _).trans ?_
    rw [codec_width_eq c, UInt64.add_assoc, ofNat_add_ofNat]
    rfl
  | @branch s t key keys f inner rest h ht hinner _ _ ih =>
    obtain ⟨hinnerHeight, hrestHeight⟩ := Nat.max_le.mp hheight
    have hleads : L.Leads s t := ⟨key, hkeys List.mem_cons_self, f, fieldOf_of_known h, ht⟩
    rw [List.foldlM_cons, coldFieldWidth_schema h ht, hdescend t inner hleads hinner hinnerHeight]
    refine (ih hrestHeight (fun k hk => hkeys (List.mem_cons_of_mem _ hk)) hdescend _).trans ?_
    rw [UInt64.add_assoc, ofNat_add_ofNat]
    rfl

/-- An outline that is not too deep has its width without trust. -/
theorem Unfolds.cold_of_height {s : SchemaId} {o : Outline} (ho : L.Unfolds s o) {room : Nat}
    {path : List SchemaId} (hpath : ∀ p ∈ path, Relation.TransGen L.Leads p s)
    (hheight : o.height < room) : L.coldWidthWithin room path s = .ok (UInt64.ofNat o.width) := by
  induction room generalizing path s o with
  | zero => exact absurd hheight (Nat.not_lt_zero _)
  | succ room ih =>
    have hs : s ∉ path := fun hs => ho.not_leads_self (hpath s hs)
    unfold coldWidthWithin
    rw [if_neg hs]
    refine (UnfoldsTo.cold_of_height ho (Nat.le_of_lt_succ hheight) (List.Subset.refl _)
      (fun t i hst hi hlt => ih hi (path_cons hpath hst) hlt) 0).trans ?_
    rw [UInt64.zero_add]

/-! ### Walks that trust -/

/-- The width of a field, where that of the schema that it leads to is the one without trust. -/
theorem fieldWidth_cold {descend : SchemaId → Build UInt64} (cold : SchemaId → Except Error UInt64)
    {s : SchemaId} (hL : L.WellMade)
    (hdescend : ∀ t M, L.Develops M → M.Calm → L.Leads s t →
      (descend t).Ends M fun res N => M.Develops N ∧ N.Calm ∧ (¬ IsTooDeep (cold t) → res = cold t))
    {key : Text} (hkey : key ∈ (L.schema s).fields) (hLM : L.Develops M) (hcalm : M.Calm) :
    (fieldWidth descend s key).Ends M fun res N => L.Develops N ∧ N.Calm
      ∧ (¬ IsTooDeep (L.coldFieldWidth cold s key) → res = L.coldFieldWidth cold s key) := by
  rw [← (hLM.follows hL).coldFieldWidth_eq hL.coherent (fun _ => rfl) s key]
  refine ends_bind.mpr ((field_ends (hLM.wellMade hL) s key).mono fun res N hN => ?_)
  obtain ⟨hevolves, -, hexact⟩ := hN
  obtain ⟨hres, hcalmN, -⟩ := hexact _ calm_kept hcalm
  have hLN : L.Develops N := hLM.trans ⟨s + 1, hevolves⟩
  have hinner (f : Field) (t : SchemaId) (hf : M.fieldOf s key = .ok f)
      (ht : f.schema? = some t) : (descend t).Ends N fun res O => L.Develops O ∧ O.Calm
        ∧ (¬ IsTooDeep (cold t) → res = cold t) := by
    have hst : L.Leads s t := by
      rcases (hLM.follows hL).fieldOf hL.coherent s key with ⟨g, f', hg, hf', hgf⟩ | ⟨e, -, he⟩
      · obtain rfl := Except.ok.inj (hf.symm.trans hf')
        exact ⟨key, hkey, g, hg, hgf.schema.symm.trans ht⟩
      · exact absurd (hf.symm.trans he) (by simp)
    exact (hdescend t N hLN hcalmN hst).mono fun _ _ hO => ⟨hLN.trans hO.1, hO.2⟩
  unfold coldFieldWidth
  rw [← hres]
  cases res with
  | error e => exact ⟨hLN, hcalmN, fun _ => rfl⟩
  | ok f =>
    cases f with
    | column c => exact ends_pure.mpr ⟨hLN, hcalmN, fun _ => rfl⟩
    | nested _ t => exact hinner _ t hres.symm rfl
    | reference _ t => exact hinner _ t hres.symm rfl

/-- The widths of some fields of a schema, where those of the schemas that it leads to are the ones
without trust. -/
theorem fold_fieldWidth_cold {descend : SchemaId → Build UInt64}
    (cold : SchemaId → Except Error UInt64) {s : SchemaId} (hL : L.WellMade)
    (hdescend : ∀ t M, L.Develops M → M.Calm → L.Leads s t →
      (descend t).Ends M fun res N => M.Develops N ∧ N.Calm ∧ (¬ IsTooDeep (cold t) → res = cold t))
    (keys : List Text) (hkeys : keys ⊆ (L.schema s).fields) (total : UInt64)
    (hLM : L.Develops M) (hcalm : M.Calm) :
    (keys.foldlM (fun total key => (total + ·) <$> fieldWidth descend s key) total).Ends M
      fun res N => L.Develops N ∧ N.Calm ∧
        (let sum := keys.foldlM (fun total key => (total + ·) <$> L.coldFieldWidth cold s key) total
        ¬ IsTooDeep sum → res = sum) := by
  induction keys generalizing total M with
  | nil => exact ends_pure.mpr ⟨hLM, hcalm, fun _ => rfl⟩
  | cons key keys ih =>
    have hfield := fieldWidth_cold cold hL hdescend (hkeys List.mem_cons_self) hLM hcalm
    rw [List.foldlM_cons, List.foldlM_cons]
    refine ends_bind.mpr (ends_map.mpr (hfield.mono fun res N hN => ?_))
    obtain ⟨hLN, hcalmN, hres⟩ := hN
    -- where the field is too deep without trust, so is the sum, and nothing is claimed
    cases hcold : L.coldFieldWidth cold s key with
    | error e =>
      rw [hcold] at hres
      cases res with
      | error e' =>
        refine ⟨hLN, hcalmN, fun hdeep => congrArg Except.error ?_⟩
        exact Except.error.inj (hres fun h => hdeep ((h.map _).bind _))
      | ok w =>
        refine (ih (fun k hk => hkeys (List.mem_cons_of_mem _ hk)) (total + w) hLN hcalmN).mono ?_
        intro _ O hO
        refine ⟨hO.1, hO.2.1, fun hdeep => ?_⟩
        exact absurd (hres fun h => hdeep ((h.map _).bind _)) (by simp)
    | ok w =>
      rw [hcold] at hres
      obtain rfl := hres fun ⟨_, h⟩ => absurd h (by simp)
      exact ih (fun k hk => hkeys (List.mem_cons_of_mem _ hk)) (total + w) hLN hcalmN

/-- A width that is trusted is the one without trust, unless that is too deep. -/
theorem ok_of_trusted {room : Nat} {path : List SchemaId} {s : SchemaId} (hL : L.WellMade)
    (hpath : ∀ p ∈ path, Relation.TransGen L.Leads p s) {total : UInt64}
    (h : (L.schema s).trustedWidth? L.generation = some total)
    (hdeep : ¬ IsTooDeep (L.coldWidthWithin room path s)) :
    .ok total = L.coldWidthWithin room path s := by
  obtain ⟨o, ho, rfl, -⟩ := hL.measured.unfolds h
  exact (ho.cold hpath hdeep).symm

/-- A walk that trusts widths gives what the walk without trust gives, unless that is too deep. -/
theorem widthWithin_cold (room : Nat) (path : List SchemaId) (s : SchemaId) (hL : L.WellMade)
    (hcalm : L.Calm) (hpath : ∀ p ∈ path, Relation.TransGen L.Leads p s) :
    (widthWithin room path s).Ends L fun res _ =>
      ¬ IsTooDeep (L.coldWidthWithin room path s) → res = L.coldWidthWithin room path s := by
  induction room generalizing path s L with
  | zero =>
    exact ends_widthWithin (fun _ => ok_of_trusted hL hpath) (fun _ _ _ => rfl)
      (fun _ h => absurd rfl h) fun _ d hd => absurd hd (by omega)
  | succ room ih =>
    refine ends_widthWithin (fun _ => ok_of_trusted hL hpath)
      (fun _ h => absurd h (Nat.succ_ne_zero room)) (fun _ _ hs _ => ?_) fun _ d hd hs => ?_
    · unfold coldWidthWithin
      rw [if_pos hs]
    · obtain rfl : room = d := by omega
      unfold coldWidthWithin
      rw [if_neg hs]
      refine (fold_fieldWidth_cold (L.coldWidthWithin room (s :: path)) hL
        (fun t M hLM hcalmM hst => ?_) _ (List.Subset.refl _) 0 (.refl L) hcalm).mono ?_
      · -- the walk without trust is the same in the layout that the walk has come to
        have hmade := hLM.wellMade hL
        have hfollows := hLM.follows hL
        have hpath' := hfollows.leads_path hL.coherent (path_cons hpath hst)
        have hcold := hfollows.coldWidthWithin_eq hL.coherent room (s :: path) t
        refine ((widthWithin_ends room (s :: path) t hmade).and
          (ih (s :: path) t hmade hcalmM hpath')).mono fun res N hN => ?_
        rw [hcold] at hN
        exact ⟨hN.1.1, hN.1.2.1 _ calm_kept hcalmM, hN.2⟩
      · intro res M hM
        obtain ⟨-, -, hres⟩ := hM
        cases res with
        | ok total => exact hres
        | error e => exact hres

/-- **A width that is asked for is the one without trust**, whatever is trusted, unless the walk
without trust is too deep. -/
theorem width_cold (s : SchemaId) (hL : L.WellMade) (hcalm : L.Calm)
    (hdeep : ¬ IsTooDeep (L.coldWidth s)) : (width s).outcome L = L.coldWidth s :=
  ends_iff.mp (widthWithin_cold maxDepth [] s hL hcalm fun _ hp => absurd hp (by simp)) hdeep

/-! ### Errors -/

theorem coldFieldWidth_of_fold {descend : SchemaId → Except Error UInt64} {s : SchemaId}
    {keys : List Text} {total sum : UInt64}
    (h : keys.foldlM (fun total key => (total + ·) <$> L.coldFieldWidth descend s key) total
      = .ok sum) : ∀ key ∈ keys, ∃ w, L.coldFieldWidth descend s key = .ok w := by
  induction keys generalizing total with
  | nil => intro key hkey; simp at hkey
  | cons k keys ih =>
    intro key hkey
    rw [List.foldlM_cons] at h
    obtain ⟨_, hk, hrest⟩ := Success.of_bind h
    rcases List.mem_cons.mp hkey with rfl | hkey
    · obtain ⟨w, hw, -⟩ := Success.of_map hk
      exact ⟨w, hw⟩
    · exact ih hrest key hkey

/-- A field that has a width without trust has no errors. -/
theorem fieldErrors_of_cold {descend : SchemaId → Build (List Error)}
    {cold : SchemaId → Except Error UInt64} (hL : L.WellMade) (hcalm : L.Calm)
    (hdescend : ∀ t M, L.Develops M → M.Calm → (∃ n, cold t = .ok n) →
      (descend t).Ends M fun res N => M.Develops N ∧ N.Calm ∧ res = .ok [])
    {s : SchemaId} {key : Text} {w : UInt64} (hw : L.coldFieldWidth cold s key = .ok w) :
    (fieldErrors descend s [] key).Ends L fun res M => L.Develops M ∧ M.Calm ∧ res = .ok [] := by
  have hinner (t : SchemaId) (M : Layout) (hLM : L.Develops M) (hcalmM : M.Calm)
      (ht : cold t = .ok w) : (descend t).Ends M fun res N =>
        L.Develops N ∧ N.Calm ∧ res.map ([] ++ ·) = .ok [] := by
    refine (hdescend t M hLM hcalmM ⟨w, ht⟩).mono fun res N hN => ?_
    obtain ⟨hMN, hcalmN, rfl⟩ := hN
    exact ⟨hLM.trans hMN, hcalmN, rfl⟩
  refine ends_fieldErrors (fun _ _ => ⟨.refl L, hcalm, rfl⟩) (fun t ht => ?_) fun ref href => ?_
  · refine hinner t L (.refl L) hcalm ?_
    rw [coldFieldWidth, fieldOf, ht] at hw
    exact hw
  · refine Ends.mono (resolve_answers hL href) fun res M hM => ?_
    obtain ⟨hevolves, -, hexact⟩ := hM
    obtain ⟨rfl, hcalmM, -⟩ := hexact _ calm_kept hcalm
    rw [coldFieldWidth, fieldOf, href] at hw
    dsimp only at hw
    cases htarget : L.target s ref with
    | error e =>
      rw [htarget] at hw
      exact absurd hw (by simp [Except.map])
    | ok t =>
      rw [htarget] at hw
      exact hinner t M ⟨s + 1, hevolves⟩ hcalmM hw

/-- A schema that has a width without trust has no errors. -/
theorem errorsWithin_of_cold (room : Nat) (path : List SchemaId) (s : SchemaId) (hL : L.WellMade)
    (hcalm : L.Calm) {n : UInt64} (h : L.coldWidthWithin room path s = .ok n) :
    (errorsWithin room path s).Ends L fun res _ => res = .ok [] := by
  induction room generalizing path s L n with
  | zero => exact absurd h (by simp [coldWidthWithin])
  | succ room ih =>
    unfold coldWidthWithin at h
    split at h
    · exact absurd h (by simp)
    · next hs =>
      refine .of_eq ((errorsWithin_succ ..).trans (if_neg hs)) ?_
      have hkeys := coldFieldWidth_of_fold h
      -- each field had a width in the first layout, and has it in all that come after
      have hfold (keys : List Text) (hsub : keys ⊆ (L.schema s).fields) (M : Layout)
          (hLM : L.Develops M) (hcalmM : M.Calm) :
          (keys.foldlM (fieldErrors (errorsWithin room (s :: path)) s) []).Ends M
            fun res N => res = .ok [] := by
        induction keys generalizing M with
        | nil => exact ends_pure.mpr rfl
        | cons key keys ihkeys =>
          have hmade := hLM.wellMade hL
          obtain ⟨w, hw⟩ := hkeys key (hsub List.mem_cons_self)
          rw [← (hLM.follows hL).coldFieldWidth_eq hL.coherent
            (fun t => (hLM.follows hL).coldWidthWithin_eq hL.coherent room (s :: path) t)] at hw
          rw [List.foldlM_cons]
          refine ends_bind.mpr ((fieldErrors_of_cold hmade hcalmM
            (fun t N hMN hcalmN ht => ?_) hw).mono fun res N hN => ?_)
          · have hmadeN := hMN.wellMade hmade
            obtain ⟨n, hn⟩ := ht
            rw [← (hMN.follows hmade).coldWidthWithin_eq hmade.coherent] at hn
            exact ((gentle_pervasive.errorsWithin room (s :: path) t N hmadeN).and
              (ih (s :: path) t hmadeN hcalmN hn)).mono
                fun _ _ hO => ⟨hO.1.1, hO.1.2 _ calm_kept hcalmN, hO.2⟩
          · obtain ⟨hMN, hcalmN, rfl⟩ := hN
            exact ihkeys (fun k hk => hsub (List.mem_cons_of_mem _ hk)) N (hLM.trans hMN) hcalmN
      exact hfold _ (List.Subset.refl _) L (.refl L) hcalm

/-- **A schema that has a width without trust has no errors.** -/
theorem errors_of_cold {s : SchemaId} (hL : L.WellMade) (hcalm : L.Calm) {n : UInt64}
    (h : L.coldWidth s = .ok n) : (errors s).outcome L = .ok [] := by
  have hnone : (errors s).Ends L fun res _ => res = .ok [] := by
    refine ends_map.mpr ((errorsWithin_of_cold maxDepth [] s hL hcalm h).mono fun res _ hres => ?_)
    rw [hres]
    rfl
  exact ends_iff.mp hnone

/-! ### Matches -/

/-- Whether a line fits a schema, given how measuring the schema ends. -/
def fitsMeasured (L : Layout) (s : SchemaId) (line : Text) : Except Error UInt64 → Bool
  | .error _ => false
  | .ok total => (line.trimEnd Text.isWhite).width ≤ total.toNat
      && (L.schema s).condition?.all (· line)

/-- Whether a line fits a schema is read off how measuring the schema ends, if it does. -/
theorem outcome_matchesLine (s : SchemaId) (line : Text) (hL : L.WellMade) :
    (matchesLine s line).outcome L
      = (attempted ((width s).outcome L)).map (L.fitsMeasured s line) := by
  have hends : (matchesLine s line).Ends L fun res _ =>
      res = (attempted ((width s).outcome L)).map (L.fitsMeasured s line) := by
    have houtcome : (width s).Ends L fun res _ => res = (width s).outcome L := ends_iff.mpr rfl
    refine ends_bind.mpr (ends_attempt.mpr (((width_ends s hL).and houtcome).mono ?_))
    intro res M hM
    obtain ⟨⟨hdevelops, -⟩, rfl⟩ := hM
    cases (width s).outcome L with
    | error e =>
      cases hendless : e.isEndless with
      | true =>
        rw [attempted_of_endless hendless]
        rfl
      | false =>
        rw [attempted_of_not_endless hendless]
        exact ends_pure.mpr rfl
    | ok total =>
      refine ends_bind.mpr (ends_schema.mpr (ends_pure.mpr ?_))
      rw [((hdevelops.follows hL).schema s).condition]
      rfl
  exact ends_iff.mp hends

end Layout

end RecordLayout
