import RecordLayout.Proofs.Layout.Measure

/-!
# Schemas that have been validated

A walk that looks for errors resolves all references on its way.  If it finds none, the schema has
an outline, no deeper than the walk could go; and as validation measures the schema in the end, all
widths in it are trusted.

## Main results

* `Layout.validate_ok`: **what a validated schema is**.
-/

namespace RecordLayout

theorem Error.eq_nil_of_distinct {l : List Error} (h : distinct l = []) : l = [] := by
  have hkeeps (l : List Error) (kept : List Error) (hne : kept ≠ []) :
      l.foldl (fun kept e =>
        if kept.any fun k => k.status.render == e.status.render then kept else kept ++ [e]) kept
          ≠ [] := by
    induction l generalizing kept with
    | nil => exact hne
    | cons e l ih =>
      refine ih _ ?_
      dsimp only
      split
      · exact hne
      · simp
  cases l with
  | nil => rfl
  | cons e l => exact absurd h (hkeeps l _ (by simp))

namespace Layout

open Build

variable {L M : Layout}

/-- A field in which no errors are found has an outline. -/
theorem fieldErrors_sound {descend : SchemaId → Build (List Error)} {room : Nat} (hL : L.WellMade)
    (hdescend : ∀ t (M : Layout), M.WellMade → (descend t).Ends M fun res N =>
      M.Develops N ∧ (res = .ok [] → ∃ o, N.Unfolds t o ∧ o.height < room))
    {s : SchemaId} {key : Text} (hkey : key ∈ (L.schema s).fields) (found : List Error) :
    (fieldErrors descend s found key).Ends L fun res M => L.Develops M
      ∧ (res = .ok [] → found = [] ∧ ∃ o, M.UnfoldsTo s [key] o ∧ o.height ≤ room) := by
  -- behind nested schemas and references alike: what is found there is put after what was found
  have hinner (M : Layout) (f : Field) (t : SchemaId) (hLM : L.Develops M)
      (hf : M.known? s key = some f) (ht : f.schema? = some t) :
      (descend t).Ends M fun res N => L.Develops N ∧ (res.map (found ++ ·) = .ok [] →
        found = [] ∧ ∃ o, N.UnfoldsTo s [key] o ∧ o.height ≤ room) := by
    have hmade := hLM.wellMade hL
    refine (hdescend t M hmade).mono fun res N hN => ?_
    obtain ⟨hMN, hsound⟩ := hN
    refine ⟨hLM.trans hMN, fun hres => ?_⟩
    obtain ⟨more, rfl, hnil⟩ := Success.of_map hres
    obtain ⟨rfl, rfl⟩ := List.append_eq_nil_iff.mp hnil
    obtain ⟨o, ho, hheight⟩ := hsound rfl
    obtain ⟨g, hg, hfg⟩ := (hMN.follows hmade).known hf
    refine ⟨rfl, _, .branch hg (hfg.schema.trans ht) ho (.nil s), ?_⟩
    show max (o.height + 1) 0 ≤ room
    omega
  refine ends_fieldErrors (fun hleaf href => ⟨.refl L, fun hfound => ?_⟩) (fun t ht => ?_)
    fun ref href => ?_
  · cases hfind : (L.schema s).find? key with
    | none => exact absurd hkey ((Listing.find?_eq_none_iff _ _).mp hfind)
    | some e =>
      cases e with
      | column c =>
        exact ⟨Except.ok.inj hfound, _, .column (known_of_column hfind) (.nil s), Nat.zero_le _⟩
      | nested t => exact absurd (hleaf _ (known_of_nested hfind)) (by simp [Field.schema?])
      | reference ref => exact absurd hfind (href ref)
  · exact hinner L _ t (.refl L) (known_of_nested ht) rfl
  · refine (resolveBy_ends hL href (visibleAbove_answers hL s _) rfl).mono fun res M hM => ?_
    obtain ⟨hevolves, hfound, -⟩ := hM
    have hLM : L.Develops M := ⟨s + 1, hevolves⟩
    cases res with
    | error e =>
      exact ⟨fun _ => ⟨hLM, fun hres => absurd hres (by simp)⟩,
        fun _ => ⟨hLM, fun hres => absurd (Except.ok.inj hres) (by simp)⟩⟩
    | ok t =>
      obtain ⟨-, q, hq, hqt⟩ := hfound t rfl
      exact hinner M _ t hLM (known_of_reference hq hqt) rfl

/-- Fields in which no errors are found have an outline. -/
theorem fold_fieldErrors_sound {descend : SchemaId → Build (List Error)} {room : Nat}
    (hdescend : ∀ t (M : Layout), M.WellMade → (descend t).Ends M fun res N =>
      M.Develops N ∧ (res = .ok [] → ∃ o, N.Unfolds t o ∧ o.height < room))
    {s : SchemaId} (keys : List Text) (hL : L.WellMade) (hkeys : keys ⊆ (L.schema s).fields)
    (found : List Error) :
    (keys.foldlM (fieldErrors descend s) found).Ends L fun res M => L.Develops M
      ∧ (res = .ok [] → found = [] ∧ ∃ o, M.UnfoldsTo s keys o ∧ o.height ≤ room) := by
  induction keys generalizing L found with
  | nil =>
    exact ends_pure.mpr ⟨.refl L, fun h => ⟨Except.ok.inj h, .done, .nil s, Nat.zero_le _⟩⟩
  | cons key keys ih =>
    rw [List.foldlM_cons]
    refine ends_bind.mpr ((fieldErrors_sound hL hdescend (hkeys List.mem_cons_self) found).mono ?_)
    intro res M hM
    obtain ⟨hLM, hfield⟩ := hM
    cases res with
    | error e => exact ⟨hLM, fun h => absurd h (by simp)⟩
    | ok found' =>
      have hmade := hLM.wellMade hL
      refine (ih hmade (fun k hk => ?_) found').mono fun res N hN => ?_
      · rw [((hLM.follows hL).schema s).fields]
        exact hkeys (List.mem_cons_of_mem _ hk)
      · obtain ⟨hMN, hrest⟩ := hN
        refine ⟨hLM.trans hMN, fun hres => ?_⟩
        obtain ⟨rfl, p, hp, hpheight⟩ := hrest hres
        -- nothing was found in the first field either, as what is found is never forgotten
        obtain ⟨hfound, o, ho, hoheight⟩ := hfield rfl
        obtain ⟨o', ho', hoo'⟩ := ho.follow (hMN.follows hmade)
        obtain ⟨q, hq, -, -, hheight⟩ := ho'.cons hp
        refine ⟨hfound, q, hq, ?_⟩
        rw [hheight, hoo'.height_eq]
        exact Nat.max_le.mpr ⟨hoheight, hpheight⟩

/-- A schema in which no errors are found has an outline. -/
theorem errorsWithin_sound (room : Nat) (path : List SchemaId) (s : SchemaId) (hL : L.WellMade) :
    (errorsWithin room path s).Ends L fun res M => L.Develops M
      ∧ (res = .ok [] → ∃ o, M.Unfolds s o ∧ o.height < room) := by
  induction room generalizing path s L with
  | zero =>
    exact .of_eq (y := pure [L.blocked path s]) rfl
      (ends_pure.mpr ⟨.refl L, fun h => absurd (Except.ok.inj h) (by simp)⟩)
  | succ room ih =>
    by_cases hs : s ∈ path
    · exact .of_eq (y := pure [.cycle (L.schema s).name])
        ((errorsWithin_succ ..).trans (if_pos hs))
        (ends_pure.mpr ⟨.refl L, fun h => absurd (Except.ok.inj h) (by simp)⟩)
    · refine .of_eq ((errorsWithin_succ ..).trans (if_neg hs)) ?_
      refine (fold_fieldErrors_sound (fun t M hM => ih (s :: path) t hM) _ hL
        (List.Subset.refl _) []).mono fun res M hM => ?_
      obtain ⟨hLM, hsound⟩ := hM
      refine ⟨hLM, fun hres => ?_⟩
      obtain ⟨-, o, ho, hheight⟩ := hsound hres
      refine ⟨o, ?_, Nat.lt_succ_of_le hheight⟩
      unfold Unfolds
      rw [((hLM.follows hL).schema s).fields]
      exact ho

/-- A schema with an outline that a walk can go through, all of whose widths are trusted. -/
structure Settled (L : Layout) (s : SchemaId) (o : Outline) : Prop where
  wellMade : L.WellMade
  unfolds : L.Unfolds s o
  height_lt : o.height < maxDepth
  trusts : ∀ t ∈ o.schemas, L.Trusts t
  trusted : (L.schema s).trustedWidth? L.generation = some (UInt64.ofNat o.width)

/-- A settled schema stays so when the layout goes on. -/
theorem Settled.develop {s : SchemaId} {o : Outline} (h : L.Settled s o) (hLM : L.Develops M) :
    ∃ p, M.Settled s p ∧ o.Follows p := by
  obtain ⟨p, hp, hop⟩ := h.unfolds.follow (hLM.follows h.wellMade)
  have hmade := hLM.wellMade h.wellMade
  have htrusts : M.Trusts s :=
    hLM.trusts h.wellMade (Option.isSome_iff_exists.mpr ⟨_, h.trusted⟩)
  obtain ⟨total, htotal⟩ := Option.isSome_iff_exists.mp htrusts
  obtain ⟨q, hq, rfl, -⟩ := hmade.measured.unfolds htotal
  obtain rfl := UnfoldsTo.unique hq hp
  refine ⟨q, ⟨hmade, hp, hop.height_eq ▸ h.height_lt, fun t ht => ?_, htotal⟩, hop⟩
  exact hLM.trusts h.wellMade (h.trusts t (hop.schemas_eq ▸ ht))

/-- **A validated schema has an outline**, and all its widths are trusted. -/
theorem validate_ok {s : SchemaId} (hL : L.WellMade) (hs : s < L.schemas.length)
    (h : validate s L = .ok () M) : L.Develops M ∧ ∃ o, M.Settled s o := by
  have hends : (validate s).Ends L fun res M =>
      res = .ok () → L.Develops M ∧ ∃ o, M.Settled s o := by
    refine ends_bind.mpr (ends_map.mpr ((errorsWithin_sound maxDepth [] s hL).mono ?_))
    intro res M hM
    obtain ⟨hLM, hsound⟩ := hM
    cases res with
    | error e => exact fun h => absurd h (by simp)
    | ok found =>
      dsimp only [Except.map]
      cases hsummary : Error.summary (Error.distinct found) with
      | some e => exact fun h => absurd h (by simp)
      | none =>
        obtain rfl := Error.eq_nil_of_distinct ((Error.summary_eq_none_iff _).mp hsummary)
        obtain ⟨o, ho, hheight⟩ := hsound rfl
        have hmade := hLM.wellMade hL
        refine ends_map.mpr ((width_ends s hmade).mono fun res N hN => ?_)
        obtain ⟨hMN, -, hweighed⟩ := hN
        intro hres
        obtain ⟨total, rfl, -⟩ := Success.of_map hres
        obtain ⟨p, hp, rfl, htrusts, htrust⟩ := hweighed total rfl
        have hfollows := hMN.follows hmade
        obtain ⟨o', ho', hoo'⟩ := ho.follow hfollows
        obtain rfl := UnfoldsTo.unique hp ho'
        have hmadeN := hMN.wellMade hmade
        refine ⟨hLM.trans hMN, p, hmadeN, hp, hoo'.height_eq ▸ hheight, htrusts, ?_⟩
        have htrust := htrust (by rw [hfollows.length, (hLM.follows hL).length]; exact hs)
        obtain ⟨total, htotal⟩ := Option.isSome_iff_exists.mp htrust
        obtain ⟨q, hq, rfl, -⟩ := hmadeN.measured.unfolds htotal
        rw [htotal, UnfoldsTo.unique hq hp]
  exact hends.of_ok h rfl

end Layout

end RecordLayout
