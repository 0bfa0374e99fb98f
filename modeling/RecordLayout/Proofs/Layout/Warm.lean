import RecordLayout.Proofs.Layout.Cold
import RecordLayout.Proofs.Layout.Reached
import RecordLayout.Proofs.Layout.Transcript

/-!
# Widths that are asked for from the inside out

A schema whose outline is too deep for a walk has no width, unless some width inside is trusted.  If
the widths inside are asked for one after the other, from the inside out, no walk goes further than
one step, and in the end the schema has its width, although it still has an error.

## Main definitions

* `Layout.asked`: the layout after some queries.
* `Outline.insideOut`: the schemas inside an outline, each after those inside it.

## Main results

* `Layout.Unfolds.width_insideOut`: **asked from the inside out, every outline has its width**.
* `Layout.Unfolds.errors_ne_nil`: a schema whose outline is too deep has an error.
-/

namespace RecordLayout

open Layout Build

/-- The schemas inside an outline, each after those inside it. -/
def Outline.insideOut : Outline → List SchemaId
  | .done => []
  | .column _ rest => rest.insideOut
  | .branch _ t _ inner rest => inner.insideOut ++ t :: rest.insideOut

theorem Outline.Follows.trans {o p q : Outline} (hop : o.Follows p) (hpq : p.Follows q) :
    o.Follows q := by
  induction hop generalizing q with
  | done => exact hpq
  | column h _ ih =>
    cases hpq with
    | column h' hrest => exact .column (h.trans h') (ih hrest)
  | branch key t name _ _ ihinner ihrest =>
    cases hpq with
    | branch _ _ _ hinner hrest => exact .branch key t name (ihinner hinner) (ihrest hrest)

theorem Outline.Follows.refl (o : Outline) : o.Follows o := by
  induction o with
  | done => exact .done
  | column c _ ih => exact .column (.refl c) ih
  | branch key t name _ _ ihinner ihrest => exact .branch key t name ihinner ihrest

namespace Layout

variable {L M : Layout} {s : SchemaId} {o : Outline}

/-! ### Queries one after the other -/

/-- The layout after some queries, each of which may fail. -/
def asked (L : Layout) (queries : List Query) : Layout :=
  queries.foldl (fun L q => q.run.after L) L

theorem asked_develops (hL : L.WellMade) (queries : List Query) :
    L.Develops (L.asked queries) ∧ L.Preserves (L.asked queries) := by
  induction queries generalizing L with
  | nil => exact ⟨.refl L, .refl L⟩
  | cons q queries ih =>
    obtain ⟨hdevelops, hpreserves⟩ := ends_iff.mp (q.gentle L hL)
    obtain ⟨hdevelops', hpreserves'⟩ := ih (hdevelops.wellMade hL)
    exact ⟨hdevelops.trans hdevelops', hpreserves.trans hpreserves'⟩

theorem asked_append (L : Layout) (queries more : List Query) :
    L.asked (queries ++ more) = (L.asked queries).asked more := List.foldl_append

/-! ### One step -/

/-- Where all schemas inside are trusted, the widths of the fields add up without a further step. -/
theorem UnfoldsTo.sums {keys : List Text} (ho : L.UnfoldsTo s keys o)
    (htrusts : ∀ t ∈ o.schemas, L.Trusts t) (descend : SchemaId → Build UInt64)
    (hdescend : ∀ t i, L.Unfolds t i → L.Trusts t → Yields (descend t) L (UInt64.ofNat i.width))
    (total : UInt64) :
    Yields (keys.foldlM (fun total key => (total + ·) <$> fieldWidth descend s key) total) L
      (total + UInt64.ofNat o.width) := by
  induction ho generalizing total with
  | nil s =>
    show Yields (pure total) L (total + 0)
    rw [UInt64.add_zero]
    exact yields_pure total L
  | @column s key keys c rest h _ ih =>
    rw [List.foldlM_cons, Outline.width, ← ofNat_add_ofNat, ← codec_width_eq, ← UInt64.add_assoc]
    have hfield : Yields (fieldWidth descend s key) L c.width :=
      Yields.bind (field_of_known h) (yields_pure _ L)
    exact (hfield.map _).bind (ih htrusts _)
  | @branch s t key keys f inner rest h ht hinner _ _ ih =>
    rw [List.foldlM_cons, Outline.width, ← ofNat_add_ofNat, ← UInt64.add_assoc]
    have hstep := hdescend t inner hinner (htrusts t List.mem_cons_self)
    have hfield : Yields (fieldWidth descend s key) L (UInt64.ofNat inner.width) := by
      refine Yields.bind (field_of_known h) ?_
      cases f with
      | column c => exact absurd ht (by simp [Field.schema?])
      | nested key u => exact Option.some.inj ht ▸ hstep
      | reference key u => exact Option.some.inj ht ▸ hstep
    exact (hfield.map _).bind (ih (fun u hu => htrusts u
      (List.mem_cons_of_mem _ (List.mem_append_right _ hu))) _)

/-- A schema all of whose insides are trusted has its width. -/
theorem Unfolds.width_of_trusts (hL : L.Measured) (ho : L.Unfolds s o)
    (htrusts : ∀ t ∈ o.schemas, L.Trusts t) :
    (width s).outcome L = .ok (UInt64.ofNat o.width) := by
  by_cases htrust : L.Trusts s
  · have hyields := ho.measures hL htrust maxDepth []
    unfold Yields at hyields
    unfold outcome width
    rw [hyields]
  · -- the walk takes one step and finds trusted widths behind every field
    have hnone : (L.schema s).trustedWidth? L.generation = none := by
      rwa [← Option.not_isSome_iff_eq_none]
    have hsum := UnfoldsTo.sums ho htrusts (widthWithin 63 [s])
      (fun t i hi ht => hi.measures hL ht 63 [s]) 0
    rw [UInt64.zero_add] at hsum
    have hkeep : (do
        let total ← (L.schema s).fields.foldlM
          (fun total key => (total + ·) <$> fieldWidth (widthWithin 63 [s]) s key) 0
        keepWidth s total L.generation
        return total : Build UInt64).Ends L fun res _ => res = .ok (UInt64.ofNat o.width) := by
      refine ends_bind.mpr ?_
      unfold Yields at hsum
      unfold Ends
      rw [hsum]
      exact rfl
    refine ends_iff.mp (Ends.of_eq ?_ hkeep)
    unfold width maxDepth widthWithin
    simp only [hnone, List.not_mem_nil, if_false]

/-! ### From the inside out -/

/-- A schema whose width has been asked for is trusted, if all its insides were. -/
theorem Unfolds.trusts_asked (hL : L.WellMade) (hs : s < L.schemas.length) (ho : L.Unfolds s o)
    (htrusts : ∀ t ∈ o.schemas, L.Trusts t) : (L.asked [.width s]).Trusts s := by
  have hafter : L.asked [.width s] = (width s).after L := by
    show (discard (width s)).after L = _
    exact after_map ..
  obtain ⟨hdevelops, -, hweighed⟩ := ends_iff.mp (width_ends s hL)
  obtain ⟨-, -, -, -, htrust⟩ := hweighed _ (ho.width_of_trusts hL.measured htrusts)
  rw [hafter]
  exact htrust (by rwa [(hdevelops.follows hL).length])

/-- After all widths inside have been asked for, from the inside out, they are trusted. -/
theorem UnfoldsTo.trusts_insideOut {p : Outline} (hfollows : o.Follows p) (hL : L.WellMade)
    {keys : List Text} (hp : L.UnfoldsTo s keys p) :
    ∀ t ∈ o.schemas, (L.asked (o.insideOut.map .width)).Trusts t := by
  induction o generalizing L p s keys with
  | done => exact fun t ht => absurd ht (by simp [Outline.schemas])
  | column c rest ih =>
    cases hfollows with
    | column _ hrest =>
      cases hp with
      | column _ hp => exact ih hrest hL hp
  | branch _ t _ inner rest ihinner ihrest =>
    have hlt := hp.schemas_lt hL.coherent
    rw [Outline.insideOut, List.map_append, asked_append, List.map_cons, ← List.singleton_append,
      asked_append]
    cases hfollows with
    | branch _ _ _ hinnerFollows hrestFollows =>
      cases hp with
      | branch h ht hinner hrest =>
        -- First what is inside the schema is trusted, then the schema, then what comes after it.
        have hinside := ihinner hinnerFollows hL hinner
        obtain ⟨hLM, -⟩ := asked_develops hL (inner.insideOut.map .width)
        generalize L.asked (inner.insideOut.map .width) = M at *
        have hM := hLM.wellMade hL
        obtain ⟨i, hi, hinnerFollows'⟩ := hinner.follow (hLM.follows hL)
        have hiSchemas := (hinnerFollows.trans hinnerFollows').schemas_eq
        have htM : t < M.schemas.length := by
          rw [(hLM.follows hL).length]
          exact hlt t List.mem_cons_self
        have hunfolds : M.Unfolds t i := by
          unfold Unfolds
          rw [((hLM.follows hL).schema t).fields]
          exact hi
        have htrust := hunfolds.trusts_asked hM htM fun u hu => hinside u (hiSchemas ▸ hu)
        obtain ⟨hMN, -⟩ := asked_develops hM [.width t]
        generalize M.asked [.width t] = N at *
        have hN := hMN.wellMade hM
        obtain ⟨r, hr, hrestFollows'⟩ := hrest.follow ((hLM.trans hMN).follows hL)
        have hbehind := ihrest (hrestFollows.trans hrestFollows') hN hr
        obtain ⟨hNO, -⟩ := asked_develops hN (rest.insideOut.map .width)
        intro u hu
        rcases List.mem_cons.mp hu with rfl | hu
        · exact hNO.trusts hN htrust
        · rcases List.mem_append.mp hu with hu | hu
          · exact hNO.trusts hN (hMN.trusts hM (hinside u hu))
          · exact hbehind u hu

/-- **Asked from the inside out, every outline has its width**, however deep it is. -/
theorem Unfolds.width_insideOut (hL : L.WellMade) (ho : L.Unfolds s o) :
    (width s).outcome (L.asked (o.insideOut.map .width)) = .ok (UInt64.ofNat o.width) := by
  have htrusts := UnfoldsTo.trusts_insideOut (.refl o) hL ho
  obtain ⟨hLM, -⟩ := asked_develops hL (o.insideOut.map .width)
  obtain ⟨p, hp, hop⟩ := ho.follow (hLM.follows hL)
  have hwidth := hp.width_of_trusts (hLM.wellMade hL).measured fun t ht =>
    htrusts t (hop.schemas_eq ▸ ht)
  rw [hwidth, hop.width_eq]

/-- A schema whose outline is too deep has an error. -/
theorem Unfolds.errors_ne_nil (hL : L.WellMade) (ho : L.Unfolds s o)
    (hdeep : IsTooDeep (L.coldWidth s)) : (errors s).outcome L ≠ .ok [] := by
  intro hnone
  have hends : (errors s).Ends L fun res M => L.Develops M
      ∧ (res = .ok [] → ∃ p, M.Unfolds s p ∧ p.height < maxDepth) := by
    refine ends_map.mpr ((errorsWithin_sound maxDepth [] s hL).mono fun res M hM => ?_)
    obtain ⟨hLM, hsound⟩ := hM
    refine ⟨hLM, fun hres => hsound ?_⟩
    obtain ⟨found, rfl, hfound⟩ := Success.of_map hres
    rw [Error.eq_nil_of_distinct hfound]
  obtain ⟨hLM, hsound⟩ := ends_iff.mp hends
  obtain ⟨p, hp, hheight⟩ := hsound hnone
  obtain ⟨q, hq, hoq⟩ := ho.follow (hLM.follows hL)
  obtain rfl := UnfoldsTo.unique hp hq
  have hcold : L.coldWidth s = .ok (UInt64.ofNat o.width) :=
    ho.cold_of_height (fun _ h => absurd h (by simp)) (hoq.height_eq ▸ hheight)
  obtain ⟨name, hname⟩ := hdeep
  exact absurd (hcold.symm.trans hname) (by simp)

end Layout

end RecordLayout
