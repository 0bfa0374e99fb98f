import RecordLayout.Proofs.Layout.Travel

/-!
# Searches find what names stand for

A search for a target is a run of changes, and what it finds is what the name stood for before it.
It may fail although there is a target, because the options that are passed on to the target are
refused there.  A property that rules this out, and that the changes leave, is kept by every search;
where it holds, the search finds exactly what there is.  That a layout is calm is such a property.

## Main definitions

* `Layout.Kept`: a property under which references get their targets without an error.
* `Layout.Preserves`: all such properties go on from one layout to the other.
* `Layout.Refuses`, `Layout.Fails`: nothing but notes on failed searches lies between two layouts,
  the last of them on a reference.
* `Layout.Answers`: a computation that changes a layout and gives what `p` says, if it succeeds, or
  in any case if some kept property holds.

## Main results

* `Layout.calm_kept`: calm layouts stay calm.
* `Layout.resolve_answers`, `Layout.visibleSchema_answers`, `Layout.field_ends`.
-/

namespace RecordLayout

namespace Layout

open Build

variable {α : Type} {r : Nat} {L M N : Layout}

/-- The layout in which it is noted why the search for the target of a reference has failed. -/
def refusedAt (L : Layout) (s : SchemaId) (key : Text) (reason : Text) : Layout :=
  L.modifyEntry s key fun
    | .reference ref => .reference (ref.fail reason)
    | entry => entry

/-- A property of layouts under which references get their targets without an error, and which all
that is done where something is looked up or measured leaves. -/
structure Kept (I : Layout → Prop) : Prop where
  /-- A reference gets its target. -/
  bound : ∀ {L : Layout} {s t : SchemaId} {key : Text} {ref : Reference}, L.WellMade → I L →
    (L.schema s).find? key = some (.reference ref) → ref.target? = none →
    L.target s ref = .ok t → (bind s key t).Ends L fun res M => res = .ok () ∧ I M
  /-- A search for a target has failed. -/
  refused : ∀ {L : Layout} {s : SchemaId} {key : Text} {ref : Reference}, I L →
    (L.schema s).find? key = some (.reference ref) → ref.target? = none →
    ∀ reason, I (L.refusedAt s key reason)
  /-- The width of a schema is noted. -/
  measured : ∀ {L : Layout} {s : SchemaId} {o : Outline}, I L → L.Unfolds s o →
    (∀ t ∈ o.schemas, L.Trusts t) → I (L.modify s fun node =>
      { node with knownWidth? := some (UInt64.ofNat o.width, L.generation) })

/-- What is kept holds of the second layout if it does of the first. -/
def Preserves (L M : Layout) : Prop := ∀ I, Kept I → I L → I M

namespace Preserves

theorem refl (L : Layout) : L.Preserves L := fun _ _ h => h

theorem trans (h : L.Preserves M) (h' : M.Preserves N) : L.Preserves N :=
  fun I hI hL => h' I hI (h I hI hL)

end Preserves

/-- One note on a search that has failed. -/
inductive Refused (L : Layout) : Layout → Prop
  | mk {s : SchemaId} {key : Text} {ref : Reference}
    (h : (L.schema s).find? key = some (.reference ref)) (hnone : ref.target? = none)
    (reason : Text) : Refused L (L.refusedAt s key reason)

/-- Nothing but notes on failed searches lies between two layouts. -/
def Refuses : Layout → Layout → Prop := Relation.ReflTransGen Refused

/-- Nothing but notes on failed searches lies between two layouts, and in the second one a reference
has failed with an error. -/
def Fails (L : Layout) (s : SchemaId) (key : Text) (e : Error) (M : Layout) : Prop :=
  L.Refuses M ∧ ∃ q, (M.schema s).find? key = some (.reference q) ∧ q.state = .failed e.message

/-- A computation that is a run of changes and gives what `p` says: if it succeeds, and in any case
where something is kept, which it then leaves.  If there is nothing to give, it leaves no more than
notes on that. -/
def Answers (r : Nat) (L : Layout) (x : Build α) (p : Except Error α) : Prop :=
  x.Ends L fun res M =>
    L.Evolves r M ∧ (∀ a, res = .ok a → p = .ok a)
      ∧ ∀ I, Kept I → I L → res = p ∧ I M ∧ ∀ e, p = .error e → L.Refuses M

theorem Answers.mono {r' : Nat} {x : Build α} {p : Except Error α} (h : L.Answers r x p)
    (hr : r ≤ r') : L.Answers r' x p :=
  Ends.mono h fun _ _ hM => ⟨hM.1.mono hr, hM.2⟩

/-- A computation that changes nothing answers with its result. -/
theorem answers_of_eq {x : Build α} {p : Except Error α} (h : x L = Build.ofExcept p L) :
    L.Answers r x p :=
  .of_eq h (ends_ofExcept.mpr
    ⟨.refl r L, fun _ ha => ha, fun _ _ hL => ⟨rfl, hL, fun _ _ => .refl⟩⟩)

/-! ### Options for a target -/

theorem passOptions_evolves (s : SchemaId) (ref : Reference) (queued : List OptionMap)
    (t : SchemaId) (L : Layout) : (passOptions s ref queued t).Ends L fun _ M => L.Evolves r M := by
  refine ends_bind.mpr ((propagate_evolves (r := r) ref.options t L).mono fun res M hM => ?_)
  cases res with
  | error e => exact hM
  | ok _ =>
    refine ends_bind.mpr (ends_schema.mpr (ends_bind.mpr ?_))
    refine (propagate_evolves (r := r) _ t M).mono fun res N hN => ?_
    cases res with
    | error e => exact hM.trans hN
    | ok _ =>
      exact ends_forM (I := fun N => L.Evolves r N) queued (hM.trans hN) fun m _ K hK =>
        (propagate_evolves m t K).mono fun _ _ hJ => hK.trans hJ

/-- Sound options are passed on to the end. -/
theorem passOptions_sound (s : SchemaId) {t : SchemaId} (ref : Reference) (queued : List OptionMap)
    (hmade : L.WellMade) (hcalm : L.Calm) (hs : s < L.schemas.length) (ht : t < L.schemas.length)
    (hoptions : ref.options.Sound) (hqueued : ∀ m ∈ queued, m.Sound) :
    (passOptions s ref queued t).Ends L fun res M => res = .ok () ∧ M.Calm := by
  have hpass {m : OptionMap} (hm : m.Sound) {M : Layout} (hM : L.Evolves 0 M) (hcalm : M.Calm) :
      (propagate m t).Ends M fun res N => res = .ok () ∧ L.Evolves 0 N ∧ N.Calm := by
    have hends := propagate_sound hm (hM.wellMade hmade) hcalm ((hM.follows hmade).length ▸ ht)
    exact (hends.and (propagate_evolves m t M)).mono
      fun _ _ hN => ⟨hN.1.1, hM.trans hN.2, hN.1.2⟩
  refine ends_bind.mpr ((hpass hoptions (.refl 0 L) hcalm).mono fun res M hM => ?_)
  obtain ⟨rfl, hevolves, hcalmM⟩ := hM
  obtain ⟨hvalid, hschema⟩ := hcalmM.tabled.schema s ((hevolves.follows hmade).length ▸ hs)
  refine ends_bind.mpr (ends_schema.mpr (ends_bind.mpr
    ((hpass (hvalid.sound_defined hschema) hevolves hcalmM).mono fun res N hN => ?_)))
  obtain ⟨rfl, hevolvesN, hcalmN⟩ := hN
  exact (ends_forM_ok (I := fun N => L.Evolves 0 N ∧ N.Calm) queued ⟨hevolvesN, hcalmN⟩
    fun m hm K hK => hpass (hqueued m hm) hK.1 hK.2).mono fun _ _ hK => ⟨hK.1, hK.2.2⟩

/-! ### One reference -/

theorem ends_bindReference {s t : SchemaId} {key : Text} {ref : Reference}
    (h : (L.schema s).find? key = some (.reference ref)) {Q : Except Error Unit → Layout → Prop} :
    (bind s key t).Ends L Q ↔ (passOptions s ref ref.pending t).Ends
      (L.modifyEntry s key fun _ => .reference (ref.bind t).2) Q := by
  unfold bind Ends
  simp only [h]
  exact Iff.rfl

theorem ends_refuse {s : SchemaId} {key : Text} {ref : Reference} {reason : Error}
    {Q : Except Error SchemaId → Layout → Prop} :
    (refuse s key ref reason).Ends L Q ↔
      let e := Error.unresolved ref.storeName (L.schema s).name ref.schemaName reason
      Q (.error e) (L.modifyEntry s key fun
        | .reference q => .reference (q.fail e.message)
        | entry => entry) := Iff.rfl

/-- A reference that has no target before a search among the schemas around has none after it. -/
theorem find_unbound {s : SchemaId} {key : Text} {ref : Reference} {M : Layout}
    (h : L.Follows s M) (href : (L.schema s).find? key = some (.reference ref))
    (hnone : ref.target? = none) :
    ∃ q, (M.schema s).find? key = some (.reference q) ∧ q.target? = none
      ∧ ReferenceFollows s L s ref q := by
  obtain ⟨q, hq, hfollows⟩ := h.find_reference href
  refine ⟨q, hq, ?_, hfollows⟩
  cases hqt : q.target? with
  | none => rfl
  | some t => exact absurd (hfollows.found hnone t hqt).1 (Nat.lt_irrefl s)

theorem find_bound {s t : SchemaId} {key : Text} {ref : Reference}
    (href : (L.schema s).find? key = some (.reference ref)) :
    ((L.modifyEntry s key fun _ => .reference (ref.bind t).2).schema s).find? key
      = some (.reference (ref.bind t).2) := by
  rw [find?_modifyEntry href, if_pos ⟨rfl, rfl⟩]

/-- **Calm layouts stay calm**, and in them no options are refused. -/
theorem calm_kept : Kept Calm where
  bound := by
    intro L s t key ref hL hcalm href hnone ht
    have hbound : Change (s + 1) L (L.modifyEntry s key fun _ => .reference (ref.bind t).2) :=
      .bound (Nat.lt_succ_self s) href hnone ht
    have hwaiting : ∀ m ∈ ref.pending, m.Sound := hcalm.waiting s key _ href
    have hcalm' := hcalm.of_change hbound
      (hcalm.waiting.modifyEntry fun _ _ m hm => absurd hm (by simp [Reference.bind]))
    have hlength := hbound.follows.length
    rw [ends_bindReference href]
    exact passOptions_sound s ref ref.pending (hbound.wellMade hL).1 hcalm'
      (hlength ▸ lt_of_find? href) (hlength ▸ hL.coherent.target_lt href ht)
      (OptionMap.Held.sound (hcalm.tabled.entry s key _ href)) hwaiting
  refused := by
    intro L s key ref hcalm href hnone reason
    refine hcalm.of_change (r := 0) (.refused href hnone reason)
      (hcalm.waiting.modifyEntry fun e he => ?_)
    obtain rfl := Option.some.inj (he.symm.trans href)
    have hwaiting : ∀ m ∈ ref.pending, m.Sound := hcalm.waiting s key _ href
    exact hwaiting
  measured := by
    intro L s o hcalm ho htrusts
    exact hcalm.of_change (r := 0) (.measured ho htrusts) (hcalm.waiting.modify rfl)

/-- A reference gets the target that it stands for. -/
theorem bind_ends {s t : SchemaId} {key : Text} {ref : Reference} (hL : L.WellMade)
    (href : (L.schema s).find? key = some (.reference ref)) (hnone : ref.target? = none)
    (ht : L.target s ref = .ok t) :
    (bind s key t).Ends L fun res M => L.Evolves (s + 1) M
      ∧ (∃ q, (M.schema s).find? key = some (.reference q) ∧ q.target? = some t)
      ∧ ∀ I, Kept I → I L → res = .ok () ∧ I M := by
  have hbound : Change (s + 1) L (L.modifyEntry s key fun _ => .reference (ref.bind t).2) :=
    .bound (Nat.lt_succ_self s) href hnone ht
  have hmade := (hbound.wellMade hL).1
  have hends : (bind s key t).Ends L fun _ M => L.Evolves (s + 1) M
      ∧ ∃ q, (M.schema s).find? key = some (.reference q) ∧ q.target? = some t := by
    rw [ends_bindReference href]
    refine (passOptions_evolves (r := s + 1) s ref ref.pending t _).mono fun res M hM => ?_
    obtain ⟨q, hq, hfollows⟩ := (hM.follows hmade).find_reference (find_bound href)
    exact ⟨(Evolves.single hbound).trans hM, q, hq, hfollows.kept t rfl⟩
  refine ends_iff.mpr ⟨(ends_iff.mp hends).1, (ends_iff.mp hends).2, fun I hI hIL => ?_⟩
  exact ends_iff.mp (hI.bound hL hIL href hnone ht)

/-- A reference that gets the target it stands for is resolved to it. -/
theorem bind_pure_ends {s t : SchemaId} {key : Text} {ref : Reference} (hL : L.WellMade)
    (href : (L.schema s).find? key = some (.reference ref)) (hnone : ref.target? = none)
    (ht : L.target s ref = .ok t) :
    (bind s key t >>= fun _ => pure t).Ends L fun res M => L.Evolves (s + 1) M
      ∧ (∀ u, res = .ok u → u = t
        ∧ ∃ q, (M.schema s).find? key = some (.reference q) ∧ q.target? = some u)
      ∧ ∀ I, Kept I → I L → res = .ok t ∧ I M := by
  refine ends_bind.mpr ((bind_ends hL href hnone ht).mono fun res M hM => ?_)
  obtain ⟨hevolves, hbound, hkept⟩ := hM
  cases res with
  | error e =>
    refine ⟨hevolves, fun u hu => absurd hu (by simp), fun I hI hIL => ?_⟩
    exact absurd (hkept I hI hIL).1 (by simp)
  | ok _ =>
    refine ends_pure.mpr ⟨hevolves, fun u hu => ?_, fun I hI hIL => ⟨rfl, (hkept I hI hIL).2⟩⟩
    obtain rfl := Except.ok.inj hu
    exact ⟨rfl, hbound⟩

/-- What a reference is resolved to is what it stands for, and is its target from then on. -/
theorem resolveBy_ends {search : Text → Build SchemaId} {p : Text → Except Error SchemaId}
    {s : SchemaId} {key : Text} {ref : Reference} (hL : L.WellMade)
    (href : (L.schema s).find? key = some (.reference ref))
    (hsearch : L.Answers s (search ref.schemaName) (p ref.schemaName))
    (hp : p ref.schemaName = L.seenAbove s ref.schemaName) :
    (resolveBy search s key ref).Ends L fun res M => L.Evolves (s + 1) M
      ∧ (∀ t, res = .ok t → L.standsFor p s ref = .ok t
        ∧ ∃ q, (M.schema s).find? key = some (.reference q) ∧ q.target? = some t)
      ∧ ∀ I, Kept I → I L → res = L.standsFor p s ref ∧ I M
        ∧ ∀ e, L.standsFor p s ref = .error e → L.Fails s key e M := by
  unfold resolveBy
  cases hnone : ref.target? with
  | some t =>
    rw [standsFor_of_target hnone]
    refine ends_pure.mpr ⟨.refl _ L, fun u hu => ⟨hu, ref, href, ?_⟩, fun I _ hIL => ?_⟩
    · rw [hnone, Except.ok.inj hu]
    · exact ⟨rfl, hIL, fun e he => absurd he (by simp)⟩
  | none =>
    refine ends_bind.mpr (ends_attempt.mpr (Ends.mono hsearch fun res M hM => ?_))
    obtain ⟨hevolves, hfound, hexact⟩ := hM
    have hmade := hevolves.wellMade hL
    have hfollows := hevolves.follows hL
    -- the search resolves references of the schemas around, but not this one
    obtain ⟨q, hq, hqnone, hrq⟩ := find_unbound hfollows href hnone
    have hevolves' : L.Evolves (s + 1) M := hevolves.mono (Nat.le_succ s)
    cases res with
    | ok t =>
      have hstands : L.standsFor p s ref = .ok t := by
        unfold standsFor
        rw [hnone, hfound t rfl]
      have htarget : M.target s q = .ok t := by
        rw [hfollows.target_eq hL.coherent hrq]
        unfold target standsFor
        rw [hnone, ← hp, hfound t rfl]
      refine (bind_pure_ends hmade hq hqnone htarget).mono fun res N hN => ?_
      obtain ⟨hevolvesN, hbound, hkept⟩ := hN
      refine ⟨hevolves'.trans hevolvesN, fun u hu => ?_, fun I hI hIL => ?_⟩
      · obtain ⟨rfl, q, hq⟩ := hbound u hu
        exact ⟨hstands, q, hq⟩
      · obtain ⟨hres, hIN⟩ := hkept I hI (hexact I hI hIL).2.1
        exact ⟨hres.trans hstands.symm, hIN, fun e he => absurd (hstands.symm.trans he) (by simp)⟩
    | error reason =>
      by_cases hendless : reason.isEndless = true
      · -- where all that is done is kept, the search fails for a reason that is no such thing
        rw [attempted_of_endless hendless]
        refine ⟨hevolves', fun t ht => absurd ht (by simp), fun I hI hIL => ?_⟩
        have hreason := seenAbove_not_isEndless (hp.symm.trans (hexact I hI hIL).1.symm)
        exact absurd (hendless.symm.trans hreason) (by decide)
      · rw [attempted_of_not_endless (eq_false_of_ne_true hendless)]
        refine ends_refuse.mpr ⟨hevolves'.trans (.single (.refused hq hqnone _)),
          fun t ht => absurd ht (by simp), fun I hI hIL => ?_⟩
        obtain ⟨hreason, hIM, hrefuses⟩ := hexact I hI hIL
        have hstands : L.standsFor p s ref
            = .error (.unresolved q.storeName (M.schema s).name q.schemaName reason) := by
          unfold standsFor
          rw [hnone, ← hreason, (hfollows.schema s).name, hrq.storeName, hrq.schemaName]
        refine ⟨?_, hI.refused hIM hq hqnone _, fun e he => ⟨?_, q.fail e.message, ?_, rfl⟩⟩
        · rw [hstands, hrq.storeName, hrq.schemaName]
        · exact (hrefuses reason hreason.symm).tail (.mk hq hqnone _)
        · rw [find?_modifyEntry hq, if_pos ⟨rfl, rfl⟩, ← Except.error.inj (hstands.symm.trans he),
            hrq.storeName, hrq.schemaName]

theorem resolveBy_answers {search : Text → Build SchemaId} {p : Text → Except Error SchemaId}
    {s : SchemaId} {key : Text} {ref : Reference} (hL : L.WellMade)
    (href : (L.schema s).find? key = some (.reference ref))
    (hsearch : L.Answers s (search ref.schemaName) (p ref.schemaName))
    (hp : p ref.schemaName = L.seenAbove s ref.schemaName) :
    L.Answers (s + 1) (resolveBy search s key ref) (L.standsFor p s ref) :=
  (resolveBy_ends hL href hsearch hp).mono
    fun _ _ hM => ⟨hM.1, fun t ht => (hM.2.1 t ht).1, fun I hI hIL =>
      ⟨(hM.2.2 I hI hIL).1, (hM.2.2 I hI hIL).2.1, fun e he => ((hM.2.2 I hI hIL).2.2 e he).1⟩⟩

/-! ### Names -/

/-- What a catalog lists is read off it. -/
theorem listedSchema_eq (L : Layout) (s : SchemaId) (missing : Error) (name : Text) :
    listedSchema s missing name L = Build.ofExcept (L.listedFor s missing name) L := by
  unfold listedSchema listedFor
  cases (L.schema s).catalog? with
  | none => rfl
  | some c =>
    dsimp only
    cases (L.catalog c).find? name <;> rfl

theorem listedSchema_answers (s : SchemaId) (missing : Error) (name : Text) :
    L.Answers r (listedSchema s missing name) (L.listedFor s missing name) :=
  answers_of_eq (listedSchema_eq L s missing name)

theorem visibleFrom_answers {above : Error → Text → Build SchemaId}
    {p : Error → Text → Except Error SchemaId} {s : SchemaId} (hL : L.WellMade)
    (habove : ∀ e n, L.Answers s (above e n) (p e n))
    (hp : ∀ n, p (.noParent (L.schema s).name) n = L.seenAbove s n) (name : Text) :
    L.Answers (s + 1) (visibleFrom above s name) (L.seenFrom p s name) := by
  unfold seenFrom
  cases hfind : (L.schema s).find? name with
  | none =>
    refine Ends.of_eq (y := above (.notVisible name (L.schema s).name) name) ?_
      ((habove _ _).mono (Nat.le_succ s))
    simp only [visibleFrom, hfind]
  | some e =>
    cases e with
    | column c => exact answers_of_eq (by simp only [visibleFrom, hfind]; rfl)
    | nested t => exact answers_of_eq (by simp only [visibleFrom, hfind]; rfl)
    | reference ref =>
      refine Ends.of_eq (y := resolveBy (above (.noParent (L.schema s).name)) s name ref) ?_
        (resolveBy_answers hL hfind (habove _ _) (hp _))
      simp only [visibleFrom, hfind]

/-- The schemas around are searched from the innermost outwards; each is older than the last. -/
theorem visibleIn_answers (hL : L.WellMade) {s : SchemaId} {around : List SchemaId}
    (haround : (L.schema s).ancestors = around) (name : Text) :
    L.Answers (s + 1) (visibleIn around s name) (L.seenIn around s name) := by
  induction around generalizing s name with
  | nil =>
    refine visibleFrom_answers hL (fun e n => listedSchema_answers s e n) (fun n => ?_) name
    unfold seenAbove
    rw [haround]
  | cons parent around ih =>
    have hparent := hL.coherent.ancestors_tail s parent around haround
    have holder : parent + 1 ≤ s :=
      hL.coherent.ancestors_lt s parent (by rw [haround]; exact List.mem_cons_self)
    refine visibleFrom_answers hL (fun _ n => (ih hparent n).mono holder) (fun n => ?_) name
    unfold seenAbove
    rw [haround]

theorem visibleAbove_answers (hL : L.WellMade) (s : SchemaId) (name : Text) :
    L.Answers s (visibleAbove s name) (L.seenAbove s name) := by
  unfold seenAbove
  cases haround : (L.schema s).ancestors with
  | nil =>
    refine Ends.of_eq (y := listedSchema s (.noParent (L.schema s).name) name) ?_
      (listedSchema_answers s _ name)
    simp only [visibleAbove, haround]
  | cons parent around =>
    have hparent := hL.coherent.ancestors_tail s parent around haround
    have holder : parent + 1 ≤ s :=
      hL.coherent.ancestors_lt s parent (by rw [haround]; exact List.mem_cons_self)
    refine Ends.of_eq (y := visibleIn around parent name) ?_
      ((visibleIn_answers hL hparent name).mono holder)
    simp only [visibleAbove, haround]

/-- **A name that is looked up is what it stands for.** -/
theorem visibleSchema_answers (hL : L.WellMade) (s : SchemaId) (name : Text) :
    L.Answers (s + 1) (visibleSchema s name) (L.seenIn (L.schema s).ancestors s name) :=
  visibleIn_answers hL rfl name

/-- **A reference is resolved to its target.** -/
theorem resolve_answers (hL : L.WellMade) {s : SchemaId} {key : Text} {ref : Reference}
    (href : (L.schema s).find? key = some (.reference ref)) :
    L.Answers (s + 1) (resolve s key ref) (L.target s ref) :=
  resolveBy_answers hL href (visibleAbove_answers hL s _) rfl

/-! ### Fields -/

/-- What holds of looking up a field that is known. -/
theorem field_ends_of_known {s : SchemaId} {key : Text} {f : Field}
    (h : L.known? s key = some f) :
    (field s key).Ends L fun res M => L.Evolves r M
      ∧ (∀ f, res = .ok f → L.fieldOf s key = .ok f ∧ M.known? s key = some f)
      ∧ ∀ I, Kept I → I L → res = L.fieldOf s key ∧ I M
        ∧ ∀ e, L.fieldOf s key = .error e → L.Refuses M := by
  refine .of_eq (y := pure f) (field_of_known h) (ends_pure.mpr ⟨.refl _ L, fun g hg => ?_, ?_⟩)
  · obtain rfl := Except.ok.inj hg
    exact ⟨fieldOf_of_known h, h⟩
  · exact fun I _ hIL => ⟨(fieldOf_of_known h).symm, hIL, fun _ _ => .refl⟩

/-- **A field that is looked up is what its key stands for**, and it is known from then on. -/
theorem field_ends (hL : L.WellMade) (s : SchemaId) (key : Text) :
    (field s key).Ends L fun res M => L.Evolves (s + 1) M
      ∧ (∀ f, res = .ok f → L.fieldOf s key = .ok f ∧ M.known? s key = some f)
      ∧ ∀ I, Kept I → I L → res = L.fieldOf s key ∧ I M
        ∧ ∀ e, L.fieldOf s key = .error e → L.Refuses M := by
  cases hfind : (L.schema s).find? key with
  | none =>
    have hfield : L.fieldOf s key = .error (.noField key (L.schema s).name) := by
      rw [fieldOf, hfind]
    refine .of_eq (y := throw (.noField key (L.schema s).name)) ?_ (ends_throw.mpr ?_)
    · simp only [field, hfind]
      rfl
    · exact ⟨.refl _ L, fun f hf => absurd hf (by simp),
        fun I _ hIL => ⟨hfield.symm, hIL, fun _ _ => .refl⟩⟩
  | some e =>
    cases e with
    | column c => exact field_ends_of_known (known_of_column hfind)
    | nested t => exact field_ends_of_known (known_of_nested hfind)
    | reference ref =>
      refine .of_eq (y := Field.reference ref.storeName <$> resolve s key ref)
        (by simp only [field, hfind]) ?_
      have hends := resolveBy_ends hL hfind (visibleAbove_answers hL s _) rfl
      refine ends_map.mpr (hends.mono fun res M hM => ?_)
      obtain ⟨hevolves, hfound, hkept⟩ := hM
      have hfield : L.fieldOf s key = (L.target s ref).map (.reference ref.storeName) := by
        rw [fieldOf, hfind]
      refine ⟨hevolves, fun f hf => ?_, fun I hI hIL => ?_⟩
      · obtain ⟨t, rfl, rfl⟩ := Success.of_map hf
        -- the field has the name of the reference that was looked up, which the new one has too
        obtain ⟨hstands, q, hq, hqt⟩ := hfound t rfl
        obtain ⟨q', hq', hrq⟩ := (hevolves.follows hL).find_reference hfind
        obtain rfl : q' = q := Entry.reference.inj (Option.some.inj (hq'.symm.trans hq))
        refine ⟨?_, ?_⟩
        · rw [hfield, show L.target s ref = .ok t from hstands]
          rfl
        · rw [known_of_reference hq hqt, hrq.storeName]
      · obtain ⟨hres, hIM, hrefuses⟩ := hkept I hI hIL
        refine ⟨by rw [hfield, hres]; rfl, hIM, fun e he => ?_⟩
        rw [hfield] at he
        cases htarget : L.target s ref with
        | ok t => rw [htarget] at he; exact absurd he (by simp [Except.map])
        | error reason => exact (hrefuses reason htarget).1

end Layout

end RecordLayout
