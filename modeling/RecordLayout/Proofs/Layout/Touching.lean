import Mathlib.Logic.Function.Basic
import RecordLayout.Proofs.Layout.Selfsame

/-!
# What a search touches

A search for a name goes outwards from a schema to those around it.  In each of them it looks at the
one field of the name that it has there: if that is a reference without a target, the search goes
on outwards for the name of that target, and the reference gets it, or it is noted why there is
none.  So a search touches one reference of each schema on its way at most.

A reference that gets its target passes options on, and these go everywhere: round the cycles of
references too.  They come to an end there if they equal themselves, and at the references that they
come to they do nothing but wait.

## Main definitions

* `Reference.Gains`: a reference at which more sets may wait than before.
* `Layout.TouchesOnly`: references that are not touched do no more than gain sets.
* `Layout.Touches`: one reference of each schema is touched at most, and that within some bounds.
* `Layout.Roams`: a search that comes to an end by itself, and touches no more than is allowed.
* `Layout.Confined`: what a search for a name from a schema leaves of a layout.

## Main results

* `Layout.bind_touchesOnly`: a reference that gets its target is the only one that is touched.
* `Layout.visibleIn_roams`: a search touches one reference of each schema around at most.
* `Session.Reached.lookups_confined`: **lookups come to an end and touch nothing but the references
  on their way**.
-/

namespace RecordLayout

/-- A reference that is as it was, but that more sets may wait at it. -/
structure Reference.Gains (p q : Reference) : Prop where
  same : q = { p with pending := q.pending }
  pending : p.pending <+: q.pending

namespace Reference.Gains

variable {p q r : Reference}

theorem refl (p : Reference) : p.Gains p := ⟨rfl, List.prefix_rfl⟩

theorem trans (h : p.Gains q) (h' : q.Gains r) : p.Gains r :=
  ⟨by rw [h'.same, h.same], h.pending.trans h'.pending⟩

theorem of_lengthened {m : OptionMap} (h : p.Lengthened m q) : p.Gains q := by
  obtain ⟨n, hn⟩ := h.pending
  exact ⟨h.same, _, hn.symm⟩

end Reference.Gains

namespace Layout

open Build

variable {r : Nat} {L M N : Layout} {s t : SchemaId} {key name : Text} {around : List SchemaId}

/-! ### References that are touched -/

/-- No reference but the touched ones, of which a schema has one at most, does more than gain
sets. -/
def TouchesOnly (touched : SchemaId → Option Text) (L M : Layout) : Prop :=
  ∀ t key, touched t ≠ some key →
    Option.Rel Reference.Gains (L.reference? t key) (M.reference? t key)

/-- One reference of each schema is touched at most, and that within some bounds. -/
def Touches (within : SchemaId → Text → Prop) (L M : Layout) : Prop :=
  ∃ touched : SchemaId → Option Text, (∀ t key, touched t = some key → within t key)
    ∧ L.TouchesOnly touched M

/-- No reference is touched. -/
def nowhere : SchemaId → Option Text := fun _ => none

/-- One reference is touched. -/
def only (s : SchemaId) (key : Text) : SchemaId → Option Text :=
  Function.update nowhere s (some key)

namespace TouchesOnly

variable {touched touched' : SchemaId → Option Text}

theorem refl (touched : SchemaId → Option Text) (L : Layout) : L.TouchesOnly touched L := by
  intro t key _
  cases L.reference? t key with
  | none => exact .none
  | some p => exact .some (.refl p)

theorem trans (h : L.TouchesOnly touched M) (h' : M.TouchesOnly touched N) :
    L.TouchesOnly touched N := by
  intro t key hne
  have hfirst := h t key hne
  have hlast := h' t key hne
  generalize L.reference? t key = p? at hfirst ⊢
  generalize M.reference? t key = q? at hfirst hlast
  generalize N.reference? t key = r? at hlast ⊢
  cases hfirst with
  | none =>
    cases hlast
    exact .none
  | some hpq =>
    cases hlast with
    | some hqr => exact .some (hpq.trans hqr)

theorem mono (h : L.TouchesOnly touched M)
    (hle : ∀ t key, touched t = some key → touched' t = some key) : L.TouchesOnly touched' M :=
  fun t key hne => h t key fun htouched => hne (hle t key htouched)

theorem of_nowhere (h : L.TouchesOnly nowhere M) : L.TouchesOnly touched M :=
  h.mono fun _ _ htouched => absurd htouched (by simp [nowhere])

/-- A change of one field touches nothing else. -/
theorem modifyEntry {e : Entry} (he : (L.schema s).find? key = some e) (f : Entry → Entry) :
    L.TouchesOnly (only s key) (L.modifyEntry s key f) := by
  intro t k hne
  have hother : ¬ (s = t ∧ k = key) := by
    rintro ⟨rfl, rfl⟩
    exact hne (by simp [only])
  unfold reference?
  rw [find?_modifyEntry he, if_neg hother]
  exact refl (only s key) L t k hne

end TouchesOnly

namespace Touches

variable {within within' : SchemaId → Text → Prop}

theorem refl (within : SchemaId → Text → Prop) (L : Layout) : L.Touches within L :=
  ⟨nowhere, fun _ _ h => absurd h (by simp [nowhere]), .refl _ L⟩

theorem mono (h : L.Touches within M) (hle : ∀ t key, within t key → within' t key) :
    L.Touches within' M := by
  obtain ⟨touched, hwithin, hothers⟩ := h
  exact ⟨touched, fun t key ht => hle t key (hwithin t key ht), hothers⟩

/-- A reference of one more schema is touched. -/
theorem tail (h : L.Touches (fun t _ => t ∈ around) M) (hs : s ∉ around)
    (h' : M.TouchesOnly (only s key) N) :
    L.Touches (fun t k => (t = s ∧ k = key) ∨ t ∈ around) N := by
  obtain ⟨touched, hwithin, hothers⟩ := h
  -- the search has touched nothing of this schema, so its place is free for the reference
  refine ⟨Function.update touched s (some key), fun t k ht => ?_, .trans (hothers.mono ?_)
    (h'.mono ?_)⟩
  · by_cases hts : t = s
    · subst hts
      rw [Function.update_self] at ht
      exact .inl ⟨rfl, (Option.some.inj ht).symm⟩
    · rw [Function.update_of_ne hts] at ht
      exact .inr (hwithin t k ht)
  · intro t k ht
    have hts : t ≠ s := fun hts => hs (hts ▸ hwithin t k ht)
    rwa [Function.update_of_ne hts]
  · intro t k ht
    by_cases hts : t = s
    · subst hts
      rw [only, Function.update_self] at ht
      rwa [Function.update_self]
    · rw [only, Function.update_of_ne hts] at ht
      exact absurd ht (by simp [nowhere])

end Touches

/-! ### Options that are passed on -/

/-- A computation has not failed for want of an end. -/
def Halts {α : Type} (res : Except Error α) : Prop := ∀ e, res = .error e → e.isEndless = false

theorem halts_ok {α : Type} (a : α) : Halts (.ok a) := fun _ he => absurd he (by simp)

theorem halts_error {α : Type} {e : Error} (h : e.isEndless = false) :
    Halts (.error e : Except Error α) :=
  fun _ he => Except.error.inj he ▸ h

theorem Halts.map {α β : Type} {res : Except Error α} (h : Halts res) (f : α → β) :
    Halts (res.map f) := by
  cases res with
  | ok a => exact halts_ok _
  | error e => exact halts_error (h e rfl)

theorem Visits.touchesOnly {m : OptionMap} (h : Visits m L M) : L.TouchesOnly nowhere M := by
  intro t key _
  have hrel := h.reference? t key
  generalize L.reference? t key = p? at hrel ⊢
  generalize M.reference? t key = q? at hrel ⊢
  cases hrel with
  | none => exact .none
  | some hpq => exact .some (.of_lengthened hpq)

/-- A set that equals itself comes to its end, round cycles too, and does no more to references than
to wait at them. -/
theorem propagate_halts {m : OptionMap} (hm : m.equal m = true) (hL : L.WellMade)
    (ht : t < L.schemas.length) :
    (propagate m t).Ends L fun res M => Halts res ∧ Visits m L M :=
  .of_eq (y := propagateWithin L.schemas.length m t) rfl
    ((propagateWithin_not_isEndless hm (affords_length hL m (Nat.le_refl _)) ht).and
      (propagateWithin_visits _ m t L))

/-- A reference that gets its target is the only one that is touched. -/
theorem bind_touchesOnly (hL : L.WellMade) (hsame : L.Selfsame) {ref : Reference}
    (href : (L.schema s).find? key = some (.reference ref)) (hnone : ref.target? = none)
    (ht : L.target s ref = .ok t) :
    (bind s key t).Ends L fun res M => Halts res ∧ L.TouchesOnly (only s key) M := by
  have hbound : Change (s + 1) L (L.modifyEntry s key fun _ => .reference (ref.bind t).2) :=
    .bound (Nat.lt_succ_self s) href hnone ht
  have hlt := hL.coherent.target_lt href ht
  rw [ends_bindReference href]
  -- the target is a schema of the layout all along, which no set that equals itself changes
  refine (ends_passOptions (P := Halts) (halts_ok ())
    (I := fun M => M.WellMade ∧ M.Selfsame ∧ t < M.schemas.length ∧ L.TouchesOnly (only s key) M)
    (fun _ hM => hM.2.1.tabled) (fun m hm M hM => ?_) (hsame.tabled.entry s key _ href)
    (hsame.waiting s key _ href)
    ⟨(hbound.wellMade hL).1, hsame.bound href, ?_, .modifyEntry href _⟩).mono
    fun _ _ hM => ⟨hM.1, hM.2.2.2.2⟩
  · obtain ⟨hmade, hsame, hlt, hothers⟩ := hM
    refine (propagate_halts hm hmade hlt).mono fun res N hN => ⟨hN.1, ?_⟩
    have hevolves := hN.2.evolves (r := 0)
    exact ⟨hevolves.wellMade hmade, hN.2.selfsame hm hsame, (hevolves.follows hmade).length ▸ hlt,
      hothers.trans hN.2.touchesOnly.of_nowhere⟩
  · rw [hbound.follows.length]
    exact hlt

/-! ### Searches -/

/-- A search that comes to an end by itself, and touches no more than is allowed. -/
def Roams {α : Type} (within : SchemaId → Text → Prop) (L : Layout) (x : Build α) : Prop :=
  x.Ends L fun res M => Halts res ∧ L.Touches within M

theorem Roams.mono {α : Type} {within within' : SchemaId → Text → Prop} {x : Build α}
    (h : L.Roams within x) (hle : ∀ t key, within t key → within' t key) : L.Roams within' x :=
  Ends.mono h fun _ _ hM => ⟨hM.1, hM.2.mono hle⟩

/-- A computation that only reads the layout touches nothing. -/
theorem roams_of_eq {α : Type} {within : SchemaId → Text → Prop} {x : Build α} {p : Except Error α}
    (h : x L = Build.ofExcept p L) (hp : Halts p) : L.Roams within x :=
  .of_eq h (ends_ofExcept.mpr ⟨hp, .refl within L⟩)

/-- A reference that is resolved is touched, besides what the search for its target touches. -/
theorem resolveBy_roams {search : Text → Build SchemaId} {p : Text → Except Error SchemaId}
    {ref : Reference} (hL : L.WellMade) (hsame : L.Selfsame)
    (href : (L.schema s).find? key = some (.reference ref)) (hs : s ∉ around)
    (hanswers : L.Answers s (search ref.schemaName) (p ref.schemaName))
    (hp : p ref.schemaName = L.seenAbove s ref.schemaName)
    (hleaves : Leaves Selfsame (search ref.schemaName))
    (hroams : L.Roams (fun t _ => t ∈ around) (search ref.schemaName)) :
    L.Roams (fun t k => (t = s ∧ k = key) ∨ t ∈ around) (resolveBy search s key ref) := by
  unfold resolveBy
  cases hnone : ref.target? with
  | some t => exact ends_pure.mpr ⟨halts_ok t, .refl _ L⟩
  | none =>
    refine ends_bind.mpr (ends_attempt.mpr (Ends.mono
      (Ends.and (Ends.and hanswers (hleaves L hsame)) hroams) fun res M hM => ?_))
    obtain ⟨⟨⟨hevolves, hfound, -⟩, hsameM⟩, hhalts, htouches⟩ := hM
    have hfollows := hevolves.follows hL
    obtain ⟨q, hq, hqnone, hrq⟩ := find_unbound hfollows href hnone
    cases res with
    | ok t =>
      have htarget : M.target s q = .ok t := by
        rw [hfollows.target_eq hL.coherent hrq]
        unfold target standsFor
        rw [hnone, ← hp, hfound t rfl]
      refine ends_bind.mpr ((bind_touchesOnly (hevolves.wellMade hL) hsameM hq hqnone htarget).mono
        fun res N hN => ?_)
      cases res with
      | error e => exact ⟨halts_error (hN.1 e rfl), htouches.tail hs hN.2⟩
      | ok _ => exact ends_pure.mpr ⟨halts_ok t, htouches.tail hs hN.2⟩
    | error reason =>
      have hends := hhalts reason rfl
      rw [attempted_of_not_endless hends]
      exact ends_refuse.mpr ⟨halts_error hends, htouches.tail hs (.modifyEntry hq _)⟩

theorem listedSchema_roams {within : SchemaId → Text → Prop} {missing : Error}
    (hmissing : missing.isEndless = false) : L.Roams within (listedSchema s missing name) :=
  roams_of_eq (listedSchema_eq L s missing name) fun _ he => listedFor_not_isEndless hmissing he

/-- A search that begins at a schema touches the reference of the name there at most, besides what
the search above touches. -/
theorem visibleFrom_roams {above : Error → Text → Build SchemaId}
    {p : Error → Text → Except Error SchemaId} (hL : L.WellMade) (hsame : L.Selfsame)
    (hs : s ∉ around) (hanswers : ∀ e n, L.Answers s (above e n) (p e n))
    (hp : ∀ n, p (.noParent (L.schema s).name) n = L.seenAbove s n)
    (hleaves : ∀ e n, Leaves Selfsame (above e n))
    (hroams : ∀ e n, e.isEndless = false → L.Roams (fun t _ => t ∈ around) (above e n))
    (name : Text) :
    L.Roams (fun t k => (t = s ∧ k = name) ∨ t ∈ around) (visibleFrom above s name) := by
  cases hfind : (L.schema s).find? name with
  | none =>
    refine Ends.of_eq (y := above (.notVisible name (L.schema s).name) name)
      (by simp only [visibleFrom, hfind]) ?_
    exact (hroams _ name rfl).mono fun _ _ => .inr
  | some e =>
    cases e with
    | column c =>
      exact roams_of_eq (p := .error (.columnInstead name (L.schema s).name))
        (by simp only [visibleFrom, hfind]; rfl) (halts_error rfl)
    | nested t =>
      exact roams_of_eq (p := .ok t) (by simp only [visibleFrom, hfind]; rfl) (halts_ok t)
    | reference ref =>
      refine Ends.of_eq (y := resolveBy (above (.noParent (L.schema s).name)) s name ref)
        (by simp only [visibleFrom, hfind]) ?_
      exact resolveBy_roams hL hsame hfind hs (hanswers _ _) (hp _) (hleaves _ _) (hroams _ _ rfl)

/-- What a search from the parent touches is within the schemas around. -/
theorem Roams.outwards {parent : SchemaId} {x : Build SchemaId}
    (h : L.Roams (fun t k => (t = parent ∧ k = name) ∨ t ∈ around) x) :
    L.Roams (fun t _ => t ∈ parent :: around) x := by
  refine h.mono fun t k htouched => ?_
  rcases htouched with ⟨rfl, -⟩ | hin
  · exact List.mem_cons_self
  · exact List.mem_cons_of_mem parent hin

theorem Coherent.not_mem_ancestors (hL : L.Coherent) (s : SchemaId) :
    s ∉ (L.schema s).ancestors := fun hs => Nat.lt_irrefl s (hL.ancestors_lt s s hs)

/-- **A search touches one reference of each schema around at most**: each is older than the last,
so none is met twice. -/
theorem visibleIn_roams (hL : L.WellMade) (hsame : L.Selfsame)
    (haround : (L.schema s).ancestors = around) (name : Text) :
    L.Roams (fun t k => (t = s ∧ k = name) ∨ t ∈ around) (visibleIn around s name) := by
  induction around generalizing s name with
  | nil =>
    refine visibleFrom_roams hL hsame (haround ▸ hL.coherent.not_mem_ancestors s)
      (fun e n => listedSchema_answers s e n) (fun n => ?_)
      (leaves_listedSchema Selfsame s) (fun _ _ => listedSchema_roams) name
    unfold seenAbove
    rw [haround]
  | cons parent around ih =>
    have hparent := hL.coherent.ancestors_tail s parent around haround
    have holder : parent + 1 ≤ s :=
      hL.coherent.ancestors_lt s parent (by rw [haround]; exact List.mem_cons_self)
    refine visibleFrom_roams hL hsame (haround ▸ hL.coherent.not_mem_ancestors s)
      (fun _ n => (visibleIn_answers hL hparent n).mono holder) (fun n => ?_)
      (fun _ n => selfsame_lasting.visibleIn around parent n)
      (fun _ n _ => (ih hparent n).outwards) name
    unfold seenAbove
    rw [haround]

theorem visibleSchema_roams (hL : L.WellMade) (hsame : L.Selfsame) (s : SchemaId) (name : Text) :
    L.Roams (fun t k => (t = s ∧ k = name) ∨ t ∈ (L.schema s).ancestors) (visibleSchema s name) :=
  visibleIn_roams hL hsame rfl name

theorem visibleAbove_roams (hL : L.WellMade) (hsame : L.Selfsame) (s : SchemaId) (name : Text) :
    L.Roams (fun t _ => t ∈ (L.schema s).ancestors) (visibleAbove s name) := by
  cases haround : (L.schema s).ancestors with
  | nil =>
    exact Ends.of_eq (y := listedSchema s (.noParent (L.schema s).name) name)
      (by simp only [visibleAbove, haround]) (listedSchema_roams rfl)
  | cons parent around =>
    have hparent := hL.coherent.ancestors_tail s parent around haround
    exact Ends.of_eq (y := visibleIn around parent name) (by simp only [visibleAbove, haround])
      (visibleIn_roams hL hsame hparent name).outwards

theorem field_roams (hL : L.WellMade) (hsame : L.Selfsame) (s : SchemaId) (key : Text) :
    L.Roams (fun t k => (t = s ∧ k = key) ∨ t ∈ (L.schema s).ancestors) (field s key) := by
  cases hfind : (L.schema s).find? key with
  | none =>
    exact roams_of_eq (p := .error (.noField key (L.schema s).name))
      (by simp only [field, hfind]; rfl) (halts_error rfl)
  | some e =>
    cases e with
    | column c =>
      exact roams_of_eq (p := .ok (.column c)) (by simp only [field, hfind]; rfl) (halts_ok _)
    | nested t =>
      exact roams_of_eq (p := .ok (.nested key t)) (by simp only [field, hfind]; rfl) (halts_ok _)
    | reference ref =>
      refine Ends.of_eq (y := Field.reference ref.storeName <$> resolve s key ref)
        (by simp only [field, hfind]) ?_
      have hresolve : L.Roams _ (resolve s key ref) :=
        resolveBy_roams hL hsame hfind (hL.coherent.not_mem_ancestors s)
          (visibleAbove_answers hL s _) rfl (selfsame_lasting.visibleAbove s _)
          (visibleAbove_roams hL hsame s _)
      exact ends_map.mpr (Ends.mono hresolve fun _ _ hM => ⟨hM.1.map _, hM.2⟩)

/-- What a search for a name from a schema leaves of a layout: the fields are where they were, and
no reference is touched but the one that is looked up and one of each schema around. -/
structure Confined (s : SchemaId) (name : Text) (L M : Layout) : Prop where
  /-- No list of fields changes. -/
  fields : ∀ t, (M.schema t).fields = (L.schema t).fields
  /-- What a field is stays the same, and so does a target that has been found. -/
  follows : L.Follows (s + 1) M
  /-- All other references do no more than gain sets. -/
  touches : L.Touches (fun t key => (t = s ∧ key = name) ∨ t ∈ (L.schema s).ancestors) M

theorem Confined.of_evolves (hL : L.WellMade) (h : L.Evolves (s + 1) M)
    (htouches : L.Touches (fun t key => (t = s ∧ key = name) ∨ t ∈ (L.schema s).ancestors) M) :
    L.Confined s name M :=
  ⟨fun t => ((h.follows hL).schema t).fields, h.follows hL, htouches⟩

end Layout

namespace Session

open Layout Build

variable {S : Session}

/-- **Lookups come to an end and touch nothing but the references on their way.**  In every layout
that a session comes to without a NaN being propagated, a field or a name can be looked up from any
schema; however its references are tied up with each other, the options that are passed on come to
an end.  No list of fields changes; and but for the reference that is looked up, and one in each of
the schemas around, no reference changes, except that more sets may wait at it. -/
theorem Reached.lookups_confined (hS : S.Reached fun S m => S.Possible m ∧ m.Proper)
    (s : SchemaId) (name : Text) :
    (Halts ((field s name).outcome S.layout)
        ∧ S.layout.Confined s name ((field s name).after S.layout))
      ∧ Halts ((visibleSchema s name).outcome S.layout)
        ∧ S.layout.Confined s name ((visibleSchema s name).after S.layout) := by
  have hmade := (hS.mono fun _ _ h => h.1).sane.layout.wellMade
  have hsame := hS.selfsame
  constructor
  · obtain ⟨hfield, hhalts, htouches⟩ :=
      ends_iff.mp ((field_ends hmade s name).and (field_roams hmade hsame s name))
    exact ⟨hhalts, .of_evolves hmade hfield.1 htouches⟩
  · obtain ⟨hname, hhalts, htouches⟩ := ends_iff.mp
      (Ends.and (visibleSchema_answers hmade s name) (visibleSchema_roams hmade hsame s name))
    exact ⟨hhalts, .of_evolves hmade hname.1 htouches⟩

/-- Two schemas that refer to each other, with a reference to a reference inside the second, and a
set that has been propagated. -/
def looped : Session :=
  [ .addDefinition "catalog" .empty,
    .addSchema 0 "leaf" .empty,
    .addSchema 0 "root" .empty,
    .declare 0 (.reference "root" "back" .empty),
    .declare 1 (.reference "leaf" "mine" .empty),
    .declare 1 (.reference "leaf" "other" .empty),
    .beginNested 1 "inner" .empty,
    .declare 2 (.reference "mine" "inside" .empty),
    .finish true,
    .ask (.field 0 "back"),
    .propagate (NameMap.empty.insert OptionName.padding (.text "*")) 1].foldl step ⟨[], .empty⟩

theorem reached_looped : looped.Reached fun S m => S.Possible m ∧ m.Proper := by
  refine Reached.start.moves ⟨⟨trivial, trivial⟩,
    ⟨show 0 < List.length _ by decide, trivial⟩,
    ⟨show 0 < List.length _ by decide, trivial⟩, ⟨⟨by decide, trivial⟩, trivial⟩,
    ⟨⟨by decide, trivial⟩, trivial⟩, ⟨⟨by decide, trivial⟩, trivial⟩,
    ⟨show 1 < List.length _ by decide, trivial⟩, ⟨⟨by decide, trivial⟩, trivial⟩,
    ⟨trivial, trivial⟩, ⟨trivial, trivial⟩,
    ⟨show 1 < List.length _ by decide, fun e he => ?_⟩, trivial⟩
  rw [List.mem_singleton.mp he]
  exact .text "*"

/-- The reference inside gets its target through one of the schema around, and options go round the
cycle.  The other reference of that schema is left without a target, but more sets wait at it. -/
theorem lookups_confined_looped :
    let L := looped.layout
    let M := (field 2 "inside").after L
    looped.Reached (fun S m => S.Possible m ∧ m.Proper)
      ∧ Halts ((field 2 "inside").outcome L) ∧ L.Confined 2 "inside" M
      ∧ L.Confined 2 "mine" ((visibleSchema 2 "mine").after L)
      ∧ (L.reference? 2 "inside").map (·.state) = some .unresolved
      ∧ (M.reference? 2 "inside").map (·.state) = some (.resolved 0)
      ∧ (L.reference? 1 "mine").map (·.state) = some .unresolved
      ∧ (M.reference? 1 "mine").map (·.state) = some (.resolved 0)
      ∧ (M.reference? 1 "other").map (·.state) = some .unresolved
      ∧ (L.reference? 1 "other").map (·.pending.length) = some 2
      ∧ (M.reference? 1 "other").map (·.pending.length) = some 4 := by
  intro L M
  obtain ⟨hfield, -⟩ := reached_looped.lookups_confined 2 "inside"
  obtain ⟨-, hname⟩ := reached_looped.lookups_confined 2 "mine"
  exact ⟨reached_looped, hfield.1, hfield.2, hname.2, by decide, by decide +kernel,
    by decide +kernel, by decide +kernel, by decide +kernel, by decide +kernel, by decide +kernel⟩

end Session

end RecordLayout
