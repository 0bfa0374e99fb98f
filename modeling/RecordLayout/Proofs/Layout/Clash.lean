import RecordLayout.Proofs.Layout.Labelled

/-!
# Nested schemas and targets of references

In a schema the name of a nested schema is to be no name of a target.  A reference is compared with
the nested schemas when it is declared, by the name that it looks for; a nested schema is compared
with the references when it is opened, by the names that they look for and by those of the targets
that have been found.  When a reference gets its target nothing is compared any more.  The target
has the name that was looked for, unless a schema around stores a reference to a schema of another
name under it; and then its name may be that of a nested schema.

## Main definitions

* `Layout.Renames`: around a schema a name is that of a reference to a schema of another name.
* `Layout.Spelled`: targets have the names that were looked for, unless a schema around renames.
* `Session.Unmixed`: no nested schema has a name that a reference beside it looks for.
* `Session.ApartBut`: a reference has a target, and only some nested schemas have its name.

## Main results

* `Layout.seenAbove_spelled`: **what a name stands for has that name, unless a schema around
  renames**.
* `Session.step_unmixed`, `Session.step_spelled`, `Session.step_apartBut`: what one move keeps.
* `Session.Reached.nested_apart`: **where nested schemas and targets have different names**.
* `Session.nested_not_apart`: where they have not.
-/

namespace RecordLayout

/-! ### What is compared -/

namespace Schema

variable {node : Schema} {key : Text}

/-- A nested schema that clashes with no reference has another name than each of them looks for,
and than their targets have. -/
theorem apart_of_not_clashing {targetName : SchemaId → Text} {name : Text}
    (h : node.clashingReference? targetName name = none) {ref : Reference}
    (href : node.find? key = some (.reference ref)) :
    ref.schemaName ≠ name ∧ ∀ t, ref.target? = some t → targetName t ≠ name := by
  have hmem : (key, Entry.reference ref) ∈ node.entries.reverse :=
    List.mem_reverse.mpr (Listing.mem_of_find? href)
  have hnone := List.find?_eq_none.mp (Option.map_eq_none_iff.mp h) _ hmem
  simp only [Bool.or_eq_true, beq_iff_eq, not_or] at hnone
  refine ⟨hnone.1, fun t ht hname => hnone.2 ?_⟩
  rw [ht, Option.map_some, hname]

end Schema

/-- A reference that is declared looks for no name of a nested schema, and has no target yet. -/
theorem Declaration.field_reference {d : Declaration} {node : Schema} {key : Text} {ref : Reference}
    (h : d.field node = .ok (key, .reference ref)) :
    ref.target? = none ∧ ∀ t, node.find? ref.schemaName ≠ some (.nested t) := by
  cases d with
  | column name width options =>
    obtain ⟨_, -, h⟩ := Success.of_bind h
    obtain ⟨-, -, -, hcolumn, -⟩ := Schema.codecField_ok h
    exact absurd hcolumn (by simp)
  | codec codec? =>
    cases codec? with
    | none => exact absurd h (by simp [field, Schema.givenField])
    | some codec =>
      obtain ⟨-, -, -, hcolumn, -⟩ := Schema.codecField_ok (of_guard h).2
      exact absurd hcolumn (by simp)
  | filler width padding =>
    obtain ⟨-, -, _, -, hcolumn, -⟩ := Schema.fillerField_ok h
    exact absurd hcolumn (by simp)
  | reference schemaName storeName options =>
    obtain ⟨-, -, hnested, _, -, hmade⟩ := Schema.referenceField_ok h
    obtain rfl := Entry.reference.inj hmade
    refine ⟨rfl, fun t ht => ?_⟩
    rw [show node.find? schemaName = some (.nested t) from ht] at hnested
    exact absurd hnested (Option.some_ne_none t)

namespace Layout

variable {L M : Layout}

/-- A nested schema that is opened has another name than the references of its parent look for, and
than their targets have. -/
theorem openNested_apart {parent child : SchemaId} {name : Text} {options : OptionMap}
    (h : openNested parent name options L = .ok child M) {key : Text} {ref : Reference}
    (href : (L.schema parent).find? key = some (.reference ref)) :
    ref.schemaName ≠ (M.schema child).name
      ∧ ∀ t, ref.target? = some t → (L.schema t).name ≠ (M.schema child).name := by
  obtain ⟨node, -, -, hclash, rfl, rfl⟩ := openNested_ok h
  rw [schema_push, if_pos rfl]
  exact Schema.apart_of_not_clashing hclash href

/-! ### What names stand for -/

/-- One of some schemas stores a reference to a schema of another name under a name. -/
def RenamedIn (L : Layout) (scopes : List SchemaId) (name : Text) : Prop :=
  ∃ a ∈ scopes, ∃ ref, (L.schema a).find? name = some (.reference ref) ∧ ref.schemaName ≠ name

theorem RenamedIn.cons {scopes : List SchemaId} {name : Text} (h : L.RenamedIn scopes name)
    (s : SchemaId) : L.RenamedIn (s :: scopes) name := by
  obtain ⟨a, ha, hfound⟩ := h
  exact ⟨a, List.mem_cons_of_mem s ha, hfound⟩

/-- A schema around stores a reference to a schema of another name under a name. -/
def Renames (L : Layout) (s : SchemaId) (name : Text) : Prop :=
  L.RenamedIn (L.schema s).ancestors name

/-- There is a catalog that is no definition, which may list a schema under any name. -/
def Foreign (L : Layout) : Prop := ∃ c < L.catalogs.length, (L.catalog c).isDefinition = false

/-- Targets that have been found have the names that were looked for, unless a schema around
renames. -/
def Spelled (L : Layout) : Prop :=
  ∀ s key ref t, (L.schema s).find? key = some (.reference ref) → ref.target? = some t →
    (L.schema t).name = ref.schemaName ∨ L.Renames s ref.schemaName ∨ L.Foreign

theorem listedFor_spelled (htitled : L.Titled) {s t : SchemaId} {missing : Error} {name : Text}
    (h : L.listedFor s missing name = .ok t) : (L.schema t).name = name ∨ L.Foreign := by
  unfold listedFor at h
  split at h
  · next c _ =>
    split at h
    · next u hfind =>
      obtain rfl := Except.ok.inj h
      by_cases hc : (L.catalog c).isDefinition = true
      · left
        obtain ⟨found, hmem, hfound⟩ := List.exists_of_findSome?_eq_some hfind
        obtain ⟨e, he, hcandidate⟩ := List.mem_filterMap.mp hmem
        split at hcandidate
        · next hname =>
          obtain ⟨v, hv, hsame⟩ := htitled c hc e he
          obtain rfl : found = some u := hfound
          obtain rfl := Option.some.inj (hv.symm.trans (Option.some.inj hcandidate))
          exact hsame.trans hname
        · exact absurd hcandidate (by simp)
      · refine .inr ⟨c, Nat.lt_of_not_le fun hle => ?_, Bool.eq_false_iff.mpr hc⟩
        -- a place without a catalog lists nothing
        unfold catalog at hfind
        rw [List.getD_eq_getElem?_getD, List.getElem?_eq_none hle] at hfind
        exact absurd hfind (by simp [Catalog.find?, Catalog.candidates, default])
    · exact absurd h (by simp)
  · exact absurd h (by simp)

/-- What a name stands for inside a schema has that name, if it is so above and no reference to a
schema of another name is stored under it. -/
theorem seenFrom_spelled (hnested : L.NestedNamed) (hspelled : L.Spelled)
    {above : Error → Text → Except Error SchemaId} {s t : SchemaId} {name : Text}
    {around : List SchemaId} (haround : (L.schema s).ancestors = around)
    (habove : ∀ e, above e name = .ok t →
      (L.schema t).name = name ∨ L.RenamedIn around name ∨ L.Foreign)
    (h : L.seenFrom above s name = .ok t) :
    (L.schema t).name = name ∨ L.RenamedIn (s :: around) name ∨ L.Foreign := by
  have hout (h : (L.schema t).name = name ∨ L.RenamedIn around name ∨ L.Foreign) :
      (L.schema t).name = name ∨ L.RenamedIn (s :: around) name ∨ L.Foreign :=
    h.imp id (Or.imp (fun hrenamed => hrenamed.cons s) id)
  unfold seenFrom at h
  split at h
  · exact absurd h (by simp)
  · next child hchild =>
    obtain rfl := Except.ok.inj h
    exact .inl (hnested s name child hchild)
  · next ref href =>
    -- a reference that is stored under the name that it looks for does not rename
    by_cases hname : ref.schemaName = name
    · unfold standsFor at h
      split at h
      · next u hu =>
        obtain rfl := Except.ok.inj h
        have hfound := hspelled s name ref u href hu
        unfold Renames at hfound
        rw [hname, haround] at hfound
        exact hout hfound
      · split at h
        · next u hu =>
          obtain rfl := Except.ok.inj h
          rw [hname] at hu
          exact hout (habove _ hu)
        · exact absurd h (by simp)
    · exact .inr (.inl ⟨s, List.mem_cons_self, ref, href, hname⟩)
  · exact hout (habove _ h)

theorem seenIn_spelled (hL : L.Coherent) (hnested : L.NestedNamed) (htitled : L.Titled)
    (hspelled : L.Spelled) {around : List SchemaId} {s t : SchemaId} {name : Text}
    (haround : (L.schema s).ancestors = around) (h : L.seenIn around s name = .ok t) :
    (L.schema t).name = name ∨ L.RenamedIn (s :: around) name ∨ L.Foreign := by
  induction around generalizing s with
  | nil =>
    refine seenFrom_spelled hnested hspelled haround (fun e habove => ?_) h
    exact (listedFor_spelled htitled habove).imp id .inr
  | cons parent around ih =>
    refine seenFrom_spelled hnested hspelled haround (fun e habove => ?_) h
    exact ih (hL.ancestors_tail s parent around haround) habove

/-- **What a name stands for around a schema has that name**, unless a schema around renames. -/
theorem seenAbove_spelled (hL : L.Coherent) (hnested : L.NestedNamed) (htitled : L.Titled)
    (hspelled : L.Spelled) {s t : SchemaId} {name : Text} (h : L.seenAbove s name = .ok t) :
    (L.schema t).name = name ∨ L.Renames s name ∨ L.Foreign := by
  unfold seenAbove at h
  split at h
  · exact (listedFor_spelled htitled h).imp id .inr
  · next parent around haround =>
    unfold Renames
    rw [haround]
    exact seenIn_spelled hL hnested htitled hspelled (hL.ancestors_tail s parent around haround) h

end Layout

namespace Session

open Layout Build

variable {S : Session} {m : Move} {s t : SchemaId} {key : Text} {ref : Reference}

/-! ### One move -/

/-- A nested schema that is being built after a move was so before, or it has just been opened. -/
theorem nested_mem_step {parent child : SchemaId} (h : .nested parent child ∈ (S.step m).sites) :
    .nested parent child ∈ S.sites ∨ ∃ name options M, m = .beginNested parent name options
      ∧ openNested parent name options S.layout = .ok child M := by
  have heffect := S.step_effect m
  generalize S.step m = T at heffect h
  cases heffect with
  | @begunNested p name options node hopen hnode hkey =>
    rcases List.mem_cons.mp h with hnew | hold
    · obtain ⟨rfl, rfl⟩ := Site.nested.inj hnew
      exact .inr ⟨name, options, _, rfl, hopen⟩
    · exact .inl hold
  | begunListed | begunSetup => exact .inl ((List.mem_cons.mp h).resolve_left (by simp))
  | closed hsites | closedNested hsites | closedListed hsites =>
    rw [hsites]
    exact .inl (List.mem_cons_of_mem _ h)
  | _ => exact .inl h

/-- A nested schema keeps its name when its builder begins. -/
theorem name_beginNested {parent child : SchemaId} {name : Text} {options : OptionMap} {M : Layout}
    (h : openNested parent name options S.layout = .ok child M) (t : SchemaId) :
    ((S.step (.beginNested parent name options)).layout.schema t).name = (M.schema t).name := by
  have hstep : (S.step (.beginNested parent name options)).layout = M.markBusy child true := by
    simp only [Session.step, Session.begin, h]
  rw [hstep, name_markBusy]

/-- A reference that is there after a move has been declared by it, or it was there and looked for
the same name. -/
theorem reference_back (hS : S.Sane) (hm : S.Possible m)
    (h : ((S.step m).layout.schema s).find? key = some (.reference ref)) :
    (∃ r p, (S.layout.schema s).find? key = some (.reference p)
        ∧ ReferenceFollows r S.layout s p ref)
      ∨ ∃ d, m = .declare s d ∧ d.field (S.layout.schema s) = .ok (key, .reference ref) := by
  rcases step_find_back hS hm h with ⟨r, e, he, hfollows⟩ | hdeclared | ⟨_, _, -, -, -, hnested⟩
  · cases hfollows with
    | reference hfollows => exact .inl ⟨r, _, he, hfollows⟩
  · exact .inr hdeclared
  · exact absurd hnested (by simp)

/-- A nested schema that is there after a move was there, or its builder has ended. -/
theorem nested_back (hS : S.Sane) (hm : S.Possible m)
    (h : ((S.step m).layout.schema s).find? key = some (.nested t)) :
    (S.layout.schema s).find? key = some (.nested t)
      ∨ m = .finish true ∧ .nested s t ∈ S.sites ∧ key = (S.layout.schema t).name := by
  rcases step_find_back hS hm h with
    ⟨r, e, he, hfollows⟩ | ⟨d, rfl, hfield⟩ | ⟨child, sites, hfinish, hsites, hkey, hchild⟩
  · cases hfollows with
    | nested => exact .inl he
  · exact absurd (Declaration.accepts hm.2 hfield) (by rintro ⟨⟩)
  · obtain rfl := Entry.nested.inj hchild
    exact .inr ⟨hfinish, hsites ▸ List.mem_cons_self, hkey⟩

/-! ### Names that are looked for -/

/-- No nested schema has a name that a reference beside it looks for, and none that is being built
will have. -/
structure Unmixed (S : Session) : Prop where
  layout : ∀ s key ref t, (S.layout.schema s).find? key = some (.reference ref) →
    (S.layout.schema s).find? ref.schemaName ≠ some (.nested t)
  awaits : ∀ parent child key ref, .nested parent child ∈ S.sites →
    (S.layout.schema parent).find? key = some (.reference ref) →
      ref.schemaName ≠ (S.layout.schema child).name

/-- **What one move keeps.** -/
theorem step_unmixed (hS : S.Unmixed) (hsane : S.Sane) (hnamed : S.Named) (hm : S.Orderly m) :
    (S.step m).Unmixed := by
  obtain ⟨hpossible, horderly⟩ := hm
  refine ⟨fun s key ref t href hnested => ?_, fun parent child key ref hsite href => ?_⟩
  · rcases reference_back hsane hpossible href with ⟨r, p, hp, hfollows⟩ | ⟨d, rfl, hfield⟩
    · rcases nested_back hsane hpossible hnested with hold | ⟨-, hsite, hname⟩
      · rw [hfollows.schemaName] at hold
        exact hS.layout s key p t hp hold
      · rw [hfollows.schemaName] at hname
        exact hS.awaits s t key p hsite hp hname
    · rcases nested_back hsane hpossible hnested with hold | ⟨hfinish, -⟩
      · exact (Declaration.field_reference hfield).2 t hold
      · exact absurd hfinish (by simp)
  · rcases nested_mem_step hsite with hold | ⟨name, options, M, rfl, hopen⟩
    · have hchild : child < S.layout.schemas.length := hsane.sites (.nested parent child) hold
      rw [step_name hsane hchild]
      rcases reference_back hsane hpossible href with ⟨r, p, hp, hfollows⟩ | ⟨d, rfl, hfield⟩
      · rw [hfollows.schemaName]
        exact hS.awaits parent child key p hold hp
      · -- no builder declares fields of a schema that another will become a field of
        exact absurd rfl (hnamed.untouched horderly _ hold)
    · rcases reference_back hsane hpossible href with ⟨r, p, hp, hfollows⟩ | ⟨d, hdeclare, -⟩
      · rw [name_beginNested hopen, hfollows.schemaName]
        exact (openNested_apart hopen hp).1
      · exact absurd hdeclare (by simp)

theorem Reached.unmixed (hS : S.Reached Orderly) : S.Unmixed := by
  induction hS with
  | start =>
    refine ⟨fun s key ref t href => ?_, fun _ _ _ _ hsite => absurd hsite List.not_mem_nil⟩
    rw [schema_of_le (L := .empty) (Nat.zero_le s)] at href
    exact absurd href (by simp [Schema.find?, Schema.blank])
  | step hS hm ih => exact step_unmixed ih (hS.mono fun _ _ h => h.1).sane hS.named hm

/-! ### Targets -/

theorem step_renames (hS : S.Sane) (hm : S.Possible m) (hs : s < S.layout.schemas.length)
    {name : Text} (h : S.layout.Renames s name) : (S.step m).layout.Renames s name := by
  obtain ⟨a, ha, p, hp, hname⟩ := h
  obtain ⟨r, e, he, hfollows⟩ := step_find hS hm hp
  cases hfollows with
  | reference hfollows =>
    refine ⟨a, ?_, _, he, ?_⟩
    · rwa [step_ancestors hS hm hs]
    · rwa [hfollows.schemaName]

theorem step_foreign (hS : S.Sane) (h : S.layout.Foreign) : (S.step m).layout.Foreign := by
  obtain ⟨c, hc, hforeign⟩ := h
  obtain ⟨hlt, hcatalog⟩ := step_catalog hS m hc
  refine ⟨c, hlt, ?_⟩
  rw [hcatalog]
  exact hforeign

/-- **What one move keeps of targets**: a reference gets one that has the name it looks for, unless
a schema around renames. -/
theorem step_spelled (hS : S.Sane) (hm : S.Possible m) (hnested : S.layout.NestedNamed)
    (htitled : S.layout.Titled) (h : S.layout.Spelled) : (S.step m).layout.Spelled := by
  intro s key ref t href ht
  have hcoherent := hS.layout.wellMade.coherent
  rcases reference_back hS hm href with ⟨r, p, hp, hfollows⟩ | ⟨d, rfl, hfield⟩
  · -- the target was there, or it is what the name stood for before the move
    have hfound : t < S.layout.schemas.length ∧ ((S.layout.schema t).name = p.schemaName
        ∨ S.layout.Renames s p.schemaName ∨ S.layout.Foreign) := by
      cases hnone : p.target? with
      | some u =>
        obtain rfl : u = t := Option.some.inj ((hfollows.kept u hnone).symm.trans ht)
        exact ⟨hcoherent.bound_lt s key p u hp hnone, h s key p u hp hnone⟩
      | none =>
        have htarget := (hfollows.found hnone t ht).2
        refine ⟨hcoherent.target_lt hp htarget, ?_⟩
        unfold target standsFor at htarget
        rw [hnone] at htarget
        dsimp only at htarget
        split at htarget
        · next u hu =>
          obtain rfl := Except.ok.inj htarget
          exact seenAbove_spelled hcoherent hnested htitled h hu
        · exact absurd htarget (by simp)
    rw [step_name hS hfound.1, hfollows.schemaName]
    exact hfound.2.imp id (Or.imp (step_renames hS hm (lt_of_find? hp)) (step_foreign hS))
  · exact absurd ((Declaration.field_reference hfield).1.symm.trans ht) (by simp)

theorem Reached.spelled (hS : S.Reached Possible) : S.layout.Spelled := by
  induction hS with
  | start =>
    intro s key ref t href
    rw [schema_of_le (L := .empty) (Nat.zero_le s)] at href
    exact absurd href (by simp [Schema.find?, Schema.blank])
  | step hS hm ih =>
    obtain ⟨hnested, htitled⟩ := hS.labelled
    exact step_spelled hS.sane hm hnested htitled ih

/-! ### Targets that have been found -/

/-- A schema is nested in another, or its builder is at work. -/
def Nests (S : Session) (parent child : SchemaId) : Prop :=
  (∃ key, (S.layout.schema parent).find? key = some (.nested child))
    ∨ .nested parent child ∈ S.sites

/-- A reference has a target, and only some nested schemas beside it have the name of that. -/
structure ApartBut (S : Session) (old : SchemaId → Prop) (s : SchemaId) (key : Text)
    (t : SchemaId) : Prop where
  found : ∃ ref, (S.layout.schema s).find? key = some (.reference ref) ∧ ref.target? = some t
  nests : ∀ u, S.Nests s u → (S.layout.schema u).name = (S.layout.schema t).name → old u

/-- **What one move keeps**: a nested schema that it opens is compared with the targets. -/
theorem step_apartBut {old : SchemaId → Prop} (hS : S.Sane) (hm : S.Possible m)
    (h : S.ApartBut old s key t) : (S.step m).ApartBut old s key t := by
  obtain ⟨⟨ref, href, ht⟩, hnests⟩ := h
  have hcoherent := hS.layout.wellMade.coherent
  have hkept : ((S.step m).layout.schema t).name = (S.layout.schema t).name :=
    step_name hS (hcoherent.bound_lt s key ref t href ht)
  -- a schema that was nested, or was being built, has kept its name
  have hold {u : SchemaId} (hu : S.Nests s u) (hname : ((S.step m).layout.schema u).name
      = ((S.step m).layout.schema t).name) : old u := by
    have hplace : u < S.layout.schemas.length := by
      rcases hu with ⟨k, hk⟩ | hsite
      · exact hcoherent.nested_lt s k u hk
      · exact hS.sites (.nested s u) hsite
    rw [step_name hS hplace, hkept] at hname
    exact hnests u hu hname
  constructor
  · obtain ⟨r, e, he, hfollows⟩ := step_find hS hm href
    cases hfollows with
    | reference hfollows => exact ⟨_, he, hfollows.kept t ht⟩
  · rintro u (⟨k, hk⟩ | hsite) hname
    · rcases nested_back hS hm hk with hk | ⟨-, hsite, -⟩
      · exact hold (.inl ⟨k, hk⟩) hname
      · exact hold (.inr hsite) hname
    · rcases nested_mem_step hsite with hsite | ⟨name, options, M, rfl, hopen⟩
      · exact hold (.inr hsite) hname
      · rw [name_beginNested hopen, hkept] at hname
        exact absurd hname.symm ((openNested_apart hopen href).2 t ht)

/-- A nested schema that is opened when a target has been found has another name than that. -/
theorem Reached.nests_of_moves (hS : S.Reached Possible) {moves : List Move}
    (hmoves : S.Allowed Possible moves)
    (href : (S.layout.schema s).find? key = some (.reference ref))
    (ht : ref.target? = some t) {u : SchemaId} (hu : (moves.foldl Session.step S).Nests s u)
    (hname : ((moves.foldl Session.step S).layout.schema u).name
      = ((moves.foldl Session.step S).layout.schema t).name) : S.Nests s u := by
  have hstart : S.ApartBut (S.Nests s) s key t := ⟨⟨ref, href, ht⟩, fun _ hold _ => hold⟩
  have hend := hS.keeps_moves (I := fun T => T.ApartBut (S.Nests s) s key t) hmoves hstart
    fun _ _ hT hm h => step_apartBut hT hm h
  exact hend.nests u hu hname

/-- **Where nested schemas and targets have different names.**  In a session whose builders only
declare fields of the schema they build, for each reference of a schema and each schema nested
there:

* The nested schema has another name than the reference looks for, whichever was declared first.
* It has another name than the target that the reference has got, unless a schema around stores a
  reference to a schema of another name under the name that is looked for; or a catalog that is no
  definition lists schemas under names of its own.
* It has another name than the target in any case if it is opened when the target has been found,
  whatever is done from then on. -/
theorem Reached.nested_apart (hS : S.Reached Orderly)
    (href : (key, .reference ref) ∈ (S.layout.schema s).entries) :
    (∀ k u, (k, .nested u) ∈ (S.layout.schema s).entries →
        (S.layout.schema u).name ≠ ref.schemaName
        ∧ ∀ t, ref.target? = some t → (S.layout.schema u).name = (S.layout.schema t).name →
          S.layout.Renames s ref.schemaName ∨ S.layout.Foreign)
    ∧ ∀ t, ref.target? = some t → ∀ moves, S.Allowed Orderly moves →
      ∀ k u, (k, .nested u) ∈ ((moves.foldl Session.step S).layout.schema s).entries →
        ((moves.foldl Session.step S).layout.schema u).name
            = ((moves.foldl Session.step S).layout.schema t).name →
          S.Nests s u := by
  have hpossible : S.Reached Possible := hS.mono fun _ _ h => h.1
  have hfind := hS.named.layout.find?_of_mem href
  constructor
  · intro k u hu
    have hk := hS.named.layout.find?_of_mem hu
    have hstands : (S.layout.schema u).name = k := hpossible.labelled.1 s k u hk
    have hapart : (S.layout.schema u).name ≠ ref.schemaName := by
      intro hsame
      refine hS.unmixed.layout s key ref u hfind ?_
      rw [← hsame, hstands]
      exact hk
    -- the target has the name that is looked for, where nothing around renames
    refine ⟨hapart, fun t ht hname => ?_⟩
    rcases hpossible.spelled s key ref t hfind ht with hspelled | hexcept
    · exact absurd (hname.trans hspelled) hapart
    · exact hexcept
  · intro t ht moves hmoves k u hu hname
    have hk := (hS.moves hmoves).named.layout.find?_of_mem hu
    exact hpossible.nests_of_moves (hmoves.mono fun _ _ h => h.1) hfind ht (.inl ⟨k, hk⟩) hname

/-! ### A detour -/

/-- A schema `outer` stores a reference to `y` as `x`, and a schema inside it has a nested schema
`y` and then a reference to `x`, which gets its target in the end. -/
def detour : Session :=
  [ .addDefinition "names" .empty,
    .addSchema 0 "y" .empty,
    .addSchema 0 "outer" .empty,
    .declare 1 (.reference "y" "x" .empty),
    .beginNested 1 "inner" .empty,
    .beginNested 2 "y" .empty,
    .declare 3 (.column "a" 1 .empty),
    .finish true,
    .declare 2 (.reference "x" "r" .empty),
    .finish true,
    .ask (.field 2 "r")].foldl step ⟨[], .empty⟩

theorem orderly_detour : detour.Reached Orderly :=
  Reached.start.moves ⟨⟨trivial, trivial⟩,
    ⟨show 0 < List.length _ by decide, trivial⟩,
    ⟨show 0 < List.length _ by decide, trivial⟩,
    ⟨⟨by decide, trivial⟩, by decide⟩,
    ⟨show 1 < List.length _ by decide, by decide⟩,
    ⟨show 2 < List.length _ by decide, by decide⟩,
    ⟨⟨by decide, trivial⟩, by decide⟩, ⟨trivial, trivial⟩,
    ⟨⟨by decide, trivial⟩, by decide⟩, ⟨trivial, trivial⟩, ⟨trivial, trivial⟩,
    trivial⟩

/-- The reference gets the schema `y` of the definition, for which `x` stands outside. -/
theorem reference_detour : ∃ ref : Reference,
    (("r" : Text), Entry.reference ref) ∈ (detour.layout.schema 2).entries
      ∧ ref.schemaName = "x" ∧ ref.target? = some 0 := by
  obtain ⟨ref, href, hprops⟩ := Schema.find_reference_of_any (detour.layout.schema 2) "r"
    (fun ref => ref.schemaName = ("x" : Text) && ref.target? = some 0) (by decide)
  simp only [Bool.and_eq_true, decide_eq_true_eq] at hprops
  exact ⟨ref, Listing.mem_of_find? href, hprops⟩

theorem nested_detour :
    (("y" : Text), Entry.nested 3) ∈ (detour.layout.schema 2).entries := by
  have hfound : ((detour.layout.schema 2).find? "y").bind Entry.nested? = some 3 := by
    decide
  obtain ⟨e, he, hnested⟩ := Option.bind_eq_some_iff.mp hfound
  cases e with
  | column | reference => exact absurd hnested (by simp [Entry.nested?])
  | nested t =>
    obtain rfl := Option.some.inj hnested
    exact Listing.mem_of_find? he

/-- The nested schema has another name than the reference looks for; it has that of the target, as a
schema around renames, and no other that is opened next to it will. -/
theorem nested_apart_detour : ∃ ref : Reference,
    (("r" : Text), Entry.reference ref) ∈ (detour.layout.schema 2).entries
      ∧ (detour.layout.schema 3).name ≠ ref.schemaName
      ∧ (detour.layout.Renames 2 ref.schemaName ∨ detour.layout.Foreign)
      ∧ ∀ k u, (k, .nested u) ∈
          (([.beginNested 2 "z" .empty, .finish true].foldl step detour).layout.schema 2).entries →
        (([.beginNested 2 "z" .empty, .finish true].foldl step detour).layout.schema u).name
            = (([.beginNested 2 "z" .empty, .finish true].foldl step detour).layout.schema 0).name →
          detour.Nests 2 u := by
  obtain ⟨ref, href, -, htarget⟩ := reference_detour
  obtain ⟨hapart, hlater⟩ := orderly_detour.nested_apart href
  obtain ⟨hname, hrenames⟩ := hapart "y" 3 nested_detour
  refine ⟨ref, href, hname, hrenames 0 htarget (by decide), ?_⟩
  refine hlater 0 htarget _ ⟨⟨show 2 < List.length _ by decide, by decide⟩, ?_, ?_⟩
  · exact ⟨trivial, trivial⟩
  · trivial

/-- **A nested schema can have the name of a target**: that of `r` is called `y` too. -/
theorem nested_not_apart : ¬ ∀ S : Session, S.Reached Orderly → ∀ s key ref t k u,
    (key, .reference ref) ∈ (S.layout.schema s).entries → ref.target? = some t →
      (k, .nested u) ∈ (S.layout.schema s).entries →
        (S.layout.schema u).name ≠ (S.layout.schema t).name := by
  intro hall
  obtain ⟨ref, href, -, htarget⟩ := reference_detour
  have hne := hall detour orderly_detour 2 "r" ref 0 "y" 3 href htarget nested_detour
  exact absurd hne (by decide)

end Session

end RecordLayout
