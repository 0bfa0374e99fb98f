import RecordLayout.Proofs.Layout.Abreast
import RecordLayout.Proofs.Layout.Bare
import RecordLayout.Proofs.Layout.Calls

/-!
# Declarations do not depend on what is inherited

Two layouts that are bare the same may differ in all options that can be inherited.  Whatever is
declared in both of them, with builders or without, succeeds in both or fails in both with the same
error, and what comes out is bare the same again: no table that a new schema or a new column stands
under can refuse to be inherited.

## Main definitions

* `Layout.Akin`: layouts as sessions leave them, which are bare the same.
* `Layout.AkinPast`: the states that two such runs come to.

## Main results

* `Declares.abreast`: **builders do the same in layouts that are bare the same**.
-/

namespace RecordLayout

open Build

namespace Layout

variable {L M N : Layout}

/-! ### New schemas -/

/-- A new schema, without the options that may be inherited. -/
def newBare (ancestors : List SchemaId) (scope : Scope) (name : Text) (options : OptionMap) :
    Except Error Schema := do
  let given ← schemaOptions.createTable (options.insert OptionName.name (.text name))
  let name ← Column.textOf (given.get OptionName.name)
  checkName name
  return { Schema.blank with
    name, options := given.bare, ancestors, catalog? := scopeCatalog scope }

/-- What is around a new schema makes no difference for what is bare of it, and none for whether
there is one. -/
theorem Fit.newSchema_bare (h : L.Fit) (scope : Scope) (name : Text) (options : OptionMap) :
    (L.newSchema scope name options).map Schema.bare
      = newBare (L.scopeAncestors scope) scope name options := by
  unfold newSchema newBare
  cases hgiven : schemaOptions.createTable (options.insert OptionName.name (.text name)) with
  | error e => rfl
  | ok given =>
    obtain ⟨-, hschema⟩ := OptionSchema.createTable_valid OptionSchema.distinct_schemaOptions hgiven
    show Except.map Schema.bare (Column.textOf (given.get OptionName.name) >>= _)
      = Column.textOf (given.get OptionName.name) >>= _
    cases Column.textOf (given.get OptionName.name) with
    | error e => rfl
    | ok trimmed =>
      show Except.map Schema.bare (checkName trimmed >>= _) = checkName trimmed >>= _
      cases checkName trimmed with
      | error e => rfl
      | ok _ =>
        cases hscope : L.scopeOptions scope with
        | none => rfl
        | some around =>
          -- what is around is taken over without an error, and leaves the bare table as it is
          have htaken := Schema.unlessRefused_of_none (merge_none hschema (h.held_scope hscope))
          simp only [htaken]
          show Except.ok ({ Schema.blank with
              name := trimmed
              options := (given.merge around).1.bare
              ancestors := L.scopeAncestors scope
              catalog? := scopeCatalog scope }) = _
          rw [OptionTable.bare_merge]
          rfl

/-! ### Two layouts -/

/-- Two layouts as sessions leave them that differ in options that may be inherited, and in the
traces of their travels, at most. -/
structure Akin (L M : Layout) : Prop where
  bare : L.bare = M.bare
  left : L.Fit
  right : M.Fit

namespace Akin

theorem length (h : L.Akin M) : L.schemas.length = M.schemas.length := by
  rw [← length_bare L, h.bare, length_bare]

theorem schema (h : L.Akin M) (s : SchemaId) : (L.schema s).bare = (M.schema s).bare := by
  rw [← schema_bare, h.bare, schema_bare]

theorem catalog (h : L.Akin M) (c : CatalogId) : (L.catalog c).bare = (M.catalog c).bare := by
  rw [← catalog_bare, h.bare, catalog_bare]

theorem name (h : L.Akin M) (s : SchemaId) : (L.schema s).name = (M.schema s).name :=
  Schema.name_of_bare (h.schema s)

theorem catalogs_length (h : L.Akin M) : L.catalogs.length = M.catalogs.length := by
  have hlength (N : Layout) : N.bare.catalogs.length = N.catalogs.length := List.length_map ..
  rw [← hlength L, h.bare, hlength]

theorem scopeExists (h : L.Akin M) {scope : Scope} (hscope : L.ScopeExists scope) :
    M.ScopeExists scope := by
  cases scope with
  | detached => trivial
  | within parent =>
    show parent < M.schemas.length
    rw [← h.length]
    exact hscope
  | under c =>
    show c < M.catalogs.length
    rw [← h.catalogs_length]
    exact hscope

/-- A new schema is made in both layouts or in none. -/
theorem newSchema (h : L.Akin M) (scope : Scope) (name : Text) (options : OptionMap) :
    (∃ a b, L.newSchema scope name options = .ok a ∧ M.newSchema scope name options = .ok b
        ∧ a.bare = b.bare)
      ∨ ∃ e, L.newSchema scope name options = .error e
        ∧ M.newSchema scope name options = .error e := by
  have hancestors : L.scopeAncestors scope = M.scopeAncestors scope := by
    cases scope with
    | detached | under => rfl
    | within parent =>
      show parent :: (L.schema parent).bare.ancestors = parent :: (M.schema parent).bare.ancestors
      rw [h.schema]
  refine Success.of_map_eq ?_
  rw [h.left.newSchema_bare, h.right.newSchema_bare, hancestors]

theorem push (h : L.Akin M) {scope : Scope} (hscope : L.ScopeExists scope) {name : Text}
    {options : OptionMap} {a b : Schema} (ha : L.newSchema scope name options = .ok a)
    (hb : M.newSchema scope name options = .ok b) (hab : a.bare = b.bare) :
    (L.push a).Akin (M.push b) where
  bare := by rw [bare_push, bare_push, h.bare, hab]
  left := h.left.grow (h.left.sane.push hscope ha) rfl
  right := h.right.grow (h.right.sane.push (h.scopeExists hscope) hb) rfl

theorem markBusy (h : L.Akin M) (s : SchemaId) (busy : Bool) :
    (L.markBusy s busy).Akin (M.markBusy s busy) where
  bare := by rw [bare_markBusy, bare_markBusy, h.bare]
  left := h.left.grow (h.left.sane.markBusy s busy) rfl
  right := h.right.grow (h.right.sane.markBusy s busy) rfl

theorem appendNested (h : L.Akin M) (s : SchemaId) (key : Text) {t : SchemaId}
    (ht : t < L.schemas.length) :
    (L.append s key (.nested t)).Akin (M.append s key (.nested t)) where
  bare := by rw [bare_append, bare_append, h.bare]
  left := h.left.grow (h.left.sane.append s key ht trivial trivial trivial) rfl
  right :=
    have hwithin : EntryWithin M.schemas.length (.nested t) := h.length ▸ ht
    h.right.grow (h.right.sane.append s key hwithin trivial trivial trivial) rfl

theorem enlist (h : L.Akin M) (c : CatalogId) {s : SchemaId} (hs : s < L.schemas.length) :
    (L.enlist c s).Akin (M.enlist c s) where
  bare := by rw [bare_enlist, bare_enlist, h.bare]
  left :=
    have hgrown := h.left.sane.enlist c hs
    ⟨⟨hgrown.sane, h.left.stocked.enlist c s⟩, hgrown.calm h.left.calm⟩
  right :=
    have hgrown := h.right.sane.enlist c (h.length ▸ hs)
    ⟨⟨hgrown.sane, h.right.stocked.enlist c s⟩, hgrown.calm h.right.calm⟩

theorem pushDefinition (h : L.Akin M) {name : Text} {options : OptionMap} {definition : Catalog}
    (hnew : newDefinition name options = .ok definition) :
    (L.pushCatalog definition).Akin (M.pushCatalog definition) := by
  have hfit {N : Layout} (hN : N.Fit) : (N.pushCatalog definition).Fit := by
    have hgrown := hN.sane.pushDefinition hnew
    exact ⟨⟨hgrown.sane, hN.stocked.pushCatalog fun _ => newDefinition_valid hnew⟩,
      hgrown.calm hN.calm⟩
  exact ⟨by rw [bare_pushCatalog, bare_pushCatalog, h.bare], hfit h.left, hfit h.right⟩

theorem close (h : L.Akin M) {site : Site} (hsite : site.schema < L.schemas.length)
    (succeeded : Bool) : (site.close L succeeded).Akin (site.close M succeeded) := by
  have hbusy := h.markBusy site.schema false
  have hlt : site.schema < (L.markBusy site.schema false).schemas.length := by
    rw [Layout.markBusy, length_modify]
    exact hsite
  cases succeeded with
  | false => cases site <;> exact hbusy
  | true =>
    cases site with
    | nested parent child =>
      show ((L.markBusy child false).append parent _ (.nested child)).Akin
        ((M.markBusy child false).append parent _ (.nested child))
      rw [show ((L.markBusy child false).schema child).name = _ from hbusy.name child]
      exact hbusy.appendNested parent _ hlt
    | listed c s => exact hbusy.enlist c hlt
    | setup s => exact hbusy

end Akin

theorem length_close (L : Layout) (site : Site) (succeeded : Bool) :
    (site.close L succeeded).schemas.length = L.schemas.length := by
  cases site <;> cases succeeded <;> simp [Site.close, Layout.markBusy, Layout.enlist]

end Layout

/-! ### Two runs -/

theorem Build.Abreast.discard {σ α : Type} {R : σ → σ → Prop}
    {x : EStateM Error σ α} {s t : σ}
    (hx : Abreast R (x s) (x t)) : Abreast R ((discard x) s) ((discard x) t) := by
  rw [discard_apply, discard_apply]
  generalize x s = first at hx ⊢
  generalize x t = second at hx ⊢
  cases hx with
  | ok a h => exact .ok () h
  | error e h => exact .error e h

namespace Layout

open Session

variable {ρ α : Type} {L M : Layout} {n : Nat}

/-- Layouts that are akin and have so many schemas at least, with the same notes. -/
def AkinPast (n : Nat) (state state' : Layout × ρ) : Prop :=
  state.1.Akin state'.1 ∧ n ≤ state.1.schemas.length ∧ state.2 = state'.2

/-- A new schema is opened in two layouts, or in none of them for the same reason. -/
def OpensAlike (x : Build SchemaId) (L M : Layout) : Prop :=
  (∃ a b, x L = .ok L.schemas.length (L.push a) ∧ x M = .ok L.schemas.length (M.push b)
      ∧ (L.push a).Akin (M.push b))
    ∨ ∃ e, x L = .error e L ∧ x M = .error e M

theorem opensAlike_createSchema (h : L.Akin M) {scope : Scope} (hscope : L.ScopeExists scope)
    (name : Text) (options : OptionMap) : OpensAlike (createSchema scope name options) L M := by
  unfold OpensAlike createSchema
  rcases h.newSchema scope name options with ⟨a, b, ha, hb, hab⟩ | ⟨e, ha, hb⟩
  · rw [ha, hb, ← h.length]
    exact .inl ⟨a, b, rfl, rfl, h.push hscope ha hb hab⟩
  · rw [ha, hb]
    exact .inr ⟨e, rfl, rfl⟩

theorem opensAlike_openSchema (h : L.Akin M) {c : CatalogId} (hc : c < L.catalogs.length)
    (name : Text) (options : OptionMap) : OpensAlike (openSchema c name options) L M := by
  unfold OpensAlike openSchema
  rcases h.newSchema (.under c) name options with ⟨a, b, ha, hb, hab⟩ | ⟨e, ha, hb⟩
  · have hfind : (L.catalog c).find? b.name = (M.catalog c).find? b.name := by
      show (L.catalog c).bare.find? b.name = (M.catalog c).bare.find? b.name
      rw [h.catalog]
    have hname : (L.catalog c).name = (M.catalog c).name := by
      show (L.catalog c).bare.name = (M.catalog c).bare.name
      rw [h.catalog]
    rw [ha, hb, ← h.length]
    dsimp only
    rw [Schema.name_of_bare hab, hfind, hname]
    cases (M.catalog c).find? b.name with
    | some t => exact .inr ⟨_, rfl, rfl⟩
    | none =>
      have hscope : L.ScopeExists (.under c) := hc
      exact .inl ⟨a, b, rfl, rfl, h.push hscope ha hb hab⟩
  · rw [ha, hb]
    exact .inr ⟨e, rfl, rfl⟩

theorem opensAlike_openNested (h : L.Akin M) {parent : SchemaId}
    (hparent : parent < L.schemas.length) (name : Text) (options : OptionMap) :
    OpensAlike (openNested parent name options) L M := by
  unfold OpensAlike openNested
  rcases h.newSchema (.within parent) name options with ⟨a, b, ha, hb, hab⟩ | ⟨e, ha, hb⟩
  · have hnames : (fun t => (L.schema t).name) = fun t => (M.schema t).name := funext h.name
    -- both checks see names and kinds only, which the parents share
    have hkey : (L.schema parent).checkNewKey b.name = (M.schema parent).checkNewKey b.name := by
      rw [← Schema.checkNewKey_bare, h.schema, Schema.checkNewKey_bare]
    have hclash (targetName : SchemaId → Text) :
        (L.schema parent).clashingReference? targetName b.name
          = (M.schema parent).clashingReference? targetName b.name := by
      rw [← Schema.clashingReference?_bare, h.schema, Schema.clashingReference?_bare]
    rw [ha, hb, ← h.length]
    dsimp only
    rw [Schema.name_of_bare hab, hkey, hnames, hclash, h.name]
    cases (M.schema parent).checkNewKey b.name with
    | error e => exact .inr ⟨e, rfl, rfl⟩
    | ok _ =>
      cases (M.schema parent).clashingReference? (fun t => (M.schema t).name) b.name with
      | some clash => exact .inr ⟨_, rfl, rfl⟩
      | none =>
        have hscope : L.ScopeExists (.within parent) := hparent
        exact .inl ⟨a, b, rfl, rfl, h.push hscope ha hb hab⟩
  · rw [ha, hb]
    exact .inr ⟨e, rfl, rfl⟩

theorem Akin.add (h : L.Akin M) {d : Declaration} (hd : d.Sound) (s : SchemaId) :
    (∃ key a b, d.field (L.schema s) = .ok (key, a) ∧ d.field (M.schema s) = .ok (key, b)
        ∧ (d.add L s key a).Akin (d.add M s key b))
      ∨ ∃ e, d.field (L.schema s) = .error e ∧ d.field (M.schema s) = .error e := by
  have hgrown {N : Layout} (hN : N.Fit) {key : Text} {e : Entry}
      (hfield : d.field (N.schema s) = .ok (key, e)) : (d.add N s key e).Fit :=
    hN.grow (hN.sane.add (Declaration.accepts hd.1 hfield) (Declaration.receptive hd.2 hfield) d)
      (catalogs_add ..)
  rcases Success.of_map_eq
    (Schema.field_bare (h.schema s) (h.left.held s) (h.right.held s) hd.2) with
    ⟨⟨key, a⟩, ⟨key', b⟩, ha, hb, hab⟩ | herror
  · obtain ⟨rfl, hab⟩ := Prod.mk.inj hab
    refine .inl ⟨key, a, b, ha, hb, ?_, hgrown h.left ha, hgrown h.right hb⟩
    rw [bare_add, bare_add, h.bare, hab]
  · exact .inr herror

/-- A field is declared in both layouts or in none. -/
theorem Akin.run (h : L.Akin M) {d : Declaration} (hd : d.Sound) (s : SchemaId)
    (hn : n ≤ L.schemas.length) (notes : ρ) :
    Abreast (AkinPast n) (keepNotes (d.run s) (L, notes)) (keepNotes (d.run s) (M, notes)) := by
  unfold keepNotes
  dsimp only
  rw [d.run_apply, d.run_apply]
  rcases h.add hd s with ⟨key, a, b, ha, hb, hadded⟩ | ⟨e, ha, hb⟩
  · rw [ha, hb]
    exact .ok () ⟨hadded, by rw [length_add]; exact hn, rfl⟩
  · rw [ha, hb]
    exact .error e ⟨h, hn, rfl⟩

/-- A builder that does the same in both layouts is at work in both. -/
theorem abreast_building (h : L.Akin M) {x : Build SchemaId} (hx : OpensAlike x L M)
    {site : SchemaId → Site} (hsite : ∀ s, (site s).schema = s) {build : Builder ρ}
    (hbuild : ∀ s (L M : Layout) (notes : ρ), L.Akin M → s < L.schemas.length →
      Abreast (AkinPast (s + 1)) (build s (L, notes)) (build s (M, notes)))
    (hn : n ≤ L.schemas.length) (notes : ρ) :
    Abreast (AkinPast n) (building site x build (L, notes)) (building site x build (M, notes)) := by
  unfold building
  dsimp only
  rcases hx with ⟨a, b, ha, hb, hpush⟩ | ⟨e, ha, hb⟩
  · rw [ha, hb]
    dsimp only
    have hbusy := hpush.markBusy L.schemas.length true
    have hlt : L.schemas.length < ((L.push a).markBusy L.schemas.length true).schemas.length := by
      rw [markBusy, length_modify]
      exact lt_length_push ..
    -- the builder is given the same schema in both layouts, which is the newest one
    have hbuilt := hbuild _ _ _ notes hbusy hlt
    have hclose {N N' : Layout} (hN : N.Akin N') (hlength : L.schemas.length < N.schemas.length)
        (succeeded : Bool) (notes : ρ) : AkinPast n
          ((site L.schemas.length).close N succeeded, notes)
          ((site L.schemas.length).close N' succeeded, notes) :=
      ⟨hN.close (by rw [hsite]; exact hlength) succeeded,
        by rw [length_close]; exact Nat.le_of_lt (Nat.lt_of_le_of_lt hn hlength), rfl⟩
    generalize build L.schemas.length (_, notes) = first at hbuilt ⊢
    generalize build L.schemas.length (_, notes) = second at hbuilt ⊢
    cases hbuilt with
    | @ok _ state state' hstate =>
      obtain ⟨hN, hlength, hnotes⟩ := hstate
      rw [show state' = (state'.1, state.2) from Prod.ext rfl hnotes.symm]
      exact .ok _ (hclose hN hlength true state.2)
    | @error e state state' hstate =>
      obtain ⟨hN, hlength, hnotes⟩ := hstate
      rw [show state' = (state'.1, state.2) from Prod.ext rfl hnotes.symm]
      exact .error e (hclose hN hlength false state.2)
  · rw [ha, hb]
    exact .error e ⟨h, hn, rfl⟩

end Layout

/-! ### Builders -/

open Layout Session

variable {ρ α : Type} {same : Layout → Layout → Prop}

/-- **Builders do the same in layouts that are bare the same**: they come to the same result or to
the same error, with the same notes, and leave layouts that are bare the same. -/
theorem Declares.abreast (hsame : ∀ L M, L.bare = M.bare → same L M) {s : SchemaId}
    {x : BuildWith ρ α} (hx : Declares same Declaration.Sound s x) {state state' : Layout × ρ}
    (h : AkinPast (s + 1) state state') : Abreast (AkinPast (s + 1)) (x state) (x state') := by
  induction hx generalizing state state' with
  | pure s a => exact .ok a h
  | throw s e => exact .error e h
  | look s hf =>
    obtain ⟨L, notes⟩ := state
    obtain ⟨M, notes'⟩ := state'
    have hseen := hf L M (hsame L M h.1.bare)
    show Abreast _ (.ok (_ : _) (L, notes)) (.ok _ (M, notes'))
    rw [hseen]
    exact .ok _ h
  | note s f =>
    obtain ⟨L, notes⟩ := state
    obtain ⟨M, notes'⟩ := state'
    obtain ⟨hakin, hs, rfl⟩ := h
    exact .ok (f notes).1 ⟨hakin, hs, rfl⟩
  | bind hx hf ihx ihf => exact (ihx h).bind (fun a _ _ hnext => ihf a hnext) fun _ _ => id
  | @rescue s α x handle hx hhandle ihx ihhandle =>
    have hfirst := ihx h
    rw [rescue_apply, rescue_apply]
    generalize x state = first at hfirst ⊢
    generalize x state' = second at hfirst ⊢
    cases hfirst with
    | ok a hnext => exact .ok a hnext
    | error e hnext => exact ihhandle e hnext
  | field s hd =>
    obtain ⟨L, notes⟩ := state
    obtain ⟨M, notes'⟩ := state'
    obtain ⟨hakin, hs, rfl⟩ := h
    exact hakin.run hd s hs notes
  | @nested s name options builder hbuilder ih =>
    obtain ⟨L, notes⟩ := state
    obtain ⟨M, notes'⟩ := state'
    obtain ⟨hakin, hs, rfl⟩ := h
    cases builder with
    | none =>
      show Abreast _ (.error (.missingNestedBuilder name (L.schema s).name) (L, notes))
        (.error (.missingNestedBuilder name (M.schema s).name) (M, notes))
      rw [hakin.name]
      exact .error _ ⟨hakin, hs, rfl⟩
    | some build =>
      rw [declareNested_some]
      exact abreast_building hakin (opensAlike_openNested hakin hs name options) (fun _ => rfl)
        (fun child L M notes hchild hlt => ih build rfl child ⟨hchild, hlt, rfl⟩) hs notes

end RecordLayout
