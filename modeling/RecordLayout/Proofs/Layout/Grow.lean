import RecordLayout.Layout.Declare
import RecordLayout.Layout.Definition
import RecordLayout.Proofs.Layout.Calm
import RecordLayout.Proofs.Layout.Declared

/-!
# Layouts that grow

A declaration adds a schema, a catalog or a field, and settings change a schema besides its fields.
Each of them keeps a layout well made: a new schema changes no width that is trusted, and after a
new field none is trusted any more.

## Main results

* `Layout.WellMade.push`, `Layout.WellMade.append`, `Layout.WellMade.enlist`, …: **growth keeps a
  layout well made**.
* `Layout.Tabled.push`, `Layout.Tabled.append`, …: and its options valid.
-/

namespace RecordLayout

namespace Layout

variable {L : Layout}

/-! ### Reading a layout that has grown -/

theorem schema_append (L : Layout) (s : SchemaId) (key : Text) (entry : Entry) (t : SchemaId) :
    (L.append s key entry).schema t =
      if s = t ∧ t < L.schemas.length then
        { L.schema t with
          entries := (L.schema t).entries ++ [(key, entry)]
          groups := insertGroup (L.schema t).groups (entry.codec?.bind (·.group))
          knownWidth? := none }
      else L.schema t := schema_modify L s t _

@[simp] theorem length_append (L : Layout) (s : SchemaId) (key : Text) (entry : Entry) :
    (L.append s key entry).schemas.length = L.schemas.length := length_modify L s _

@[simp] theorem generation_append (L : Layout) (s : SchemaId) (key : Text) (entry : Entry) :
    (L.append s key entry).generation = L.generation + 1 := rfl

@[simp] theorem length_push (L : Layout) (node : Schema) :
    (L.push node).schemas.length = L.schemas.length + 1 := by
  simp [push]

/-- A new schema has the next place. -/
theorem lt_length_push (L : Layout) (node : Schema) :
    L.schemas.length < (L.push node).schemas.length := by
  rw [length_push]
  exact Nat.lt_succ_self _

theorem schema_push_of_lt (L : Layout) (node : Schema) {t : SchemaId}
    (h : t < L.schemas.length) : (L.push node).schema t = L.schema t := by
  rw [schema_push, if_neg (Nat.ne_of_lt h)]

/-- A field of a schema that has got one more is one that it had, or the new one. -/
theorem find?_append {s t : SchemaId} {key k : Text} {entry e : Entry}
    (h : ((L.append s key entry).schema t).find? k = some e) :
    (L.schema t).find? k = some e ∨ (s = t ∧ k = key ∧ e = entry) := by
  rw [schema_append] at h
  split at h
  · next hs =>
    change Listing.find? ((L.schema t).entries ++ [(key, entry)]) k = some e at h
    rw [Listing.find?_append, Option.or_eq_some_iff] at h
    rcases h with h | ⟨-, h⟩
    · exact .inl h
    · rw [Listing.find?_cons] at h
      split at h
      · next hk => exact .inr ⟨hs.1, hk.symm, (Option.some.inj h).symm⟩
      · exact absurd h (by simp)
  · exact .inl h

/-- A field of a layout that has got one more schema without fields is one that was there. -/
theorem find?_push {node : Schema} (hnode : node.entries = []) {t : SchemaId} {k : Text} {e : Entry}
    (h : ((L.push node).schema t).find? k = some e) :
    (L.schema t).find? k = some e ∧ t < L.schemas.length := by
  rw [schema_push] at h
  split at h
  · unfold Schema.find? at h
    rw [hnode] at h
    exact absurd h (by simp)
  · refine ⟨h, Nat.lt_of_not_le fun hle => ?_⟩
    rw [schema_of_le hle] at h
    exact absurd h (by simp [Schema.find?, Schema.blank])

/-! ### A new schema -/

/-- A schema that stands inside a schema of the layout and all that is around it, or inside none. -/
def StandsIn (L : Layout) (node : Schema) : Prop :=
  node.ancestors = [] ∨ ∃ p, p < L.schemas.length ∧ node.ancestors = p :: (L.schema p).ancestors

theorem Coherent.push (hL : L.Coherent) {node : Schema} (hentries : node.entries = [])
    (hstands : L.StandsIn node) : (L.push node).Coherent := by
  -- the parent of the new schema is one of the layout, so all that is around it is too
  have hancestors (p : SchemaId) (hp : p ∈ node.ancestors) : p < L.schemas.length := by
    rcases hstands with hnone | ⟨q, hq, heq⟩
    · rw [hnone] at hp
      exact absurd hp (by simp)
    · rw [heq] at hp
      rcases List.mem_cons.mp hp with rfl | hp
      · exact hq
      · exact Nat.lt_trans (hL.ancestors_lt q p hp) hq
  refine ⟨fun s p hp => ?_, fun s p around hs => ?_, fun s key t ht => ?_,
    fun s key ref t href ht => ?_, fun c t ht => ?_⟩
  · rw [schema_push] at hp
    split at hp
    · next hs => exact hs ▸ hancestors p hp
    · exact hL.ancestors_lt s p hp
  · rw [schema_push] at hs
    split at hs
    · rw [schema_push_of_lt L node (hancestors p (by rw [hs]; exact List.mem_cons_self))]
      rcases hstands with hnone | ⟨q, hq, heq⟩
      · rw [hnone] at hs
        exact absurd hs (by simp)
      · obtain ⟨rfl, rfl⟩ := List.cons.inj (heq.symm.trans hs)
        rfl
    · have hlt : p < L.schemas.length := by
        refine Nat.lt_trans (hL.ancestors_lt s p (by rw [hs]; exact List.mem_cons_self)) ?_
        refine Nat.lt_of_not_le fun hle => ?_
        rw [schema_of_le hle] at hs
        exact absurd hs (by simp [Schema.blank])
      rw [schema_push_of_lt L node hlt]
      exact hL.ancestors_tail s p around hs
  · rw [length_push]
    exact Nat.lt_succ_of_lt (hL.nested_lt s key t (find?_push hentries ht).1)
  · rw [length_push]
    exact Nat.lt_succ_of_lt (hL.bound_lt s key ref t (find?_push hentries href).1 ht)
  · rw [length_push]
    exact Nat.lt_succ_of_lt (hL.listed_lt c t ht)

/-- Schemas that differ in their settings and groups at most. -/
structure Alike (a b : Schema) : Prop where
  name : b.name = a.name
  ancestors : b.ancestors = a.ancestors
  entries : b.entries = a.entries
  knownWidth : b.knownWidth? = a.knownWidth?

theorem Alike.of_eq {a b : Schema} (h : b = a) : Alike a b := h ▸ ⟨rfl, rfl, rfl, rfl⟩

theorem Alike.find? {a b : Schema} (h : Alike a b) (key : Text) : b.find? key = a.find? key := by
  unfold Schema.find?
  rw [h.entries]

/-- An outline stays where its schemas stay alike. -/
theorem Unfolds.of_alike {M : Layout} (hL : L.Coherent) {s : SchemaId} {o : Outline}
    (ho : L.Unfolds s o) (hs : s < L.schemas.length)
    (halike : ∀ t, t < L.schemas.length → Alike (L.schema t) (M.schema t)) :
    ∃ p, M.Unfolds s p ∧ o.Follows p := by
  have hfields (t : SchemaId) (ht : t < L.schemas.length) :
      (M.schema t).fields = (L.schema t).fields := by
    unfold Schema.fields
    rw [(halike t ht).entries]
  unfold Unfolds
  rw [hfields s hs]
  refine UnfoldsTo.transfer (P := (· < L.schemas.length)) ho hs (ho.schemas_lt hL)
    (fun t ht => (halike t ht).name) hfields fun t ht key f hf => ⟨f, ?_, .refl f⟩
  unfold known? at hf ⊢
  rw [(halike t ht).find?]
  exact hf

/-- A layout in which all schemas stay alike stays measured. -/
theorem Measured.of_alike {M : Layout} (hcoherent : L.Coherent) (hL : L.Measured)
    (halike : ∀ t, t < L.schemas.length → Alike (L.schema t) (M.schema t))
    (hnew : ∀ t, L.schemas.length ≤ t → (M.schema t).knownWidth? = none)
    (hgeneration : M.generation = L.generation) : M.Measured := by
  intro s total g hknown
  have hs : s < L.schemas.length := by
    refine Nat.lt_of_not_le fun hle => ?_
    rw [hnew s hle] at hknown
    exact absurd hknown (by simp)
  rw [(halike s hs).knownWidth] at hknown
  rw [hgeneration]
  refine ⟨(hL s total g hknown).1, fun hg => ?_⟩
  obtain ⟨o, ho, htotal, htrusts⟩ := (hL s total g hknown).2 hg
  obtain ⟨p, hp, hop⟩ := ho.of_alike hcoherent hs halike
  refine ⟨p, hp, by rw [htotal, hop.width_eq], fun t ht => ?_⟩
  rw [hop.schemas_eq] at ht
  exact (htrusts t ht).of_eq (halike t (ho.schemas_lt hcoherent t ht)).knownWidth hgeneration

/-- A new schema keeps a layout well made. -/
theorem WellMade.push (hL : L.WellMade) {node : Schema} (hentries : node.entries = [])
    (hwidth : node.knownWidth? = none) (hstands : L.StandsIn node) : (L.push node).WellMade := by
  refine ⟨hL.coherent.push hentries hstands, hL.measured.of_alike hL.coherent
    (fun t ht => .of_eq (schema_push_of_lt L node ht)) (fun t ht => ?_) rfl⟩
  rw [schema_push]
  split
  · exact hwidth
  · rw [schema_of_le ht]
    rfl

/-! ### A new field -/

/-- A new field that leads nowhere out of a layout of some length: a nested schema is in it, and a
reference has no target yet. -/
def EntryWithin (length : Nat) : Entry → Prop
  | .column _ => True
  | .nested t => t < length
  | .reference ref => ref.target? = none

theorem ancestors_append (s : SchemaId) (key : Text) (entry : Entry) (t : SchemaId) :
    ((L.append s key entry).schema t).ancestors = (L.schema t).ancestors := by
  rw [schema_append]
  split <;> rfl

theorem Coherent.append (hL : L.Coherent) (s : SchemaId) (key : Text) {entry : Entry}
    (hentry : EntryWithin L.schemas.length entry) : (L.append s key entry).Coherent where
  ancestors_lt t p hp := hL.ancestors_lt t p (ancestors_append s key entry t ▸ hp)
  ancestors_tail t p around ht := by
    rw [ancestors_append] at ht ⊢
    exact hL.ancestors_tail t p around ht
  nested_lt t k u hu := by
    rw [length_append]
    rcases find?_append hu with hu | ⟨-, -, rfl⟩
    · exact hL.nested_lt t k u hu
    · exact hentry
  bound_lt t k ref u href hu := by
    rw [length_append]
    rcases find?_append href with href | ⟨-, -, rfl⟩
    · exact hL.bound_lt t k ref u href hu
    · rw [show ref.target? = none from hentry] at hu
      exact absurd hu (by simp)
  listed_lt c t ht := by
    rw [length_append]
    exact hL.listed_lt c t ht

/-- A new field keeps a layout well made, because no width is trusted after it. -/
theorem WellMade.append (hL : L.WellMade) (s : SchemaId) (key : Text) {entry : Entry}
    (hentry : EntryWithin L.schemas.length entry) : (L.append s key entry).WellMade := by
  refine ⟨hL.coherent.append s key hentry, fun t total g hknown => ?_⟩
  have hold : (L.schema t).knownWidth? = some (total, g) := by
    rw [schema_append] at hknown
    split at hknown
    · exact absurd hknown (by simp)
    · exact hknown
  have hle := (hL.measured t total g hold).1
  rw [generation_append]
  exact ⟨Nat.le_succ_of_le hle, fun hg => absurd hg (by omega)⟩

/-! ### Catalogs and settings -/

/-- What a catalog lists is in the layout. -/
def ListsWithin (length : Nat) (c : Catalog) : Prop :=
  ∀ t, some t ∈ c.listing.map (·.2) → t < length

theorem catalog_pushCatalog (L : Layout) (added : Catalog) (c : CatalogId) :
    (L.pushCatalog added).catalog c = L.catalog c ∨ (L.pushCatalog added).catalog c = added := by
  unfold pushCatalog catalog
  simp only [List.getD_eq_getElem?_getD, List.getElem?_append]
  split
  · exact .inl rfl
  · next h =>
    by_cases hc : c = L.catalogs.length
    · right
      subst hc
      simp
    · left
      have hlt : L.catalogs.length < c := Nat.lt_of_le_of_ne (Nat.le_of_not_lt h) (Ne.symm hc)
      have hout : [added].length ≤ c - L.catalogs.length := Nat.sub_pos_of_lt hlt
      rw [List.getElem?_eq_none hout, List.getElem?_eq_none (Nat.le_of_lt hlt)]

/-- A layout that differs in its catalogs, and in the settings of its schemas, at most. -/
theorem WellMade.of_alike {M : Layout} (hL : L.WellMade)
    (hlength : M.schemas.length = L.schemas.length)
    (halike : ∀ t, Alike (L.schema t) (M.schema t)) (hgeneration : M.generation = L.generation)
    (hlisted : ∀ c, ListsWithin L.schemas.length (M.catalog c)) : M.WellMade := by
  have hcoherent := hL.coherent
  refine ⟨⟨fun s p hp => ?_, fun s p around hs => ?_, fun s key t ht => ?_,
    fun s key ref t href ht => ?_, fun c t ht => ?_⟩, hL.measured.of_alike hL.coherent
      (fun t _ => halike t) (fun t ht => ?_) hgeneration⟩
  · exact hcoherent.ancestors_lt s p ((halike s).ancestors ▸ hp)
  · rw [(halike s).ancestors] at hs
    rw [(halike p).ancestors]
    exact hcoherent.ancestors_tail s p around hs
  · rw [hlength]
    exact hcoherent.nested_lt s key t ((halike s).find? key ▸ ht)
  · rw [hlength]
    exact hcoherent.bound_lt s key ref t ((halike s).find? key ▸ href) ht
  · rw [hlength]
    exact hlisted c t ht
  · rw [(halike t).knownWidth, schema_of_le ht]
    rfl

theorem WellMade.pushCatalog (hL : L.WellMade) {added : Catalog}
    (hadded : ListsWithin L.schemas.length added) : (L.pushCatalog added).WellMade := by
  refine hL.of_alike rfl (fun _ => .of_eq rfl) rfl fun c => ?_
  rcases catalog_pushCatalog L added c with h | h
  · rw [h]
    exact hL.coherent.listed_lt c
  · rw [h]
    exact hadded

/-- A catalog in which one more schema has been listed lists this one and those from before. -/
theorem listing_enlist (c : CatalogId) (s : SchemaId) (d : CatalogId) :
    ((L.enlist c s).catalog d).listing = (L.catalog d).listing
      ∨ ((L.enlist c s).catalog d).listing
        = (L.catalog d).listing ++ [((L.schema s).name, some s)] := by
  unfold enlist catalog
  simp only [List.getD_eq_getElem?_getD, List.getElem?_modify]
  cases hd : L.catalogs[d]? with
  | none => exact .inl rfl
  | some found =>
    by_cases hc : c = d
    · right
      simp [hc]
    · left
      simp [hc]

theorem WellMade.enlist (hL : L.WellMade) (c : CatalogId) {s : SchemaId}
    (hs : s < L.schemas.length) : (L.enlist c s).WellMade := by
  refine hL.of_alike rfl (fun _ => .of_eq rfl) rfl fun d t ht => ?_
  rcases listing_enlist c s d with h | h
  · rw [h] at ht
    exact hL.coherent.listed_lt d t ht
  · rw [h, List.map_append, List.mem_append] at ht
    rcases ht with ht | ht
    · exact hL.coherent.listed_lt d t ht
    · rw [Option.some.inj (List.mem_singleton.mp ht)]
      exact hs

/-- A setting keeps a layout well made. -/
theorem WellMade.setting (hL : L.WellMade) (s : SchemaId) {f : Schema → Schema}
    (hf : ∀ node, Alike node (f node)) : (L.modify s f).WellMade := by
  refine hL.of_alike (length_modify L s f) (fun t => ?_) rfl hL.coherent.listed_lt
  rw [schema_modify]
  split
  · exact hf _
  · exact .of_eq rfl

/-! ### New schemas -/

/-- A new schema has no fields, valid options and a name that may be declared. -/
theorem newSchema_ok {scope : Scope} {name : Text} {options : OptionMap} {node : Schema}
    (h : L.newSchema scope name options = .ok node) :
    ∃ name table, node = { Schema.blank with
        name, options := table
        ancestors := L.scopeAncestors scope
        catalog? := scopeCatalog scope }
      ∧ table.Valid ∧ table.schema = schemaOptions ∧ checkName name = .ok ()
      ∧ ∀ around, L.scopeOptions scope = some around → table.Ignores around.defined := by
  unfold newSchema at h
  obtain ⟨given, hgiven, h⟩ := Success.of_bind h
  obtain ⟨name, -, h⟩ := Success.of_bind h
  obtain ⟨_, hname, h⟩ := Success.of_bind h
  obtain ⟨hvalid, hschema⟩ :=
    OptionSchema.createTable_valid OptionSchema.distinct_schemaOptions hgiven
  dsimp only at h
  cases hscope : L.scopeOptions scope with
  | some around =>
    rw [hscope] at h
    obtain ⟨table, htable, h⟩ := Success.of_bind h
    have hignores := OptionTable.ignores_merge
      (congrArg Prod.snd (unlessRefused_eq_ok_iff.mp htable))
    obtain rfl := unlessRefused_ok htable
    obtain ⟨hvalid', hschema'⟩ := hvalid.merge around
    refine ⟨name, _, (Except.ok.inj h).symm, hvalid', hschema'.trans hschema, hname, ?_⟩
    exact fun other hother => Option.some.inj hother ▸ hignores
  | none =>
    rw [hscope] at h
    exact ⟨name, given, (Except.ok.inj h).symm, hvalid, hschema, hname,
      fun around haround => absurd haround (by simp)⟩

/-- A new definition has the table of its options, and lists nothing yet. -/
theorem newDefinition_ok {name : Text} {options : OptionMap} {definition : Catalog}
    (h : newDefinition name options = .ok definition) :
    ∃ table, schemaOptions.createTable (options.insert OptionName.name (.text name)) = .ok table
      ∧ definition.options? = some table ∧ definition.listing = [] := by
  unfold newDefinition at h
  obtain ⟨table, htable, h⟩ := Success.of_bind h
  obtain ⟨_, -, h⟩ := Success.of_bind h
  rw [← Except.ok.inj h]
  exact ⟨table, htable, rfl, rfl⟩

/-- A place where a new schema can stand. -/
def ScopeExists (L : Layout) : Scope → Prop
  | .within parent => parent < L.schemas.length
  | .under c => c < L.catalogs.length
  | .detached => True

theorem standsIn_of_newSchema {scope : Scope} (hscope : L.ScopeExists scope) {name : Text}
    {options : OptionMap} {node : Schema} (h : L.newSchema scope name options = .ok node) :
    L.StandsIn node := by
  obtain ⟨_, _, rfl, -⟩ := newSchema_ok h
  cases scope with
  | detached => exact .inl rfl
  | within parent => exact .inr ⟨parent, hscope, rfl⟩
  | under c => exact .inl rfl

/-- What opening a nested schema has checked. -/
theorem openNested_ok {parent : SchemaId} {name : Text} {options : OptionMap} {child : SchemaId}
    {M : Layout} (h : openNested parent name options L = .ok child M) :
    ∃ node, L.newSchema (.within parent) name options = .ok node
      ∧ (L.schema parent).checkNewKey node.name = .ok ()
      ∧ (L.schema parent).clashingReference? (fun t => (L.schema t).name) node.name = none
      ∧ child = L.schemas.length ∧ M = L.push node := by
  unfold openNested at h
  dsimp only at h
  split at h
  · exact absurd h (by simp)
  · next node hnode =>
    split at h
    · exact absurd h (by simp)
    · next u hkey =>
      split at h
      · exact absurd h (by simp)
      · next hclash =>
        obtain ⟨rfl, rfl⟩ := EStateM.Result.ok.inj h
        exact ⟨node, hnode, hkey, hclash, rfl, rfl⟩

theorem openNested_error {parent : SchemaId} {name : Text} {options : OptionMap} {e : Error}
    {M : Layout} (h : openNested parent name options L = .error e M) : M = L := by
  unfold openNested at h
  dsimp only at h
  split at h
  · exact (EStateM.Result.error.inj h).2.symm
  · split at h
    · exact (EStateM.Result.error.inj h).2.symm
    · split at h
      · exact (EStateM.Result.error.inj h).2.symm
      · exact absurd h (by simp)

/-- What opening a schema of a definition has checked. -/
theorem openSchema_ok {c : CatalogId} {name : Text} {options : OptionMap} {s : SchemaId}
    {M : Layout} (h : openSchema c name options L = .ok s M) :
    ∃ node, L.newSchema (.under c) name options = .ok node
      ∧ (L.catalog c).find? node.name = none ∧ s = L.schemas.length ∧ M = L.push node := by
  unfold openSchema at h
  split at h
  · exact absurd h (by simp)
  · next node hnode =>
    split at h
    · exact absurd h (by simp)
    · next hfree =>
      obtain ⟨rfl, rfl⟩ := EStateM.Result.ok.inj h
      exact ⟨node, hnode, hfree, rfl, rfl⟩

theorem openSchema_error {c : CatalogId} {name : Text} {options : OptionMap} {e : Error}
    {M : Layout} (h : openSchema c name options L = .error e M) : M = L := by
  unfold openSchema at h
  split at h
  · exact (EStateM.Result.error.inj h).2.symm
  · split at h
    · exact (EStateM.Result.error.inj h).2.symm
    · exact absurd h (by simp)

/-! ### Options of a layout that has grown -/

theorem Every.push {P : Entry → Prop} (hL : L.Every P) {node : Schema}
    (hentries : node.entries = []) : (L.push node).Every P :=
  fun s key e he => hL s key e (find?_push hentries he).1

theorem Every.append {P : Entry → Prop} (hL : L.Every P) (s : SchemaId) (key : Text)
    {entry : Entry} (hentry : P entry) : (L.append s key entry).Every P := by
  intro t k e he
  rcases find?_append he with he | ⟨-, -, rfl⟩
  · exact hL t k e he
  · exact hentry

/-- The options of a schema are valid. -/
def SchemaTabled (node : Schema) : Prop :=
  node.options.Valid ∧ node.options.schema = schemaOptions

theorem Tabled.push (hL : L.Tabled) {node : Schema} (hentries : node.entries = [])
    (hnode : SchemaTabled node) : (L.push node).Tabled := by
  refine ⟨fun s hs => ?_, hL.entry.push hentries⟩
  rw [length_push] at hs
  rw [schema_push]
  split
  · exact hnode
  · next hne => exact hL.schema s (Nat.lt_of_le_of_ne (Nat.le_of_lt_succ hs) hne)

theorem Tabled.append (hL : L.Tabled) (s : SchemaId) (key : Text) {entry : Entry}
    (hentry : entry.Tabled) : (L.append s key entry).Tabled := by
  refine ⟨fun t ht => ?_, hL.entry.append s key hentry⟩
  rw [length_append] at ht
  rw [schema_append]
  split <;> exact hL.schema t ht

theorem Tabled.of_schemas {M : Layout} (hL : L.Tabled) (hschemas : M.schemas = L.schemas) :
    M.Tabled := by
  have hschema (t : SchemaId) : M.schema t = L.schema t := by
    unfold Layout.schema
    rw [hschemas]
  refine ⟨fun t ht => ?_, fun t key e he => hL.entry t key e (hschema t ▸ he)⟩
  rw [hschemas] at ht
  rw [hschema]
  exact hL.schema t ht

theorem Every.of_schemas {P : Entry → Prop} {M : Layout} (hL : L.Every P)
    (hschemas : M.schemas = L.schemas) : M.Every P := by
  refine fun t key e he => hL t key e ?_
  unfold Layout.schema at he ⊢
  rw [hschemas] at he
  exact he

theorem Calm.of_schemas {M : Layout} (hL : L.Calm) (hschemas : M.schemas = L.schemas) : M.Calm :=
  ⟨hL.tabled.of_schemas hschemas, hL.receptive.of_schemas hschemas, hL.waiting.of_schemas hschemas⟩

end Layout

/-- A field that a schema has accepted leads nowhere out of the layout, its options are valid, and
no set waits at it. -/
theorem Schema.Accepts.entry {node : Schema} {key : Text} {entry : Entry}
    (h : node.Accepts key entry) (length : Nat) :
    Layout.EntryWithin length entry ∧ entry.Tabled ∧ entry.Calm := by
  have hcodec (c : Codec) (hc : c.Made) : (Entry.column c).Tabled := by
    cases c with
    | column c => exact Column.Made.valid hc
    | custom c => trivial
  cases h with
  | ungrouped hmade | grouped hmade | filler hmade => exact ⟨trivial, hcodec _ hmade, trivial⟩
  | reference _ _ hpassed =>
    exact ⟨rfl, hpassed, fun m hm => absurd hm (by simp [Reference.create])⟩

end RecordLayout
