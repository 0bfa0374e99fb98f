import RecordLayout.Proofs.Layout.Fields
import RecordLayout.Proofs.Layout.Listed

/-!
# Schemas under their names

A schema is called by the name that it is given, without white space around it.  Whatever is done, a
nested schema is found under its own name, and a definition lists schemas under theirs.

## Main definitions

* `Session.lists`: the schema that a move lists in a catalog.
* `Layout.NestedNamed`, `Layout.Titled`: nested and listed schemas stand under their own names.

## Main results

* `Layout.newSchema_name`: the name of a new schema.
* `Session.step_relists`, `Session.step_catalog`: **what a move does to catalogs**.
* `Session.step_nestedNamed`, `Session.step_titled`, `Session.Reached.labelled`: **schemas stand
  under their own names**.
-/

namespace RecordLayout

namespace Layout

variable {L : Layout}

/-- **A new schema has the name that it is given**, without white space around it. -/
theorem newSchema_name {scope : Scope} {name : Text} {options : OptionMap} {node : Schema}
    (h : L.newSchema scope name options = .ok node) : node.name = name.trim Text.isWhite := by
  unfold newSchema at h
  obtain ⟨given, hgiven, h⟩ := Success.of_bind h
  obtain ⟨trimmed, htrimmed, h⟩ := Success.of_bind h
  obtain ⟨_, -, h⟩ := Success.of_bind h
  have hslot := OptionTable.find?_createTable OptionSchema.distinct_schemaOptions hgiven
    (show schemaOptions.find? OptionName.name = some nameSpec by rfl)
  rw [OptionMap.given?, NameMap.find?_insert_self] at hslot
  have hname : trimmed = name.trim Text.isWhite := by
    unfold OptionTable.get at htrimmed
    rw [hslot] at htrimmed
    exact (Except.ok.inj htrimmed).symm
  dsimp only at h
  split at h
  · obtain ⟨table, -, h⟩ := Success.of_bind h
    rw [← Except.ok.inj h, ← hname]
  · obtain ⟨table, -, h⟩ := Success.of_bind h
    rw [← Except.ok.inj h, ← hname]

/-! ### Under their own names -/

/-- Nested schemas are found under their names. -/
def NestedNamed (L : Layout) : Prop :=
  ∀ s key t, (L.schema s).find? key = some (.nested t) → (L.schema t).name = key

/-- Definitions list schemas under their names. -/
def Titled (L : Layout) : Prop :=
  ∀ c, (L.catalog c).isDefinition = true → ∀ e ∈ (L.catalog c).listing,
    ∃ s, e.2 = some s ∧ (L.schema s).name = e.1

end Layout

namespace Session

open Layout Build

variable {S : Session} {m : Move}

/-! ### Catalogs -/

/-- The schema that a move lists in a catalog, if it does. -/
def lists (S : Session) (c : CatalogId) : Move → Option SchemaId
  | .addSchema d name options =>
    match Layout.openSchema d name options S.layout with
    | .ok s _ => if d = c then some s else none
    | .error .. => none
  | .finish true =>
    match S.sites with
    | .listed d s :: _ => if d = c then some s else none
    | _ => none
  | _ => none

/-- The listing of a catalog after a schema may have been added under its name. -/
def listingWith (L : Layout) (listing : Listing (Option SchemaId)) :
    Option SchemaId → Listing (Option SchemaId)
  | some s => listing ++ [((L.schema s).name, some s)]
  | none => listing

/-- What can become of the catalogs of a session: they stay, there is one more, or one of them lists
one more schema. -/
inductive Relists (S : Session) (m : Move) : Prop
  | same (hsame : (S.step m).layout.catalogs = S.layout.catalogs) (hnone : ∀ c, S.lists c m = none)
  | pushed {added : Catalog}
    (hadded : (∃ name options, newDefinition name options = .ok added)
      ∨ ∃ name options? listing, m = .addCatalog name options? listing
        ∧ added = { name, options?, listing, isDefinition := false })
    (hpushed : (S.step m).layout.catalogs = S.layout.catalogs ++ [added])
    (hnone : ∀ c, S.lists c m = none)
  | enlisted {c : CatalogId} {s : SchemaId}
    (hsome : ∀ d, S.lists d m = if c = d then some s else none)
    (hcatalog : ∀ d, d < S.layout.catalogs.length → (S.step m).layout.catalog d =
      { S.layout.catalog d with
        listing := listingWith (S.step m).layout (S.layout.catalog d).listing (S.lists d m) })
    (hlength : (S.step m).layout.catalogs.length = S.layout.catalogs.length)

/-- One more schema is listed. -/
theorem relists_enlist {L : Layout} {c : CatalogId} {s : SchemaId}
    (hsome : ∀ d, S.lists d m = if c = d then some s else none)
    (hstep : (S.step m).layout = L.enlist c s) (hcatalogs : L.catalogs = S.layout.catalogs) :
    S.Relists m := by
  have hcatalog (d : CatalogId) : L.catalog d = S.layout.catalog d := by
    unfold catalog
    rw [hcatalogs]
  refine .enlisted hsome (fun d hd => ?_) ?_
  · rw [hstep, catalog_enlist, hcatalog, hcatalogs, hsome]
    by_cases hcd : c = d
    · rw [if_pos ⟨hcd, hd⟩, if_pos hcd]
      rfl
    · rw [if_neg fun h => hcd h.1, if_neg hcd]
      rfl
  · rw [hstep, ← hcatalogs]
    exact List.length_modify ..

/-- A move that fails lists nothing. -/
theorem lists_of_refuses (h : S.Refuses m) (c : CatalogId) : S.lists c m = none := by
  cases m with
  | addSchema d name options =>
    obtain ⟨e, hopen⟩ := h
    simp only [lists, hopen]
  | finish succeeded =>
    have hsites : S.sites = [] := h
    cases succeeded with
    | false => rfl
    | true => simp only [lists, hsites]
  | _ => rfl

/-- **What a move does to catalogs.** -/
theorem step_relists (hS : S.Sane) (m : Move) : S.Relists m := by
  have hmade := hS.layout.wellMade
  have heffect := S.step_effect m
  generalize hstep : S.step m = T at heffect
  -- which schema a move lists is read off the move, so the step is kept beside its effect
  have hlayout : (S.step m).layout = T.layout := congrArg Session.layout hstep
  have hcatalogs : (S.step m).layout.catalogs = T.layout.catalogs := congrArg _ hlayout
  cases heffect with
  | refused hrefuses => exact .same hcatalogs (lists_of_refuses hrefuses)
  | created | set | conditioned | begunNested | begunListed | begunSetup =>
    exact .same hcatalogs fun _ => rfl
  | @defined name options definition hnew =>
    exact .pushed (.inl ⟨name, options, hnew⟩) hcatalogs fun _ => rfl
  | cataloged name options? listing =>
    exact .pushed (.inr ⟨name, options?, listing, rfl, rfl⟩) hcatalogs fun _ => rfl
  | @listed c name options node hopen hnode hfree =>
    exact relists_enlist (c := c) (fun d => by simp only [lists, hopen]) hlayout rfl
  | declared => exact .same (hcatalogs.trans (catalogs_add ..)) fun _ => rfl
  | propagated options s =>
    have hfollows := (develops_propagate options s S.layout).follows hmade
    exact .same (hcatalogs.trans hfollows.catalogs) fun _ => rfl
  | asked q =>
    have hfollows := (q.develops hmade).follows hmade
    exact .same (hcatalogs.trans hfollows.catalogs) fun _ => rfl
  | @closed site sites succeeded hsites hnothing =>
    refine .same hcatalogs fun c => ?_
    cases succeeded with
    | false => rfl
    | true =>
      obtain ⟨s, rfl⟩ := hnothing rfl
      simp only [lists, hsites]
  | closedNested hsites => exact .same hcatalogs fun c => by simp only [lists, hsites]
  | @closedListed c s sites hsites =>
    exact relists_enlist (c := c) (fun d => by simp only [lists, hsites]) hlayout rfl

/-- **What a move does to a catalog**: it lists at most one more schema in it, under its name. -/
theorem step_catalog (hS : S.Sane) (m : Move) {c : CatalogId} (hc : c < S.layout.catalogs.length) :
    c < (S.step m).layout.catalogs.length ∧ (S.step m).layout.catalog c =
      { S.layout.catalog c with
        listing := listingWith (S.step m).layout (S.layout.catalog c).listing (S.lists c m) } := by
  cases step_relists hS m with
  | same hsame hnone =>
    rw [hnone, hsame]
    refine ⟨hc, ?_⟩
    unfold catalog
    rw [hsame]
    rfl
  | pushed hadded hpushed hnone =>
    rw [hnone, hpushed, List.length_append]
    refine ⟨Nat.lt_add_right _ hc, ?_⟩
    unfold catalog
    rw [hpushed, List.getD_eq_getElem?_getD, List.getElem?_append_left hc,
      ← List.getD_eq_getElem?_getD]
    rfl
  | enlisted hsome hcatalog hlength =>
    rw [hlength]
    exact ⟨hc, hcatalog c hc⟩

/-- A definition that is new lists nothing yet. -/
theorem step_newCatalog (hS : S.Sane) (m : Move) {c : CatalogId}
    (hc : S.layout.catalogs.length ≤ c)
    (hdefinition : ((S.step m).layout.catalog c).isDefinition = true) :
    ((S.step m).layout.catalog c).listing = [] := by
  have hout {L : Layout} (hlength : L.catalogs.length ≤ c) : (L.catalog c).listing = [] := by
    unfold catalog
    rw [List.getD_eq_getElem?_getD, List.getElem?_eq_none hlength]
    rfl
  cases step_relists hS m with
  | same hsame hnone => exact hout (hsame ▸ hc)
  | @pushed added hadded hpushed hnone =>
    have hlayout : (S.step m).layout.catalog c = (S.layout.pushCatalog added).catalog c := by
      unfold catalog
      rw [hpushed]
      rfl
    rw [hlayout] at hdefinition ⊢
    -- the catalog is the one that is added, or there is none in this place yet
    rcases catalog_pushCatalog S.layout added c with hsame | hnew
    · rw [hsame]
      exact hout hc
    · rw [hnew] at hdefinition ⊢
      rcases hadded with ⟨name, options, hmade⟩ | ⟨name, options?, listing, -, rfl⟩
      · obtain ⟨-, -, -, hlisting⟩ := newDefinition_ok hmade
        exact hlisting
      · exact absurd hdefinition Bool.false_ne_true
  | enlisted hsome hcatalog hlength => exact hout (hlength ▸ hc)

/-! ### Under their own names -/

/-- **Nested schemas stand under their own names**, whatever is done. -/
theorem step_nestedNamed (hS : S.Sane) (hm : S.Possible m) (hnamed : S.layout.NestedNamed) :
    (S.step m).layout.NestedNamed := by
  intro s key t hnested
  rcases step_find_back hS hm hnested with
    ⟨r, e, hfind, hfollows⟩ | ⟨d, rfl, hfield⟩ | ⟨child, sites, -, hsites, rfl, hchild⟩
  · cases hfollows with
    | nested =>
      have hlt := hS.layout.wellMade.coherent.nested_lt s key t hfind
      exact (step_name hS hlt).trans (hnamed s key t hfind)
  · -- no nested schema is declared
    exact absurd (Declaration.accepts hm.2 hfield) (by rintro ⟨⟩)
  · obtain rfl := Entry.nested.inj hchild
    exact step_name hS (hS.sites (.nested s t) (hsites ▸ List.mem_cons_self))

/-- **Definitions list schemas under their own names**, whatever is done. -/
theorem step_titled (hS : S.Sane) (htitled : S.layout.Titled) : (S.step m).layout.Titled := by
  intro c hdefinition e he
  rcases Nat.lt_or_ge c S.layout.catalogs.length with hlt | hge
  · obtain ⟨-, hcatalog⟩ := step_catalog hS m hlt
    rw [hcatalog] at hdefinition he
    -- what was listed before is a schema of the layout, which keeps its name
    have hold (h : e ∈ (S.layout.catalog c).listing) :
        ∃ s, e.2 = some s ∧ ((S.step m).layout.schema s).name = e.1 := by
      obtain ⟨s, hs, hname⟩ := htitled c hdefinition e h
      have hlt := hS.layout.wellMade.coherent.listed_lt c s (List.mem_map.mpr ⟨e, h, hs⟩)
      exact ⟨s, hs, (step_name hS hlt).trans hname⟩
    cases hlists : S.lists c m with
    | none =>
      rw [hlists] at he
      exact hold he
    | some s =>
      rw [hlists] at he
      rcases List.mem_append.mp he with h | h
      · exact hold h
      · obtain rfl := List.mem_singleton.mp h
        exact ⟨s, rfl, rfl⟩
  · rw [step_newCatalog hS m hge hdefinition] at he
    exact absurd he List.not_mem_nil

/-- **Schemas stand under their own names**, nested ones and those of definitions. -/
theorem Reached.labelled (hS : S.Reached Possible) : S.layout.NestedNamed ∧ S.layout.Titled := by
  induction hS with
  | start =>
    refine ⟨fun s key t hnested => ?_, fun c _ e he => absurd he List.not_mem_nil⟩
    rw [schema_of_le (L := .empty) (Nat.zero_le s)] at hnested
    exact absurd hnested (by simp [Schema.find?, Schema.blank])
  | step hS hm ih => exact ⟨step_nestedNamed hS.sane hm ih.1, step_titled hS.sane ih.2⟩

end Session

end RecordLayout
