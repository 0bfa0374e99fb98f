import RecordLayout.Proofs.Layout.Keys
import RecordLayout.Proofs.Layout.Orderly

/-!
# Definitions list schemas under different names

A schema is listed in a definition when its builder is done, and its name is not checked again then;
so a builder at work inside could list another one under the name.  Builders that add no schema to
the definition cannot, and a definition lists all schemas under their own names, no two of which are
the same.

## Main definitions

* `Session.Contained`: the moves of builders that declare fields of the schema they build and list
  nothing beside it.
* `Layout.Lists`: a catalog that lists schemas under their names, all different.
* `Session.Indexed`: all definitions do, and will when the builders are done.

## Main results

* `Session.step_indexed`: what one move keeps.
* `Session.Reached.indexed`: **definitions list schemas under different names**.
-/

namespace RecordLayout

/-- The catalog in which the schema that is being built will be listed. -/
def Site.catalog? : Site → Option CatalogId
  | listed c _ => some c
  | _ => none

namespace Layout

variable {L M : Layout}

/-- A catalog that lists schemas under their names, all different. -/
structure Lists (L : Layout) (catalog : Catalog) : Prop where
  named : ∀ e ∈ catalog.listing, ∃ s, e.2 = some s ∧ (L.schema s).name = e.1
  nodup : catalog.names.Nodup

theorem lists_of_no_listing {catalog : Catalog} (h : catalog.listing = []) : L.Lists catalog := by
  refine ⟨fun e he => ?_, ?_⟩
  · rw [h] at he
    exact absurd he List.not_mem_nil
  · unfold Catalog.names
    rw [h]
    exact List.nodup_nil

/-- The name of a schema is not listed in a catalog, if that is a definition. -/
def Unlisted (L : Layout) (c : CatalogId) (s : SchemaId) : Prop :=
  (L.catalog c).isDefinition = true → (L.schema s).name ∉ (L.catalog c).names

/-- A name under which no schema is found is not listed. -/
theorem Lists.not_mem_names {catalog : Catalog} (h : L.Lists catalog) {name : Text}
    (hnone : catalog.find? name = none) : name ∉ catalog.names := by
  intro hmem
  obtain ⟨e, he, rfl⟩ := List.mem_map.mp hmem
  obtain ⟨s, hs, -⟩ := h.named e he
  have hcandidate : e.2 ∈ catalog.candidates e.1 :=
    List.mem_filterMap.mpr ⟨e, he, if_pos rfl⟩
  unfold Catalog.find? at hnone
  rw [List.findSome?_eq_none_iff] at hnone
  exact absurd ((hnone _ hcandidate).symm.trans hs) (by simp)

/-- The names that are listed are those of the schemas. -/
theorem Lists.names_eq {catalog : Catalog} (h : L.Lists catalog) :
    catalog.names = catalog.schemas.map fun s => (L.schema s).name := by
  have hlisting (l : Listing (Option SchemaId))
      (hl : ∀ e ∈ l, ∃ s, e.2 = some s ∧ (L.schema s).name = e.1) :
      Listing.names l = (l.filterMap (·.2)).map fun s => (L.schema s).name := by
    induction l with
    | nil => rfl
    | cons e l ih =>
      obtain ⟨s, hs, hname⟩ := hl e List.mem_cons_self
      rw [List.filterMap_cons_some hs, List.map_cons, hname,
        ← ih fun e' he' => hl e' (List.mem_cons_of_mem e he')]
      rfl
  exact hlisting catalog.listing h.named

/-- The names stay those of the schemas, as long as these keep them. -/
theorem Lists.keep {catalog : Catalog} (h : L.Lists catalog)
    (hname : ∀ t, some t ∈ catalog.listing.map (·.2) → (M.schema t).name = (L.schema t).name) :
    M.Lists catalog := by
  refine ⟨fun e he => ?_, h.nodup⟩
  obtain ⟨s, hs, hsame⟩ := h.named e he
  exact ⟨s, hs, (hname s (List.mem_map.mpr ⟨e, he, hs⟩)).trans hsame⟩

theorem catalog_enlist (L : Layout) (c : CatalogId) (s : SchemaId) (d : CatalogId) :
    (L.enlist c s).catalog d = if c = d ∧ d < L.catalogs.length then
      { L.catalog d with listing := (L.catalog d).listing ++ [((L.schema s).name, some s)] }
    else L.catalog d := by
  unfold enlist catalog
  simp only [List.getD_eq_getElem?_getD, List.getElem?_modify]
  by_cases hd : d < L.catalogs.length
  · by_cases hc : c = d <;> simp [hd, hc]
  · simp [hd]

/-- One more schema is listed, under a name that is not there. -/
theorem Lists.enlist {c : CatalogId} (h : L.Lists (L.catalog c)) {s : SchemaId}
    (hfree : (L.schema s).name ∉ (L.catalog c).names) :
    (L.enlist c s).Lists ((L.enlist c s).catalog c) := by
  rw [catalog_enlist]
  split
  · refine ⟨fun e he => ?_, ?_⟩
    · rcases List.mem_append.mp he with hold | hnew
      · exact h.named e hold
      · rw [List.mem_singleton.mp hnew]
        exact ⟨s, rfl, rfl⟩
    · show (Listing.names ((L.catalog c).listing ++ [((L.schema s).name, some s)])).Nodup
      unfold Listing.names
      rw [List.map_append]
      refine List.nodup_append.mpr ⟨h.nodup, by simp, fun a ha b hb => ?_⟩
      rintro rfl
      rw [List.mem_singleton.mp hb] at ha
      exact hfree ha
  · exact h.keep fun _ _ => rfl

end Layout

namespace Session

open Layout Build

/-- The moves of builders that declare only fields of the schema they build, and list no schema in
the definition in which it will be listed. -/
def Contained (S : Session) (m : Move) : Prop :=
  S.Orderly m ∧ match m with
    | .addSchema c _ _ => ∀ site ∈ S.sites, site.catalog? ≠ some c
    | .beginListed c _ _ => ∀ site ∈ S.sites, site.catalog? ≠ some c
    | _ => True

/-- All definitions list schemas under their names; the names of those that are being built are not
listed yet, and no two of these are built for the same definition. -/
structure Indexed (S : Session) : Prop where
  lists : ∀ c, (S.layout.catalog c).isDefinition = true → S.layout.Lists (S.layout.catalog c)
  awaits : ∀ c s, .listed c s ∈ S.sites → S.layout.Unlisted c s
  apart : S.sites.Pairwise fun above below => ∀ c, above.catalog? = some c → below.catalog? ≠ some c

variable {S : Session} {m : Move}

/-- A session whose catalogs and names stay as they are. -/
theorem Indexed.keep (hS : S.Indexed) (hsane : S.Sane) {L : Layout}
    (hcatalogs : L.catalogs = S.layout.catalogs)
    (hname : ∀ t, t < S.layout.schemas.length → (L.schema t).name = (S.layout.schema t).name) :
    Indexed { S with layout := L } := by
  have hcatalog (c : CatalogId) : L.catalog c = S.layout.catalog c := by
    unfold catalog
    rw [hcatalogs]
  refine ⟨fun c hc => ?_, fun c s hsite hc => ?_, hS.apart⟩
  · change L.Lists (L.catalog c)
    change (L.catalog c).isDefinition = true at hc
    rw [hcatalog] at hc ⊢
    exact (hS.lists c hc).keep fun t ht =>
      hname t (hsane.layout.wellMade.coherent.listed_lt c t ht)
  · change (L.schema s).name ∉ (L.catalog c).names
    change (L.catalog c).isDefinition = true at hc
    rw [hcatalog] at hc ⊢
    rw [hname s (hsane.sites _ hsite)]
    exact hS.awaits c s hsite hc

/-- A new catalog, which lists nothing yet if it is a definition. -/
theorem Indexed.pushCatalog (hS : S.Indexed) {added : Catalog}
    (hadded : added.isDefinition = true → added.listing = []) :
    Indexed { S with layout := S.layout.pushCatalog added } := by
  refine ⟨fun c hc => ?_, fun c s hsite hc => ?_, hS.apart⟩
  · change (S.layout.pushCatalog added).Lists ((S.layout.pushCatalog added).catalog c)
    change ((S.layout.pushCatalog added).catalog c).isDefinition = true at hc
    rcases catalog_pushCatalog S.layout added c with hsame | hnew
    · rw [hsame] at hc ⊢
      exact (hS.lists c hc).keep fun _ _ => rfl
    · rw [hnew] at hc ⊢
      exact lists_of_no_listing (hadded hc)
  · change (S.layout.schema s).name ∉ ((S.layout.pushCatalog added).catalog c).names
    change ((S.layout.pushCatalog added).catalog c).isDefinition = true at hc
    rcases catalog_pushCatalog S.layout added c with hsame | hnew
    · rw [hsame] at hc ⊢
      exact hS.awaits c s hsite hc
    · rw [hnew] at hc ⊢
      unfold Catalog.names
      rw [hadded hc]
      exact List.not_mem_nil

/-- One more schema is listed in a catalog that no builder is at work for. -/
theorem Indexed.enlist (hS : S.Indexed) {c : CatalogId} {s : SchemaId}
    (hfree : S.layout.Unlisted c s)
    (hidle : ∀ site ∈ S.sites, site.catalog? ≠ some c) :
    Indexed { S with layout := S.layout.enlist c s } := by
  have hoptions (d : CatalogId) (hd : ((S.layout.enlist c s).catalog d).isDefinition = true) :
      (S.layout.catalog d).isDefinition = true := by
    rw [catalog_enlist] at hd
    split at hd <;> exact hd
  have hother {d : CatalogId} (hd : c ≠ d) :
      (S.layout.enlist c s).catalog d = S.layout.catalog d := by
    rw [catalog_enlist, if_neg fun h => hd h.1]
  refine ⟨fun d hd => ?_, fun d t hsite hd => ?_, hS.apart⟩
  · have hlists := hS.lists d (hoptions d hd)
    by_cases hcd : c = d
    · subst hcd
      exact hlists.enlist (hfree (hoptions c hd))
    · change (S.layout.enlist c s).Lists ((S.layout.enlist c s).catalog d)
      rw [hother hcd]
      exact hlists.keep fun _ _ => rfl
  · -- the catalog is another one, because a builder is at work for it
    have hcd : c ≠ d := by
      rintro rfl
      exact hidle _ hsite rfl
    change (S.layout.schema t).name ∉ ((S.layout.enlist c s).catalog d).names
    rw [hother hcd]
    exact hS.awaits d t hsite (hoptions d hd)

/-- A builder begins on a schema that will not be listed. -/
theorem Indexed.open (hS : S.Indexed) {site : Site} (hsite : site.catalog? = none) :
    Indexed ⟨site :: S.sites, S.layout⟩ := by
  refine ⟨hS.lists, fun c s hmem hc => ?_, List.pairwise_cons.mpr ⟨fun _ _ c hc => ?_, hS.apart⟩⟩
  · rcases List.mem_cons.mp hmem with rfl | hmem
    · exact absurd hsite (by simp [Site.catalog?])
    · exact hS.awaits c s hmem hc
  · exact absurd (hsite.symm.trans hc) (by simp)

/-- A builder begins on a schema that will be listed. -/
theorem Indexed.openListed (hS : S.Indexed) {c : CatalogId} {s : SchemaId}
    (hfree : S.layout.Unlisted c s)
    (hidle : ∀ site ∈ S.sites, site.catalog? ≠ some c) :
    Indexed ⟨.listed c s :: S.sites, S.layout⟩ := by
  refine ⟨hS.lists, fun d t hmem => ?_, List.pairwise_cons.mpr ⟨fun site hsite d hd => ?_, ?_⟩⟩
  · rcases List.mem_cons.mp hmem with hsame | hmem
    · obtain ⟨rfl, rfl⟩ := Site.listed.inj hsame
      exact hfree
    · exact hS.awaits d t hmem
  · obtain rfl := Option.some.inj hd
    exact hidle site hsite
  · exact hS.apart

/-- A session without its innermost builder. -/
theorem Indexed.rest (hS : S.Indexed) {site : Site} {sites : List Site}
    (hsites : S.sites = site :: sites) : Indexed ⟨sites, S.layout⟩ := by
  have hawaits := hS.awaits
  have hapart := hS.apart
  rw [hsites] at hawaits hapart
  exact ⟨hS.lists, fun c s hmem => hawaits c s (List.mem_cons_of_mem _ hmem),
    (List.pairwise_cons.mp hapart).2⟩

/-- The builder of a schema ends, which is listed now.  No other was at work for the catalog. -/
theorem Indexed.closeListed (hS : S.Indexed) (hsane : S.Sane) {c : CatalogId} {s : SchemaId}
    {sites : List Site} (hsites : S.sites = .listed c s :: sites) :
    Indexed ⟨sites, (S.layout.markBusy s false).enlist c s⟩ := by
  have hmem : .listed c s ∈ S.sites := hsites ▸ List.mem_cons_self
  have hname := (keeps_markBusy S.layout s false).name
  have hidle : Indexed ⟨sites, S.layout.markBusy s false⟩ :=
    (hS.rest hsites).keep (hsane.rest hsites) rfl hname
  have hapart := hS.apart
  rw [hsites] at hapart
  refine hidle.enlist (fun hc => ?_) fun other hother =>
    (List.pairwise_cons.mp hapart).1 other hother c rfl
  show ((S.layout.markBusy s false).schema s).name ∉ _
  rw [hname s (hsane.sites _ hmem)]
  exact hS.awaits c s hmem hc

/-- A new schema whose name is free has one that is not listed. -/
theorem Indexed.unlisted (hS : S.Indexed) {c : CatalogId} {name : Text}
    (hfree : (S.layout.catalog c).find? name = none) {L : Layout} {s : SchemaId}
    (hcatalog : L.catalog c = S.layout.catalog c) (hname : (L.schema s).name = name) :
    L.Unlisted c s := by
  intro hc
  rw [hcatalog] at hc ⊢
  rw [hname]
  exact (hS.lists c hc).not_mem_names hfree

/-- **What one move keeps.** -/
theorem step_indexed (hS : S.Indexed) (hsane : S.Sane) (hm : S.Contained m) :
    (S.step m).Indexed := by
  obtain ⟨⟨hpossible, -⟩, hm⟩ := hm
  have hnames (t : SchemaId) (ht : t < S.layout.schemas.length) := step_name (m := m) hsane ht
  have hmade := hsane.layout.wellMade
  have hpushed (node : Schema) :
      ((S.layout.push node).schema S.layout.schemas.length).name = node.name := by
    rw [schema_push, if_pos rfl]
  have heffect := S.step_effect m
  generalize S.step m = T at heffect hnames ⊢
  cases heffect with
  | refused => exact hS
  | created | set | conditioned => exact hS.keep hsane rfl hnames
  | defined hnew =>
    obtain ⟨-, -, -, hlisting⟩ := newDefinition_ok hnew
    exact hS.pushCatalog fun _ => hlisting
  | cataloged =>
    exact hS.pushCatalog fun hdefinition => absurd hdefinition Bool.false_ne_true
  | @listed c name options node hopen hnode hfree =>
    have hpush := hS.keep (L := S.layout.push node) hsane rfl (keeps_newSchema hnode).name
    exact hpush.enlist (hS.unlisted hfree rfl (hpushed node)) hm
  | declared => exact hS.keep hsane (catalogs_add ..) hnames
  | propagated options s =>
    exact hS.keep hsane ((develops_propagate options s S.layout).follows hmade).catalogs hnames
  | asked q => exact hS.keep hsane ((q.develops hmade).follows hmade).catalogs hnames
  | @begunNested parent name options node =>
    have hkept := hS.keep (L := (S.layout.push node).markBusy _ true) hsane rfl hnames
    exact hkept.open rfl
  | @begunListed c name options node hopen hnode hfree =>
    have hkept := hS.keep (L := (S.layout.push node).markBusy _ true) hsane rfl hnames
    have hbusy := keeps_markBusy (S.layout.push node) S.layout.schemas.length true
    have hname := (hbusy.name _ (lt_length_push ..)).trans (hpushed node)
    exact hkept.openListed (hS.unlisted hfree rfl hname) hm
  | @begunSetup s =>
    have hkept := hS.keep (L := S.layout.markBusy s true) hsane rfl hnames
    exact hkept.open rfl
  | closed hsites | closedNested hsites =>
    exact (hS.rest hsites).keep (hsane.rest hsites) rfl hnames
  | closedListed hsites => exact hS.closeListed hsane hsites

theorem indexed_start : (⟨[], .empty⟩ : Session).Indexed :=
  ⟨fun _ _ => lists_of_no_listing rfl, fun _ _ h => absurd h List.not_mem_nil, List.Pairwise.nil⟩

/-- **Definitions list schemas under different names**, if builders list nothing beside the schema
they build. -/
theorem Reached.indexed (hS : S.Reached Contained) : S.Indexed := by
  induction hS with
  | start => exact indexed_start
  | step hS hm ih => exact step_indexed ih (hS.mono fun _ _ h => h.1.1).sane hm

end Session

end RecordLayout
