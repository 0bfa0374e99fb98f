import RecordLayout.Proofs.Layout.Labelled

/-!
# What builders leave of a name

The name of a new schema is checked before its builder is at work, and used after that.  A builder
may do anything in between, also to the schema or the definition around.  So the name is there once
in the end exactly if the builder has not taken it; and what it has taken can be said move by move.

## Main definitions

* `Session.adds`, `Session.added`: the places that a move, and a run, adds to a schema.
* `Session.listed`: the schemas that a run lists in a catalog.
* `Schema.HasOnly`, `Layout.ListsOnly`: a name that is there once.
* `Session.Builds`, `Session.built`: the work of one builder, and what it leads to.

## Main results

* `Session.step_places`, `Session.places_moves`: **what is added to a schema, and nothing else**.
* `Session.schemas_moves`: **what is listed in a catalog, and nothing else**.
* `Session.Reached.declared_once`: **a name is there once exactly if no builder has taken it**.
* `Session.not_declared_once`: builders can take it.
-/

namespace RecordLayout

/-- The only field of a key, which is a nested schema, in a schema with no group of that name. -/
structure Schema.HasOnly (node : Schema) (key : Text) (child : SchemaId) : Prop where
  once : node.fields.count key = 1
  group : key ∉ node.groups
  entry : node.find? key = some (.nested child)

/-- The only schema of a name in a catalog. -/
def Layout.ListsOnly (L : Layout) (c : CatalogId) (name : Text) (s : SchemaId) : Prop :=
  ((L.catalog c).schemas.filter fun t => (L.schema t).name == name) = [s]

namespace Schema

variable {node : Schema} {key : Text} {child : SchemaId}

/-- A name is a group of a schema if a place says so. -/
theorem Registered.not_mem_groups_iff (hnode : node.Registered) :
    key ∉ node.groups ↔ ∀ place ∈ node.places, place.2 ≠ some key := by
  rw [hnode.groups]
  constructor
  · rintro h ⟨k, group?⟩ hplace rfl
    exact h ⟨k, hplace⟩
  · rintro h ⟨k, hplace⟩
    exact h (k, some key) hplace rfl

/-- A key is free if no place has it, as a key or as a group. -/
theorem Registered.free_iff (hnode : node.Registered) :
    node.Free key ↔ ∀ place ∈ node.places, place.1 ≠ key ∧ place.2 ≠ some key := by
  have hkey : node.find? key = none ↔ ∀ place ∈ node.places, place.1 ≠ key := by
    have hnone : node.find? key = none ↔ key ∉ node.fields := Listing.find?_eq_none_iff _ _
    rw [hnone, fields_eq_places]
    unfold Listing.names
    rw [List.mem_map]
    constructor
    · intro h place hplace hsame
      exact h ⟨place, hplace, hsame⟩
    · rintro h ⟨place, hplace, hsame⟩
      exact h place hplace hsame
  unfold Free
  rw [hkey, hnode.not_mem_groups_iff]
  exact ⟨fun h place hplace => ⟨h.1 place hplace, h.2 place hplace⟩,
    fun h => ⟨fun place hplace => (h place hplace).1, fun place hplace => (h place hplace).2⟩⟩

/-- **A nested schema that comes last is the only field of its key if the key was free.** -/
theorem hasOnly_iff_free {a b : Schema} (ha : a.Registered) (hb : b.Registered)
    (hentries : b.entries = a.entries ++ [(key, .nested child)]) :
    b.HasOnly key child ↔ a.Free key := by
  have hplaces : b.places = a.places ++ [(key, none)] := by
    unfold places
    rw [hentries, List.map_append]
    rfl
  have hfields : b.fields = a.fields ++ [key] := by
    unfold fields Listing.names
    rw [hentries, List.map_append]
    rfl
  have hnone : a.find? key = none ↔ key ∉ a.fields := Listing.find?_eq_none_iff _ _
  have hgroups : key ∉ b.groups ↔ key ∉ a.groups := by
    rw [hb.not_mem_groups_iff, ha.not_mem_groups_iff, hplaces]
    simp only [List.mem_append, List.mem_singleton, or_imp, forall_and, forall_eq]
    exact and_iff_left (by simp)
  -- the new field is one of the key, so it is the only one if there was none
  have hcount : b.fields.count key = 1 ↔ key ∉ a.fields := by
    rw [hfields, List.count_append, List.count_singleton_self, ← List.count_eq_zero]
    omega
  constructor
  · intro h
    exact ⟨hnone.mpr (hcount.mp h.once), hgroups.mp h.group⟩
  · rintro ⟨hfree, hgroup⟩
    refine ⟨hcount.mpr (hnone.mp hfree), hgroups.mpr hgroup, ?_⟩
    unfold find? at hfree ⊢
    rw [hentries, Listing.find?_append, hfree]
    exact if_pos rfl

end Schema

/-- What develops leaves all places. -/
theorem Layout.Develops.places {L M : Layout} (h : L.Develops M) (s : SchemaId) :
    (M.schema s).places = (L.schema s).places := by
  obtain ⟨r, h⟩ := h
  induction h with
  | refl => rfl
  | tail _ hchange ih => exact (hchange.sameKeys s).places.trans ih

namespace Session

open Layout Build

variable {S : Session} {m : Move} {s : SchemaId} {c : CatalogId}

/-! ### What moves add -/

/-- The key that a move adds to a schema, with the group of the codec, if it adds a field. -/
def adds (S : Session) (s : SchemaId) : Move → Option (Text × Option Text)
  | .declare t d =>
    if t = s then (d.field (S.layout.schema s)).toOption.map fun e => (e.1, e.2.group?) else none
  | .finish true =>
    match S.sites with
    | .nested parent child :: _ =>
      if parent = s then some ((S.layout.schema child).name, none) else none
    | _ => none
  | _ => none

/-- The places that a run adds to a schema. -/
def added (s : SchemaId) : Session → List Move → Listing (Option Text)
  | _, [] => []
  | S, m :: moves => (S.adds s m).toList ++ added s (S.step m) moves

/-- The schemas that a run lists in a catalog. -/
def listed (c : CatalogId) : Session → List Move → List SchemaId
  | _, [] => []
  | S, m :: moves => (S.lists c m).toList ++ listed c (S.step m) moves

theorem adds_of_quiet (hquiet : S.Quiet m) : S.adds s m = none := by
  cases m with
  | declare => exact absurd hquiet id
  | finish succeeded =>
    cases succeeded with
    | false => rfl
    | true =>
      unfold adds
      dsimp only
      split
      · next parent child _ hsites =>
        exact absurd (congrArg List.head? hsites).symm (hquiet rfl parent child)
      · rfl
  | _ => rfl

/-- A move that declares nothing leaves all places. -/
theorem step_places_quiet (hS : S.Sane) (hm : S.Possible m) (hquiet : S.Quiet m)
    (hs : s < S.layout.schemas.length) :
    ((S.step m).layout.schema s).places = (S.layout.schema s).places := by
  rcases step_quiet hS hm hquiet with hdevelops | hundisturbed
  · exact hdevelops.places s
  · unfold Schema.places
    rw [(hundisturbed.alike s hs).entries]

/-- **What a move adds to a schema, and nothing else.** -/
theorem step_places (hS : S.Sane) (hm : S.Possible m) (hs : s < S.layout.schemas.length) :
    ((S.step m).layout.schema s).places = (S.layout.schema s).places ++ (S.adds s m).toList := by
  rcases declares_or_finishes_or_quiet S m with
    ⟨t, d, rfl⟩ | ⟨parent, child, sites, rfl, hsites⟩ | hq
  · rw [step_declare]
    by_cases hts : t = s
    · subst hts
      cases hfield : d.field (S.layout.schema t) with
      | error e => simp [adds, hfield, Except.toOption]
      | ok made =>
        simp only [adds, hfield, Except.toOption, if_true, Option.map_some, Option.toList_some]
        exact (gains_add S.layout d hs made.1 made.2).places
    · rw [show S.adds s (.declare t d) = none from if_neg hts]
      cases d.field (S.layout.schema t) with
      | error e => exact (List.append_nil _).symm
      | ok made =>
        show ((d.add S.layout t made.1 made.2).schema s).places = _
        rw [schema_add_of_ne S.layout d hts]
        exact (List.append_nil _).symm
  · unfold Schema.places
    rw [entries_finish hsites, List.map_append]
    by_cases hparent : parent = s
    · simp only [adds, hsites, if_pos hparent, if_pos (And.intro hparent hs)]
      rfl
    · simp only [adds, hsites, if_neg hparent, if_neg fun h => hparent (And.left h)]
      rfl
  · rw [step_places_quiet hS hm hq hs, adds_of_quiet hq]
    exact (List.append_nil _).symm

/-- **What a run adds to a schema, and nothing else.** -/
theorem Reached.places_moves (hS : S.Reached Possible) {moves : List Move}
    (hmoves : S.Allowed Possible moves) (hs : s < S.layout.schemas.length) :
    ((moves.foldl Session.step S).layout.schema s).places
      = (S.layout.schema s).places ++ added s S moves := by
  induction moves generalizing S with
  | nil => exact (List.append_nil _).symm
  | cons m moves ih =>
    have hrest := ih (.step hS hmoves.1) hmoves.2 (step_lt hS.sane hs)
    rw [List.foldl_cons, hrest, step_places hS.sane hmoves.1 hs, added]
    exact List.append_assoc ..

/-- What a move lists in a catalog. -/
theorem step_schemas (hS : S.Sane) (m : Move) (hc : c < S.layout.catalogs.length) :
    ((S.step m).layout.catalog c).schemas
      = (S.layout.catalog c).schemas ++ (S.lists c m).toList := by
  unfold Catalog.schemas
  rw [(step_catalog hS m hc).2]
  cases S.lists c m with
  | none => exact (List.append_nil _).symm
  | some s =>
    show (_ ++ [(_, some s)]).filterMap _ = _
    rw [List.filterMap_append]
    rfl

/-- **What a run lists in a catalog, and nothing else.** -/
theorem Reached.schemas_moves (hS : S.Reached Possible) {moves : List Move}
    (hmoves : S.Allowed Possible moves) (hc : c < S.layout.catalogs.length) :
    ((moves.foldl Session.step S).layout.catalog c).schemas
      = (S.layout.catalog c).schemas ++ listed c S moves := by
  induction moves generalizing S with
  | nil => exact (List.append_nil _).symm
  | cons m moves ih =>
    have hrest := ih (.step hS hmoves.1) hmoves.2 (step_catalog hS.sane m hc).1
    rw [List.foldl_cons, hrest, step_schemas hS.sane m hc, listed]
    exact List.append_assoc ..

/-! ### The work of a builder -/

/-- A move lets a builder begin at a site, and some moves are its work: all builders that begin
after it are done when it is. -/
structure Builds (S : Session) (m : Move) (site : Site) (moves : List Move) : Prop where
  possible : S.Possible m
  begins : (S.step m).sites = site :: S.sites
  allowed : (S.step m).Allowed Possible moves
  done : (moves.foldl Session.step (S.step m)).sites = site :: S.sites

/-- The session after the work of a builder that succeeds. -/
def built (S : Session) (m : Move) (moves : List Move) : Session :=
  (moves.foldl Session.step (S.step m)).step (.finish true)

/-- Where a builder begins on a nested schema, this is new and its name was free. -/
theorem opened_of_beginNested {parent child : SchemaId} {name : Text} {options : OptionMap}
    (h : (S.step (.beginNested parent name options)).sites = .nested parent child :: S.sites) :
    ∃ node, S.layout.newSchema (.within parent) name options = .ok node
      ∧ (S.layout.schema parent).checkNewKey node.name = .ok () ∧ child = S.layout.schemas.length
      ∧ (S.step (.beginNested parent name options)).layout
        = (S.layout.push node).markBusy child true := by
  have heffect := S.step_effect (.beginNested parent name options)
  generalize S.step (.beginNested parent name options) = T at heffect h ⊢
  cases heffect with
  | refused => exact absurd (congrArg List.length h) (by simp)
  | @begunNested _ _ _ node hopen hnode hkey =>
    obtain ⟨-, rfl⟩ := Site.nested.inj (List.cons.inj h).1
    exact ⟨node, hnode, hkey, rfl, rfl⟩

/-- Where a builder begins on a schema of a definition, this is new and its name was free. -/
theorem opened_of_beginListed {name : Text} {options : OptionMap}
    (h : (S.step (.beginListed c name options)).sites = .listed c s :: S.sites) :
    ∃ node, S.layout.newSchema (.under c) name options = .ok node
      ∧ (S.layout.catalog c).find? node.name = none ∧ s = S.layout.schemas.length
      ∧ (S.step (.beginListed c name options)).layout = (S.layout.push node).markBusy s true := by
  have heffect := S.step_effect (.beginListed c name options)
  generalize S.step (.beginListed c name options) = T at heffect h ⊢
  cases heffect with
  | refused => exact absurd (congrArg List.length h) (by simp)
  | @begunListed _ _ _ node hopen hnode hfree =>
    obtain ⟨-, rfl⟩ := Site.listed.inj (List.cons.inj h).1
    exact ⟨node, hnode, hfree, rfl, rfl⟩

/-- A nested schema is the only field of its name if its builder has not taken that. -/
theorem Reached.hasOnly_built (hS : S.Reached Possible) {parent child : SchemaId} {name : Text}
    {options : OptionMap} {moves : List Move}
    (h : S.Builds (.beginNested parent name options) (.nested parent child) moves) :
    ((S.built (.beginNested parent name options) moves).layout.schema parent).HasOnly
        (name.trim Text.isWhite) child
      ↔ ∀ place ∈ added parent (S.step (.beginNested parent name options)) moves,
        place.1 ≠ name.trim Text.isWhite ∧ place.2 ≠ some (name.trim Text.isWhite) := by
  have hT := hS.step h.possible
  have hU := hT.moves h.allowed
  have hparent : parent < S.layout.schemas.length := h.possible
  obtain ⟨node, hnode, hkey, hchild, hlayout⟩ := opened_of_beginNested h.begins
  rw [← newSchema_name hnode]
  -- the new schema has the name that was checked, and keeps it while the builder is at work
  have hnamed : child < (S.step (.beginNested parent name options)).layout.schemas.length
      ∧ ((S.step (.beginNested parent name options)).layout.schema child).name = node.name := by
    have hlast : child < (S.layout.push node).schemas.length := by
      rw [hchild]
      exact lt_length_push ..
    have hbusy := undisturbed_markBusy (S.layout.push node) child true
    rw [hlayout, name_markBusy, schema_push, if_pos hchild]
    exact ⟨Nat.lt_of_lt_of_le hlast hbusy.length_le, rfl⟩
  have hname := (hT.name_moves h.allowed hnamed.1).2.trans hnamed.2
  have hentries := entries_finish h.done parent
  rw [if_pos ⟨rfl, (hT.name_moves h.allowed (step_lt hS.sane hparent)).1⟩, hname] at hentries
  -- so what matters is whether the name is still free when it is used
  have hfree := Schema.hasOnly_iff_free (hU.registered.schema parent)
    ((hU.step (m := .finish true) trivial).registered.schema parent) hentries
  refine hfree.trans ?_
  rw [(hU.registered.schema parent).free_iff,
    hT.places_moves h.allowed (step_lt hS.sane hparent), step_places hS.sane h.possible hparent]
  have hbefore := (hS.registered.schema parent).free_iff.mp (Schema.free_of_checkNewKey hkey)
  constructor
  · intro hall place hplace
    exact hall place (List.mem_append_right _ hplace)
  · intro hadded place hplace
    rcases List.mem_append.mp hplace with hold | hnew
    · exact hbefore place ((List.append_nil _).subst hold)
    · exact hadded place hnew

/-- A definition that finds no schema of a name lists none. -/
theorem ne_name_of_titled (h : S.layout.Titled) (hc : (S.layout.catalog c).isDefinition = true)
    {name : Text}
    (hnone : (S.layout.catalog c).find? name = none) :
    ∀ t ∈ (S.layout.catalog c).schemas, (S.layout.schema t).name ≠ name := by
  rintro t ht rfl
  obtain ⟨e, he, ht⟩ := List.mem_filterMap.mp ht
  obtain ⟨u, hu, hname⟩ := h c hc e he
  obtain rfl := Option.some.inj (ht.symm.trans hu)
  have hcandidate : e.2 ∈ (S.layout.catalog c).candidates (S.layout.schema t).name :=
    List.mem_filterMap.mpr ⟨e, he, if_pos hname.symm⟩
  unfold Catalog.find? at hnone
  rw [List.findSome?_eq_none_iff] at hnone
  exact absurd ((hnone _ hcandidate).symm.trans ht) (by simp)

/-- The last schema that is listed is the only one of its name if no other has that. -/
theorem listsOnly_iff {L : Layout} {before : List SchemaId} {name : Text}
    (hschemas : (L.catalog c).schemas = before ++ [s]) (hname : (L.schema s).name = name) :
    L.ListsOnly c name s ↔ ∀ t ∈ before, (L.schema t).name ≠ name := by
  unfold ListsOnly
  rw [hschemas, List.filter_append, List.filter_cons_of_pos (by simpa using hname), List.filter_nil,
    List.append_left_eq_self, List.filter_eq_nil_iff]
  simp

/-- A schema that is listed without a builder is the only one of its name. -/
theorem Reached.listsOnly_addSchema (hS : S.Reached Possible)
    (hc : (S.layout.catalog c).isDefinition = true) (hlt : c < S.layout.catalogs.length)
    {name : Text}
    {options : OptionMap} {M : Layout} (hopen : openSchema c name options S.layout = .ok s M) :
    (S.step (.addSchema c name options)).layout.ListsOnly c (name.trim Text.isWhite) s := by
  obtain ⟨node, hnode, hnone, hs, hM⟩ := openSchema_ok hopen
  have hlists : S.lists c (.addSchema c name options) = some s := by
    simp only [lists, hopen, if_true]
  have hschemas := step_schemas hS.sane (.addSchema c name options) hlt
  rw [hlists] at hschemas
  rw [← newSchema_name hnode]
  refine (listsOnly_iff hschemas ?_).mpr fun t ht => ?_
  · have hstep : (S.step (.addSchema c name options)).layout = M.enlist c s := by
      simp only [Session.step, hopen]
    rw [hstep, hM]
    show ((S.layout.push node).schema s).name = node.name
    rw [schema_push, if_pos hs]
  · obtain ⟨e, he, het⟩ := List.mem_filterMap.mp ht
    have hold := hS.sane.layout.wellMade.coherent.listed_lt c t (List.mem_map.mpr ⟨e, he, het⟩)
    rw [step_name hS.sane hold]
    exact ne_name_of_titled hS.labelled.2 hc hnone t ht

/-- A schema of a definition is the only one of its name if its builder has listed no other of that
name. -/
theorem Reached.listsOnly_built (hS : S.Reached Possible)
    (hc : (S.layout.catalog c).isDefinition = true)
    {name : Text} {options : OptionMap} {moves : List Move}
    (h : S.Builds (.beginListed c name options) (.listed c s) moves) :
    (S.built (.beginListed c name options) moves).layout.ListsOnly c (name.trim Text.isWhite) s
      ↔ ∀ t ∈ listed c (S.step (.beginListed c name options)) moves,
        ((S.built (.beginListed c name options) moves).layout.schema t).name
          ≠ name.trim Text.isWhite := by
  have hT := hS.step h.possible
  have hU := hT.moves h.allowed
  have hlt : c < S.layout.catalogs.length := h.possible
  obtain ⟨node, hnode, hnone, hs, hlayout⟩ := opened_of_beginListed h.begins
  rw [← newSchema_name hnode]
  -- names of schemas that there are when the builder begins are kept to the end
  have hkept {t : SchemaId}
      (ht : t < (S.step (.beginListed c name options)).layout.schemas.length) :
      ((S.built (.beginListed c name options) moves).layout.schema t).name
        = ((S.step (.beginListed c name options)).layout.schema t).name := by
    obtain ⟨hplace, hname⟩ := hT.name_moves h.allowed ht
    exact (step_name hU.sane hplace).trans hname
  have hnamed : ((S.built (.beginListed c name options) moves).layout.schema s).name
      = node.name := by
    have hlast : s < (S.layout.push node).schemas.length := by
      rw [hs]
      exact lt_length_push ..
    have hbusy := undisturbed_markBusy (S.layout.push node) s true
    have hplace := Nat.lt_of_lt_of_le hlast hbusy.length_le
    rw [← hlayout] at hplace
    rw [hkept hplace, hlayout, (hbusy.alike s hlast).name, schema_push, if_pos hs]
  have hfinish : (moves.foldl Session.step (S.step (.beginListed c name options))).lists c
      (.finish true) = some s := by
    simp only [lists, h.done, if_true]
  have hlength := hT.keeps_moves (I := fun T => c < T.layout.catalogs.length) h.allowed
    (step_catalog hS.sane _ hlt).1 fun T m hsane _ hcatalog => (step_catalog hsane m hcatalog).1
  have hschemas := step_schemas hU.sane (.finish true) hlength
  rw [hfinish, hT.schemas_moves h.allowed (step_catalog hS.sane _ hlt).1,
    step_schemas hS.sane _ hlt] at hschemas
  refine (listsOnly_iff hschemas hnamed).trans ?_
  constructor
  · intro hall t ht
    exact hall t (List.mem_append_right _ ht)
  · intro hlisted t ht
    rcases List.mem_append.mp ht with hold | hnew
    · have hmem : t ∈ (S.layout.catalog c).schemas := (List.append_nil _).subst hold
      obtain ⟨e, he, het⟩ := List.mem_filterMap.mp hmem
      have hplace := hS.sane.layout.wellMade.coherent.listed_lt c t (List.mem_map.mpr ⟨e, he, het⟩)
      have hname := (hkept (step_lt hS.sane hplace)).trans (step_name hS.sane hplace)
      intro hsame
      exact ne_name_of_titled hS.labelled.2 hc hnone t hmem (hname.symm.trans hsame)
    · exact hlisted t hnew

/-- **A name is there once exactly if no builder has taken it.**  In every session, whatever its
builders do:

* A nested schema whose builder has succeeded is found under its name, which is there once and is
  the name of no group, exactly if nothing that was done while the builder was at work has added a
  field of that name, or one in a group of that name, to the parent.
* A schema of a definition whose builder has succeeded is the only one of its name exactly if none
  of the schemas listed in the definition meanwhile has that name.
* A schema that is listed without a builder is the only one of its name. -/
theorem Reached.declared_once (hS : S.Reached Possible) :
    (∀ parent child name options moves,
      S.Builds (.beginNested parent name options) (.nested parent child) moves →
        (((S.built (.beginNested parent name options) moves).layout.schema parent).HasOnly
            (name.trim Text.isWhite) child
          ↔ ∀ place ∈ added parent (S.step (.beginNested parent name options)) moves,
            place.1 ≠ name.trim Text.isWhite ∧ place.2 ≠ some (name.trim Text.isWhite)))
    ∧ ∀ c, (S.layout.catalog c).isDefinition = true →
      (∀ s name options moves, S.Builds (.beginListed c name options) (.listed c s) moves →
        ((S.built (.beginListed c name options) moves).layout.ListsOnly c
            (name.trim Text.isWhite) s
          ↔ ∀ t ∈ listed c (S.step (.beginListed c name options)) moves,
            ((S.built (.beginListed c name options) moves).layout.schema t).name
              ≠ name.trim Text.isWhite))
      ∧ ∀ s name options M, openSchema c name options S.layout = .ok s M →
        (S.step (.addSchema c name options)).layout.ListsOnly c (name.trim Text.isWhite) s := by
  refine ⟨fun parent child name options moves h => hS.hasOnly_built h, fun c hc => ⟨?_, ?_⟩⟩
  · exact fun s name options moves h => hS.listsOnly_built hc h
  · intro s name options M hopen
    refine hS.listsOnly_addSchema hc (Nat.lt_of_not_le fun hle => ?_) hopen
    -- a place without a catalog is no definition
    unfold catalog at hc
    rw [List.getD_eq_getElem?_getD, List.getElem?_eq_none hle] at hc
    exact absurd hc (by simp [default])

/-! ### A shelf -/

/-- A definition, and a schema that stands nowhere. -/
def shelf : Session :=
  [.addDefinition "shelf" .empty, .createSchema .detached "box" .empty].foldl step ⟨[], .empty⟩

theorem reached_shelf : shelf.Reached Possible :=
  Reached.start.moves ⟨trivial, trivial, trivial⟩

/-- A column is declared where the nested schema will be, and one inside it. -/
theorem builds_lid : shelf.Builds (.beginNested 0 " lid " .empty) (.nested 0 1)
    [.declare 0 (.column "label" 3 .empty), .declare 1 (.column "lid" 1 .empty)] where
  possible := show 0 < List.length _ by decide
  begins := by decide
  allowed := ⟨⟨by decide, trivial⟩, ⟨by decide, trivial⟩, trivial⟩
  done := by decide

/-- Another schema is listed before the one that is being built. -/
theorem builds_row : shelf.Builds (.beginListed 0 "row" .empty) (.listed 0 1)
    [.addSchema 0 " line" .empty] where
  possible := show 0 < List.length _ by decide
  begins := by decide
  allowed := ⟨show 0 < List.length _ by decide, trivial⟩
  done := by decide

theorem isDefinition_shelf : (shelf.layout.catalog 0).isDefinition = true := by
  decide

/-- Builders that leave the names alone: all are there once. -/
theorem declared_once_shelf :
    ((shelf.built (.beginNested 0 " lid " .empty)
        [.declare 0 (.column "label" 3 .empty), .declare 1 (.column "lid" 1 .empty)]).layout.schema
      0).HasOnly "lid" 1
    ∧ (shelf.built (.beginListed 0 "row" .empty)
        [.addSchema 0 " line" .empty]).layout.ListsOnly 0 "row" 1
    ∧ (shelf.step (.addSchema 0 "row " .empty)).layout.ListsOnly 0 "row" 1 := by
  obtain ⟨hnested, hlisted⟩ := reached_shelf.declared_once
  obtain ⟨hbuilt, hadded⟩ := hlisted 0 isDefinition_shelf
  have htrim : (" lid " : Text).trim Text.isWhite = "lid" := by decide
  have hrow : ("row" : Text).trim Text.isWhite = "row" := by decide
  have hrow' : ("row " : Text).trim Text.isWhite = "row" := by decide
  refine ⟨?_, ?_, ?_⟩
  · have h := (hnested 0 1 " lid " .empty _ builds_lid).mpr (by decide)
    rwa [htrim] at h
  · have h := (hbuilt 1 "row" .empty _ builds_row).mpr (by decide)
    rwa [hrow] at h
  · obtain ⟨M, hopen⟩ : ∃ M, openSchema 0 "row " .empty shelf.layout = .ok 1 M :=
      ⟨_, ok_of_gives (by decide)⟩
    have h := hadded 1 "row " .empty M hopen
    rwa [hrow'] at h

/-- **Builders can take a name**: the column that is declared in the parent stands before the nested
schema and answers for its key, and a definition lists two schemas of one name. -/
theorem not_declared_once :
    (¬ ∀ S : Session, S.Reached Possible → ∀ parent child name options moves,
      S.Builds (.beginNested parent name options) (.nested parent child) moves →
        ((S.built (.beginNested parent name options) moves).layout.schema parent).HasOnly
          (name.trim Text.isWhite) child)
    ∧ ¬ ∀ S : Session, S.Reached Possible → ∀ c s name options moves,
      (S.layout.catalog c).isDefinition = true →
        S.Builds (.beginListed c name options) (.listed c s) moves →
          (S.built (.beginListed c name options) moves).layout.ListsOnly c
            (name.trim Text.isWhite) s := by
  constructor
  · intro hall
    have hbuilds : shelf.Builds (.beginNested 0 "part" .empty) (.nested 0 1)
        [.declare 0 (.column "part" 2 .empty)] := by
      refine ⟨show 0 < List.length _ by decide, by decide, ?_, by decide⟩
      exact ⟨⟨by decide, trivial⟩, trivial⟩
    have honce := (hall shelf reached_shelf 0 1 "part" .empty _ hbuilds).once
    exact absurd honce (by decide)
  · intro hall
    have hbuilds : shelf.Builds (.beginListed 0 "row" .empty) (.listed 0 1)
        [.addSchema 0 "row" .empty] := by
      refine ⟨show 0 < List.length _ by decide, by decide, ?_, by decide⟩
      exact ⟨show 0 < List.length _ by decide, trivial⟩
    have honly := hall shelf reached_shelf 0 1 "row" .empty _ isDefinition_shelf hbuilds
    unfold ListsOnly at honly
    exact absurd honly (by decide)

end Session

end RecordLayout
