import RecordLayout.Proofs.Layout.Session

/-!
# What sessions keep

Every move keeps a layout well made and its options valid, also a move that fails; so all layouts
that come about are.

## Main definitions

* `Layout.Sane`: a well-made layout with valid options.
* `Layout.Grown`: a sane layout that has grown out of another, and is calm if that was.
* `Move.Sound`: a move that propagates only a sound set, and declares only a codec that receives
  what is handed down.
* `Session.Sane`: a session with a sane layout, all of whose sites are schemas of it.

## Main results

* `Session.step_sane`: what one move keeps.
* `Session.Reached.sane`: **layouts are well made, and their options are valid**.
* `Session.Reached.calm`: **they are calm if all moves are sound**.
-/

namespace RecordLayout

namespace Layout

open Build

variable {L M N : Layout}

/-- A well-made layout with valid options. -/
structure Sane (L : Layout) : Prop where
  wellMade : L.WellMade
  tabled : L.Tabled

/-- A sane layout that has grown out of another, and is calm if that was. -/
structure Grown (L M : Layout) : Prop where
  sane : M.Sane
  length_le : L.schemas.length ≤ M.schemas.length
  calm : L.Calm → M.Calm

theorem Grown.refl (hL : L.Sane) : L.Grown L := ⟨hL, Nat.le_refl _, id⟩

theorem Grown.trans (h : L.Grown M) (h' : M.Grown N) : L.Grown N :=
  ⟨h'.sane, Nat.le_trans h.length_le h'.length_le, fun hL => h'.calm (h.calm hL)⟩

theorem Develops.sane (h : L.Develops M) (hL : L.Sane) : M.Sane :=
  ⟨h.wellMade hL.wellMade, h.choose_spec.tabled hL.tabled⟩

theorem Develops.length_eq (h : L.Develops M) (hL : L.Sane) :
    M.schemas.length = L.schemas.length := (h.follows hL.wellMade).length

theorem Sane.gentle {α : Type} {x : Build α} (hL : L.Sane) (hx : Gentle x) :
    L.Grown (x.after L) := by
  obtain ⟨hdevelops, hpreserves⟩ := ends_iff.mp (hx L hL.wellMade)
  exact ⟨hdevelops.sane hL, Nat.le_of_eq (hdevelops.length_eq hL).symm, hpreserves _ calm_kept⟩

/-- A new schema. -/
theorem Sane.push (hL : L.Sane) {scope : Scope} (hscope : L.ScopeExists scope) {name : Text}
    {options : OptionMap} {node : Schema} (h : L.newSchema scope name options = .ok node) :
    L.Grown (L.push node) := by
  have hstands := standsIn_of_newSchema hscope h
  have htabled : (L.push node).Tabled := by
    obtain ⟨name, table, rfl, hvalid, hschema, -⟩ := newSchema_ok h
    exact hL.tabled.push rfl ⟨hvalid, hschema⟩
  obtain ⟨name, table, rfl, -⟩ := newSchema_ok h
  refine ⟨⟨hL.wellMade.push rfl rfl hstands, htabled⟩, ?_, fun hcalm =>
    ⟨htabled, hcalm.receptive.push rfl, hcalm.waiting.push rfl⟩⟩
  rw [length_push]
  exact Nat.le_succ _

/-- A new field. -/
theorem Sane.append_sane (hL : L.Sane) (s : SchemaId) (key : Text) {entry : Entry}
    (hwithin : EntryWithin L.schemas.length entry) (htabled : entry.Tabled) :
    (L.append s key entry).Sane :=
  ⟨hL.wellMade.append s key hwithin, hL.tabled.append s key htabled⟩

/-- A new field that receives what is handed down. -/
theorem Sane.append (hL : L.Sane) (s : SchemaId) (key : Text) {entry : Entry}
    (hwithin : EntryWithin L.schemas.length entry) (htabled : entry.Tabled) (hcalm : entry.Calm)
    (hreceptive : entry.Receptive) : L.Grown (L.append s key entry) := by
  have hsane := hL.append_sane s key hwithin htabled
  exact ⟨hsane, Nat.le_of_eq (length_append ..).symm, fun h =>
    ⟨hsane.tabled, h.receptive.append s key hreceptive, h.waiting.append s key hcalm⟩⟩

/-- A setting that leaves the options valid. -/
theorem Sane.setting (hL : L.Sane) (s : SchemaId) {f : Schema → Schema}
    (hf : ∀ node, Alike node (f node))
    (hoptions : s < L.schemas.length → SchemaTabled (L.schema s) → SchemaTabled (f (L.schema s))) :
    L.Grown (L.modify s f) := by
  have htabled := hL.tabled.modify (s := s) (f := f) (hf _).entries
    fun hs => hoptions hs (hL.tabled.schema s hs)
  exact ⟨⟨hL.wellMade.setting s hf, htabled⟩, Nat.le_of_eq (length_modify ..).symm,
    fun h => ⟨htabled, h.receptive.modify (hf _).entries, h.waiting.modify (hf _).entries⟩⟩

theorem Sane.markBusy (hL : L.Sane) (s : SchemaId) (busy : Bool) : L.Grown (L.markBusy s busy) :=
  hL.setting s (fun _ => ⟨rfl, rfl, rfl, rfl⟩) fun _ h => h

/-- A new catalog. -/
theorem Sane.pushCatalog (hL : L.Sane) {added : Catalog}
    (hadded : ListsWithin L.schemas.length added) : L.Grown (L.pushCatalog added) :=
  ⟨⟨hL.wellMade.pushCatalog hadded, hL.tabled.of_schemas rfl⟩, Nat.le_refl _,
    fun h => h.of_schemas rfl⟩

theorem Sane.enlist (hL : L.Sane) (c : CatalogId) {s : SchemaId} (hs : s < L.schemas.length) :
    L.Grown (L.enlist c s) :=
  ⟨⟨hL.wellMade.enlist c hs, hL.tabled.of_schemas rfl⟩, Nat.le_refl _, fun h => h.of_schemas rfl⟩

/-- A new definition, which lists nothing yet. -/
theorem Sane.pushDefinition (hL : L.Sane) {name : Text} {options : OptionMap} {definition : Catalog}
    (h : newDefinition name options = .ok definition) : L.Grown (L.pushCatalog definition) := by
  obtain ⟨-, -, -, hlisting⟩ := newDefinition_ok h
  refine hL.pushCatalog fun t ht => ?_
  rw [hlisting] at ht
  exact absurd ht (by simp)

/-- A change of an option, which the table has accepted. -/
theorem Sane.setOption (hL : L.Sane) {s : SchemaId} {name : Text} {value : Value}
    {table : OptionTable} (h : (L.schema s).options.set name value = .ok table) :
    L.Grown (L.modify s fun node => { node with options := table }) := by
  refine hL.setting s (fun _ => ⟨rfl, rfl, rfl, rfl⟩) fun _ htabled => ?_
  obtain ⟨hvalid, hschema⟩ := htabled.1.set h
  exact ⟨hvalid, hschema.trans htabled.2⟩

/-- A declaration, whose field the schema has accepted. -/
theorem Sane.add_sane (hL : L.Sane) {s : SchemaId} {key : Text} {entry : Entry}
    (h : (L.schema s).Accepts key entry) (d : Declaration) : (d.add L s key entry).Sane := by
  obtain ⟨hwithin, htabled, -⟩ := h.entry L.schemas.length
  refine d.add_induction (hL.append_sane s key hwithin htabled) fun hsane => ?_
  have hgrown : Grown (L.append s key entry) ((L.append s key entry).modify s fun node =>
      { node with fillers := node.fillers + 1 }) :=
    hsane.setting s (fun _ => ⟨rfl, rfl, rfl, rfl⟩) fun _ h => h
  exact hgrown.sane

/-- A declaration of a field that receives what is handed down. -/
theorem Sane.add (hL : L.Sane) {s : SchemaId} {key : Text} {entry : Entry}
    (h : (L.schema s).Accepts key entry) (hreceptive : entry.Receptive) (d : Declaration) :
    L.Grown (d.add L s key entry) := by
  obtain ⟨hwithin, htabled, hcalm⟩ := h.entry L.schemas.length
  refine d.add_induction (hL.append s key hwithin htabled hcalm hreceptive) fun hgrown => ?_
  exact hgrown.trans (hgrown.sane.setting s (fun _ => ⟨rfl, rfl, rfl, rfl⟩) fun _ h => h)

/-- A propagation develops a layout. -/
theorem develops_propagate (options : OptionMap) (s : SchemaId) (L : Layout) :
    L.Develops ((propagate options s).after L) :=
  ⟨0, ends_iff.mp (propagate_evolves options s L)⟩

end Layout

open Layout Build

/-- Every query is a gentle computation. -/
theorem Query.gentle (q : Query) : Gentle q.run := q.pervaded gentle_pervasive

/-- A query develops a layout. -/
theorem Query.develops (q : Query) {L : Layout} (hL : L.WellMade) :
    L.Develops (q.run.after L) := (ends_iff.mp (q.gentle L hL)).1

/-- A move that propagates no set but a sound one, and declares no codec but one that receives what
is handed down.  A catalog that is added has options like a schema, if it has any. -/
def Move.Sound : Move → Prop
  | .propagate options _ => options.Sound
  | .declare _ d => d.Receptive
  | .addCatalog _ options? _ => ∀ t ∈ options?, t.Valid ∧ t.schema = schemaOptions
  | _ => True

namespace Session

/-- A session with a sane layout, all of whose sites are schemas of it. -/
structure Sane (S : Session) : Prop where
  layout : S.layout.Sane
  sites : ∀ site ∈ S.sites, site.schema < S.layout.schemas.length

/-- A sane session that has grown out of another, and is calm if that was. -/
def Grown (S T : Session) : Prop := T.Sane ∧ (S.layout.Calm → T.layout.Calm)

variable {S : Session}

/-- A session without its innermost builder. -/
theorem Sane.rest (hS : S.Sane) {site : Site} {sites : List Site}
    (hsites : S.sites = site :: sites) :
    Sane ⟨sites, S.layout⟩ := by
  refine ⟨hS.layout, fun other hother => hS.sites other ?_⟩
  rw [hsites]
  exact List.mem_cons_of_mem _ hother

/-- A session whose layout has grown. -/
theorem Sane.grow (hS : S.Sane) {L : Layout} (hL : S.layout.Grown L) :
    S.Grown { S with layout := L } :=
  ⟨⟨hL.sane, fun site hsite => Nat.lt_of_lt_of_le (hS.sites site hsite) hL.length_le⟩, hL.calm⟩

/-- A session in which a builder begins. -/
theorem Sane.open (hS : S.Sane) {L : Layout} (hL : S.layout.Grown L) {site : Site}
    (hsite : site.schema < L.schemas.length) : S.Grown ⟨site :: S.sites, L⟩ := by
  refine ⟨⟨hL.sane, fun other hother => ?_⟩, hL.calm⟩
  rcases List.mem_cons.mp hother with rfl | hother
  · exact hsite
  · exact Nat.lt_of_lt_of_le (hS.sites other hother) hL.length_le

/-- A builder begins on a new schema. -/
theorem Sane.begin (hS : S.Sane) {scope : Scope} (hscope : S.layout.ScopeExists scope) {name : Text}
    {options : OptionMap} {node : Schema} (h : S.layout.newSchema scope name options = .ok node)
    {site : Site} (hsite : site.schema = S.layout.schemas.length) :
    S.Grown ⟨site :: S.sites, (S.layout.push node).markBusy S.layout.schemas.length true⟩ := by
  have hpush := hS.layout.push hscope h
  have hbusy := hpush.sane.markBusy S.layout.schemas.length true
  refine hS.open (hpush.trans hbusy) ?_
  rw [hsite]
  exact Nat.lt_of_lt_of_le (lt_length_push ..) hbusy.length_le

/-- A builder ends. -/
theorem Sane.close (hS : S.Sane) {site : Site} {sites : List Site}
    (hsites : S.sites = site :: sites)
    {L : Layout} (hL : (S.layout.markBusy site.schema false).Grown L) : S.Grown ⟨sites, L⟩ :=
  (hS.rest hsites).grow ((hS.layout.markBusy site.schema false).trans hL)

/-- The schema of the innermost builder is still there when the builder ends. -/
theorem Sane.lt_idle (hS : S.Sane) {site : Site} {sites : List Site}
    (hsites : S.sites = site :: sites) :
    site.schema < (S.layout.markBusy site.schema false).schemas.length :=
  Nat.lt_of_lt_of_le (hS.sites site (hsites ▸ List.mem_cons_self))
    (hS.layout.markBusy site.schema false).length_le

/-- **What one move keeps.** -/
theorem step_sane (hS : S.Sane) {m : Move} (hm : S.Possible m) :
    (S.step m).Sane ∧ (m.Sound → S.layout.Calm → (S.step m).layout.Calm) := by
  have hgrown {T : Session} (h : S.Grown T) : T.Sane ∧ (m.Sound → S.layout.Calm → T.layout.Calm) :=
    ⟨h.1, fun _ => h.2⟩
  have heffect := S.step_effect m
  generalize S.step m = T at heffect ⊢
  -- only a set that is propagated and a codec that is declared are asked more of, for the layout to
  -- stay calm
  cases heffect with
  | refused => exact hgrown ⟨hS, id⟩
  | created hnode => exact hgrown (hS.grow (hS.layout.push hm hnode))
  | defined hnew => exact hgrown (hS.grow (hS.layout.pushDefinition hnew))
  | cataloged name options? listing => exact hgrown (hS.grow (hS.layout.pushCatalog hm))
  | @listed c name options node hopen hnode hfree =>
    have hpush := hS.layout.push (show S.layout.ScopeExists (.under c) from hm) hnode
    exact hgrown (hS.grow (hpush.trans (hpush.sane.enlist c (lt_length_push ..))))
  | @declared s d key entry hfield =>
    have haccepts := Declaration.accepts hm.2 hfield
    refine ⟨⟨hS.layout.add_sane haccepts d, fun site hsite => ?_⟩, fun hsound hcalm => ?_⟩
    · exact Nat.lt_of_lt_of_eq (hS.sites site hsite) (length_add ..).symm
    · exact (hS.layout.add haccepts (Declaration.receptive hsound hfield) d).calm hcalm
  | set htable => exact hgrown (hS.grow (hS.layout.setOption htable))
  | conditioned s condition? =>
    exact hgrown (hS.grow (hS.layout.setting s (fun _ => ⟨rfl, rfl, rfl, rfl⟩) fun _ h => h))
  | propagated options s =>
    -- which schemas the set reaches does not matter here: all that it does is a development
    have hdevelops := develops_propagate options s S.layout
    have hlength := hdevelops.length_eq hS.layout
    refine ⟨⟨hdevelops.sane hS.layout, fun site hsite => ?_⟩, fun hsound hcalm => ?_⟩
    · exact Nat.lt_of_lt_of_eq (hS.sites site hsite) hlength.symm
    · exact (ends_iff.mp (propagate_sound hsound hS.layout.wellMade hcalm hm)).2
  | asked q => exact hgrown (hS.grow (hS.layout.gentle q.gentle))
  | @begunNested parent name options node hopen hnode hkey =>
    exact hgrown (hS.begin (show S.layout.ScopeExists (.within parent) from hm) hnode rfl)
  | @begunListed c name options node hopen hnode hfree =>
    exact hgrown (hS.begin (show S.layout.ScopeExists (.under c) from hm) hnode rfl)
  | @begunSetup s hidle =>
    have hbusy := hS.layout.markBusy s true
    exact hgrown (hS.open hbusy (Nat.lt_of_lt_of_le hm hbusy.length_le))
  | @closed site sites succeeded hsites hnothing =>
    exact hgrown (hS.close hsites (.refl (hS.layout.markBusy site.schema false).sane))
  | @closedNested parent child sites hsites =>
    have hidle := (hS.layout.markBusy child false).sane
    exact hgrown (hS.close hsites (hidle.append parent _ (hS.lt_idle hsites)
      trivial trivial trivial))
  | @closedListed c s sites hsites =>
    have hidle := (hS.layout.markBusy s false).sane
    exact hgrown (hS.close hsites (hidle.enlist c (hS.lt_idle hsites)))

theorem every_empty (P : Entry → Prop) : Layout.empty.Every P := fun s key e he => by
  rw [schema_of_le (L := .empty) (Nat.zero_le s)] at he
  exact absurd he (by simp [Schema.find?, Schema.blank])

theorem wellMade_empty : Layout.empty.WellMade := by
  have hblank (s : SchemaId) : Layout.empty.schema s = .blank :=
    schema_of_le (L := .empty) (Nat.zero_le s)
  refine ⟨⟨fun s p hp => ?_, fun s p around hs => ?_, fun s key t ht => ?_,
    fun s key ref t href => ?_, fun c t ht => ?_⟩, fun s total g hknown => ?_⟩
  · rw [hblank] at hp
    exact absurd hp (by simp [Schema.blank])
  · rw [hblank] at hs
    exact absurd hs (by simp [Schema.blank])
  · exact absurd (every_empty (fun _ => False) s key _ ht) id
  · exact absurd (every_empty (fun _ => False) s key _ href) id
  · rw [show (Layout.empty.catalog c).listing = [] from rfl] at ht
    exact absurd ht (by simp)
  · rw [hblank] at hknown
    exact absurd hknown (by simp [Schema.blank])

theorem tabled_empty : Layout.empty.Tabled :=
  ⟨fun _ hs => absurd hs (Nat.not_lt_zero _), every_empty _⟩

theorem sane_start : (⟨[], .empty⟩ : Session).Sane :=
  ⟨⟨wellMade_empty, tabled_empty⟩, fun _ hsite => absurd hsite (by simp)⟩

/-- **Layouts are well made, and their options are valid.** -/
theorem Reached.sane (hS : S.Reached Possible) : S.Sane := by
  induction hS with
  | start => exact sane_start
  | step _ hm ih => exact (step_sane ih hm).1

/-- **Layouts are calm if all moves are sound.** -/
theorem Reached.calm (hS : S.Reached fun S m => S.Possible m ∧ m.Sound) : S.layout.Calm := by
  induction hS with
  | start => exact ⟨tabled_empty, every_empty _, every_empty _⟩
  | step hS hm ih => exact (step_sane (hS.mono fun _ _ h => h.1).sane hm.1).2 hm.2 ih

end Session

end RecordLayout
