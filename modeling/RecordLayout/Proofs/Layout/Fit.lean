import RecordLayout.Proofs.Layout.Growth
import RecordLayout.Proofs.Layout.Labelled

/-!
# What is inherited is never refused

What schemas and definitions hold has been brought into form and accepted, and schemas and columns
accept the same.  So what a new schema or a new codec stands under is taken over without an error,
if codecs that are made elsewhere receive what schemas hand down.

## Main definitions

* `Layout.Stocked`: the options of definitions and other catalogs are valid.
* `Layout.Furnished`: a layout as sessions leave it.
* `Layout.Fit`: one in which no set waits that schemas do not take.
* `Layout.Bequeaths`: what there is to inherit is taken over.

## Main results

* `Session.Reached.fit`: layouts that sessions come to are fit.
* `Layout.Furnished.bequeaths`: **what there is around a new schema or codec is never refused**.
-/

namespace RecordLayout

open Build

namespace Layout

/-- The options of definitions and other catalogs are valid. -/
def Stocked (L : Layout) : Prop :=
  ∀ c table, (L.catalog c).options? = some table → table.Valid ∧ table.schema = schemaOptions

variable {L M N : Layout}

theorem Stocked.of_catalogs (h : L.Stocked) (hcatalogs : M.catalogs = L.catalogs) :
    M.Stocked := by
  intro c table htable
  refine h c table ?_
  unfold catalog at htable ⊢
  rwa [← hcatalogs]

theorem Stocked.enlist (h : L.Stocked) (c : CatalogId) (s : SchemaId) : (L.enlist c s).Stocked := by
  intro d table htable
  rw [catalog_enlist] at htable
  refine h d table ?_
  split at htable <;> exact htable

theorem Stocked.pushCatalog (h : L.Stocked) {added : Catalog}
    (hadded : ∀ table, added.options? = some table → table.Valid ∧ table.schema = schemaOptions) :
    (L.pushCatalog added).Stocked := by
  intro c table htable
  rcases catalog_pushCatalog L added c with hold | hnew
  · exact h c table (hold ▸ htable)
  · exact hadded table (hnew ▸ htable)

theorem newDefinition_valid {name : Text} {options : OptionMap} {definition : Catalog}
    (h : newDefinition name options = .ok definition) {table : OptionTable}
    (htable : definition.options? = some table) :
    table.Valid ∧ table.schema = schemaOptions := by
  obtain ⟨made, hmade, hoptions, -⟩ := newDefinition_ok h
  obtain rfl := Option.some.inj (htable.symm.trans hoptions)
  exact OptionSchema.createTable_valid OptionSchema.distinct_schemaOptions hmade

/-- A layout as sessions leave it. -/
structure Furnished (L : Layout) : Prop where
  sane : L.Sane
  stocked : L.Stocked

/-- A layout as sessions leave it, in which no set is propagated but sound ones. -/
structure Fit (L : Layout) : Prop extends L.Furnished where
  calm : L.Calm

theorem Fit.grow (h : L.Fit) (hM : L.Grown M) (hcatalogs : M.catalogs = L.catalogs) : M.Fit :=
  ⟨⟨hM.sane, h.stocked.of_catalogs hcatalogs⟩, hM.calm h.calm⟩

/-- What a new schema stands under holds what schemas hold. -/
theorem Furnished.held (h : L.Furnished) (s : SchemaId) : (L.schema s).options.defined.Held := by
  rcases Nat.lt_or_ge s L.schemas.length with hs | hs
  · obtain ⟨hvalid, hschema⟩ := h.sane.tabled.schema s hs
    exact hvalid.held_defined hschema
  · rw [schema_of_le hs]
    exact fun e he => absurd he List.not_mem_nil

theorem Furnished.held_scope (h : L.Furnished) {scope : Scope} {around : OptionTable}
    (haround : L.scopeOptions scope = some around) : around.defined.Held := by
  cases scope with
  | detached => exact absurd haround nofun
  | within parent => exact Option.some.inj haround ▸ h.held parent
  | under c =>
    obtain ⟨hvalid, hschema⟩ := h.stocked c around haround
    exact hvalid.held_defined hschema

/-- A merge with what is around a new schema is not refused. -/
theorem merge_none {given around : OptionTable} (hgiven : given.schema = schemaOptions)
    (haround : around.defined.Held) : (given.merge around).2 = none := by
  rw [OptionTable.merge_eq]
  refine OptionTable.mergeValues_takes ?_
  rw [hgiven]
  exact haround.sound.takes

/-- What there is around a new schema or a new codec is taken over without an error, if the codec
receives what schemas hand down, as columns do. -/
structure Bequeaths (L : Layout) : Prop where
  schema : ∀ scope around options given, L.scopeOptions scope = some around →
    schemaOptions.createTable options = .ok given → (given.merge around).2 = none
  codec : ∀ s (c : Codec), c.Receptive → (c.inherit (L.schema s).options).2 = none

theorem Furnished.bequeaths (h : L.Furnished) : L.Bequeaths where
  schema scope around options given haround hgiven := by
    obtain ⟨-, hschema⟩ := OptionSchema.createTable_valid OptionSchema.distinct_schemaOptions hgiven
    exact merge_none hschema (h.held_scope haround)
  codec s _ hc := hc.inherit_none (h.held s).sound.takes

end Layout

/-- A move that adds no catalog with options but one that has options like a schema. -/
def Move.Stocks : Move → Prop
  | .addCatalog _ options? _ => ∀ t ∈ options?, t.Valid ∧ t.schema = schemaOptions
  | _ => True

theorem Move.Sound.stocks {m : Move} (h : m.Sound) : m.Stocks := by
  cases m with
  | addCatalog => exact h
  | _ => trivial

namespace Session

open Layout

variable {S : Session} {m : Move}

theorem step_stocked (hS : S.Sane) (h : S.layout.Stocked) (hm : m.Stocks) :
    (S.step m).layout.Stocked := by
  cases step_relists hS m with
  | same hsame _ => exact h.of_catalogs hsame
  | @pushed added hadded hpushed _ =>
    have hvalid (table : OptionTable) (htable : added.options? = some table) :
        table.Valid ∧ table.schema = schemaOptions := by
      rcases hadded with ⟨name, options, hnew⟩ | ⟨name, options?, listing, rfl, rfl⟩
      · exact newDefinition_valid hnew htable
      · exact hm table htable
    exact (h.pushCatalog hvalid).of_catalogs hpushed
  | enlisted _ hcatalog hlength =>
    intro c table htable
    rcases Nat.lt_or_ge c S.layout.catalogs.length with hc | hc
    · rw [hcatalog c hc] at htable
      exact h c table htable
    · -- a catalog that is not there has no options
      refine absurd htable ?_
      unfold catalog
      rw [List.getD_eq_getElem?_getD, List.getElem?_eq_none (hlength ▸ hc)]
      exact (Option.some_ne_none _).symm

theorem Reached.furnished (hS : S.Reached fun S m => S.Possible m ∧ m.Stocks) :
    S.layout.Furnished := by
  refine ⟨(hS.mono fun _ _ h => h.1).sane.layout, ?_⟩
  induction hS with
  | start => exact fun c table htable => absurd htable (by simp [catalog, Layout.empty])
  | step hS hm ih => exact step_stocked (hS.mono fun _ _ h => h.1).sane ih hm.2

theorem Reached.fit (hS : S.Reached fun S m => S.Possible m ∧ m.Sound) : S.layout.Fit :=
  ⟨(hS.mono fun _ _ h => ⟨h.1, h.2.stocks⟩).furnished, hS.calm⟩

end Session

end RecordLayout
