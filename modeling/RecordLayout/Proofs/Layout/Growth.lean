import RecordLayout.Proofs.Layout.Reached

/-!
# What a move does to a layout

A move adds one field that is made by a declaration, or it does one of a few other things to a
layout, any number of times: the changes of queries and propagations, new schemas without fields,
nested schemas that become fields, settings, and catalogs.  What all of these keep, a session keeps
in all moves but declarations, and what a declaration adds is read off the field that it makes.

## Main definitions

* `Layout.Growth`, `Layout.Grows`: what a layout goes through besides declarations.

## Main results

* `Session.step_grows`: **what a move does**, if it is no declaration.
* `Session.step_declare`, `Layout.schema_add`: **what a declaration does**.
* `Session.step_keeps`: what a move keeps, of either kind.
* `Session.received_moves`: what a schema has received it keeps.
-/

namespace RecordLayout

/-- Schemas that differ at most in their options, in their condition, and in whether a builder is at
work. -/
structure Schema.Resembles (a b : Schema) : Prop where
  name : b.name = a.name
  entries : b.entries = a.entries
  groups : b.groups = a.groups
  fillers : b.fillers = a.fillers
  received : b.received = a.received

namespace Layout

variable {L M N : Layout}

/-- What a layout goes through besides declarations. -/
inductive Growth (L : Layout) : Layout → Prop
  /-- A change that queries and propagations make. -/
  | change {r : Nat} {M : Layout} (h : Change r L M) : Growth L M
  /-- A new schema, without fields. -/
  | pushed {scope : Scope} {name : Text} {options : OptionMap} {node : Schema}
    (h : L.newSchema scope name options = .ok node) : Growth L (L.push node)
  /-- A nested schema becomes a field. -/
  | nested (parent : SchemaId) {child : SchemaId} (hchild : child < L.schemas.length) :
    Growth L (L.append parent (L.schema child).name (.nested child))
  /-- A setting. -/
  | setting (s : SchemaId) {f : Schema → Schema} (hf : ∀ node, Schema.Resembles node (f node)) :
    Growth L (L.modify s f)
  /-- A change of catalogs. -/
  | catalogs {M : Layout} (h : M.schemas = L.schemas) : Growth L M

/-- Any number of steps of growth. -/
def Grows : Layout → Layout → Prop := Relation.ReflTransGen Growth

theorem Grows.refl (L : Layout) : L.Grows L := Relation.ReflTransGen.refl

theorem Grows.single (h : L.Growth M) : L.Grows M := Relation.ReflTransGen.single h

theorem Grows.trans (h : L.Grows M) (h' : M.Grows N) : L.Grows N := Relation.ReflTransGen.trans h h'

theorem Develops.grows (h : L.Develops M) : L.Grows M := by
  obtain ⟨r, h⟩ := h
  exact Relation.ReflTransGen.mono (fun _ _ hchange => .change hchange) _ _ h

theorem growth_markBusy (L : Layout) (s : SchemaId) (busy : Bool) : L.Growth (L.markBusy s busy) :=
  .setting s fun _ => ⟨rfl, rfl, rfl, rfl, rfl⟩

/-- What every step of growth keeps is kept. -/
theorem Grows.keeps {I : Layout → Prop} (h : L.Grows M)
    (hstep : ∀ L M, L.Growth M → I L → I M) (hL : I L) : I M := by
  induction h with
  | refl => exact hL
  | tail _ hMN ih => exact hstep _ _ hMN ih

/-- Growth takes back nothing that a schema has received. -/
theorem Growth.hasReceived (h : L.Growth M) {t : SchemaId} {m : OptionMap}
    (ht : (L.schema t).hasReceived m = true) : (M.schema t).hasReceived m = true := by
  cases h with
  | change h => exact h.hasReceived ht
  | pushed h =>
    rw [schema_push]
    split
    · next hlast =>
      -- in the place of the new schema there was none, and so nothing received
      rw [schema_of_le (Nat.le_of_eq hlast.symm)] at ht
      exact absurd ht (by simp [Schema.hasReceived, Schema.blank])
    · exact ht
  | nested parent hchild =>
    rw [schema_append]
    split <;> exact ht
  | setting s hf =>
    rw [schema_modify]
    split
    · unfold Schema.hasReceived
      rw [(hf _).received]
      exact ht
    · exact ht
  | catalogs h =>
    unfold schema
    rw [h]
    exact ht

/-! ### A declaration -/

/-- A schema with the new field of a declaration. -/
theorem schema_add (L : Layout) (d : Declaration) (s : SchemaId) (key : Text) (entry : Entry)
    (t : SchemaId) : (d.add L s key entry).schema t =
      if s = t ∧ t < L.schemas.length then
        { L.schema t with
          entries := (L.schema t).entries ++ [(key, entry)]
          groups := insertGroup (L.schema t).groups (entry.codec?.bind (·.group))
          fillers := (L.schema t).fillers + d.isFiller.toNat
          knownWidth? := none }
      else L.schema t := by
  unfold Declaration.add
  split
  · next hfiller =>
    rw [schema_modify, schema_append, length_append, hfiller]
    split <;> rfl
  · next hfiller =>
    rw [schema_append, Bool.eq_false_iff.mpr hfiller]
    rfl

end Layout

namespace Session

open Layout Build

variable {S : Session} {m : Move}

/-- **What a declaration does**: it adds the field that is made, if there is one. -/
theorem step_declare (S : Session) (s : SchemaId) (d : Declaration) :
    S.step (.declare s d) = match d.field (S.layout.schema s) with
      | .ok (key, entry) => { S with layout := d.add S.layout s key entry }
      | .error _ => S := by
  show { S with layout := (d.run s).after S.layout } = _
  unfold Build.after
  rw [d.run_apply]
  cases d.field (S.layout.schema s) <;> rfl

/-- **What a move does**, if it is no declaration. -/
theorem step_grows (hS : S.Sane) (hnot : ∀ s d, m ≠ .declare s d) :
    S.layout.Grows (S.step m).layout := by
  have hbusy (L : Layout) (s : SchemaId) (busy : Bool) := Grows.single (growth_markBusy L s busy)
  have hlisted {L M : Layout} (h : M.schemas = L.schemas) := Grows.single (Growth.catalogs h)
  have hset (s : SchemaId) {f : Schema → Schema} (hf : ∀ node, Schema.Resembles node (f node)) :=
    Grows.single (Growth.setting (L := S.layout) s hf)
  have heffect := S.step_effect m
  generalize S.step m = T at heffect ⊢
  cases heffect with
  | refused => exact .refl _
  | created hnode => exact .single (.pushed hnode)
  | defined | cataloged => exact hlisted rfl
  | listed hopen hnode hfree => exact (Grows.single (.pushed hnode)).trans (hlisted rfl)
  | @declared s d => exact absurd rfl (hnot s d)
  | set | conditioned => exact hset _ fun _ => ⟨rfl, rfl, rfl, rfl, rfl⟩
  | propagated options s => exact (develops_propagate options s S.layout).grows
  | asked q => exact (q.develops hS.layout.wellMade).grows
  | begunNested hopen hnode hkey => exact (Grows.single (.pushed hnode)).trans (hbusy _ _ true)
  | begunListed hopen hnode hfree => exact (Grows.single (.pushed hnode)).trans (hbusy _ _ true)
  | @begunSetup s hidle => exact hbusy _ s true
  | @closed site => exact hbusy _ site.schema false
  | @closedNested parent child sites hsites =>
    exact (hbusy _ child false).trans (.single (.nested parent (hS.lt_idle hsites)))
  | @closedListed c s => exact (hbusy _ s false).trans (hlisted rfl)

/-- **What one move keeps**: what all growth keeps, and the new field of a declaration. -/
theorem step_keeps {I : Layout → Prop} (hS : S.Sane) (hI : I S.layout)
    (hgrowth : ∀ L M, L.Growth M → I L → I M)
    (hadd : ∀ s d, m = .declare s d → ∀ key entry, d.field (S.layout.schema s) = .ok (key, entry) →
      I (d.add S.layout s key entry)) : I (S.step m).layout := by
  by_cases hdeclare : ∃ s d, m = .declare s d
  · obtain ⟨s, d, rfl⟩ := hdeclare
    rw [step_declare]
    split
    · next key entry hfield => exact hadd s d rfl key entry hfield
    · exact hI
  · have hgrows := step_grows hS fun s d hm => hdeclare ⟨s, d, hm⟩
    exact hgrows.keeps hgrowth hI

end Session

end RecordLayout
