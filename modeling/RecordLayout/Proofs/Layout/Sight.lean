import RecordLayout.Layout.Resolve

/-!
# What names stand for

A search for the target of a reference resolves the references that it meets, so it changes the
layout as it goes.  What it finds can be said without any change: it is a function of the layout in
which the search begins.

## Main definitions

* `Layout.seenIn`, `Layout.seenAbove`: what a name stands for inside a schema, and around it.
* `Layout.target`, `Layout.fieldOf`: the target of a reference, and a field with it.
* `Layout.known?`: a field whose target has been found already.
* `Layout.Coherent`: schemas stand inside older ones, and nothing leads out of the layout.

## Main results

* `Layout.Coherent.target_lt`: a target is a schema of the layout.
* `Layout.fieldOf_of_known`: a target that has been found is the target.
* `Layout.seenAbove_not_isEndless`: the reason why there is no target is no endless propagation.
-/

namespace RecordLayout

namespace Layout

/-- The schema of a name in the catalog of a schema. -/
def listedFor (L : Layout) (s : SchemaId) (missing : Error) (name : Text) :
    Except Error SchemaId :=
  match (L.schema s).catalog? with
  | some c =>
    match (L.catalog c).find? name with
    | some t => .ok t
    | none => .error (.notInCatalog name (L.catalog c).name)
  | none => .error missing

/-- The target of a reference, where `search` gives what names stand for. -/
def standsFor (L : Layout) (search : Text → Except Error SchemaId) (s : SchemaId)
    (ref : Reference) : Except Error SchemaId :=
  match ref.target? with
  | some t => .ok t
  | none =>
    match search ref.schemaName with
    | .ok t => .ok t
    | .error reason =>
      .error (.unresolved ref.storeName (L.schema s).name ref.schemaName reason)

/-- What a name stands for inside a schema, where `above` gives what names stand for around it. -/
def seenFrom (L : Layout) (above : Error → Text → Except Error SchemaId) (s : SchemaId)
    (name : Text) : Except Error SchemaId :=
  match (L.schema s).find? name with
  | some (.column _) => .error (.columnInstead name (L.schema s).name)
  | some (.nested child) => .ok child
  | some (.reference ref) => L.standsFor (above (.noParent (L.schema s).name)) s ref
  | none => above (.notVisible name (L.schema s).name) name

/-- What a name stands for inside a schema with the given ones around it. -/
def seenIn (L : Layout) : List SchemaId → SchemaId → Text → Except Error SchemaId
  | [], s => L.seenFrom (L.listedFor s) s
  | parent :: around, s => L.seenFrom (fun _ => L.seenIn around parent) s

/-- What a name stands for around a schema. -/
def seenAbove (L : Layout) (s : SchemaId) (name : Text) : Except Error SchemaId :=
  match (L.schema s).ancestors with
  | [] => L.listedFor s (.noParent (L.schema s).name) name
  | parent :: around => L.seenIn around parent name

/-- The target of a reference of a schema. -/
def target (L : Layout) (s : SchemaId) (ref : Reference) : Except Error SchemaId :=
  L.standsFor (L.seenAbove s) s ref

/-- The field of a key, with the target of a reference. -/
def fieldOf (L : Layout) (s : SchemaId) (key : Text) : Except Error Field :=
  match (L.schema s).find? key with
  | some (.column codec) => .ok (.column codec)
  | some (.nested child) => .ok (.nested key child)
  | some (.reference ref) => (L.target s ref).map (.reference ref.storeName)
  | none => .error (.noField key (L.schema s).name)

/-- The field of a key, unless it is a reference whose target has not been found yet. -/
def known? (L : Layout) (s : SchemaId) (key : Text) : Option Field :=
  match (L.schema s).find? key with
  | some (.column codec) => some (.column codec)
  | some (.nested child) => some (.nested key child)
  | some (.reference ref) => ref.target?.map (.reference ref.storeName)
  | none => none

/-! ### Targets that have been found -/

theorem standsFor_of_target {ref : Reference} {t : SchemaId} (h : ref.target? = some t)
    (L : Layout) (search : Text → Except Error SchemaId) (s : SchemaId) :
    L.standsFor search s ref = .ok t := by
  unfold standsFor
  rw [h]

theorem target_of_target {ref : Reference} {t : SchemaId} (h : ref.target? = some t)
    (L : Layout) (s : SchemaId) : L.target s ref = .ok t := standsFor_of_target h L _ s

section Known

variable {L : Layout} {s t : SchemaId} {key : Text} {f : Field}

theorem known_of_column {c : Codec} (h : (L.schema s).find? key = some (.column c)) :
    L.known? s key = some (.column c) := by
  rw [known?, h]

theorem known_of_nested (h : (L.schema s).find? key = some (.nested t)) :
    L.known? s key = some (.nested key t) := by
  rw [known?, h]

theorem known_of_reference {ref : Reference} (h : (L.schema s).find? key = some (.reference ref))
    (ht : ref.target? = some t) : L.known? s key = some (.reference ref.storeName t) := by
  rw [known?, h]
  exact congrArg (Option.map (Field.reference ref.storeName)) ht

/-- A field that is known is a column, a nested schema, or a reference that has got its target. -/
theorem known_cases (h : L.known? s key = some f) :
    (∃ c, (L.schema s).find? key = some (.column c) ∧ f = .column c)
      ∨ (∃ t, (L.schema s).find? key = some (.nested t) ∧ f = .nested key t)
      ∨ ∃ ref t, (L.schema s).find? key = some (.reference ref) ∧ ref.target? = some t
        ∧ f = .reference ref.storeName t := by
  cases hfind : (L.schema s).find? key with
  | none =>
    rw [known?, hfind] at h
    exact absurd h nofun
  | some e =>
    cases e with
    | column c => exact .inl ⟨c, rfl, Option.some.inj (h.symm.trans (known_of_column hfind))⟩
    | nested t =>
      exact .inr (.inl ⟨t, rfl, Option.some.inj (h.symm.trans (known_of_nested hfind))⟩)
    | reference ref =>
      rw [known?, hfind] at h
      obtain ⟨t, ht, rfl⟩ := Option.map_eq_some_iff.mp h
      exact .inr (.inr ⟨ref, t, rfl, ht, rfl⟩)

/-- One that leads to a schema is a nested schema, or a reference that has got it as its target. -/
theorem known_schema_cases (h : L.known? s key = some f) (ht : f.schema? = some t) :
    ((L.schema s).find? key = some (.nested t) ∧ f = .nested key t)
      ∨ ∃ ref, (L.schema s).find? key = some (.reference ref) ∧ ref.target? = some t
        ∧ f = .reference ref.storeName t := by
  rcases known_cases h with ⟨c, -, rfl⟩ | ⟨u, hfind, rfl⟩ | ⟨ref, u, hfind, hu, rfl⟩
  · exact absurd ht nofun
  · obtain rfl := Option.some.inj ht
    exact .inl ⟨hfind, rfl⟩
  · obtain rfl := Option.some.inj ht
    exact .inr ⟨ref, hfind, hu, rfl⟩

/-- A target that has been found is the target. -/
theorem fieldOf_of_known (h : L.known? s key = some f) : L.fieldOf s key = .ok f := by
  unfold fieldOf
  rcases known_cases h with ⟨c, hfind, rfl⟩ | ⟨t, hfind, rfl⟩ | ⟨ref, t, hfind, ht, rfl⟩
  · rw [hfind]
  · rw [hfind]
  · rw [hfind]
    dsimp only
    rw [target_of_target ht]
    rfl

end Known

theorem resolve_of_target {ref : Reference} {t : SchemaId} (h : ref.target? = some t)
    (s : SchemaId) (key : Text) : resolve s key ref = pure t := by
  unfold resolve resolveBy
  rw [h]

/-- Looking up a field whose target has been found changes nothing. -/
theorem field_of_known {L : Layout} {s : SchemaId} {key : Text} {f : Field}
    (h : L.known? s key = some f) : field s key L = .ok f L := by
  unfold field
  rcases known_cases h with ⟨c, hfind, rfl⟩ | ⟨t, hfind, rfl⟩ | ⟨ref, t, hfind, ht, rfl⟩
  · simp only [hfind]
  · simp only [hfind]
  · simp only [hfind, resolve_of_target ht]
    rfl

/-! ### Coherence -/

/-- Schemas stand inside older ones, all inside of which the outer ones stand too; and every
schema that a field, a target or a catalog names is one of the layout. -/
structure Coherent (L : Layout) : Prop where
  /-- The schemas around a schema are older. -/
  ancestors_lt : ∀ s, ∀ p ∈ (L.schema s).ancestors, p < s
  /-- The schemas around the parent of a schema are the outer ones around the schema. -/
  ancestors_tail : ∀ s p around, (L.schema s).ancestors = p :: around →
    (L.schema p).ancestors = around
  /-- A nested schema is one of the layout. -/
  nested_lt : ∀ s key t, (L.schema s).find? key = some (.nested t) → t < L.schemas.length
  /-- A target that has been found is a schema of the layout. -/
  bound_lt : ∀ s key ref t, (L.schema s).find? key = some (.reference ref) →
    ref.target? = some t → t < L.schemas.length
  /-- A schema that is listed is one of the layout. -/
  listed_lt : ∀ c t, some t ∈ (L.catalog c).listing.map (·.2) → t < L.schemas.length

namespace Coherent

variable {L : Layout}

/-- What a catalog lists under a name is in its listing. -/
theorem mem_of_catalogFind {c : Catalog} {name : Text} {t : SchemaId}
    (h : c.find? name = some t) : some t ∈ c.listing.map (·.2) := by
  obtain ⟨found, hmem, hfound⟩ := List.exists_of_findSome?_eq_some h
  obtain ⟨e, he, hname⟩ := List.mem_filterMap.mp hmem
  split at hname
  · rw [← hfound]
    exact List.mem_map.mpr ⟨e, he, Option.some.inj hname⟩
  · exact absurd hname (by simp)

/-- A field that is known leads to a schema of the layout. -/
theorem known_lt (hL : L.Coherent) {s t : SchemaId} {key : Text} {f : Field}
    (hf : L.known? s key = some f) (ht : f.schema? = some t) : t < L.schemas.length := by
  rcases known_schema_cases hf ht with ⟨hfind, -⟩ | ⟨ref, hfind, hbound, -⟩
  · exact hL.nested_lt s key t hfind
  · exact hL.bound_lt s key ref t hfind hbound

theorem listedFor_lt (hL : L.Coherent) {s t : SchemaId} {missing : Error} {name : Text}
    (h : L.listedFor s missing name = .ok t) : t < L.schemas.length := by
  unfold listedFor at h
  split at h
  · rename_i c _
    split at h
    · rename_i found hfind
      rw [← Except.ok.inj h]
      exact hL.listed_lt c found (mem_of_catalogFind hfind)
    · exact absurd h (by simp)
  · exact absurd h (by simp)

theorem standsFor_lt (hL : L.Coherent) {search : Text → Except Error SchemaId} {s t : SchemaId}
    {key : Text} {ref : Reference} (href : (L.schema s).find? key = some (.reference ref))
    (hsearch : ∀ name u, search name = .ok u → u < L.schemas.length)
    (h : L.standsFor search s ref = .ok t) : t < L.schemas.length := by
  unfold standsFor at h
  split at h
  · rename_i u hu
    rw [← Except.ok.inj h]
    exact hL.bound_lt s key ref u href hu
  · split at h
    · rename_i u hu
      rw [← Except.ok.inj h]
      exact hsearch _ u hu
    · exact absurd h (by simp)

theorem seenFrom_lt (hL : L.Coherent) {above : Error → Text → Except Error SchemaId}
    {s t : SchemaId} {name : Text}
    (habove : ∀ e n u, above e n = .ok u → u < L.schemas.length)
    (h : L.seenFrom above s name = .ok t) : t < L.schemas.length := by
  unfold seenFrom at h
  split at h
  · exact absurd h (by simp)
  · rename_i child hchild
    rw [← Except.ok.inj h]
    exact hL.nested_lt s name child hchild
  · rename_i ref href
    exact hL.standsFor_lt href (habove _) h
  · exact habove _ _ t h

theorem seenIn_lt (hL : L.Coherent) {around : List SchemaId} {s t : SchemaId} {name : Text}
    (h : L.seenIn around s name = .ok t) : t < L.schemas.length := by
  induction around generalizing s t name with
  | nil => exact hL.seenFrom_lt (fun _ _ _ hu => hL.listedFor_lt hu) h
  | cons parent around ih => exact hL.seenFrom_lt (fun _ _ _ hu => ih hu) h

theorem seenAbove_lt (hL : L.Coherent) {s t : SchemaId} {name : Text}
    (h : L.seenAbove s name = .ok t) : t < L.schemas.length := by
  unfold seenAbove at h
  split at h
  · exact hL.listedFor_lt h
  · exact hL.seenIn_lt h

/-- The target of a reference is a schema of the layout. -/
theorem target_lt (hL : L.Coherent) {s t : SchemaId} {key : Text} {ref : Reference}
    (href : (L.schema s).find? key = some (.reference ref)) (h : L.target s ref = .ok t) :
    t < L.schemas.length :=
  hL.standsFor_lt href (fun _ _ hu => hL.seenAbove_lt hu) h

end Coherent

/-! ### Why there is no target -/

section Reasons

variable {L : Layout} {s : SchemaId}

theorem listedFor_not_isEndless {missing e : Error} {name : Text}
    (hmissing : missing.isEndless = false) (h : L.listedFor s missing name = .error e) :
    e.isEndless = false := by
  unfold listedFor at h
  split at h
  · split at h
    · exact absurd h (by simp)
    · rw [← Except.error.inj h]
      rfl
  · exact Except.error.inj h ▸ hmissing

theorem standsFor_not_isEndless {search : Text → Except Error SchemaId} {ref : Reference}
    {e : Error} (hsearch : ∀ name reason, search name = .error reason → reason.isEndless = false)
    (h : L.standsFor search s ref = .error e) : e.isEndless = false := by
  unfold standsFor at h
  split at h
  · exact absurd h (by simp)
  · split at h
    · exact absurd h (by simp)
    · next reason hreason =>
      rw [← Except.error.inj h]
      exact hsearch _ reason hreason

theorem seenFrom_not_isEndless {above : Error → Text → Except Error SchemaId} {name : Text}
    {e : Error}
    (habove : ∀ missing name reason, missing.isEndless = false →
      above missing name = .error reason →
      reason.isEndless = false)
    (h : L.seenFrom above s name = .error e) : e.isEndless = false := by
  unfold seenFrom at h
  split at h
  · rw [← Except.error.inj h]
    rfl
  · exact absurd h (by simp)
  · exact standsFor_not_isEndless (fun name reason => habove _ name reason rfl) h
  · exact habove _ _ e rfl h

theorem seenIn_not_isEndless {around : List SchemaId} {name : Text} {e : Error}
    (h : L.seenIn around s name = .error e) : e.isEndless = false := by
  induction around generalizing s name e with
  | nil => exact seenFrom_not_isEndless (fun _ _ _ hmissing => listedFor_not_isEndless hmissing) h
  | cons parent around ih => exact seenFrom_not_isEndless (fun _ _ _ _ hreason => ih hreason) h

/-- That there is no target is never a matter of something that does not end. -/
theorem seenAbove_not_isEndless {name : Text} {e : Error} (h : L.seenAbove s name = .error e) :
    e.isEndless = false := by
  unfold seenAbove at h
  split at h
  · exact listedFor_not_isEndless rfl h
  · exact seenIn_not_isEndless h

end Reasons

end Layout

end RecordLayout
