import RecordLayout.Layout.Declare
import RecordLayout.Proofs.Options.Validity

/-!
# Sound option sets

Option sets travel from schema to schema, and to the codecs of each.  A set is sound if it equals
itself and no schema refuses a value of it.  Columns then refuse none either, because they accept
what schemas accept.  Of a codec that is made elsewhere this has to be known: that its options
receive what schemas hand down.  The values in a valid table of a schema are sound, and so are the
options that a reference passes on; only a set that is propagated on purpose may not be.

## Main definitions

* `OptionSchema.inherits`: the options that are taken over from elsewhere.
* `OptionSchema.Receives`: options that receive what schemas hand down.
* `OptionTable.Standard`: the tables of schemas and columns.
* `OptionMap.Sound`: a set that equals itself and is taken by schemas.
* `OptionMap.Held`: a set of values in the form in which schemas hold them.
* `OptionMap.Proper`: a set without a NaN in it.

## Main results

* `OptionSchema.receives_columnOptions`: **columns receive what schemas hand down**.
* `OptionTable.Valid.sound_defined`: **what is defined on a schema is sound**.
* `Schema.held_referenceOptions`: **what a reference passes on is held by schemas**, so it is sound.
* `OptionMap.Proper.equal_self`: a set without a NaN in it equals itself.
-/

namespace RecordLayout

/-- A set that equals itself, and none of whose values is refused by a schema. -/
structure OptionMap.Sound (m : OptionMap) : Prop where
  self : OptionMap.equal m m = true
  takes : schemaOptions.Takes m

namespace OptionSchema

/-- Whether there is an option of a name that is taken over from elsewhere. -/
def inherits (s : OptionSchema) (name : Text) : Bool := (s.find? name).any (·.inheritable)

/-- The options receive what schemas hand down: whatever one of them refuses, schemas refuse for
their own option of that name. -/
def Receives (s : OptionSchema) : Prop :=
  ∀ name spec, s.find? name = some spec → spec.inheritable = true → ∀ v,
    (∀ around, schemaOptions.find? name = some around → around.inheritable = true →
      around.accepts (around.transform v) = true) → spec.accepts (spec.transform v) = true

theorem inherits_of_find? {s : OptionSchema} {name : Text} {spec : OptionSpec}
    (hspec : s.find? name = some spec) : s.inherits name = spec.inheritable := by
  unfold inherits
  rw [hspec]
  rfl

/-- A set that schemas take is taken wherever it is received. -/
theorem Takes.received {s : OptionSchema} {m : OptionMap} (h : schemaOptions.Takes m)
    (hs : s.Receives) : s.Takes m :=
  fun e he hvalue spec hspec hinheritable =>
    hs e.1 spec hspec hinheritable e.2 fun around haround hshared =>
      h e he hvalue around haround hshared

theorem receives_schemaOptions : schemaOptions.Receives :=
  fun _ spec hspec hinheritable _ h => h spec hspec hinheritable

end OptionSchema

namespace Text

theorem lowerByte_lowerByte (b : UInt8) : lowerByte (lowerByte b) = lowerByte b := by
  unfold lowerByte
  by_cases h : isUpper b = true
  · have hlow : isUpper (b + 0x20) = false := by
      unfold isUpper at h ⊢
      rw [Bool.and_eq_true, decide_eq_true_eq, decide_eq_true_eq, UInt8.le_iff_toNat_le,
        UInt8.le_iff_toNat_le] at h
      rw [Bool.and_eq_false_iff, decide_eq_false_iff_not, decide_eq_false_iff_not,
        UInt8.le_iff_toNat_le, UInt8.le_iff_toNat_le, UInt8.toNat_add]
      have hlower : (0x41 : UInt8).toNat = 0x41 := rfl
      have hupper : (0x5A : UInt8).toNat = 0x5A := rfl
      have hstep : (0x20 : UInt8).toNat = 0x20 := rfl
      omega
    rw [if_pos h, hlow]
    rfl
  · rw [if_neg h, if_neg h]

theorem lowercase_lowercase (t : Text) : t.lowercase.lowercase = t.lowercase := by
  unfold lowercase
  rw [List.map_map]
  exact List.map_congr_left fun b _ => lowerByte_lowerByte b

end Text

theorem OptionRule.lowercase_lowercase (v : Value) : lowercase (lowercase v) = lowercase v := by
  cases v with
  | text t => exact congrArg Value.text (Text.lowercase_lowercase t)
  | null | bool | int | float | record => rfl

/-! ### What the declarations have in common -/

/-- A value that may be inherited is in form already. -/
theorem transform_transform {spec : OptionSpec} (hspec : spec ∈ schemaOptions.specs)
    (h : spec.inheritable = true) (v : Value) :
    spec.transform (spec.transform v) = spec.transform v := by
  simp only [schemaOptions, List.mem_cons, List.not_mem_nil, or_false] at hspec
  rcases hspec with rfl | rfl | rfl | rfl | rfl | rfl | rfl
  · exact absurd h (by decide)
  · rfl
  · rfl
  · exact OptionRule.lowercase_lowercase v
  · rfl
  · rfl
  · rfl

/-- A value that a schema may have is a truth value or a text. -/
theorem kind_of_accepts {spec : OptionSpec} (hspec : spec ∈ schemaOptions.specs) {v : Value}
    (h : spec.accepts v = true) : v.bool?.isSome = true ∨ v.text?.isSome = true := by
  simp only [schemaOptions, List.mem_cons, List.not_mem_nil, or_false] at hspec
  have htext (p : Text → Bool) (hp : v.text?.any p = true) : v.text?.isSome = true := by
    cases hv : v.text? with
    | none => rw [hv] at hp; exact absurd hp (by simp)
    | some t => rfl
  rcases hspec with rfl | rfl | rfl | rfl | rfl | rfl | rfl
  · exact .inr (htext _ h)
  · exact .inl h
  · exact .inl h
  · exact .inr (htext _ h)
  · exact .inr (htext _ h)
  · exact .inl h
  · exact .inl h

/-- A value that a schema may have equals itself. -/
theorem equal_self_of_accepts {spec : OptionSpec} (hspec : spec ∈ schemaOptions.specs) {v : Value}
    (h : spec.accepts v = true) : v.equal v = true := by
  have hkind := kind_of_accepts hspec h
  cases v with
  | bool b => simp [Value.equal]
  | text t => simp [Value.equal]
  | null | int | float | record => exact absurd hkind (by simp [Value.bool?, Value.text?])

/-- What columns inherit, schemas inherit in the same way. -/
theorem inherited_alike {name : Text} {spec : OptionSpec}
    (h : columnOptions.find? name = some spec) (hinheritable : spec.inheritable = true) :
    ∃ around, schemaOptions.find? name = some around ∧ around.inheritable = true
      ∧ around.transform = spec.transform ∧ around.accepts = spec.accepts := by
  have hname := OptionSchema.name_of_find? h
  have hmem := OptionSchema.mem_of_find? h
  have hfind (around : OptionSpec) (hmem : around ∈ schemaOptions.specs)
      (hsame : around.name = name) : schemaOptions.find? name = some around :=
    hsame ▸ OptionSchema.distinct_schemaOptions.find?_of_mem hmem
  simp only [columnOptions, List.mem_cons, List.not_mem_nil, or_false] at hmem
  -- the last four of the nine options are inherited
  rcases hmem with rfl | rfl | rfl | rfl | rfl | rfl | rfl | rfl | rfl
  · exact absurd hinheritable (by decide)
  · exact absurd hinheritable (by decide)
  · exact absurd hinheritable (by decide)
  · exact absurd hinheritable (by decide)
  · exact absurd hinheritable (by decide)
  · exact ⟨alignSpec none, hfind _ (by simp [schemaOptions]) hname, rfl, rfl, rfl⟩
  · exact ⟨paddingSpec none, hfind _ (by simp [schemaOptions]) hname, rfl, rfl, rfl⟩
  · exact ⟨inheritedFlag OptionName.truncate none, hfind _ (by simp [schemaOptions]) hname,
      rfl, rfl, rfl⟩
  · exact ⟨inheritedFlag OptionName.nilBlank none, hfind _ (by simp [schemaOptions]) hname,
      rfl, rfl, rfl⟩

/-- **Columns receive what schemas hand down.** -/
theorem OptionSchema.receives_columnOptions : columnOptions.Receives := by
  intro name spec hspec hinheritable v h
  obtain ⟨around, haround, hshared, htransform, haccepts⟩ := inherited_alike hspec hinheritable
  rw [← htransform, ← haccepts]
  exact h around haround hshared

/-- What columns inherit, schemas inherit. -/
theorem OptionSchema.inherits_of_columnOptions {name : Text}
    (h : columnOptions.inherits name = true) : schemaOptions.inherits name = true := by
  obtain ⟨spec, hspec, hinheritable⟩ := (Option.any_eq_true _ _).mp h
  obtain ⟨around, haround, hshared, -⟩ := inherited_alike hspec hinheritable
  rw [inherits_of_find? haround, hshared]

/-- A table of a schema or of a column. -/
def OptionTable.Standard (t : OptionTable) : Prop :=
  t.schema = schemaOptions ∨ t.schema = columnOptions

namespace OptionTable.Standard

variable {t : OptionTable}

theorem receives (h : t.Standard) : t.schema.Receives := by
  rcases h with h | h <;> rw [h]
  · exact OptionSchema.receives_schemaOptions
  · exact OptionSchema.receives_columnOptions

/-- What a schema or a column inherits, schemas inherit. -/
theorem inherits (h : t.Standard) {name : Text} (hname : t.schema.inherits name = true) :
    schemaOptions.inherits name = true := by
  rcases h with h | h <;> rw [h] at hname
  · exact hname
  · exact OptionSchema.inherits_of_columnOptions hname

end OptionTable.Standard

/-! ### Sets of values that schemas hold -/

theorem NameMap.agrees_self {α : Type} {same : α → α → Bool} {m : NameMap α}
    (h : ∀ e ∈ m.entries, same e.2 e.2 = true) : m.agrees same m = true := by
  unfold agrees
  generalize m.entries = l at h
  induction l with
  | nil => rfl
  | cons e l ih =>
    unfold agrees.agreesOn
    rw [h e List.mem_cons_self, ih fun e' he' => h e' (List.mem_cons_of_mem e he')]
    simp

/-- A set of values that schemas hold. -/
def OptionMap.Held (m : OptionMap) : Prop :=
  ∀ e ∈ m.entries, ∃ spec, schemaOptions.find? e.1 = some spec ∧ spec.Holds e.2

/-- A set of values that schemas hold is sound. -/
theorem OptionMap.Held.sound {m : OptionMap} (h : m.Held) : m.Sound := by
  have htakes : schemaOptions.Takes m := by
    intro e he _ spec hspec hinheritable
    obtain ⟨spec', hspec', raw, hraw, haccepts⟩ := h e he
    obtain rfl := Option.some.inj (hspec.symm.trans hspec')
    rw [← hraw, transform_transform (OptionSchema.mem_of_find? hspec) hinheritable, hraw]
    exact haccepts
  refine ⟨NameMap.agrees_self fun e he => ?_, htakes⟩
  obtain ⟨spec, hspec, -, -, haccepts⟩ := h e he
  exact equal_self_of_accepts (OptionSchema.mem_of_find? hspec) haccepts

theorem NameMap.nodup_names {α : Type} (m : NameMap α) : (Listing.names m.entries).Nodup :=
  List.Pairwise.map Prod.fst (fun a _ hab heq => absurd hab (heq ▸ List.lt_irrefl a.1)) m.sorted

theorem NameMap.find?_of_mem {α : Type} {m : NameMap α} {e : Text × α} (h : e ∈ m.entries) :
    m.find? e.1 = some e.2 := (Listing.mem_iff_find? m.nodup_names e.1 e.2).mp h

/-- What is defined in a valid table of a schema is held by it. -/
theorem OptionTable.Valid.holds_defined {t : OptionTable} (ht : t.Valid) {e : Text × Value}
    (he : e ∈ t.defined.entries) : ∃ spec, t.schema.find? e.1 = some spec ∧ spec.Holds e.2 := by
  obtain ⟨⟨name, slot⟩, hslot, hkept⟩ := List.mem_filterMap.mp he
  obtain ⟨value, hvalue, rfl⟩ := Option.map_eq_some_iff.mp hkept
  dsimp only at hvalue
  split at hvalue
  · exact absurd hvalue (by simp)
  · next horigin =>
    obtain rfl := Option.some.inj hvalue
    obtain ⟨spec, hspec, hallows⟩ := ht.allowed name slot (NameMap.find?_of_mem hslot)
    refine ⟨spec, hspec, ?_⟩
    unfold OptionSpec.Allows at hallows
    split at hallows
    · next hdefault => exact absurd hdefault horigin
    · exact hallows.2
    · exact hallows

/-- What is defined on a schema is held by it. -/
theorem OptionTable.Valid.held_defined {t : OptionTable} (ht : t.Valid)
    (hschema : t.schema = schemaOptions) : t.defined.Held := by
  intro e he
  rw [← hschema]
  exact ht.holds_defined he

/-- **What is defined on a schema is sound.** -/
theorem OptionTable.Valid.sound_defined {t : OptionTable} (ht : t.Valid)
    (hschema : t.schema = schemaOptions) : t.defined.Sound := (ht.held_defined hschema).sound

/-- **What a reference passes on is held by schemas**, so it is sound. -/
theorem Schema.held_referenceOptions {storeName : Text} {options passed : OptionMap}
    (h : referenceOptions storeName options = .ok passed) : passed.Held := by
  unfold referenceOptions at h
  obtain ⟨-, -, h⟩ := Success.of_bind h
  obtain ⟨table, htable, h⟩ := Success.of_bind h
  obtain rfl := Except.ok.inj h
  obtain ⟨hvalid, hschema⟩ :=
    OptionSchema.createTable_valid OptionSchema.distinct_schemaOptions htable
  intro e he
  exact hvalid.held_defined hschema e (List.mem_filter.mp he).1

/-! ### Sets that equal themselves -/

/-- A value without a NaN in it; the records in it have every key once. -/
inductive Value.Proper : Value → Prop
  | null : Proper .null
  | bool (b : Bool) : Proper (.bool b)
  | int (i : Int64) : Proper (.int i)
  | float {x : Binary64} (h : x.isNaN = false) : Proper (.float x)
  | text (t : Text) : Proper (.text t)
  | record {r : Record} (hkeys : r.keys.Nodup) (h : ∀ e ∈ r, Proper e.2) : Proper (.record r)

/-- A set without a NaN in it. -/
def OptionMap.Proper (m : OptionMap) : Prop := ∀ e ∈ m.entries, e.2.Proper

theorem Value.within_of_find? {r o : Record}
    (h : ∀ e ∈ r, Listing.find? o e.1 = some e.2 ∧ e.2.equal e.2 = true) : within r o = true := by
  induction r with
  | nil => rfl
  | cons e r ih =>
    obtain ⟨hfind, hself⟩ := h e List.mem_cons_self
    have hrest := ih fun e' he' => h e' (List.mem_cons_of_mem e he')
    simp only [within, hfind, hself, hrest, Bool.and_self]

/-- A value without a NaN in it equals itself. -/
theorem Value.Proper.equal_self {v : Value} (h : v.Proper) : v.equal v = true := by
  induction h with
  | null => simp [equal]
  | bool | int | text => simp [equal]
  | float h => simp [equal, Binary64.equal_self, h]
  | @record r hkeys _ ih =>
    have hwithin := within_of_find? (r := r) (o := r)
      fun e he => ⟨(Listing.mem_iff_find? hkeys e.1 e.2).mp he, ih e he⟩
    simp [equal, hwithin]

/-- A set without a NaN in it equals itself. -/
theorem OptionMap.Proper.equal_self {m : OptionMap} (h : m.Proper) : m.equal m = true :=
  NameMap.agrees_self fun e he => (h e he).equal_self

end RecordLayout
