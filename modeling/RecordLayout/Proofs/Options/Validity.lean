import RecordLayout.Options.Standard
import RecordLayout.Proofs.Success

/-!
# Valid option tables

A table holds an option only if it is declared, and only a value that the declaration allows: its
default, or a value that was brought into form and accepted.  Every option that is required or has
a default is there.  Tables are made like this, and nothing that is done to them changes it.

## Main definitions

* `OptionSpec.Holds`, `OptionSpec.Allows`: the values and slots that a declaration allows.
* `OptionTable.Valid`: a table with such slots, and all of them that there must be.
* `OptionSchema.Takes`: an option set none of whose values is refused.

## Main results

* `OptionSchema.createTable_valid`, `OptionTable.Valid.set`, `OptionTable.Valid.merge`:
  **tables stay valid**.
* `OptionTable.mergeValues_takes`: a set that is taken is merged to its end.
* `OptionSchema.code_of_createTable`, `OptionTable.code_of_merge`: whatever is wrong with given
  options is reported as an error of configuration.
-/

namespace RecordLayout

namespace OptionSpec

/-- A value that was brought into form and accepted. -/
def Holds (spec : OptionSpec) (value : Value) : Prop :=
  ∃ raw, spec.transform raw = value ∧ spec.accepts value = true

/-- A slot that a declaration allows: with its default, or with a value that it holds.  Only what
may be inherited is. -/
def Allows (spec : OptionSpec) (slot : Slot) : Prop :=
  match slot.origin with
  | .default => spec.default? = some slot.value
  | .inherited => spec.inheritable = true ∧ spec.Holds slot.value
  | .explicit => spec.Holds slot.value

end OptionSpec

namespace OptionSchema

/-- No option is declared twice. -/
def Distinct (s : OptionSchema) : Prop := (s.specs.map (·.name)).Nodup

instance (s : OptionSchema) : Decidable s.Distinct :=
  inferInstanceAs (Decidable (s.specs.map (·.name)).Nodup)

/-- An option set none of whose values is refused where it is taken over. -/
def Takes (s : OptionSchema) (options : OptionMap) : Prop :=
  ∀ e ∈ options.entries, e.2.isNull = false → ∀ spec, s.find? e.1 = some spec →
    spec.inheritable = true → spec.accepts (spec.transform e.2) = true

theorem name_of_find? {s : OptionSchema} {name : Text} {spec : OptionSpec}
    (h : s.find? name = some spec) : spec.name = name := by
  simpa using List.find?_some h

theorem mem_of_find? {s : OptionSchema} {name : Text} {spec : OptionSpec}
    (h : s.find? name = some spec) : spec ∈ s.specs := List.mem_of_find?_eq_some h

theorem Distinct.find?_of_mem {s : OptionSchema} (h : s.Distinct) {spec : OptionSpec}
    (hmem : spec ∈ s.specs) : s.find? spec.name = some spec := by
  unfold Distinct at h
  unfold find?
  generalize s.specs = specs at h hmem
  induction specs with
  | nil => simp at hmem
  | cons first rest ih =>
    obtain ⟨hfirst, hrest⟩ := List.nodup_cons.mp h
    rcases List.mem_cons.mp hmem with rfl | hmem
    · simp
    · have hne : first.name ≠ spec.name :=
        fun heq => hfirst (List.mem_map.mpr ⟨spec, hmem, heq.symm⟩)
      rw [List.find?_cons_of_neg (by simpa using hne)]
      exact ih hrest hmem

theorem distinct_schemaOptions : schemaOptions.Distinct := by decide

theorem distinct_columnOptions : columnOptions.Distinct := by decide

end OptionSchema

namespace OptionTable

/-- A table whose slots are declared and allowed, with a slot for every option that is required or
has a default. -/
structure Valid (t : OptionTable) : Prop where
  allowed : ∀ name slot, t.slots.find? name = some slot →
    ∃ spec, t.schema.find? name = some spec ∧ spec.Allows slot
  filled : ∀ spec ∈ t.schema.specs, spec.required = true ∨ spec.default?.isSome = true →
    t.slots.contains spec.name = true

/-! ### Tables that are made -/

theorem contains_insert {slots : NameMap Slot} {name : Text} {slot : Slot} {key : Text}
    (h : slots.contains key = true ∨ key = name) :
    (slots.insert name slot).contains key = true := by
  unfold NameMap.contains at h ⊢
  rw [NameMap.find?_insert]
  split
  · rfl
  · next hne => exact h.resolve_right hne

/-- The slots of a table in the making are declared and allowed. -/
def AllowedSlots (s : OptionSchema) (slots : NameMap Slot) : Prop :=
  ∀ name slot, slots.find? name = some slot → ∃ spec, s.find? name = some spec ∧ spec.Allows slot

theorem AllowedSlots.insert {s : OptionSchema} {slots : NameMap Slot} (h : AllowedSlots s slots)
    {name : Text} {spec : OptionSpec} (hspec : s.find? name = some spec) {slot : Slot}
    (hslot : spec.Allows slot) : AllowedSlots s (slots.insert name slot) := by
  intro key slot' hkey
  rw [NameMap.find?_insert] at hkey
  split at hkey
  · next heq =>
    subst heq
    exact ⟨spec, hspec, Option.some.inj hkey ▸ hslot⟩
  · exact h key slot' hkey

theorem holds_of_normalize {s : OptionSchema} {spec : OptionSpec} {raw value : Value}
    (h : s.normalize spec raw = .ok value) : spec.Holds value := by
  obtain ⟨htransform, haccepts⟩ := (s.normalize_eq_ok_iff spec raw value).mp h
  exact ⟨raw, htransform, htransform ▸ haccepts⟩

theorem AllowedSlots.place {s : OptionSchema} {slots slots' : NameMap Slot}
    (h : AllowedSlots s slots) {option : Text × Value}
    (hplace : s.place slots option = .ok slots') :
    AllowedSlots s slots' := by
  unfold OptionSchema.place at hplace
  split at hplace
  · next spec hspec =>
    split at hplace
    · exact Except.ok.inj hplace ▸ h
    · obtain ⟨value, hvalue, rfl⟩ := Success.of_map hplace
      exact h.insert hspec (holds_of_normalize hvalue)
  · exact absurd hplace (by simp)

theorem fill_ok {s : OptionSchema} {slots slots' : NameMap Slot} {spec : OptionSpec}
    (hfill : s.fill slots spec = .ok slots') :
    (slots' = slots ∧ (slots.contains spec.name = true
        ∨ (spec.required = false ∧ spec.default? = none)))
      ∨ ∃ value, spec.default? = some value
        ∧ slots' = slots.insert spec.name ⟨value, .default⟩ := by
  unfold OptionSchema.fill at hfill
  split at hfill
  · next h => exact .inl ⟨(Except.ok.inj hfill).symm, .inl h⟩
  · split at hfill
    · exact absurd hfill (by simp)
    · next hrequired =>
      split at hfill
      · next value hvalue => exact .inr ⟨value, hvalue, (Except.ok.inj hfill).symm⟩
      · next hnone =>
        exact .inl ⟨(Except.ok.inj hfill).symm, .inr ⟨Bool.eq_false_iff.mpr hrequired, hnone⟩⟩

end OptionTable

open OptionTable

namespace OptionSchema

/-- **A table that is made is valid.** -/
theorem createTable_valid {s : OptionSchema} (hs : s.Distinct) {provided : OptionMap}
    {t : OptionTable} (h : s.createTable provided = .ok t) : t.Valid ∧ t.schema = s := by
  unfold createTable at h
  obtain ⟨given, hgiven, h⟩ := Success.of_bind h
  obtain ⟨slots, hslots, h⟩ := Success.of_bind h
  obtain rfl := Except.ok.inj h
  have hnil : AllowedSlots s NameMap.empty := fun name slot h => by simp at h
  have hallowed : AllowedSlots s given :=
    Success.foldlM_keeps (I := AllowedSlots s) (fun _ _ _ _ hb hplace => hb.place hplace)
      hnil hgiven
  -- filling keeps the slots allowed, and comes to each option that has to be there
  refine ⟨⟨?_, fun spec hspec hneeded => ?_⟩, rfl⟩
  · refine Success.foldlM_keeps (I := AllowedSlots s) (fun spec hspec slots slots' hb hfill => ?_)
      hallowed hslots
    rcases fill_ok hfill with ⟨rfl, -⟩ | ⟨value, hvalue, rfl⟩
    · exact hb
    · exact hb.insert (hs.find?_of_mem hspec) hvalue
  · refine Success.foldlM_reaches (P := fun slots => slots.contains spec.name = true) hspec
      (fun slots slots' hfill => ?_) (fun spec' _ slots slots' hb hfill => ?_) hslots
    · rcases fill_ok hfill with ⟨rfl, hthere | ⟨hrequired, hdefault⟩⟩ | ⟨value, hvalue, rfl⟩
      · exact hthere
      · rw [hrequired, hdefault] at hneeded
        exact absurd hneeded (by simp)
      · exact contains_insert (.inr rfl)
    · rcases fill_ok hfill with ⟨rfl, -⟩ | ⟨value, hvalue, rfl⟩
      · exact hb
      · exact contains_insert (.inl hb)

end OptionSchema

namespace OptionTable

/-! ### Tables that change -/

variable {t u : OptionTable}

theorem Valid.store (ht : t.Valid) {name : Text} {spec : OptionSpec}
    (hspec : t.schema.find? name = some spec) {slot : Slot} (hslot : spec.Allows slot) :
    (t.store name slot).Valid where
  allowed := AllowedSlots.insert ht.allowed hspec hslot
  filled spec' hspec' hneeded := contains_insert (.inl (ht.filled spec' hspec' hneeded))

/-- What the owner sets keeps a table valid. -/
theorem Valid.set (ht : t.Valid) {name : Text} {value : Value} {overwrite : Bool}
    (h : t.set name value overwrite = .ok u) : u.Valid ∧ u.schema = t.schema := by
  unfold OptionTable.set at h
  split at h
  · next spec hspec =>
    split at h
    · exact absurd h (by simp)
    · split at h
      · exact Except.ok.inj h ▸ ⟨ht, rfl⟩
      · obtain ⟨v, hv, rfl⟩ := Success.of_map h
        rw [OptionSchema.name_of_find? hspec]
        exact ⟨ht.store hspec (holds_of_normalize hv), rfl⟩
  · exact absurd h (by simp)

theorem Valid.takeOver (ht : t.Valid) {policy : MergePolicy} {name : Text} {value : Value}
    (h : t.takeOver policy name value = .ok u) : u.Valid ∧ u.schema = t.schema := by
  unfold OptionTable.takeOver at h
  split at h
  · next spec hspec =>
    split at h
    · exact Except.ok.inj h ▸ ⟨ht, rfl⟩
    · next hopen =>
      obtain ⟨v, hv, rfl⟩ := Success.of_map h
      rw [Bool.or_eq_true, not_or, Bool.not_eq_true', Bool.not_eq_false] at hopen
      rw [OptionSchema.name_of_find? hspec]
      exact ⟨ht.store hspec ⟨hopen.1, holds_of_normalize hv⟩, rfl⟩
  · exact Except.ok.inj h ▸ ⟨ht, rfl⟩

theorem Valid.takeOverAll (ht : t.Valid) (policy : MergePolicy) (l : List (Text × Value)) :
    (takeOverAll policy t l).1.Valid ∧ (takeOverAll policy t l).1.schema = t.schema := by
  induction l generalizing t with
  | nil => exact ⟨ht, rfl⟩
  | cons e l ih =>
    obtain ⟨name, value⟩ := e
    rw [takeOverAll_cons]
    split
    · next v hv =>
      obtain ⟨hvalid, hschema⟩ := ht.takeOver hv
      exact ⟨(ih hvalid).1, (ih hvalid).2.trans hschema⟩
    · exact ⟨ht, rfl⟩

/-- **A merge keeps a table valid**, also one that ends early. -/
theorem Valid.merge (ht : t.Valid) (u : OptionTable) (policy : MergePolicy := {}) :
    (t.merge u policy).1.Valid ∧ (t.merge u policy).1.schema = t.schema :=
  ht.takeOverAll policy _

theorem Valid.mergeValues (ht : t.Valid) (options : OptionMap) (policy : MergePolicy := {}) :
    (t.mergeValues options policy).1.Valid ∧ (t.mergeValues options policy).1.schema = t.schema :=
  ht.takeOverAll policy _

/-! ### Merges that come to their end -/

theorem takeOver_schema {policy : MergePolicy} {name : Text} {value : Value}
    (h : t.takeOver policy name value = .ok u) : u.schema = t.schema := by
  unfold OptionTable.takeOver at h
  split at h
  · split at h
    · exact Except.ok.inj h ▸ rfl
    · obtain ⟨v, -, rfl⟩ := Success.of_map h
      rfl
  · exact Except.ok.inj h ▸ rfl

theorem takeOver_ok (policy : MergePolicy) {name : Text} {value : Value}
    (h : ∀ spec, t.schema.find? name = some spec → spec.inheritable = true →
      spec.accepts (spec.transform value) = true) : ∃ u, t.takeOver policy name value = .ok u := by
  unfold OptionTable.takeOver
  split
  · next spec hspec =>
    split
    · exact ⟨t, rfl⟩
    · next hopen =>
      rw [Bool.or_eq_true, not_or, Bool.not_eq_true', Bool.not_eq_false] at hopen
      have hnormal := (t.schema.normalize_eq_ok_iff spec value _).mpr ⟨rfl, h spec hspec hopen.1⟩
      rw [hnormal]
      exact ⟨_, rfl⟩
  · exact ⟨t, rfl⟩

/-- **A set that is taken is merged to its end.** -/
theorem mergeValues_takes {options : OptionMap} (h : t.schema.Takes options)
    (policy : MergePolicy := {}) : (t.mergeValues options policy).2 = none := by
  unfold OptionTable.mergeValues
  have hall : ∀ e ∈ options.entries.filter fun e => !e.2.isNull, ∀ spec,
      t.schema.find? e.1 = some spec → spec.inheritable = true →
        spec.accepts (spec.transform e.2) = true := by
    intro e he
    obtain ⟨hmem, hvalue⟩ := List.mem_filter.mp he
    exact h e hmem (by simpa using hvalue)
  generalize (options.entries.filter fun e => !e.2.isNull) = l at hall
  clear h
  induction l generalizing t with
  | nil => rfl
  | cons e l ih =>
    obtain ⟨name, value⟩ := e
    obtain ⟨u, hu⟩ := takeOver_ok policy (hall (name, value) List.mem_cons_self)
    rw [takeOverAll_cons, hu]
    refine ih fun e' he' => ?_
    rw [takeOver_schema hu]
    exact hall e' (List.mem_cons_of_mem _ he')

end OptionTable

/-! ### Refusals -/

namespace OptionSchema

variable {s : OptionSchema} {slots : NameMap Slot} {e : Error}

theorem code_of_normalize {spec : OptionSpec} {raw : Value} (h : s.normalize spec raw = .error e) :
    e.code = .configError := by
  unfold normalize at h
  dsimp only at h
  split at h
  · exact absurd h (by simp)
  · rw [← Except.error.inj h]
    rfl

/-- A value that cannot be brought into form is the error of what is made of it. -/
theorem code_of_map_normalize {α : Type} {spec : OptionSpec} {raw : Value} {f : Value → α}
    (h : (s.normalize spec raw).map f = .error e) : e.code = .configError := by
  cases hnormal : s.normalize spec raw with
  | ok value =>
    rw [hnormal] at h
    exact absurd h (by simp [Except.map])
  | error e' =>
    rw [hnormal] at h
    rw [← Except.error.inj h]
    exact code_of_normalize hnormal

theorem code_of_place {option : Text × Value} (h : s.place slots option = .error e) :
    e.code = .configError := by
  unfold place at h
  split at h
  · split at h
    · exact absurd h (by simp)
    · exact code_of_map_normalize h
  · rw [← Except.error.inj h]
    rfl

theorem code_of_fill {spec : OptionSpec} (h : s.fill slots spec = .error e) :
    e.code = .configError := by
  unfold fill at h
  split at h
  · exact absurd h (by simp)
  · split at h
    · rw [← Except.error.inj h]
      rfl
    · split at h <;> exact absurd h (by simp)

/-- Whatever is wrong with the options that a table is made of is an error of configuration. -/
theorem code_of_createTable {provided : OptionMap} (h : s.createTable provided = .error e) :
    e.code = .configError := by
  unfold createTable at h
  rcases Success.or_of_bind_error h with hgiven | ⟨given, -, h⟩
  · obtain ⟨option, -, slots, hplace⟩ := Success.exists_of_foldlM_error hgiven
    exact code_of_place hplace
  · rcases Success.or_of_bind_error h with hfilled | ⟨slots, -, h⟩
    · obtain ⟨spec, -, slots, hfill⟩ := Success.exists_of_foldlM_error hfilled
      exact code_of_fill hfill
    · exact absurd h (by simp [pure, Except.pure])

end OptionSchema

namespace OptionTable

variable {t : OptionTable} {e : Error}

theorem code_of_takeOver {policy : MergePolicy} {name : Text} {value : Value}
    (h : t.takeOver policy name value = .error e) : e.code = .configError := by
  unfold takeOver at h
  split at h
  · split at h
    · exact absurd h (by simp)
    · exact OptionSchema.code_of_map_normalize h
  · exact absurd h (by simp)

/-- Whatever a table refuses to take over is an error of configuration. -/
theorem code_of_takeOverAll {policy : MergePolicy} {l : List (Text × Value)}
    (h : (takeOverAll policy t l).2 = some e) : e.code = .configError := by
  induction l generalizing t with
  | nil => exact absurd h (by simp)
  | cons option l ih =>
    rw [takeOverAll_cons] at h
    cases hstep : t.takeOver policy option.1 option.2 with
    | ok u =>
      rw [hstep] at h
      exact ih h
    | error e' =>
      rw [hstep] at h
      rw [← Option.some.inj h]
      exact code_of_takeOver hstep

theorem code_of_merge {u : OptionTable} {policy : MergePolicy} (h : (t.merge u policy).2 = some e) :
    e.code = .configError := code_of_takeOverAll h

end OptionTable

end RecordLayout
