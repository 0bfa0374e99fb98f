import RecordLayout.Proofs.Options.Adopting

/-!
# What a merge leaves in each slot

A merge takes values over one by one, and each of them decides about one slot only.  So what an
option set leaves in a table is said slot by slot: a slot whose option is defined, or that takes
nothing over, stays as it is, and any other gets the value of the set, if it gives one.

A set that gives values only for options that are defined leaves a table as it is, whatever the
values are.

## Main definitions

* `OptionTable.isOpen`: whether a table takes a value of a name over.
* `OptionTable.Ignores`, `OptionTable.Admits`: a set of which a table takes nothing over, or refuses
  nothing.

## Main results

* `OptionTable.find?_mergeValues`: **the slots of a table after a merge**.
* `OptionTable.isDefined_mergeValues_mono`: what is defined stays so, also if the merge ends early.
* `OptionTable.mergeValues_of_ignores`: a set that finds no open slot changes nothing.
* `OptionMap.given?_of_equal`, `OptionMap.takes_of_equal`: equal sets give values to the same names,
  and are taken alike.
-/

namespace RecordLayout

/-! ### Looking values up -/

namespace NameMap

variable {α : Type}

/-- Maps that agree have values under the same names. -/
theorem find?_of_agrees {same : α → α → Bool} {m n : NameMap α} (h : m.agrees same n = true)
    (name : Text) : Option.Rel (same · · = true) (m.find? name) (n.find? name) := by
  unfold agrees at h
  unfold find?
  generalize m.entries = l at h ⊢
  generalize n.entries = r at h ⊢
  induction l generalizing r with
  | nil =>
    cases r with
    | nil => exact .none
    | cons e r => exact absurd h (by simp [agrees.agreesOn])
  | cons d l ih =>
    cases r with
    | nil => exact absurd h (by simp [agrees.agreesOn])
    | cons e r =>
      simp only [agrees.agreesOn, Bool.and_eq_true, beq_iff_eq] at h
      obtain ⟨⟨hname, hsame⟩, hrest⟩ := h
      rw [Listing.find?_cons, Listing.find?_cons, hname]
      split
      · exact .some hsame
      · exact ih r hrest

end NameMap

/-! ### The values of a set -/

namespace OptionMap

/-- A set that is taken gives values that are accepted. -/
theorem accepts_of_takes {s : OptionSchema} {m : OptionMap} (h : s.Takes m) {name : Text}
    {value : Value} (hvalue : m.given? name = some value) {spec : OptionSpec}
    (hspec : s.find? name = some spec) (hinheritable : spec.inheritable = true) :
    spec.accepts (spec.transform value) = true := by
  obtain ⟨hfind, hnull⟩ := given?_eq_some_iff.mp hvalue
  exact h (name, value) (Listing.mem_of_find? hfind) hnull spec hspec hinheritable

end OptionMap

/-! ### Equal sets -/

theorem Value.isNull_of_equal {v w : Value} (h : v.equal w = true) : v.isNull = w.isNull := by
  cases v <;> cases w <;> first | rfl | exact absurd h (by simp [Value.equal])

/-- Only truth values and texts are accepted, and these are equal only to themselves. -/
theorem eq_of_equal_accepts {spec : OptionSpec} (hspec : spec ∈ schemaOptions.specs) {v w : Value}
    (h : v.equal w = true) (haccepts : spec.accepts (spec.transform w) = true) : v = w := by
  have hkind := kind_of_accepts hspec haccepts
  have hbool : (spec.transform w).bool?.isSome = true → w.bool?.isSome = true := by
    simp only [schemaOptions, List.mem_cons, List.not_mem_nil, or_false] at hspec
    rcases hspec with rfl | rfl | rfl | rfl | rfl | rfl | rfl <;> cases w <;> exact id
  have htext : (spec.transform w).text?.isSome = true → w.text?.isSome = true := by
    simp only [schemaOptions, List.mem_cons, List.not_mem_nil, or_false] at hspec
    rcases hspec with rfl | rfl | rfl | rfl | rfl | rfl | rfl <;> cases w <;> exact id
  cases w with
  | bool b => cases v <;> simp_all [Value.equal]
  | text t => cases v <;> simp_all [Value.equal]
  | null | int | float | record =>
    rcases hkind with hkind | hkind
    · exact absurd (hbool hkind) (by simp [Value.bool?])
    · exact absurd (htext hkind) (by simp [Value.text?])

namespace OptionMap

variable {m n : OptionMap}

/-- Equal sets give values to the same names. -/
theorem given?_of_equal (h : OptionMap.equal m n = true) {name : Text} {value : Value}
    (hvalue : n.given? name = some value) :
    ∃ v, m.given? name = some v ∧ v.equal value = true := by
  obtain ⟨hfind, hnull⟩ := given?_eq_some_iff.mp hvalue
  have hrel := NameMap.find?_of_agrees h name
  rw [hfind] at hrel
  generalize hfound : m.find? name = found at hrel
  cases hrel with
  | some hsame =>
    exact ⟨_, given?_eq_some_iff.mpr ⟨hfound, (Value.isNull_of_equal hsame).trans hnull⟩, hsame⟩

/-- A set is taken by schemas if one that it equals is. -/
theorem takes_of_equal (h : OptionMap.equal m n = true) (hn : schemaOptions.Takes n) :
    schemaOptions.Takes m := by
  intro e he hnull spec hspec hinheritable
  have hrel := NameMap.find?_of_agrees h e.1
  rw [NameMap.find?_of_mem he] at hrel
  generalize hfound : n.find? e.1 = found at hrel
  cases hrel with
  | @some _ w hsame =>
    have hgiven : n.given? e.1 = some w :=
      given?_eq_some_iff.mpr ⟨hfound, (Value.isNull_of_equal hsame).symm.trans hnull⟩
    have haccepts := accepts_of_takes hn hgiven hspec hinheritable
    rw [eq_of_equal_accepts (OptionSchema.mem_of_find? hspec) hsame haccepts]
    exact haccepts

end OptionMap

/-! ### One value -/

namespace OptionTable

variable {t u : OptionTable}

/-- Whether a table takes a value of a name over: it inherits the option, and has none defined. -/
def isOpen (t : OptionTable) (name : Text) : Bool := t.inherits name && !t.isDefined name

theorem isDefined_congr {name : Text} (h : u.slots.find? name = t.slots.find? name) :
    u.isDefined name = t.isDefined name := by
  unfold isDefined origin?
  rw [h]

theorem isDefined_iff {name : Text} : t.isDefined name = true ↔
    ∃ slot, t.slots.find? name = some slot ∧ slot.origin ≠ .default := by
  unfold isDefined origin?
  cases t.slots.find? name <;> simp

theorem isDefined_of_slot {name : Text} {slot : Slot} (h : t.slots.find? name = some slot)
    (horigin : slot.origin ≠ .default) : t.isDefined name = true :=
  isDefined_iff.mpr ⟨slot, h, horigin⟩

theorem isDefined_of_find? {name : Text} {value : Value}
    (h : t.slots.find? name = some ⟨value, .inherited⟩) : t.isDefined name = true :=
  isDefined_of_slot h (by simp)

theorem isOpen_eq_false_iff {name : Text} :
    t.isOpen name = false ↔ (t.inherits name = true → t.isDefined name = true) := by
  unfold isOpen
  cases t.inherits name <;> cases t.isDefined name <;> simp

theorem inheritable_of_isOpen {name : Text} (h : t.isOpen name = true) {spec : OptionSpec}
    (hspec : t.schema.find? name = some spec) : spec.inheritable = true := by
  have hinherits : t.schema.inherits name = true := (Bool.and_eq_true_iff.mp h).1
  rwa [OptionSchema.inherits_of_find? hspec] at hinherits

theorem isOpen_congr {key : Text} (hschema : u.schema = t.schema)
    (hslot : u.slots.find? key = t.slots.find? key) : u.isOpen key = t.isOpen key := by
  unfold isOpen
  rw [inherits_congr hschema, isDefined_congr hslot]

/-- With the usual policy it only counts whether a table has a value, and not which. -/
theorem adopts_default (t : OptionTable) (name : Text) (value : Value) :
    t.adopts {} name value = t.isOpen name := by
  have hdefined : t.holds {} name = t.isDefined name := by
    unfold holds isDefined
    congr 1
    funext origin
    cases origin <;> rfl
  unfold adopts isOpen
  rw [hdefined]
  cases t.isDefined name <;> rfl

theorem takeOver_of_closed {name : Text} (h : t.isOpen name = false) (value : Value) :
    t.takeOver {} name value = .ok t :=
  takeOver_of_not_adopts ((adopts_default t name value).trans h)

/-- One value that is taken over decides about one slot. -/
theorem find?_takeOver {name : Text} {value : Value} (hu : t.takeOver {} name value = .ok u)
    (key : Text) : u.slots.find? key =
      if key = name ∧ t.isOpen name = true then some ⟨t.formed name value, .inherited⟩
      else t.slots.find? key := by
  rw [find?_takeOver_adopts hu, adopts_default]

/-! ### All values of a set -/

/-- **The slots of a table after a merge**: an open slot gets the value of the set, if there is
one, and all others stay as they are. -/
theorem find?_mergeValues {m : OptionMap} (h : (t.mergeValues m).2 = none) (key : Text) :
    (t.mergeValues m).1.slots.find? key =
      if t.isOpen key then
        ((m.given? key).map fun v => ⟨t.formed key v, .inherited⟩).or (t.slots.find? key)
      else t.slots.find? key := by
  have hslot := find?_takeOverAll_adopts ((OptionSource.values m).nodup_offers {}) h key
  rw [OptionSource.find?_offers, funext (adopts_default t key)] at hslot
  refine hslot.trans ?_
  change (((m.given? key).filter fun _ => t.isOpen key).map _).or _ = _
  cases t.isOpen key <;> cases m.given? key <;> rfl

/-- What a set gives is defined after it was merged to its end. -/
theorem isDefined_mergeValues {m : OptionMap} (h : (t.mergeValues m).2 = none) {key : Text}
    {value : Value} (hvalue : m.given? key = some value) (hkey : t.inherits key = true) :
    (t.mergeValues m).1.isDefined key = true := by
  have hslot := find?_mergeValues h key
  cases hopen : t.isOpen key with
  | true =>
    rw [hopen, if_pos rfl, hvalue] at hslot
    exact isDefined_of_find? hslot
  | false =>
    rw [hopen, if_neg Bool.false_ne_true] at hslot
    rw [isDefined_congr hslot]
    exact isOpen_eq_false_iff.mp hopen hkey

/-- What is defined stays so when a value is taken over. -/
theorem isDefined_takeOver {policy : MergePolicy} {name : Text} {value : Value}
    (h : t.takeOver policy name value = .ok u) {key : Text} (hkey : t.isDefined key = true) :
    u.isDefined key = true := by
  have hslot := find?_takeOver_adopts h key
  split at hslot
  · exact isDefined_of_find? hslot
  · rwa [isDefined_congr hslot]

theorem isDefined_takeOverAll (policy : MergePolicy) (l : List (Text × Value)) {key : Text}
    (hkey : t.isDefined key = true) : (takeOverAll policy t l).1.isDefined key = true := by
  induction l generalizing t with
  | nil => exact hkey
  | cons e l ih =>
    obtain ⟨name, value⟩ := e
    rw [takeOverAll_cons]
    split
    · next u hu => exact ih (isDefined_takeOver hu hkey)
    · exact hkey

/-- **What is defined stays so**, also if the merge ends early. -/
theorem isDefined_mergeValues_mono {key : Text} (h : t.isDefined key = true) (m : OptionMap) :
    (t.mergeValues m).1.isDefined key = true := isDefined_takeOverAll {} _ h

/-- A table takes nothing over from a set: it finds no open slot. -/
def Ignores (t : OptionTable) (m : OptionMap) : Prop :=
  ∀ key value, m.given? key = some value → t.isOpen key = false

/-- **A set that finds no open slot changes nothing**, and is not refused. -/
theorem mergeValues_of_ignores {m : OptionMap} (h : t.Ignores m) : t.mergeValues m = (t, none) := by
  unfold mergeValues
  have hall : ∀ e ∈ m.entries.filter fun e => !e.2.isNull, t.isOpen e.1 = false := by
    intro e he
    obtain ⟨hmem, hnull⟩ := List.mem_filter.mp he
    refine h e.1 e.2 (OptionMap.given?_eq_some_iff.mpr ⟨NameMap.find?_of_mem hmem, ?_⟩)
    simpa using hnull
  generalize (m.entries.filter fun e => !e.2.isNull) = l at hall
  induction l with
  | nil => rfl
  | cons e l ih =>
    obtain ⟨name, value⟩ := e
    rw [takeOverAll_cons, takeOver_of_closed (hall (name, value) List.mem_cons_self)]
    exact ih fun e he => hall e (List.mem_cons_of_mem _ he)

theorem mergeValues_schema (t : OptionTable) (m : OptionMap) :
    (t.mergeValues m).1.schema = t.schema := takeOverAll_schema {} t _

/-- A set that was merged to its end finds no open slot any more. -/
theorem ignores_mergeValues {m : OptionMap} (h : (t.mergeValues m).2 = none) :
    (t.mergeValues m).1.Ignores m := by
  refine fun key value hvalue => isOpen_eq_false_iff.mpr fun hkey => ?_
  rw [inherits_congr (mergeValues_schema t m)] at hkey
  exact isDefined_mergeValues h hvalue hkey

/-- A table that ignores a set ignores it after another one was merged. -/
theorem Ignores.mergeValues {m : OptionMap} (h : t.Ignores m) (n : OptionMap) :
    (t.mergeValues n).1.Ignores m := by
  refine fun key value hvalue => isOpen_eq_false_iff.mpr fun hkey => ?_
  rw [inherits_congr (mergeValues_schema t n)] at hkey
  exact isDefined_mergeValues_mono (isOpen_eq_false_iff.mp (h key value hvalue) hkey) n

/-! ### Sets that are not refused -/

/-- A set none of whose values is refused: what the table takes over of it, it accepts. -/
def Admits (t : OptionTable) (m : OptionMap) : Prop :=
  ∀ key value, m.given? key = some value → t.isOpen key = true →
    ∀ spec, t.schema.find? key = some spec → spec.accepts (spec.transform value) = true

theorem admits_of_takes {m : OptionMap} (h : t.schema.Takes m) : t.Admits m := by
  intro key value hvalue hopen spec hspec
  exact OptionMap.accepts_of_takes h hvalue hspec (inheritable_of_isOpen hopen hspec)

/-- A table that receives what schemas hand down admits a set that leaves nothing open of what
schemas inherit. -/
theorem admits_of_receives (ht : t.schema.Receives) {m : OptionMap}
    (h : ∀ key value, m.given? key = some value → schemaOptions.inherits key = true →
      t.isOpen key = false) : t.Admits m := by
  intro key value hvalue hopen spec hspec
  refine ht key spec hspec (inheritable_of_isOpen hopen hspec) value
    fun around haround hshared => ?_
  -- schemas inherit the option, so it is not open here
  rw [← OptionSchema.inherits_of_find? haround] at hshared
  exact absurd (hopen.symm.trans (h key value hvalue hshared)) (by decide)

/-- A set that is admitted is merged to its end. -/
theorem mergeValues_admits {m : OptionMap} (h : t.Admits m) : (t.mergeValues m).2 = none := by
  have hnodup := (OptionSource.values m).nodup_offers {}
  refine (takeOverAll_eq_none_iff hnodup).mpr fun e he hadopts => ?_
  have hgiven : m.given? e.1 = some e.2 :=
    (m.find?_given e.1).symm.trans ((Listing.mem_iff_find? hnodup e.1 e.2).mp he)
  rw [adopts_default] at hadopts
  unfold accepts
  cases hspec : t.schema.find? e.1 with
  | none => rfl
  | some spec => exact h e.1 e.2 hgiven hadopts spec hspec

/-! ### Values that the owner sets -/

/-- A value that is set stands in one slot, as the owner's own. -/
theorem eq_of_set {name : Text} {value : Value} {overwrite : Bool}
    (h : t.set name value overwrite = .ok u) :
    u = t ∨ ∃ key v, u = t.store key ⟨v, .explicit⟩ := by
  unfold set at h
  split at h
  · next spec hspec =>
    split at h
    · exact absurd h (by simp)
    · split at h
      · exact .inl (Except.ok.inj h).symm
      · obtain ⟨v, -, rfl⟩ := Success.of_map h
        exact .inr ⟨spec.name, v, rfl⟩
  · exact absurd h (by simp)

/-- What is defined stays so when a value is set. -/
theorem isDefined_set {name : Text} {value : Value} {overwrite : Bool}
    (h : t.set name value overwrite = .ok u) {key : Text} (hkey : t.isDefined key = true) :
    u.isDefined key = true := by
  rcases eq_of_set h with rfl | ⟨k, v, rfl⟩
  · exact hkey
  · unfold isDefined origin? at hkey ⊢
    show ((t.slots.insert k _).find? key |>.map (·.origin)).any _ = true
    rw [NameMap.find?_insert]
    split
    · rfl
    · exact hkey

theorem set_schema {name : Text} {value : Value} {overwrite : Bool}
    (h : t.set name value overwrite = .ok u) : u.schema = t.schema := by
  rcases eq_of_set h with rfl | ⟨k, v, rfl⟩ <;> rfl

/-- A table that ignores a set ignores it after a value was set. -/
theorem Ignores.set {m : OptionMap} (hm : t.Ignores m) {name : Text} {value : Value}
    {overwrite : Bool} (h : t.set name value overwrite = .ok u) : u.Ignores m := by
  refine fun key given hgiven => isOpen_eq_false_iff.mpr fun hkey => ?_
  rw [inherits_congr (set_schema h)] at hkey
  exact isDefined_set h (isOpen_eq_false_iff.mp (hm key given hgiven) hkey)

/-! ### What a table defines -/

theorem find?_defined (t : OptionTable) (key : Text) :
    t.defined.find? key = (t.slots.find? key).bind fun slot =>
      if slot.origin = .default then none else some slot.value :=
  Listing.find?_filterMap t.slots.nodup_names
    (fun slot : Slot => if slot.origin = .default then none else some slot.value) key

theorem isDefined_of_given {key : Text} {value : Value} (h : t.defined.given? key = some value) :
    t.isDefined key = true := by
  have hfind := (OptionMap.given?_eq_some_iff.mp h).1
  rw [find?_defined] at hfind
  obtain ⟨slot, hslot, hvalue⟩ := Option.bind_eq_some_iff.mp hfind
  split at hvalue
  · exact absurd hvalue (by simp)
  · next horigin =>
    unfold isDefined origin?
    rw [hslot]
    simpa using horigin

/-- What a table offers to another one is what it defines. -/
theorem merge_eq (t u : OptionTable) : t.merge u = t.mergeValues u.defined := by
  have hoffered : u.offered {} = u.defined.entries.filter fun e => !e.2.isNull := by
    show u.slots.entries.filterMap _ = List.filter _ (u.slots.entries.filterMap _)
    rw [List.filter_filterMap]
    congr 1
    funext ⟨name, value, origin⟩
    cases hnull : value.isNull <;> cases origin <;>
      simp [MergePolicy.counts, hnull, Option.filter]
  unfold merge mergeValues
  rw [hoffered]

/-- A table takes nothing over from itself. -/
theorem mergeValues_defined (t : OptionTable) : t.mergeValues t.defined = (t, none) :=
  mergeValues_of_ignores fun _ _ hvalue =>
    isOpen_eq_false_iff.mpr fun _ => isDefined_of_given hvalue

end OptionTable

/-! ### Sets that schemas hold -/

namespace OptionMap.Held

variable {m : OptionMap} {t : OptionTable} {key : Text} {value : Value}

theorem spec_of_find? (h : m.Held) (hvalue : m.find? key = some value) :
    ∃ spec, schemaOptions.find? key = some spec ∧ spec.Holds value :=
  h (key, value) (Listing.mem_of_find? hvalue)

theorem given?_eq (h : m.Held) (key : Text) : m.given? key = m.find? key := by
  unfold given?
  cases hvalue : m.find? key with
  | none => rfl
  | some value =>
    obtain ⟨spec, hspec, -, -, haccepts⟩ := h.spec_of_find? hvalue
    have hkind := kind_of_accepts (OptionSchema.mem_of_find? hspec) haccepts
    cases value with
    | null => exact absurd hkind (by simp [Value.bool?, Value.text?])
    | bool | int | float | text | record => rfl

/-- A value that schemas hold is stored as it is, also by columns. -/
theorem formed_eq (h : m.Held) (hvalue : m.given? key = some value)
    (ht : t.Standard) (hkey : t.inherits key = true) : t.formed key value = value := by
  rw [h.given?_eq] at hvalue
  obtain ⟨spec, hspec, raw, rfl, -⟩ := h.spec_of_find? hvalue
  unfold OptionTable.inherits at hkey
  unfold OptionTable.formed
  have hmem := OptionSchema.mem_of_find? hspec
  rcases ht with ht | ht <;> rw [ht] at hkey ⊢
  · rw [OptionSchema.inherits_of_find? hspec] at hkey
    rw [hspec]
    exact transform_transform hmem hkey raw
  · cases hfind : columnOptions.find? key with
    | none => rfl
    | some own =>
      rw [OptionSchema.inherits_of_find? hfind] at hkey
      obtain ⟨around, haround, hinheritable, htransform, -⟩ := inherited_alike hfind hkey
      obtain rfl := Option.some.inj (hspec.symm.trans haround)
      show own.transform (spec.transform raw) = _
      rw [← htransform]
      exact transform_transform hmem hinheritable raw

end OptionMap.Held

namespace OptionTable

variable {t : OptionTable} {key : Text}

/-- A valid table of a schema offers a value for every option that is defined. -/
theorem Valid.given?_defined (ht : t.Valid) (hschema : t.schema = schemaOptions)
    (h : t.isDefined key = true) : ∃ value, t.defined.given? key = some value := by
  rw [(ht.held_defined hschema).given?_eq, find?_defined]
  unfold isDefined origin? at h
  cases hslot : t.slots.find? key with
  | none => rw [hslot] at h; exact absurd h (by simp)
  | some slot =>
    rw [hslot] at h
    have horigin : slot.origin ≠ .default := by simpa using h
    exact ⟨slot.value, by simp [horigin]⟩

end OptionTable

end RecordLayout
