import RecordLayout.Proofs.Layout.Reached
import RecordLayout.Proofs.Layout.Steady

/-!
# Steady layouts that grow

A new schema, a new catalog and a setting open no way between schemas, and neither do a leaf and a
reference without a target.  A new leaf has taken over what its schema defines, so whatever is
covered and inherited by schemas stays covered.  A nested schema that becomes a field opens a way,
and it takes no cover away if the schema supplies all that its parent defines; this it did when its
builder began.

## Main definitions

* `Layout.Enlarges`: **growth that opens no way**, and leaves no table behind.

## Main results

* `Layout.Steady.enlarge`: growth that opens no way leaves a layout steady.
* `Layout.Steady.appendNested`: a nested schema that becomes a field does so too.
-/

namespace RecordLayout

namespace Layout

variable {L M N : Layout} {s t : SchemaId} {m : OptionMap}

/-- Growth that opens no way between the schemas that there were, and leaves none of their tables
behind. -/
structure Enlarges (L M : Layout) : Prop where
  length_le : L.schemas.length ≤ M.schemas.length
  joins : ∀ s t, s < L.schemas.length → M.Joins s t → L.Joins s t
  defines : ∀ s key, schemaOptions.inherits key = true → s < L.schemas.length → L.Defines s key →
    M.Defines s key
  receptive : L.Receptive → M.Receptive
  queues : L.Queues → M.Queues
  received : ∀ s, ∀ m ∈ (M.schema s).received, m ∈ (L.schema s).received

theorem lt_of_mem_received (h : m ∈ (L.schema s).received) : s < L.schemas.length := by
  refine Nat.lt_of_not_le fun hle => ?_
  rw [schema_of_le hle] at h
  exact absurd h (by simp [Schema.blank])

namespace Enlarges

theorem trans (h : L.Enlarges M) (h' : M.Enlarges N) : L.Enlarges N where
  length_le := Nat.le_trans h.length_le h'.length_le
  joins s t hs hst := h.joins s t hs (h'.joins s t (Nat.lt_of_lt_of_le hs h.length_le) hst)
  defines s key hshared hs hkey :=
    h'.defines s key hshared (Nat.lt_of_lt_of_le hs h.length_le) (h.defines s key hshared hs hkey)
  receptive hL := h'.receptive (h.receptive hL)
  queues hL := h'.queues (h.queues hL)
  received s m hm := h.received s m (h'.received s m hm)

/-- Whatever is covered and inherited by schemas stays covered. -/
theorem covers (h : L.Enlarges M) (hL : L.Coherent) (hs : s < L.schemas.length) {key : Text}
    (hshared : schemaOptions.inherits key = true) (hkey : Covers L.Joins L s key) :
    Covers M.Joins M s key := by
  refine Covers.of_closed (C := fun t => t < L.schemas.length ∧ Covers L.Joins L t key) ⟨hs, hkey⟩
    (fun t u ht htu => ?_) fun t ht => h.defines t key hshared ht.1 ht.2.defines
  have hjoins := h.joins t u ht.1 htu
  exact ⟨hL.reaches_lt ht.1 (.single hjoins), ht.2.reach (.single hjoins)⟩

theorem supplies (h : L.Enlarges M) (hL : L.Coherent) (hs : s < L.schemas.length)
    (hm : Supplies L.Joins L s m) : Supplies M.Joins M s m :=
  fun key value hvalue hshared => h.covers hL hs hshared (hm key value hvalue hshared)

end Enlarges

/-- **Growth that opens no way leaves a layout steady.** -/
theorem Steady.enlarge (hL : L.Steady) (h : L.Enlarges M) (hM : M.Sane) : M.Steady := by
  refine ⟨hM.wellMade, hM.tabled, h.receptive hL.receptive, h.queues hL.queues,
    fun s m hm htakes => ?_⟩
  have hbefore := h.received s m hm
  exact h.supplies hL.wellMade.coherent (lt_of_mem_received hbefore)
    (hL.delivered s m hbefore htakes)

/-! ### Schemas, catalogs and settings -/

/-- A layout that differs in the catalogs, and in the settings of its schemas, at most. -/
theorem enlarges_of_same (hlength : M.schemas.length = L.schemas.length)
    (hfind : ∀ s key, (M.schema s).find? key = (L.schema s).find? key)
    (hoptions : ∀ s, (M.schema s).options = (L.schema s).options)
    (hreceived : ∀ s, (M.schema s).received = (L.schema s).received) : L.Enlarges M where
  length_le := Nat.le_of_eq hlength.symm
  joins s t _ hst := (joins_congr (hfind s)).mp hst
  defines s key _ _ hkey place tab htab :=
    hkey place tab (by rwa [table?_congr (hoptions s) (hfind s) place] at htab)
  receptive hL s key e he := hL s key e (hfind s key ▸ he)
  queues hL s key ref href := by
    rw [hfind] at href
    rw [hoptions]
    exact hL s key ref href
  received s m hm := hreceived s ▸ hm

theorem enlarges_setting (s : SchemaId) {f : Schema → Schema}
    (hf : ∀ a, (f a).entries = a.entries ∧ (f a).options = a.options
      ∧ (f a).received = a.received) :
    L.Enlarges (L.modify s f) := by
  have hschema (t : SchemaId) : (L.modify s f).schema t = f (L.schema t)
      ∨ (L.modify s f).schema t = L.schema t := by
    rw [schema_modify]
    split
    · exact .inl rfl
    · exact .inr rfl
  refine enlarges_of_same (length_modify L s f) (fun t key => ?_) (fun t => ?_) fun t => ?_
  · unfold Schema.find?
    rcases hschema t with h | h <;> rw [h]
    rw [(hf _).1]
  · rcases hschema t with h | h <;> rw [h]
    exact (hf _).2.1
  · rcases hschema t with h | h <;> rw [h]
    exact (hf _).2.2

theorem enlarges_of_schemas (h : M.schemas = L.schemas) : L.Enlarges M := by
  have hschema (t : SchemaId) : M.schema t = L.schema t := by
    unfold schema
    rw [h]
  exact enlarges_of_same (by rw [h]) (fun t key => by rw [hschema]) (fun t => by rw [hschema])
    fun t => by rw [hschema]

/-- A new schema. -/
theorem enlarges_push {node : Schema} (hentries : node.entries = [])
    (hreceived : node.received = []) : L.Enlarges (L.push node) where
  length_le := by
    rw [length_push]
    exact Nat.le_succ _
  joins s t hs hst := (joins_congr fun key => by rw [schema_push_of_lt L node hs]).mp hst
  defines s key _ hs hkey place tab htab := by
    rw [table?_of_schema (schema_push_of_lt L node hs) place] at htab
    exact hkey place tab htab
  receptive hL := Every.push hL hentries
  queues hL s key ref href := by
    obtain ⟨hfind, hs⟩ := find?_push hentries href
    rw [schema_push_of_lt L node hs]
    exact hL s key ref hfind
  received s m hm := by
    rw [schema_push] at hm
    split at hm
    · rw [hreceived] at hm
      exact absurd hm (by simp)
    · exact hm

/-- A new schema has one table and joins no schema, so it supplies what its table ignores. -/
theorem Supplies.push {node : Schema} (hentries : node.entries = [])
    (h : node.options.Ignores m) :
    Supplies (L.push node).Joins (L.push node) L.schemas.length m := by
  have hlast : (L.push node).schema L.schemas.length = node := by rw [schema_push, if_pos rfl]
  have hfind (key : Text) : ((L.push node).schema L.schemas.length).find? key = none := by
    rw [hlast]
    unfold Schema.find?
    rw [hentries]
    rfl
  intro key value hvalue _
  refine Covers.of_closed (C := (· = L.schemas.length)) rfl (fun t u ht htu => ?_)
    fun t ht place tab htab hinherits => ?_
  · obtain ⟨k, f, hf, -⟩ := htu
    rw [ht, known?, hfind] at hf
    exact absurd hf (by simp)
  · rw [ht] at htab
    cases place with
    | none =>
      obtain rfl := Option.some.inj htab
      rw [hlast] at hinherits ⊢
      exact OptionTable.isOpen_eq_false_iff.mp (h key value hvalue) hinherits
    | some k =>
      rw [table?_field, hfind] at htab
      exact absurd htab (by simp)

/-- An option that is set. -/
theorem enlarges_setOption (s : SchemaId) {name : Text} {value : Value} {table : OptionTable}
    (h : (L.schema s).options.set name value = .ok table) :
    L.Enlarges (L.modify s fun node => { node with options := table }) := by
  have hfind (t : SchemaId) (key : Text) :
      ((L.modify s fun node => { node with options := table }).schema t).find? key
        = (L.schema t).find? key := by
    rw [schema_modify]
    split <;> rfl
  refine ⟨Nat.le_of_eq (length_modify L s _).symm, fun t u _ => (joins_congr (hfind t)).mp,
    fun t key _ _ hkey place tab htab hinherits => ?_, fun hL => Every.modify hL rfl,
    fun hL => hL.modify rfl fun m hm => hm.set h, fun t m hm => ?_⟩
  · cases place with
    | some k =>
      have hsame : L.table? t (some k) = some tab := by rwa [table?_field, hfind] at htab
      exact hkey _ tab hsame hinherits
    | none =>
      obtain rfl := Option.some.inj htab
      rw [schema_modify] at hinherits ⊢
      split at hinherits
      · next hs =>
        obtain ⟨rfl, -⟩ := hs
        rw [OptionTable.inherits_congr (OptionTable.set_schema h)] at hinherits
        rw [if_pos ⟨rfl, by assumption⟩]
        exact OptionTable.isDefined_set h (hkey none _ rfl hinherits)
      · next hs =>
        rw [if_neg hs]
        exact hkey none _ rfl hinherits
  · rw [schema_modify] at hm
    split at hm <;> exact hm

/-! ### Fields -/

/-- A way that a new field opens leads to the schema that is nested there. -/
theorem joins_of_append {key : Text} {entry : Entry} (hentry : ∀ ref, entry = .reference ref →
    ref.target? = none) {a b : SchemaId} (h : (L.append s key entry).Joins a b) :
    L.Joins a b ∨ (a = s ∧ entry = .nested b) := by
  obtain ⟨k, f, hf, hb⟩ := h
  rcases known_schema_cases hf hb with ⟨hfind, rfl⟩ | ⟨ref, hfind, hbound, rfl⟩
  · rcases find?_append hfind with hold | ⟨rfl, -, rfl⟩
    · exact .inl ⟨k, _, known_of_nested hold, rfl⟩
    · exact .inr ⟨rfl, rfl⟩
  · rcases find?_append hfind with hold | ⟨rfl, -, rfl⟩
    · exact .inl ⟨k, _, known_of_reference hold hbound, rfl⟩
    · -- a reference that is new has no target
      exact absurd ((hentry ref rfl).symm.trans hbound) nofun

/-- A table of a schema that has got one more field is one that it had, or that of a new leaf. -/
theorem table?_of_append {key : Text} {entry : Entry} {place : Option Text} {tab : OptionTable}
    (h : (L.append s key entry).table? t place = some tab) :
    L.table? t place = some tab ∨ (t = s ∧ ∃ c, entry = .column c ∧ c.table? = some tab) := by
  cases place with
  | none =>
    refine .inl ?_
    rw [← h]
    unfold table?
    dsimp only
    rw [schema_append]
    split <;> rfl
  | some k =>
    rw [table?_field] at h ⊢
    obtain ⟨e, hfind, htable⟩ := Option.bind_eq_some_iff.mp h
    rcases find?_append hfind with hfind | ⟨rfl, -, rfl⟩
    · exact .inl (by rw [hfind]; exact htable)
    · cases e with
      | column c => exact .inr ⟨rfl, c, rfl, htable⟩
      | nested | reference => exact absurd htable nofun

theorem queues_append (hL : L.Queues) (s : SchemaId) (key : Text) {entry : Entry}
    (hentry : ∀ ref, entry = .reference ref → ref.pending = []) :
    (L.append s key entry).Queues := by
  intro t k ref href
  have hoptions : ((L.append s key entry).schema t).options = (L.schema t).options := by
    rw [schema_append]
    split <;> rfl
  rw [hoptions]
  rcases find?_append href with href | ⟨-, -, hnew⟩
  · exact hL t k ref href
  · have hnone := hentry ref hnew.symm
    exact ⟨fun _ => hnone, by rw [hnone]; exact .nil, fun m hm => absurd hm (by simp [hnone]),
      fun m hm => absurd hm (by simp [hnone])⟩

theorem received_append (s : SchemaId) (key : Text) (entry : Entry) (t : SchemaId) :
    ((L.append s key entry).schema t).received = (L.schema t).received := by
  rw [schema_append]
  split <;> rfl

/-- A field that a schema has accepted, and that receives what is handed down. -/
theorem enlarges_append (hL : L.Tabled) {key : Text} {entry : Entry}
    (h : (L.schema s).Accepts key entry) (hreceptive : entry.Receptive)
    (hs : s < L.schemas.length) : L.Enlarges (L.append s key entry) := by
  have hpending (ref : Reference) (href : entry = .reference ref) :
      ref.target? = none ∧ ref.pending = [] := by
    cases h with
    | ungrouped | grouped | filler => exact absurd href (by simp)
    | reference => exact Entry.reference.inj href ▸ ⟨rfl, rfl⟩
  have hinherited (c : Codec) (hc : entry = .column c) : c.Inherited (L.schema s).options := by
    cases h with
    | ungrouped _ _ _ _ h | grouped _ _ _ _ _ _ h | filler _ _ _ _ h =>
      rw [Entry.column.inj hc] at h
      exact h
    | reference => exact absurd hc (by simp)
  refine ⟨Nat.le_of_eq (length_append L s key entry).symm, fun t u _ htu => ?_,
    fun t k hshared _ hkey place tab htab hinherits => ?_,
    fun hL => Every.append hL s key hreceptive,
    fun hL => queues_append hL s key fun ref href => (hpending ref href).2,
    fun t m hm => received_append s key entry t ▸ hm⟩
  · rcases joins_of_append (fun ref href => (hpending ref href).1) htu with hjoins | ⟨-, rfl⟩
    · exact hjoins
    · cases h
  · rcases table?_of_append htab with hold | ⟨rfl, c, hc, htable⟩
    · exact hkey place tab hold hinherits
    · -- the new leaf has taken over what the schema defines
      obtain ⟨hvalid, hschema⟩ := hL.schema t hs
      have hown : (L.schema t).options.schema.inherits k = true := hschema ▸ hshared
      obtain ⟨value, hvalue⟩ := hvalid.given?_defined hschema (hkey none _ rfl hown)
      have hclosed := hinherited c hc tab htable k value hvalue
      exact OptionTable.isOpen_eq_false_iff.mp hclosed hinherits

/-- **A nested schema that becomes a field** opens a way, which takes no cover away if the schema
supplies all that its parent defines. -/
theorem covers_appendNested {p z : SchemaId} (hL : L.Sane) (hp : p < L.schemas.length)
    (hsupplies : Supplies L.Joins L z (L.schema p).options.defined)
    (key : Text) {k : Text} (hshared : schemaOptions.inherits k = true)
    (h : Covers L.Joins L s k) :
    Covers (L.append p key (.nested z)).Joins (L.append p key (.nested z)) s k := by
  -- what the parent defines, the schema at the end of the new way covers
  have hnew (hk : L.Defines p k) : Covers L.Joins L z k :=
    hsupplies.covers hL.tabled hp hshared
      (OptionTable.isOpen_eq_false_iff.mpr (hk none _ rfl))
  refine (h.addEdge (fun a b hab => ?_) hnew).mono (fun _ _ => id) fun t ht place tab htab => ?_
  · refine (joins_of_append (fun ref href => absurd href (by simp)) hab).imp id fun h => ⟨h.1, ?_⟩
    exact (Entry.nested.inj h.2).symm
  · rcases table?_of_append htab with hold | ⟨-, c, hc, -⟩
    · exact ht place tab hold
    · exact absurd hc (by simp)

theorem Steady.appendNested {p z : SchemaId} (hL : L.Steady) (hp : p < L.schemas.length)
    (hsupplies : Supplies L.Joins L z (L.schema p).options.defined)
    (key : Text) (hM : (L.append p key (.nested z)).Sane) :
    (L.append p key (.nested z)).Steady := by
  refine ⟨hM.wellMade, hM.tabled, Every.append hL.receptive p key trivial,
    queues_append hL.queues p key fun ref href => absurd href (by simp),
    fun s m hm htakes k value hvalue hshared => ?_⟩
  rw [received_append] at hm
  exact covers_appendNested ⟨hL.wellMade, hL.tabled⟩ hp hsupplies key hshared
    (hL.delivered s m hm htakes k value hvalue hshared)

end Layout

end RecordLayout
