import RecordLayout.Proofs.Layout.Travel
import RecordLayout.Proofs.Options.Merging

/-!
# What options reach

An option set that is propagated into a schema comes to its tables, and to those of all schemas that
it joins, as nested ones or as targets that have been found.  An option is covered from a schema on
if every table that the schema reaches, and that inherits the option, has it defined.

Whatever changes by propagation, tables only get more options defined; so what is covered stays
covered, as long as no new way opens.  A new way from one schema to another takes nothing away
either, if what is defined at its beginning is covered from its end on.

## Main definitions

* `Layout.Joins`, `Layout.Reaches`: the ways of options.
* `Layout.table?`: the option tables of a schema, its own and those of its leaves.
* `Layout.Native`: the places of those of schemas and columns.
* `Layout.Defines`, `Layout.Covers`: options that are defined in all tables of a schema, or of all
  schemas that it reaches.

## Main results

* `Layout.Covers.addEdge`: **a new way takes no cover away** if it is covered itself.
* `Layout.Evolves.defines`: what is defined stays defined.
* `Layout.Follows.joins_iff`: propagation opens no way.
-/

namespace RecordLayout

/-- The option table of a field, if it is a leaf that has one. -/
def Entry.table? : Entry → Option OptionTable
  | .column c => c.table?
  | _ => none

namespace Layout

variable {r : Nat} {L M N : Layout}

/-- A schema has another one as a field: one that is nested in it, or a target that has been
found. -/
def Joins (L : Layout) (s t : SchemaId) : Prop :=
  ∃ key f, L.known? s key = some f ∧ f.schema? = some t

/-- What a schema joins, what that joins, and so on. -/
def Reaches (L : Layout) : SchemaId → SchemaId → Prop := Relation.ReflTransGen L.Joins

/-- The option table at a place of a schema: its own, or that of the leaf under a key. -/
def table? (L : Layout) (s : SchemaId) : Option Text → Option OptionTable
  | none => some (L.schema s).options
  | some key => ((L.schema s).find? key).bind Entry.table?

/-- The place of a table of a schema itself or of a column, and not of a codec that is made
elsewhere. -/
def Native (L : Layout) (s : SchemaId) : Option Text → Prop
  | none => True
  | some key => ∃ c, (L.schema s).find? key = some (.column (.column c))

/-- All tables of a schema that inherit an option have it defined. -/
def Defines (L : Layout) (s : SchemaId) (key : Text) : Prop :=
  ∀ place t, L.table? s place = some t → t.inherits key = true → t.isDefined key = true

/-- All schemas that can be reached by `E` define an option. -/
def Covers (E : SchemaId → SchemaId → Prop) (L : Layout) (s : SchemaId) (key : Text) : Prop :=
  ∀ t, Relation.ReflTransGen E s t → L.Defines t key

/-! ### Cover -/

namespace Covers

variable {E E' : SchemaId → SchemaId → Prop} {s t : SchemaId} {key : Text}

theorem defines (h : Covers E L s key) : L.Defines s key := h s .refl

theorem reach (h : Covers E L s key) (hst : Relation.ReflTransGen E s t) : Covers E L t key :=
  fun u htu => h u (hst.trans htu)

/-- An option is covered if it is defined in all schemas of a set that no way leads out of. -/
theorem of_closed {C : SchemaId → Prop} (hs : C s) (hclosed : ∀ t u, C t → E t u → C u)
    (hdefines : ∀ t, C t → L.Defines t key) : Covers E L s key := by
  intro t hst
  refine hdefines t ?_
  induction hst with
  | refl => exact hs
  | tail _ htu ih => exact hclosed _ _ ih htu

theorem mono (h : Covers E L s key) (hE : ∀ a b, E' a b → E a b)
    (hdefines : ∀ t, L.Defines t key → M.Defines t key) : Covers E' M s key :=
  fun t hst => hdefines t (h t (Relation.ReflTransGen.mono hE _ _ hst))

/-- **A new way takes no cover away**, if an option that is defined at its beginning is covered from
its end on. -/
theorem addEdge {p z : SchemaId} (h : Covers E L s key)
    (hE : ∀ a b, E' a b → E a b ∨ (a = p ∧ b = z)) (hnew : L.Defines p key → Covers E L z key) :
    Covers E' L s key := by
  refine of_closed (C := fun t => Covers E L t key) h (fun t u ht htu => ?_) fun t ht => ht.defines
  rcases hE t u htu with htu | ⟨rfl, rfl⟩
  · exact ht.reach (.single htu)
  · exact hnew ht.defines

end Covers

/-! ### Tables of a layout that changes -/

theorem table?_field (L : Layout) (s : SchemaId) (key : Text) :
    L.table? s (some key) = ((L.schema s).find? key).bind Entry.table? := rfl

/-- The tables of schemas and columns are valid. -/
theorem Tabled.native (hL : L.Tabled) {s : SchemaId} (hs : s < L.schemas.length)
    {place : Option Text} {t : OptionTable} (ht : L.table? s place = some t)
    (hnative : L.Native s place) : t.Valid ∧ t.Standard := by
  cases place with
  | none =>
    obtain rfl := Option.some.inj ht
    exact ⟨(hL.schema s hs).1, .inl (hL.schema s hs).2⟩
  | some key =>
    obtain ⟨c, hfind⟩ := hnative
    rw [table?_field, hfind] at ht
    obtain rfl := Option.some.inj ht
    obtain ⟨hvalid, hschema⟩ : c.options.Valid ∧ c.options.schema = columnOptions :=
      hL.entry s key _ hfind
    exact ⟨hvalid, .inr hschema⟩

/-- All tables receive what schemas hand down. -/
theorem Receptive.table? (h : L.Receptive) (hL : L.Tabled) {s : SchemaId}
    (hs : s < L.schemas.length) {place : Option Text} {t : OptionTable}
    (ht : L.table? s place = some t) : t.schema.Receives := by
  cases place with
  | none => exact (hL.native hs ht trivial).2.receives
  | some key =>
    obtain ⟨e, hfind, htable⟩ := Option.bind_eq_some_iff.mp ht
    cases e with
    | column c =>
      have hc : c.Receptive := h s key _ hfind
      exact hc t htable
    | nested | reference => exact absurd htable nofun

/-- Tables are read off the options and the fields of a schema. -/
theorem table?_congr {s : SchemaId} (hoptions : (M.schema s).options = (L.schema s).options)
    (hfind : ∀ key, (M.schema s).find? key = (L.schema s).find? key) (place : Option Text) :
    M.table? s place = L.table? s place := by
  unfold table?
  cases place with
  | none => exact congrArg some hoptions
  | some key => dsimp only; rw [hfind]

theorem table?_of_schema {s : SchemaId} (h : M.schema s = L.schema s) (place : Option Text) :
    M.table? s place = L.table? s place :=
  table?_congr (by rw [h]) (fun key => by rw [h]) place

/-- Ways are read off the fields of a schema. -/
theorem joins_congr {s t : SchemaId}
    (hfind : ∀ key, (M.schema s).find? key = (L.schema s).find? key) :
    M.Joins s t ↔ L.Joins s t := by
  unfold Joins known?
  simp only [hfind]

/-- The fields of a schema whose fields stay. -/
theorem find?_modify {p : SchemaId} {f : Schema → Schema}
    (hentries : (f (L.schema p)).entries = (L.schema p).entries) (s : SchemaId) (key : Text) :
    ((L.modify p f).schema s).find? key = (L.schema s).find? key := by
  rw [schema_modify]
  split
  · next h =>
    rw [← h.1]
    unfold Schema.find?
    rw [hentries]
  · rfl

section Tables

variable {P : OptionTable → OptionTable → Prop}

theorem rel_refl (hrefl : ∀ t, P t t) (t? : Option OptionTable) : Option.Rel P t? t? := by
  cases t? with
  | none => exact .none
  | some t => exact .some (hrefl t)

/-- The tables of a schema whose fields stay. -/
theorem table?_modify (hrefl : ∀ t, P t t) {p : SchemaId} {f : Schema → Schema}
    (hentries : (f (L.schema p)).entries = (L.schema p).entries)
    (hoptions : P (L.schema p).options (f (L.schema p)).options) (s : SchemaId)
    (place : Option Text) : Option.Rel P (L.table? s place) ((L.modify p f).table? s place) := by
  cases place with
  | none =>
    refine .some ?_
    rw [schema_modify]
    split
    · next h => exact h.1 ▸ hoptions
    · exact hrefl _
  | some key =>
    rw [table?_field, table?_field, find?_modify hentries]
    exact rel_refl hrefl _

/-- The tables of a schema when one field is replaced. -/
theorem table?_modifyEntry (hrefl : ∀ t, P t t) {p : SchemaId} {key : Text} {e : Entry}
    {f : Entry → Entry} (he : (L.schema p).find? key = some e)
    (hf : Option.Rel P e.table? (f e).table?) (s : SchemaId) (place : Option Text) :
    Option.Rel P (L.table? s place) ((L.modifyEntry p key f).table? s place) := by
  cases place with
  | none =>
    refine .some ?_
    rw [options_modifyEntry]
    exact hrefl _
  | some k =>
    rw [table?_field, table?_field, find?_modifyEntry he]
    by_cases hk : p = s ∧ k = key
    · obtain ⟨rfl, rfl⟩ := hk
      rw [if_pos ⟨rfl, rfl⟩, he]
      exact hf
    · rw [if_neg hk]
      exact rel_refl hrefl _

end Tables

/-- A codec that takes a set over, as far as its options go. -/
theorem table?_takeOver (c : Codec) (m : OptionMap) :
    (Entry.column (c.takeOver m).1).table?
      = (Entry.column c).table?.map fun t => (t.mergeValues m).1 := c.table?_takeOver m

/-- A table after a change is the one before, or that with a set taken over. -/
theorem Change.rel_table? (h : Change r L M) (s : SchemaId) (place : Option Text) :
    Option.Rel (fun t u : OptionTable => u = t ∨ ∃ m, u = (t.mergeValues m).1) (L.table? s place)
      (M.table? s place) := by
  let P (t u : OptionTable) : Prop := u = t ∨ ∃ m, u = (t.mergeValues m).1
  have hrefl (t : OptionTable) : P t t := .inl rfl
  cases h with
  | received p m => exact table?_modify hrefl rfl (hrefl _) s place
  | options p m => exact table?_modify hrefl rfl (.inr ⟨m, rfl⟩) s place
  | @codec p key c hc m =>
    refine table?_modifyEntry hrefl hc ?_ s place
    rw [table?_takeOver]
    cases (Entry.column c).table? with
    | none => exact .none
    | some t => exact .some (.inr ⟨m, rfl⟩)
  -- a reference has no options of its own, whatever becomes of it
  | enqueued href | refused href | bound _ href =>
    exact table?_modifyEntry hrefl href .none s place
  | measured ho htrusts => exact table?_modify hrefl rfl (hrefl _) s place

/-- A table that is there after a change was there before. -/
theorem Change.table? (h : Change r L M) {s : SchemaId} {place : Option Text} {u : OptionTable}
    (hu : M.table? s place = some u) :
    ∃ t, L.table? s place = some t ∧ (u = t ∨ ∃ m, u = (t.mergeValues m).1) := by
  have hrel := h.rel_table? s place
  rw [hu] at hrel
  generalize htab : L.table? s place = tab? at hrel
  cases hrel with
  | @some tab _ hP => exact ⟨tab, rfl, hP⟩

/-- What is defined stays defined. -/
theorem Change.defines (h : Change r L M) {s : SchemaId} {key : Text} (hs : L.Defines s key) :
    M.Defines s key := by
  intro place u hu hinherits
  obtain ⟨t, ht, rfl | ⟨m, rfl⟩⟩ := h.table? hu
  · exact hs place u ht hinherits
  · rw [OptionTable.inherits_congr (t.mergeValues_schema m)] at hinherits
    exact OptionTable.isDefined_mergeValues_mono (hs place t ht hinherits) m

/-- **What is defined stays defined.** -/
theorem Evolves.defines (h : L.Evolves r M) {s : SchemaId} {key : Text} (hs : L.Defines s key) :
    M.Defines s key := by
  induction h with
  | refl => exact hs
  | tail _ hchange ih => exact hchange.defines ih

/-- What a schema ignores it goes on to ignore. -/
theorem Evolves.ignores (h : L.Evolves r M) {s : SchemaId} {m : OptionMap}
    (hs : (L.schema s).options.Ignores m) : (M.schema s).options.Ignores m := by
  induction h with
  | refl => exact hs
  | @tail A B _ hchange ih =>
    have hnew : B.table? s none = some (B.schema s).options := rfl
    obtain ⟨t, ht, htable⟩ := hchange.table? hnew
    obtain rfl := Option.some.inj ht
    rcases htable with hsame | ⟨n, hmerge⟩
    · exact hsame ▸ ih
    · exact hmerge ▸ ih.mergeValues n

/-! ### Ways of a layout that changes -/

/-- A field that is known after a run of changes was known before, if no target was found. -/
theorem Follows.known_of_known (h : L.Follows 0 M) {s : SchemaId} {key : Text} {g : Field}
    (hg : M.known? s key = some g) : ∃ f, L.known? s key = some f ∧ f.schema? = g.schema? := by
  rcases known_cases hg with ⟨d, hd, rfl⟩ | ⟨t, ht, rfl⟩ | ⟨q, t, hq, hqt, rfl⟩
  · obtain ⟨c, hc⟩ := h.column_back hd
    exact ⟨_, known_of_column hc, rfl⟩
  · obtain ⟨e, he, hfollows⟩ := h.find_back ht
    cases hfollows with
    | nested => exact ⟨_, known_of_nested he, rfl⟩
  · obtain ⟨e, he, hfollows⟩ := h.find_back hq
    cases hfollows with
    | @reference p _ hpq =>
      cases hp : p.target? with
      | none => exact absurd (hpq.found hp t hqt).1 (Nat.not_lt_zero s)
      | some u =>
        obtain rfl : u = t := Option.some.inj ((hpq.kept u hp).symm.trans hqt)
        exact ⟨_, known_of_reference he hp, rfl⟩

theorem Follows.joins (h : L.Follows r M) {s t : SchemaId} (hst : L.Joins s t) : M.Joins s t := by
  obtain ⟨key, f, hf, ht⟩ := hst
  obtain ⟨g, hg, hfg⟩ := h.known hf
  exact ⟨key, g, hg, hfg.schema.trans ht⟩

/-- **Without a new target no way opens.** -/
theorem Follows.joins_iff (h : L.Follows 0 M) {s t : SchemaId} : M.Joins s t ↔ L.Joins s t := by
  refine ⟨fun ⟨key, g, hg, ht⟩ => ?_, h.joins⟩
  obtain ⟨f, hf, hfg⟩ := h.known_of_known hg
  exact ⟨key, f, hf, hfg.trans ht⟩

theorem Follows.joins_eq (h : L.Follows 0 M) : M.Joins = L.Joins := by
  funext s t
  exact propext h.joins_iff

/-- A reference that gets its target opens one way. -/
theorem joins_of_bound {s t : SchemaId} {key : Text} {ref : Reference}
    (href : (L.schema s).find? key = some (.reference ref)) {a b : SchemaId}
    (h : (L.modifyEntry s key fun _ => .reference (ref.bind t).2).Joins a b) :
    L.Joins a b ∨ (a = s ∧ b = t) := by
  obtain ⟨k, f, hf, hb⟩ := h
  unfold known? at hf
  rw [find?_modifyEntry href] at hf
  by_cases hk : s = a ∧ k = key
  · rw [if_pos hk] at hf
    dsimp only at hf
    rw [Reference.target?_bind] at hf
    rw [← Option.some.inj hf] at hb
    exact .inr ⟨hk.1.symm, (Option.some.inj hb).symm⟩
  · rw [if_neg hk] at hf
    exact .inl ⟨k, f, hf, hb⟩

/-- Ways do not lead out of a layout. -/
theorem Coherent.reaches_lt (hL : L.Coherent) {s t : SchemaId} (hs : s < L.schemas.length)
    (hst : L.Reaches s t) : t < L.schemas.length := by
  induction hst with
  | refl => exact hs
  | tail _ htu _ =>
    obtain ⟨key, f, hf, hu⟩ := htu
    exact hL.known_lt hf hu

end Layout

end RecordLayout
