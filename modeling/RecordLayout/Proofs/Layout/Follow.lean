import RecordLayout.Proofs.Layout.Sight

/-!
# Layouts that go on from one another

Reading a layout changes it: options travel, references get their targets, and widths are noted.
All of this leaves the fields where they are, and a reference gets no target but the one that its
name stood for before.  So names stand for the same as they did.

## Main definitions

* `Codec.SameSlot`: codecs that differ in how they read and write at most.
* `Field.Follows`, `Layout.EntryFollows`: a field that goes on from another.
* `Layout.Follows`: a layout that goes on from another, with targets found in schemas before some
  place only.

## Main results

* `Layout.Follows.target_eq`: **references keep their targets**.
* `Layout.Follows.trans`, `Layout.Follows.coherent`.
-/

namespace RecordLayout

/-- Codecs that differ in how they read and write at most. -/
structure Codec.SameSlot (c d : Codec) : Prop where
  name : d.name = c.name
  width : d.width = c.width
  group : d.group = c.group
  isFiller : d.isFiller = c.isFiller

theorem Codec.SameSlot.refl (c : Codec) : c.SameSlot c := ⟨rfl, rfl, rfl, rfl⟩

theorem Codec.SameSlot.trans {c d e : Codec} (hcd : c.SameSlot d) (hde : d.SameSlot e) :
    c.SameSlot e where
  name := hde.name.trans hcd.name
  width := hde.width.trans hcd.width
  group := hde.group.trans hcd.group
  isFiller := hde.isFiller.trans hcd.isFiller

/-- Codecs that take options over keep their slots. -/
theorem Codec.sameSlot_takeOver (c : Codec) (options : OptionMap) :
    c.SameSlot (c.takeOver options).1 := by
  cases c <;> exact ⟨rfl, rfl, rfl, rfl⟩

/-- A field that goes on from another: a leaf with the same slot, or the same schema. -/
inductive Field.Follows : Field → Field → Prop
  | column {c d : Codec} (h : c.SameSlot d) : Follows (.column c) (.column d)
  | nested (key : Text) (t : SchemaId) : Follows (.nested key t) (.nested key t)
  | reference (key : Text) (t : SchemaId) : Follows (.reference key t) (.reference key t)

theorem Field.Follows.refl (f : Field) : f.Follows f := by
  cases f with
  | column c => exact .column (.refl c)
  | nested key t => exact .nested key t
  | reference key t => exact .reference key t

theorem Field.Follows.key {f g : Field} (h : f.Follows g) : g.key = f.key := by
  cases h with
  | column h => exact h.name
  | nested | reference => rfl

theorem Field.Follows.schema {f g : Field} (h : f.Follows g) : g.schema? = f.schema? := by
  cases h <;> rfl

namespace Layout

/-- A reference that goes on from another of a schema `s`: it keeps its target, and if it gets one,
it is the one that the name stood for, and `s` is before `r`. -/
structure ReferenceFollows (r : Nat) (L : Layout) (s : SchemaId) (p q : Reference) : Prop where
  schemaName : q.schemaName = p.schemaName
  storeName : q.storeName = p.storeName
  options : q.options = p.options
  kept : ∀ t, p.target? = some t → q.target? = some t
  found : p.target? = none → ∀ t, q.target? = some t → s < r ∧ L.target s p = .ok t

/-- A field of a schema `s` that goes on from another. -/
inductive EntryFollows (r : Nat) (L : Layout) (s : SchemaId) : Entry → Entry → Prop
  | column {c d : Codec} (h : c.SameSlot d) : EntryFollows r L s (.column c) (.column d)
  | nested (t : SchemaId) : EntryFollows r L s (.nested t) (.nested t)
  | reference {p q : Reference} (h : ReferenceFollows r L s p q) :
      EntryFollows r L s (.reference p) (.reference q)

/-- A schema that goes on from another but for its entries and options. -/
structure SchemaFollows (a b : Schema) : Prop where
  name : b.name = a.name
  ancestors : b.ancestors = a.ancestors
  catalog : b.catalog? = a.catalog?
  condition : b.condition? = a.condition?
  fields : b.fields = a.fields
  groups : b.groups = a.groups
  busy : b.busy = a.busy

/-- A layout that goes on from another, with targets found in the schemas before `r` at most. -/
structure Follows (r : Nat) (L M : Layout) : Prop where
  length : M.schemas.length = L.schemas.length
  generation : M.generation = L.generation
  catalogs : M.catalogs = L.catalogs
  schema : ∀ s, SchemaFollows (L.schema s) (M.schema s)
  entry : ∀ s key, Option.Rel (EntryFollows r L s) ((L.schema s).find? key)
    ((M.schema s).find? key)

theorem ReferenceFollows.refl (r : Nat) (L : Layout) (s : SchemaId) (p : Reference) :
    ReferenceFollows r L s p p := by
  refine ⟨rfl, rfl, rfl, fun t h => h, fun hnone t h => ?_⟩
  rw [hnone] at h
  exact absurd h (by simp)

theorem EntryFollows.refl (r : Nat) (L : Layout) (s : SchemaId) (e : Entry) :
    EntryFollows r L s e e := by
  cases e with
  | column c => exact .column (.refl c)
  | nested t => exact .nested t
  | reference p => exact .reference (.refl r L s p)

theorem SchemaFollows.refl (a : Schema) : SchemaFollows a a := ⟨rfl, rfl, rfl, rfl, rfl, rfl, rfl⟩

theorem SchemaFollows.trans {a b c : Schema} (hab : SchemaFollows a b) (hbc : SchemaFollows b c) :
    SchemaFollows a c where
  name := hbc.name.trans hab.name
  ancestors := hbc.ancestors.trans hab.ancestors
  catalog := hbc.catalog.trans hab.catalog
  condition := hbc.condition.trans hab.condition
  fields := hbc.fields.trans hab.fields
  groups := hbc.groups.trans hab.groups
  busy := hbc.busy.trans hab.busy

namespace Follows

variable {r : Nat} {L M N : Layout}

theorem refl (r : Nat) (L : Layout) : Follows r L L := by
  refine ⟨rfl, rfl, rfl, fun s => .refl _, fun s key => ?_⟩
  cases (L.schema s).find? key with
  | none => exact .none
  | some e => exact .some (.refl r L s e)

/-! ### Fields of the layout that goes on -/

theorem find_none (h : Follows r L M) {s : SchemaId} {key : Text}
    (hL : (L.schema s).find? key = none) : (M.schema s).find? key = none := by
  have hrel := h.entry s key
  rw [hL] at hrel
  generalize (M.schema s).find? key = found at hrel
  cases hrel with
  | none => rfl

theorem find_some (h : Follows r L M) {s : SchemaId} {key : Text} {e : Entry}
    (hL : (L.schema s).find? key = some e) :
    ∃ e', (M.schema s).find? key = some e' ∧ EntryFollows r L s e e' := by
  have hrel := h.entry s key
  rw [hL] at hrel
  generalize (M.schema s).find? key = found at hrel
  cases hrel with
  | some hrel => exact ⟨_, rfl, hrel⟩

/-- A field of the layout that goes on goes on from a field. -/
theorem find_back (h : Follows r L M) {s : SchemaId} {key : Text} {e' : Entry}
    (hM : (M.schema s).find? key = some e') :
    ∃ e, (L.schema s).find? key = some e ∧ EntryFollows r L s e e' := by
  have hrel := h.entry s key
  rw [hM] at hrel
  generalize (L.schema s).find? key = found at hrel
  cases hrel with
  | some hrel => exact ⟨_, rfl, hrel⟩

theorem find_column (h : Follows r L M) {s : SchemaId} {key : Text} {c : Codec}
    (hL : (L.schema s).find? key = some (.column c)) :
    ∃ d, (M.schema s).find? key = some (.column d) ∧ c.SameSlot d := by
  obtain ⟨e, he, hfollows⟩ := h.find_some hL
  cases hfollows with
  | column hd => exact ⟨_, he, hd⟩

theorem find_nested (h : Follows r L M) {s : SchemaId} {key : Text} {t : SchemaId}
    (hL : (L.schema s).find? key = some (.nested t)) :
    (M.schema s).find? key = some (.nested t) := by
  obtain ⟨e, he, hfollows⟩ := h.find_some hL
  cases hfollows with
  | nested => exact he

theorem find_reference (h : Follows r L M) {s : SchemaId} {key : Text} {p : Reference}
    (hL : (L.schema s).find? key = some (.reference p)) :
    ∃ q, (M.schema s).find? key = some (.reference q) ∧ ReferenceFollows r L s p q := by
  obtain ⟨e, he, hfollows⟩ := h.find_some hL
  cases hfollows with
  | reference hq => exact ⟨_, he, hq⟩

theorem column_back (h : Follows r L M) {s : SchemaId} {key : Text} {d : Codec}
    (hM : (M.schema s).find? key = some (.column d)) :
    ∃ c, (L.schema s).find? key = some (.column c) := by
  obtain ⟨e, he, hfollows⟩ := h.find_back hM
  cases hfollows with
  | column => exact ⟨_, he⟩

/-- A reference without a target had none before. -/
theorem reference_back (h : Follows r L M) {s : SchemaId} {key : Text} {q : Reference}
    (hM : (M.schema s).find? key = some (.reference q)) (hnone : q.target? = none) :
    ∃ p, (L.schema s).find? key = some (.reference p) ∧ p.target? = none := by
  obtain ⟨e, he, hfollows⟩ := h.find_back hM
  cases hfollows with
  | @reference p _ hq =>
    refine ⟨p, he, Option.eq_none_iff_forall_not_mem.mpr fun t ht => ?_⟩
    exact absurd ((hq.kept t ht).symm.trans hnone) (by simp)

/-! ### Names stand for the same -/

theorem listedFor_eq (h : Follows r L M) (s : SchemaId) (missing : Error) (name : Text) :
    M.listedFor s missing name = L.listedFor s missing name := by
  unfold listedFor catalog
  rw [(h.schema s).catalog, h.catalogs]

/-- A reference that has just got the target of its name stands for the same as before. -/
theorem standsFor_eq (h : Follows r L M) {s : SchemaId} {p q : Reference}
    (hq : ReferenceFollows r L s p q) {before now : Text → Except Error SchemaId}
    (hnow : now p.schemaName = before p.schemaName)
    (hbefore : before p.schemaName = L.seenAbove s p.schemaName) :
    M.standsFor now s q = L.standsFor before s p := by
  cases hp : p.target? with
  | some t => rw [standsFor_of_target hp, standsFor_of_target (hq.kept t hp)]
  | none =>
    have hsame : L.standsFor before s p = L.target s p := by
      unfold target standsFor
      rw [hp, hbefore]
    cases hqt : q.target? with
    | some t =>
      rw [standsFor_of_target hqt, hsame]
      exact (hq.found hp t hqt).2.symm
    | none =>
      unfold standsFor
      rw [hp, hqt, hq.schemaName, hq.storeName, hnow, (h.schema s).name]

theorem seenFrom_eq (h : Follows r L M) {s : SchemaId}
    {before now : Error → Text → Except Error SchemaId} (hnow : ∀ e n, now e n = before e n)
    (hbefore : ∀ n, before (.noParent (L.schema s).name) n = L.seenAbove s n) (name : Text) :
    M.seenFrom now s name = L.seenFrom before s name := by
  unfold seenFrom
  rw [(h.schema s).name]
  cases hfind : (L.schema s).find? name with
  | none =>
    rw [h.find_none hfind]
    exact hnow _ _
  | some e =>
    cases e with
    | column c =>
      obtain ⟨d, hd, -⟩ := h.find_column hfind
      rw [hd]
    | nested t => rw [h.find_nested hfind]
    | reference p =>
      obtain ⟨q, hq, hfollows⟩ := h.find_reference hfind
      rw [hq]
      exact h.standsFor_eq hfollows (hnow _ _) (hbefore _)

/-- A name stands for the same inside a schema as before. -/
theorem seenIn_eq (h : Follows r L M) (hL : L.Coherent) {s : SchemaId} {around : List SchemaId}
    (haround : (L.schema s).ancestors = around) (name : Text) :
    M.seenIn around s name = L.seenIn around s name := by
  induction around generalizing s name with
  | nil =>
    refine h.seenFrom_eq (fun e n => h.listedFor_eq s e n) (fun n => ?_) name
    unfold seenAbove
    rw [haround]
  | cons parent around ih =>
    have hparent := hL.ancestors_tail s parent around haround
    refine h.seenFrom_eq (fun _ n => ih hparent n) (fun n => ?_) name
    unfold seenAbove
    rw [haround]

theorem seenAbove_eq (h : Follows r L M) (hL : L.Coherent) (s : SchemaId) (name : Text) :
    M.seenAbove s name = L.seenAbove s name := by
  unfold seenAbove
  rw [(h.schema s).ancestors, (h.schema s).name]
  split
  · exact h.listedFor_eq s _ name
  · next parent around haround =>
    exact h.seenIn_eq hL (hL.ancestors_tail s parent around haround) name

/-- **References keep their targets.** -/
theorem target_eq (h : Follows r L M) (hL : L.Coherent) {s : SchemaId} {p q : Reference}
    (hq : ReferenceFollows r L s p q) : M.target s q = L.target s p :=
  h.standsFor_eq hq (h.seenAbove_eq hL s _) rfl

/-! ### One after the other -/

theorem trans_reference (h : Follows r L M) (hL : L.Coherent) {s : SchemaId}
    {p q u : Reference} (hpq : ReferenceFollows r L s p q) (hqu : ReferenceFollows r M s q u) :
    ReferenceFollows r L s p u := by
  refine ⟨hqu.schemaName.trans hpq.schemaName, hqu.storeName.trans hpq.storeName,
    hqu.options.trans hpq.options, fun t ht => hqu.kept t (hpq.kept t ht), fun hnone t ht => ?_⟩
  cases hq : q.target? with
  | some v =>
    obtain rfl : v = t := Option.some.inj ((hqu.kept v hq).symm.trans ht)
    exact hpq.found hnone v hq
  | none =>
    obtain ⟨hlt, htarget⟩ := hqu.found hq t ht
    exact ⟨hlt, (h.target_eq hL hpq).symm.trans htarget⟩

theorem trans (h : Follows r L M) (hL : L.Coherent) (h' : Follows r M N) : Follows r L N := by
  refine ⟨h'.length.trans h.length, h'.generation.trans h.generation,
    h'.catalogs.trans h.catalogs, fun s => (h.schema s).trans (h'.schema s), fun s key => ?_⟩
  cases hfind : (L.schema s).find? key with
  | none => rw [h'.find_none (h.find_none hfind)]; exact .none
  | some e =>
    cases e with
    | column c =>
      obtain ⟨d, hd, hcd⟩ := h.find_column hfind
      obtain ⟨e, he, hde⟩ := h'.find_column hd
      rw [he]
      exact .some (.column (hcd.trans hde))
    | nested t =>
      rw [h'.find_nested (h.find_nested hfind)]
      exact .some (.nested t)
    | reference p =>
      obtain ⟨q, hq, hpq⟩ := h.find_reference hfind
      obtain ⟨u, hu, hqu⟩ := h'.find_reference hq
      rw [hu]
      exact .some (.reference (h.trans_reference hL hpq hqu))

/-- What goes on from a coherent layout is coherent. -/
theorem coherent (h : Follows r L M) (hL : L.Coherent) : M.Coherent where
  ancestors_lt s p hp := hL.ancestors_lt s p ((h.schema s).ancestors ▸ hp)
  ancestors_tail s p around hs := by
    rw [(h.schema p).ancestors]
    exact hL.ancestors_tail s p around ((h.schema s).ancestors ▸ hs)
  nested_lt s key t ht := by
    rw [h.length]
    obtain ⟨e, he, hfollows⟩ := h.find_back ht
    cases hfollows with
    | nested => exact hL.nested_lt s key t he
  bound_lt s key ref t href ht := by
    rw [h.length]
    obtain ⟨e, he, hfollows⟩ := h.find_back href
    cases hfollows with
    | reference hq =>
      -- a target that is found on the way is the one that the reference had from the beginning
      exact hL.target_lt he ((h.target_eq hL hq).symm.trans (target_of_target ht M s))
  listed_lt c t ht := by
    rw [h.length]
    refine hL.listed_lt c t ?_
    unfold catalog at ht ⊢
    rw [h.catalogs] at ht
    exact ht

/-! ### Fields with their targets -/

/-- A field whose target has been found goes on with that target. -/
theorem known (h : Follows r L M) {s : SchemaId} {key : Text} {f : Field}
    (hf : L.known? s key = some f) : ∃ g, M.known? s key = some g ∧ f.Follows g := by
  rcases known_cases hf with ⟨c, hfind, rfl⟩ | ⟨t, hfind, rfl⟩ | ⟨p, t, hfind, ht, rfl⟩
  · obtain ⟨d, hd, hcd⟩ := h.find_column hfind
    exact ⟨.column d, known_of_column hd, .column hcd⟩
  · exact ⟨.nested key t, known_of_nested (h.find_nested hfind), .nested key t⟩
  · obtain ⟨q, hq, hpq⟩ := h.find_reference hfind
    rw [← hpq.storeName]
    exact ⟨_, known_of_reference hq (hpq.kept t ht), .reference _ t⟩

/-- What a key stands for is the same as before. -/
theorem fieldOf (h : Follows r L M) (hL : L.Coherent) (s : SchemaId) (key : Text) :
    (∃ f g, L.fieldOf s key = .ok f ∧ M.fieldOf s key = .ok g ∧ f.Follows g) ∨
      ∃ e, L.fieldOf s key = .error e ∧ M.fieldOf s key = .error e := by
  unfold Layout.fieldOf
  cases hfind : (L.schema s).find? key with
  | none =>
    rw [h.find_none hfind, (h.schema s).name]
    exact .inr ⟨_, rfl, rfl⟩
  | some e =>
    cases e with
    | column c =>
      obtain ⟨d, hd, hcd⟩ := h.find_column hfind
      rw [hd]
      exact .inl ⟨_, _, rfl, rfl, .column hcd⟩
    | nested t =>
      rw [h.find_nested hfind]
      exact .inl ⟨_, _, rfl, rfl, .nested key t⟩
    | reference p =>
      obtain ⟨q, hq, hpq⟩ := h.find_reference hfind
      rw [hq]
      dsimp only
      rw [h.target_eq hL hpq, hpq.storeName]
      cases L.target s p with
      | ok t => exact .inl ⟨_, _, rfl, rfl, .reference _ t⟩
      | error e => exact .inr ⟨e, rfl, rfl⟩

end Follows

end Layout

end RecordLayout
