import RecordLayout.Layout.Definition
import RecordLayout.Proofs.Layout.Outcome

/-!
# What queries are put together from

All that is asked of a layout is put together from looking names up, measuring schemas, and going on
behind fields.  A property of computations that goes from the parts to the whole holds of every
query, if it holds of these.

## Main definitions

* `Build.Composes`: a property that goes from the parts of a computation to the whole.
* `Layout.Pervasive`: such a property that holds of what queries are put together from.

## Main results

* `Layout.Pervasive.format`, `Layout.Pervasive.parse`, `Layout.Pervasive.errors`,
  `Layout.Pervasive.validate`, …: it holds of the queries.
-/

namespace RecordLayout

namespace Build

variable {P : ∀ {α : Type}, Build α → Prop} {α β : Type}

/-- A property of computations that goes from the parts to the whole. -/
structure Composes (P : ∀ {α : Type}, Build α → Prop) : Prop where
  done : ∀ {α : Type} (a : α), P (pure a : Build α)
  failed : ∀ {α : Type} (e : Error), P (throw e : Build α)
  schema : ∀ s, P (Build.schema s)
  bind : ∀ {α β : Type} {x : Build α} {f : α → Build β}, P x → (∀ a, P (f a)) → P (x >>= f)
  attempt : ∀ {α : Type} {x : Build α}, P x → P (Build.attempt x)
  /-- A computation that is in each layout one with the property has it. -/
  of_eq : ∀ {α : Type} {x : Build α}, (∀ L, ∃ y : Build α, x L = y L ∧ P y) → P x

namespace Composes

variable (h : Composes P)

include h

theorem map {x : Build α} (hx : P x) (f : α → β) : P (f <$> x) :=
  h.of_eq fun _ => ⟨x >>= fun a => pure (f a), rfl, h.bind hx fun a => h.done (f a)⟩

theorem ofExcept (r : Except Error α) : P (Build.ofExcept r) := by
  cases r with
  | ok a => exact h.done a
  | error e => exact h.failed e

theorem foldlM {f : β → α → Build β} (hf : ∀ b a, P (f b a)) (l : List α) (b : β) :
    P (l.foldlM f b) := by
  induction l generalizing b with
  | nil => exact h.done b
  | cons a l ih =>
    rw [List.foldlM_cons]
    exact h.bind (hf b a) ih

theorem forM {f : α → Build Unit} (hf : ∀ a, P (f a)) (l : List α) : P (l.forM f) := by
  induction l with
  | nil => exact h.done ()
  | cons a l ih => exact h.bind (hf a) fun _ => ih

end Composes

end Build

namespace Layout

open Build

/-! ### One step of a walk -/

theorem formatWithin_succ (room : Nat) (path : List SchemaId) (s : SchemaId) (record : Record)
    (L : Layout) :
    formatWithin (room + 1) path s record L =
      if s ∈ path then .error (.cycle (L.schema s).name) L
      else ((L.schema s).fields.foldlM (fun line key =>
        (line ++ ·) <$> formatField (formatWithin room (s :: path)) record s key) []) L := rfl

theorem parseWithin_succ (line : Text) (room : Nat) (path : List SchemaId) (s : SchemaId)
    (start : UInt64) (L : Layout) :
    parseWithin line (room + 1) path s start L =
      if s ∈ path then .error (.cycle (L.schema s).name) L
      else (Reading.finish <$> (L.schema s).fields.foldlM
        (parseField (parseWithin line room (s :: path)) (widthWithin room (s :: path)) line s)
        (Reading.start start)) L := rfl

theorem errorsWithin_succ (room : Nat) (path : List SchemaId) (s : SchemaId) (L : Layout) :
    errorsWithin (room + 1) path s L =
      if s ∈ path then .ok [.cycle (L.schema s).name] L
      else ((L.schema s).fields.foldlM (fieldErrors (errorsWithin room (s :: path)) s) []) L := rfl

/-- A property that goes from the parts of a computation to the whole, and holds of what queries are
put together from. -/
structure Pervasive (P : ∀ {α : Type}, Build α → Prop) : Prop extends Build.Composes P where
  field : ∀ s key, P (field s key)
  visibleSchema : ∀ s name, P (visibleSchema s name)
  widthWithin : ∀ room path s, P (widthWithin room path s)
  fieldErrors : ∀ {descend : SchemaId → Build (List Error)}, (∀ t, P (descend t)) →
    ∀ s found key, P (fieldErrors descend s found key)

namespace Pervasive

variable {P : ∀ {α : Type}, Build α → Prop} (h : Pervasive P)

include h

theorem width (s : SchemaId) : P (width s) := h.widthWithin maxDepth [] s

theorem matchesLine (s : SchemaId) (line : Text) : P (matchesLine s line) := by
  refine h.bind (h.attempt (h.width s)) fun res => ?_
  cases res with
  | error e => exact h.done _
  | ok total => exact h.bind (h.schema s) fun _ => h.done _

/-! ### Reading and writing -/

theorem formatField {descend : SchemaId → Record → Build Text}
    (hdescend : ∀ t record, P (descend t record)) (record : Record) (s : SchemaId) (key : Text) :
    P (formatField descend record s key) := by
  refine h.bind (h.field s key) fun f => ?_
  have hinner (key : Text) (t : SchemaId) : P (do
      let node ← Build.schema s
      let inner ← Build.ofExcept (nestedRecord node.name record key)
      descend t inner) :=
    h.bind (h.schema s) fun _ => h.bind (h.ofExcept _) fun _ => hdescend t _
  cases f with
  | column c => exact h.bind (h.schema s) fun _ => h.bind (h.ofExcept _) fun _ => h.ofExcept _
  | nested key t => exact hinner key t
  | reference key t => exact hinner key t

theorem formatWithin (room : Nat) (path : List SchemaId) (s : SchemaId) (record : Record) :
    P (formatWithin room path s record) := by
  induction room generalizing path s record with
  | zero => exact h.of_eq fun L => ⟨throw (L.blocked path s), rfl, h.failed _⟩
  | succ room ih =>
    refine h.of_eq fun L => ?_
    by_cases hs : s ∈ path
    · exact ⟨throw (.cycle (L.schema s).name), (formatWithin_succ ..).trans (if_pos hs), h.failed _⟩
    · exact ⟨_, (formatWithin_succ ..).trans (if_neg hs), h.foldlM
        (fun _ key => h.map (h.formatField (ih (s :: path)) record s key) _) _ _⟩

theorem format (s : SchemaId) (record : Record) : P (format s record) := by
  refine h.bind (h.formatWithin maxDepth [] s record) fun line => ?_
  refine h.bind (h.width s) fun total => ?_
  split
  · exact h.done _
  · exact h.bind (h.schema s) fun _ => h.failed _

theorem parseField {descend : SchemaId → UInt64 → Build Record} {measure : SchemaId → Build UInt64}
    (hdescend : ∀ t start, P (descend t start)) (hmeasure : ∀ t, P (measure t)) (line : Text)
    (s : SchemaId) (reading : Reading) (key : Text) :
    P (parseField descend measure line s reading key) := by
  refine h.bind (h.field s key) fun f => ?_
  cases f with
  | column c =>
    dsimp only
    split
    · exact h.done _
    · exact h.bind (h.ofExcept _) fun _ => h.done _
  | nested key t => exact h.bind (hdescend t _) fun _ => h.bind (hmeasure t) fun _ => h.done _
  | reference key t => exact h.bind (hdescend t _) fun _ => h.bind (hmeasure t) fun _ => h.done _

theorem parseWithin (line : Text) (room : Nat) (path : List SchemaId) (s : SchemaId)
    (start : UInt64) : P (parseWithin line room path s start) := by
  induction room generalizing path s start with
  | zero => exact h.of_eq fun L => ⟨throw (L.blocked path s), rfl, h.failed _⟩
  | succ room ih =>
    refine h.of_eq fun L => ?_
    by_cases hs : s ∈ path
    · exact ⟨throw (.cycle (L.schema s).name), (parseWithin_succ ..).trans (if_pos hs), h.failed _⟩
    · exact ⟨_, (parseWithin_succ ..).trans (if_neg hs), h.map (h.foldlM
        (h.parseField (ih (s :: path)) (h.widthWithin room (s :: path)) line s) _ _) _⟩

theorem parse (s : SchemaId) (line : Text) (start : UInt64) : P (parse s line start) :=
  h.parseWithin line maxDepth [] s start

/-! ### Checking -/

theorem errorsWithin (room : Nat) (path : List SchemaId) (s : SchemaId) :
    P (errorsWithin room path s) := by
  induction room generalizing path s with
  | zero => exact h.of_eq fun L => ⟨pure [L.blocked path s], rfl, h.done _⟩
  | succ room ih =>
    refine h.of_eq fun L => ?_
    by_cases hs : s ∈ path
    · exact ⟨pure [.cycle (L.schema s).name], (errorsWithin_succ ..).trans (if_pos hs), h.done _⟩
    · exact ⟨_, (errorsWithin_succ ..).trans (if_neg hs),
        h.foldlM (h.fieldErrors (ih (s :: path)) s) _ _⟩

theorem errors (s : SchemaId) : P (errors s) := h.map (h.errorsWithin maxDepth [] s) _

theorem validate (s : SchemaId) : P (validate s) := by
  refine h.bind (h.errors s) fun found => ?_
  split
  · exact h.failed _
  · exact h.map (h.width s) _

/-! ### Definitions -/

theorem definitionSchemas (c : CatalogId) : P (definitionSchemas c) :=
  h.of_eq fun L => ⟨pure (L.catalog c).schemas, rfl, h.done _⟩

theorem definitionErrors (c : CatalogId) : P (definitionErrors c) :=
  h.bind (h.definitionSchemas c) fun schemas =>
    h.bind (h.foldlM (fun _ s => h.map (h.errors s) _) schemas []) fun _ => h.done _

theorem validateDefinition (c : CatalogId) : P (validateDefinition c) := by
  refine h.bind (h.definitionErrors c) fun found => ?_
  split
  · exact h.failed _
  · exact h.bind (h.definitionSchemas c) fun schemas => h.forM h.validate schemas

theorem firstMatch (line : Text) (schemas : List SchemaId) : P (firstMatch line schemas) := by
  induction schemas with
  | nil => exact h.done _
  | cons s rest ih =>
    refine h.bind (h.matchesLine s line) fun fits => ?_
    split
    · exact h.done _
    · exact ih

theorem schemaOfLine (c : CatalogId) (line : Text) : P (schemaOfLine c line) := by
  refine h.bind (h.definitionSchemas c) fun schemas => ?_
  refine h.bind (h.firstMatch line schemas) fun found => ?_
  cases found with
  | some s => exact h.done s
  | none => exact h.of_eq fun L => ⟨throw (.noMatch (L.catalog c).name), rfl, h.failed _⟩

theorem recordOfLine (c : CatalogId) (line : Text) : P (recordOfLine c line) :=
  h.bind (h.schemaOfLine c line) fun s => h.bind (h.parse s line 0) fun _ => h.done _

end Pervasive

end Layout

end RecordLayout
