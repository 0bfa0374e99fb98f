import RecordLayout.Options.Spec

/-!
# Option tables

An option table holds the values of an owner's options.  Each value remembers where it is from: the
default of its declaration, another table or option set, or the owner itself.

Values are taken over from elsewhere one by one, in byte order of their names.  The first one that
is refused ends the merge, and the ones before it stay.

## Main definitions

* `Origin`, `Slot`, `OptionTable`.
* `OptionSchema.createTable`: the table of the options that are given.
* `OptionTable.get`, `OptionTable.read`, `OptionTable.isDefined`, `OptionTable.origin?`.
* `OptionTable.set`: a value set by the owner.
* `OptionTable.takeOver`, `OptionTable.takeOverAll`: values taken over.
* `OptionTable.merge`, `OptionTable.mergeValues`: values taken over from a table or an option set.
-/

namespace RecordLayout

/-- Where the value of an option is from. -/
inductive Origin
  /-- The default of the declaration. -/
  | default
  /-- Another table or option set. -/
  | inherited
  /-- The owner itself. -/
  | explicit
  deriving DecidableEq, Repr

/-- The value of an option and where it is from. -/
structure Slot where
  /-- The value. -/
  value : Value
  /-- Where it is from. -/
  origin : Origin

/-- Slots are equal when their values and origins are. -/
def Slot.equal (a b : Slot) : Bool := a.value.equal b.value && a.origin == b.origin

/-- The values of an owner's options. -/
structure OptionTable where
  /-- The options that there can be. -/
  schema : OptionSchema
  /-- The options that there are. -/
  slots : NameMap Slot

/-- Which value counts when both sides of a merge have one. -/
inductive Preference
  /-- The table's own value stays. -/
  | self
  /-- The value from elsewhere is taken over. -/
  | other
  deriving DecidableEq, Repr

/-- Whether a default counts as a value in a merge. -/
inductive Missing
  /-- A default counts as no value. -/
  | undefined
  /-- A default counts as a value. -/
  | defined
  deriving DecidableEq, Repr

/-- How two sides of a merge are weighed. -/
structure MergePolicy where
  /-- Which side's value counts. -/
  prefer : Preference := .self
  /-- What defaults count as. -/
  missing : Missing := .undefined
  deriving DecidableEq, Repr

/-- Whether a value of an origin counts in a merge. -/
def MergePolicy.counts (policy : MergePolicy) (origin : Origin) : Bool :=
  origin != .default || policy.missing == .defined

namespace OptionSchema

/-- The slots with a given option in them.  Nothing given is no value. -/
def place (s : OptionSchema) (slots : NameMap Slot) (option : Text × Value) :
    Except Error (NameMap Slot) :=
  match s.find? option.1 with
  | some spec =>
    if option.2.isNull then .ok slots
    else (s.normalize spec option.2).map fun value => slots.insert option.1 ⟨value, .explicit⟩
  | Option.none => .error (.unknownOption option.1 s.owner)

/-- The slots with the default of a declaration in them, unless there is a value. -/
def fill (s : OptionSchema) (slots : NameMap Slot) (spec : OptionSpec) :
    Except Error (NameMap Slot) :=
  if slots.contains spec.name then .ok slots
  else if spec.required then .error (.missingOption spec.name s.owner)
  else match spec.default? with
    | some value => .ok (slots.insert spec.name ⟨value, .default⟩)
    | Option.none => .ok slots

/-- The table of the given options: the given values first, then the defaults of the others. -/
def createTable (s : OptionSchema) (provided : OptionMap) : Except Error OptionTable := do
  let given ← provided.entries.foldlM s.place NameMap.empty
  let slots ← s.specs.foldlM s.fill given
  return ⟨s, slots⟩

end OptionSchema

namespace OptionTable

/-- The table without a schema and without values. -/
def empty : OptionTable := ⟨.none, .empty⟩

instance : Inhabited OptionTable := ⟨empty⟩

/-- The table under another schema: an option schema may be extended after a table was made. -/
def withSchema (t : OptionTable) (schema : OptionSchema) : OptionTable := { t with schema }

/-! ### Reading -/

/-- The value of an option, or nothing. -/
def get (t : OptionTable) (name : Text) : Value :=
  match t.slots.find? name with
  | some slot => slot.value
  | none => .null

/-- Where the value of an option is from. -/
def origin? (t : OptionTable) (name : Text) : Option Origin := (t.slots.find? name).map (·.origin)

/-- Whether an option has a value other than a default. -/
def isDefined (t : OptionTable) (name : Text) : Bool := (t.origin? name).any (· != .default)

/-- The value of a readable option. -/
def read (t : OptionTable) (name : Text) : Except Error Value :=
  if (t.schema.find? name).any (·.readable) then .ok (t.get name)
  else .error (.unreadableOption name)

/-- The values other than defaults. -/
def defined (t : OptionTable) : OptionMap :=
  t.slots.filterMap fun slot => if slot.origin = .default then none else some slot.value

/-- Equality of tables: one schema, and equal slots. -/
def equal (t u : OptionTable) : Bool :=
  t.schema.serial == u.schema.serial && NameMap.agrees Slot.equal t.slots u.slots

/-! ### Changing -/

/-- The table with a value in a slot. -/
def store (t : OptionTable) (name : Text) (slot : Slot) : OptionTable :=
  { t with slots := t.slots.insert name slot }

/-- The table with a value that the owner sets; an option that has one other than a default is
only set if it is to be overwritten. -/
def set (t : OptionTable) (name : Text) (value : Value) (overwrite : Bool := true) :
    Except Error OptionTable :=
  match t.schema.find? name with
  | some spec =>
    if !spec.writable then .error (.unwritableOption name)
    else if !overwrite && t.isDefined name then .ok t
    else (t.schema.normalize spec value).map fun value => t.store spec.name ⟨value, .explicit⟩
  | none => .error (.unwritableOption name)

/-- Whether the table keeps its own value of an option when `value` could be taken over: it has one
that counts, and it prefers its own or the two are equal. -/
def keeps (t : OptionTable) (policy : MergePolicy) (name : Text) (value : Value) : Bool :=
  match t.slots.find? name with
  | some slot =>
    policy.counts slot.origin && (policy.prefer == .self || slot.value.equal value)
  | none => false

/-- The table with the value of one option taken over.  Options that are not declared or not
inheritable are left out. -/
def takeOver (t : OptionTable) (policy : MergePolicy) (name : Text) (value : Value) :
    Except Error OptionTable :=
  match t.schema.find? name with
  | some spec =>
    if !spec.inheritable || t.keeps policy name value then .ok t
    else (t.schema.normalize spec value).map fun value => t.store spec.name ⟨value, .inherited⟩
  | none => .ok t

/-- The table with values taken over one after the other, and the error that ended this, if one
did; what was taken over before it stays. -/
def takeOverAll (policy : MergePolicy) :
    OptionTable → List (Text × Value) → OptionTable × Option Error
  | t, [] => (t, none)
  | t, (name, value) :: rest =>
    match t.takeOver policy name value with
    | .ok u => takeOverAll policy u rest
    | .error e => (t, some e)

@[simp] theorem takeOverAll_nil (policy : MergePolicy) (t : OptionTable) :
    takeOverAll policy t [] = (t, none) := rfl

theorem takeOverAll_cons (policy : MergePolicy) (t : OptionTable) (name : Text) (value : Value)
    (rest : List (Text × Value)) :
    takeOverAll policy t ((name, value) :: rest)
      = match t.takeOver policy name value with
        | .ok u => takeOverAll policy u rest
        | .error e => (t, some e) := rfl

/-- The values that a table offers to others in a merge. -/
def offered (t : OptionTable) (policy : MergePolicy) : List (Text × Value) :=
  t.slots.entries.filterMap fun (name, slot) =>
    if policy.counts slot.origin && !slot.value.isNull then some (name, slot.value) else none

/-- The table with the values of another taken over. -/
def merge (t u : OptionTable) (policy : MergePolicy := {}) : OptionTable × Option Error :=
  takeOverAll policy t (u.offered policy)

/-- The table with the values of an option set taken over. -/
def mergeValues (t : OptionTable) (options : OptionMap) (policy : MergePolicy := {}) :
    OptionTable × Option Error :=
  takeOverAll policy t (options.entries.filter fun e => !e.2.isNull)

end OptionTable

end RecordLayout
