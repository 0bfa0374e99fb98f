import RecordLayout.Listing

/-!
# Maps from names

A finite map from texts to values, listed by name in byte order.  The order is part of the type, so
two maps with the same content are the same list.

## Main definitions

* `NameMap`: the entries, sorted by name, each name once.
* `NameMap.find?`, `NameMap.insert`, `NameMap.erase`.
* `NameMap.agrees`: equality of two maps up to a comparison of their values.
-/

namespace RecordLayout

/-- A finite map from texts to `α`. -/
structure NameMap (α : Type) where
  /-- The names and their values, in byte order of the names. -/
  entries : List (Text × α)
  /-- Every name comes before the ones after it, so no name comes twice. -/
  sorted : entries.Pairwise fun a b => a.1 < b.1

namespace NameMap

variable {α : Type}

/-- The map without entries. -/
def empty : NameMap α := ⟨[], List.Pairwise.nil⟩

instance : Inhabited (NameMap α) := ⟨empty⟩

/-- Whether a map has no entries. -/
def isEmpty (m : NameMap α) : Bool := m.entries.isEmpty

/-- The number of entries. -/
def size (m : NameMap α) : Nat := m.entries.length

/-- The names of a map in byte order. -/
def names (m : NameMap α) : List Text := m.entries.map (·.1)

/-- The value of a name. -/
def find? (m : NameMap α) (name : Text) : Option α := Listing.find? m.entries name

/-- Whether a map has a value for a name. -/
def contains (m : NameMap α) (name : Text) : Bool := (m.find? name).isSome

/-! ### Insertion -/

/-- The entries with one more at its place; an entry of that name is replaced. -/
def insertEntry (name : Text) (value : α) : List (Text × α) → List (Text × α)
  | [] => [(name, value)]
  | e :: rest =>
    if name < e.1 then (name, value) :: e :: rest
    else if e.1 < name then e :: insertEntry name value rest
    else (name, value) :: rest

theorem mem_insertEntry {name : Text} {value : α} {x : Text × α} {l : List (Text × α)}
    (h : x ∈ insertEntry name value l) : x = (name, value) ∨ x ∈ l := by
  induction l with
  | nil => simpa [insertEntry] using h
  | cons e rest ih =>
    unfold insertEntry at h
    split at h
    · simpa using h
    · split at h <;> grind

theorem sorted_insertEntry {name : Text} {value : α} {l : List (Text × α)}
    (h : l.Pairwise fun a b => a.1 < b.1) :
    (insertEntry name value l).Pairwise fun a b => a.1 < b.1 := by
  induction l with
  | nil => simp [insertEntry]
  | cons e rest ih =>
    obtain ⟨hhead, htail⟩ := List.pairwise_cons.1 h
    unfold insertEntry
    split
    · rename_i hlt
      refine List.pairwise_cons.2 ⟨fun x hx => ?_, h⟩
      rcases List.mem_cons.1 hx with rfl | hx
      · exact hlt
      · exact List.lt_trans hlt (hhead x hx)
    · split
      · rename_i hgt
        refine List.pairwise_cons.2 ⟨fun x hx => ?_, ih htail⟩
        rcases mem_insertEntry hx with rfl | hx
        · exact hgt
        · exact hhead x hx
      · rename_i hge hle
        have heq : name = e.1 := by
          rcases Std.lt_trichotomy name e.1 with h | h | h
          · exact absurd h hge
          · exact h
          · exact absurd h hle
        exact List.pairwise_cons.2 ⟨fun x hx => heq ▸ hhead x hx, htail⟩

/-- The map with a value for a name, in place of the one it had. -/
def insert (m : NameMap α) (name : Text) (value : α) : NameMap α :=
  ⟨insertEntry name value m.entries, sorted_insertEntry m.sorted⟩

/-- The map without a name. -/
def erase (m : NameMap α) (name : Text) : NameMap α :=
  ⟨m.entries.filter fun e => e.1 != name, m.sorted.filter _⟩

/-- The map that a list of pairs builds up; of two pairs with one name the later counts. -/
def ofList (l : List (Text × α)) : NameMap α :=
  l.foldl (fun m e => m.insert e.1 e.2) empty

/-- The map with every value replaced by its image. -/
def map {β : Type} (f : α → β) (m : NameMap α) : NameMap β :=
  ⟨m.entries.map fun e => (e.1, f e.2), by
    simpa only [List.pairwise_map] using m.sorted⟩

/-- The values that `f` keeps, under their names. -/
def filterMap {β : Type} (f : α → Option β) (m : NameMap α) : NameMap β :=
  ⟨m.entries.filterMap fun e => (f e.2).map (e.1, ·), by
    refine List.Pairwise.filterMap _ (fun a b hab x hx y hy => ?_) m.sorted
    obtain ⟨_, _, rfl⟩ := Option.map_eq_some_iff.1 hx
    obtain ⟨_, _, rfl⟩ := Option.map_eq_some_iff.1 hy
    exact hab⟩

/-! ### Reading a map -/

@[simp] theorem find?_empty (name : Text) : (empty : NameMap α).find? name = none := rfl

theorem find?_insertEntry (name key : Text) (value : α) (l : List (Text × α)) :
    Listing.find? (insertEntry name value l) key
      = if key = name then some value else Listing.find? l key := by
  induction l with
  | nil => simp [insertEntry, Listing.find?, eq_comm]
  | cons e rest ih =>
    have hirr := List.lt_irrefl name
    have htri := Std.lt_trichotomy name e.1
    grind [insertEntry, Listing.find?]

theorem find?_insert (m : NameMap α) (name key : Text) (value : α) :
    (m.insert name value).find? key = if key = name then some value else m.find? key :=
  find?_insertEntry name key value m.entries

@[simp] theorem find?_insert_self (m : NameMap α) (name : Text) (value : α) :
    (m.insert name value).find? name = some value := by
  simp [find?_insert]

/-- Two maps agree when they have the same names and `same` holds of the two values of each. -/
def agrees (same : α → α → Bool) (m n : NameMap α) : Bool :=
  agreesOn m.entries n.entries
where
  /-- Agreement of two lists of entries, place by place. -/
  agreesOn : List (Text × α) → List (Text × α) → Bool
    | [], [] => true
    | a :: l, b :: r => a.1 == b.1 && same a.2 b.2 && agreesOn l r
    | _, _ => false

end NameMap

end RecordLayout
