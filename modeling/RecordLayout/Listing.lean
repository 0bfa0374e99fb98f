import RecordLayout.Text.Basic

/-!
# Named entries in order

A list of entries with names, in the order in which they were made.  The first entry of a name
answers for it, and a value set for a name that is there keeps its place.

## Main definitions

* `Listing`: a list of names with values.
* `Listing.find?`: the value of a name.
* `Listing.set`: the value of a name replaced where it is, or added at the end.
* `Listing.modify`: the value of a name changed where it is.
-/

namespace RecordLayout

/-- A list of names with values. -/
abbrev Listing (α : Type) := List (Text × α)

namespace Listing

variable {α : Type}

/-- The names in order. -/
def names (l : Listing α) : List Text := l.map (·.1)

/-- The value of the first entry of a name. -/
def find? (l : Listing α) (name : Text) : Option α :=
  match l with
  | [] => none
  | e :: rest => if e.1 = name then some e.2 else find? rest name

/-- The list in which `name` has `value`: at its first place, or at the end if it had none. -/
def set (l : Listing α) (name : Text) (value : α) : Listing α :=
  match l with
  | [] => [(name, value)]
  | e :: rest => if e.1 = name then (name, value) :: rest else e :: set rest name value

/-- The list with `f` applied to the value of the first entry of a name. -/
def modify (l : Listing α) (name : Text) (f : α → α) : Listing α :=
  match l with
  | [] => []
  | e :: rest => if e.1 = name then (e.1, f e.2) :: rest else e :: modify rest name f

@[simp] theorem find?_nil (name : Text) : find? ([] : Listing α) name = none := rfl

theorem find?_cons (e : Text × α) (l : Listing α) (name : Text) :
    find? (e :: l) name = if e.1 = name then some e.2 else find? l name := rfl

theorem find?_set (l : Listing α) (name key : Text) (value : α) :
    find? (set l name value) key = if key = name then some value else find? l key := by
  induction l with
  | nil => simp [set, find?, eq_comm]
  | cons e rest ih => grind [set, find?]

theorem find?_modify (l : Listing α) (name key : Text) (f : α → α) :
    find? (modify l name f) key = if key = name then (find? l key).map f else find? l key := by
  induction l with
  | nil => simp [modify]
  | cons e rest ih => grind [modify, find?]

theorem find?_append (l r : Listing α) (name : Text) :
    find? (l ++ r) name = (find? l name).or (find? r name) := by
  induction l with
  | nil => simp
  | cons e rest ih => grind [find?]

theorem find?_eq_none_iff (l : Listing α) (name : Text) :
    find? l name = none ↔ name ∉ names l := by
  induction l with
  | nil => simp [names]
  | cons e rest ih => grind [find?, names]

theorem mem_of_find? {l : Listing α} {name : Text} {value : α} (h : find? l name = some value) :
    (name, value) ∈ l := by
  induction l with
  | nil => simp at h
  | cons e rest ih => grind [find?]

theorem mem_names_of_find? {l : Listing α} {name : Text} {value : α}
    (h : find? l name = some value) : name ∈ names l :=
  List.mem_map.mpr ⟨(name, value), mem_of_find? h, rfl⟩

/-- Setting a name adds it at the end unless it is there. -/
theorem names_set (l : Listing α) (name : Text) (value : α) :
    names (set l name value) = if name ∈ names l then names l else names l ++ [name] := by
  induction l with
  | nil => simp [set, names]
  | cons e rest ih => grind [set, names]

@[simp] theorem names_modify (l : Listing α) (name : Text) (f : α → α) :
    names (modify l name f) = names l := by
  induction l with
  | nil => rfl
  | cons e rest ih => grind [modify, names]

/-- Where names are distinct, the entries are exactly what can be found. -/
theorem mem_iff_find? {l : Listing α} (h : (names l).Nodup) (name : Text) (value : α) :
    (name, value) ∈ l ↔ find? l name = some value := by
  refine ⟨fun hm => ?_, mem_of_find?⟩
  induction l with
  | nil => simp at hm
  | cons e rest ih =>
    simp only [names, List.map_cons, List.nodup_cons, List.mem_map, not_exists, not_and] at h
    grind [find?, names]

end Listing

end RecordLayout
