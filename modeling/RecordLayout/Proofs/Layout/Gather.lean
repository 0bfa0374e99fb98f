import Mathlib.Data.List.Perm.Basic
import RecordLayout.Layout.Parse
import RecordLayout.Value.Equality

/-!
# Records that are gathered

Reading goes through the fields in order and sets one value after the other.  As long as no key is
used twice, the record that comes out holds all of them: a value that stands for itself under its
key, and the values of a group, in their order, in a record under the name of the group.

## Main definitions

* `Label`, `Item`: where a value goes in a record, and a value with its place.
* `Label.keys`, `Label.namesIn`: the keys of a record with some places, and of its groups, in order.
* `Label.Distinct`: no place is used twice.
* `Record.HasLabels`: a record with exactly these places.
* `gather`: the record of some items.

## Main results

* `find?_gather`: **what a gathered record holds**.
* `keys_gather`: **the keys of a gathered record**, in order.
* `gather_equal`: a record with the same places and equal values is equal to the gathered one.
-/

namespace RecordLayout

/-- Where a value goes in a record. -/
inductive Label
  /-- Under a key. -/
  | field (key : Text)
  /-- Under a name in the record of a group. -/
  | member (group name : Text)
  deriving DecidableEq

/-- A value with its place in a record. -/
inductive Item
  /-- Under a key. -/
  | field (key : Text) (value : Value)
  /-- Under a name in the record of a group. -/
  | member (group name : Text) (value : Value)

namespace Label

/-- The key that the record itself has. -/
def key : Label → Text
  | field key => key
  | member group _ => group

/-- No place is used twice, and no group has the key of a field. -/
structure Distinct (labels : List Label) : Prop where
  nodup : labels.Nodup
  apart : ∀ key, field key ∈ labels → ∀ name, member key name ∉ labels

/-- The keys of a record in order, where some groups have theirs already: a group has its key where
its first member is. -/
def keysAfter (groups : List Text) : List Label → List Text
  | [] => []
  | field key :: labels => key :: keysAfter groups labels
  | member group _ :: labels =>
    if group ∈ groups then keysAfter groups labels
    else group :: keysAfter (groups ++ [group]) labels

/-- The keys of a record in order. -/
def keys (labels : List Label) : List Text := keysAfter [] labels

/-- The keys of the record of a group in order. -/
def namesIn (group : Text) (labels : List Label) : List Text :=
  labels.filterMap fun
    | member g name => if g = group then some name else none
    | field _ => none

theorem namesIn_member (group g name : Text) (labels : List Label) :
    namesIn group (member g name :: labels)
      = if g = group then name :: namesIn group labels else namesIn group labels := by
  split
  · next h => exact List.filterMap_cons_some (if_pos h)
  · next h => exact List.filterMap_cons_none (if_neg h)

theorem Distinct.of_sublist {l m : List Label} (h : Distinct m) (hsub : l.Sublist m) :
    Distinct l :=
  ⟨h.nodup.sublist hsub, fun key hkey name hname =>
    h.apart key (hsub.subset hkey) name (hsub.subset hname)⟩

end Label

namespace Item

/-- The place of the value. -/
def label : Item → Label
  | field key _ => .field key
  | member group name _ => .member group name

/-- The values of one group, in order. -/
def membersOf (group : Text) (items : List Item) : Record :=
  items.filterMap fun
    | member g name value => if g = group then some (name, value) else none
    | field _ _ => none

theorem membersOf_field (group key : Text) (value : Value) (items : List Item) :
    membersOf group (field key value :: items) = membersOf group items :=
  List.filterMap_cons_none rfl

theorem membersOf_member (group g name : Text) (value : Value) (items : List Item) :
    membersOf group (member g name value :: items)
      = if g = group then (name, value) :: membersOf group items else membersOf group items := by
  split
  · next h => exact List.filterMap_cons_some (if_pos h)
  · next h => exact List.filterMap_cons_none (if_neg h)

theorem mem_membersOf {group : Text} {items : List Item} {e : Text × Value} :
    e ∈ membersOf group items ↔ member group e.1 e.2 ∈ items := by
  unfold membersOf
  rw [List.mem_filterMap]
  constructor
  · rintro ⟨item, hitem, he⟩
    cases item with
    | field => exact absurd he (by simp)
    | member g name value =>
      dsimp only at he
      split at he
      · next hg => exact Option.some.inj he ▸ hg ▸ hitem
      · exact absurd he (by simp)
  · intro h
    exact ⟨_, h, if_pos rfl⟩

theorem membersOf_append (group : Text) (items more : List Item) :
    membersOf group (items ++ more) = membersOf group items ++ membersOf group more :=
  List.filterMap_append

theorem label_mem {item : Item} {items : List Item} (h : item ∈ items) :
    item.label ∈ items.map label := List.mem_map_of_mem h

theorem names_membersOf (group : Text) (items : List Item) :
    Listing.names (membersOf group items) = Label.namesIn group (items.map label) := by
  induction items with
  | nil => rfl
  | cons item items ih =>
    cases item with
    | field key value =>
      rw [membersOf_field, ih]
      exact (List.filterMap_cons_none rfl).symm
    | member g name value =>
      rw [membersOf_member, List.map_cons]
      show _ = Label.namesIn group (.member g name :: items.map label)
      rw [Label.namesIn_member]
      split
      · exact congrArg (name :: ·) ih
      · exact ih

theorem names_membersOf_nodup {items : List Item} (h : (items.map label).Nodup) (group : Text) :
    (Listing.names (membersOf group items)).Nodup := by
  induction items with
  | nil => exact List.nodup_nil
  | cons item items ih =>
    obtain ⟨hfresh, hrest⟩ := List.nodup_cons.mp h
    cases item with
    | field => exact ih hrest
    | member g name value =>
      rw [membersOf_member]
      split
      · next hg =>
        refine List.nodup_cons.mpr ⟨fun hmem => hfresh ?_, ih hrest⟩
        obtain ⟨e, he, hname⟩ := List.mem_map.mp hmem
        dsimp only at hname
        have hlabel := label_mem (mem_membersOf.mp he)
        rw [← hname, hg]
        exact hlabel
      · exact ih hrest

end Item

/-! ### Setting one value after the other -/

namespace Listing

variable {α : Type}

theorem set_of_not_mem {l : Listing α} {name : Text} (h : name ∉ names l) (value : α) :
    set l name value = l ++ [(name, value)] := by
  induction l with
  | nil => rfl
  | cons e rest ih =>
    obtain ⟨hne, hrest⟩ := not_or.mp (mt List.mem_cons.mpr h)
    unfold set
    rw [if_neg (Ne.symm hne), ih hrest]
    rfl

theorem nodup_names_set {l : Listing α} (h : (names l).Nodup) (name : Text) (value : α) :
    (names (set l name value)).Nodup := by
  rw [names_set]
  split
  · exact h
  · next hmem =>
    refine List.nodup_append.mpr ⟨h, by simp, fun a ha b hb => ?_⟩
    rintro rfl
    exact hmem (List.mem_singleton.mp hb ▸ ha)

theorem find?_eq_some_of_mem {l : Listing α} (h : (names l).Nodup) {e : Text × α} (he : e ∈ l) :
    find? l e.1 = some e.2 := (mem_iff_find? h e.1 e.2).mp he

theorem mem_names_iff {l : Listing α} {name : Text} :
    name ∈ names l ↔ ∃ value, find? l name = some value := by
  rw [← Option.isSome_iff_exists, Option.isSome_iff_ne_none, ne_eq, find?_eq_none_iff,
    Decidable.not_not]

end Listing

namespace Reading

/-- After one more value. -/
def add (r : Reading) : Item → Reading
  | .field key value => r.put key value
  | .member group name value => r.putInGroup group name value

/-- What has been read holds the values that were added. -/
structure Holds (items : List Item) (r : Reading) : Prop where
  record_nodup : (Listing.names r.record).Nodup
  groups_nodup : (Listing.names r.groups).Nodup
  record_iff : ∀ key v, Listing.find? r.record key = some v ↔
    .field key v ∈ items ∨ (v = .null ∧ Item.membersOf key items ≠ [])
  groups_eq : ∀ group, Listing.find? r.groups group =
    if Item.membersOf group items = [] then none else some (Item.membersOf group items)

theorem holds_start (cursor : UInt64) : (start cursor).Holds [] where
  record_nodup := List.nodup_nil
  groups_nodup := List.nodup_nil
  record_iff _ _ := by simp [start, Item.membersOf]
  groups_eq _ := rfl

/-- The place of a new value is not the place of one that was there. -/
theorem fresh_of_distinct {items : List Item} {item : Item}
    (hd : Label.Distinct ((items ++ [item]).map Item.label)) :
    item.label ∉ items.map Item.label := by
  intro hmem
  have hnodup := hd.nodup
  rw [List.map_append, List.nodup_append] at hnodup
  exact hnodup.2.2 _ hmem _ (by simp) rfl

/-- The key of a new field is not that of a field or a group that was there. -/
theorem fresh_field {items : List Item} {key : Text} {value : Value}
    (hd : Label.Distinct ((items ++ [Item.field key value]).map Item.label)) :
    (∀ v, Item.field key v ∉ items) ∧ Item.membersOf key items = [] := by
  have hlabel : Label.field key ∈ (items ++ [Item.field key value]).map Item.label :=
    @Item.label_mem (.field key value) _ (by simp)
  refine ⟨fun v hmem => fresh_of_distinct hd (@Item.label_mem (.field key v) _ hmem), ?_⟩
  refine List.eq_nil_iff_forall_not_mem.mpr fun e he => hd.apart key hlabel e.1 ?_
  exact @Item.label_mem (.member key e.1 e.2) _
    (List.mem_append_left _ (Item.mem_membersOf.mp he))

/-- The group of a new member has not the key of a field. -/
theorem fresh_group {items : List Item} {group name : Text} {value : Value}
    (hd : Label.Distinct ((items ++ [Item.member group name value]).map Item.label)) (v : Value) :
    Item.field group v ∉ items := fun hmem =>
  hd.apart group (Item.label_mem (List.mem_append_left _ hmem)) name
    (@Item.label_mem (.member group name value) _ (by simp))

theorem Holds.put {items : List Item} {r : Reading} (h : r.Holds items) {key : Text} {value : Value}
    (hd : Label.Distinct ((items ++ [Item.field key value]).map Item.label)) :
    (r.put key value).Holds (items ++ [Item.field key value]) := by
  have hmembers (group : Text) :
      Item.membersOf group (items ++ [Item.field key value]) = Item.membersOf group items := by
    rw [Item.membersOf_append, Item.membersOf_field]
    exact List.append_nil _
  obtain ⟨hfresh, hnone⟩ := fresh_field hd
  refine ⟨Listing.nodup_names_set h.record_nodup key value, h.groups_nodup, fun k v => ?_,
    fun group => ?_⟩
  · show Listing.find? (Listing.set r.record key value) k = some v ↔ _
    rw [Listing.find?_set, hmembers, List.mem_append, List.mem_singleton]
    split
    · next hk =>
      subst hk
      constructor
      · intro hv
        exact .inl (.inr (by rw [Option.some.inj hv]))
      · rintro ((hv | hv) | ⟨-, hv⟩)
        · exact absurd hv (hfresh v)
        · rw [(Item.field.inj hv).2]
        · exact absurd hnone hv
    · next hk =>
      rw [h.record_iff]
      have hne : Item.field k v ≠ .field key value := fun heq => hk (Item.field.inj heq).1
      simp only [hne, or_false]
  · rw [hmembers]
    exact h.groups_eq group

section Groups

variable {items : List Item} {r : Reading} {group name : Text} {value : Value}

theorem membersOf_concat (g : Text) :
    Item.membersOf g (items ++ [Item.member group name value])
      = Item.membersOf g items ++ if group = g then [(name, value)] else [] := by
  rw [Item.membersOf_append, Item.membersOf_member]
  rfl

theorem field_mem_concat_iff (k : Text) (v : Value) :
    Item.field k v ∈ items ++ [Item.member group name value] ↔ Item.field k v ∈ items := by
  simp

/-- One more value for a group that has one already: it goes to the end of the group's record. -/
theorem Holds.extendGroup (h : r.Holds items)
    (hd : Label.Distinct ((items ++ [Item.member group name value]).map Item.label))
    (hne : Item.membersOf group items ≠ []) :
    Holds (items ++ [Item.member group name value])
      { r with
        groups := Listing.set r.groups group
          (Record.set (Item.membersOf group items) name value) } := by
  have hfresh : name ∉ Listing.names (Item.membersOf group items) := by
    intro hmem
    obtain ⟨e, he, rfl⟩ := List.mem_map.mp hmem
    exact fresh_of_distinct hd
      (@Item.label_mem (.member group e.1 e.2) _ (Item.mem_membersOf.mp he))
  refine ⟨h.record_nodup, Listing.nodup_names_set h.groups_nodup _ _, fun k v => ?_, fun g => ?_⟩
  · rw [h.record_iff, field_mem_concat_iff, membersOf_concat]
    by_cases hg : group = k
    · subst hg
      simp [hne]
    · simp [hg]
  · show Listing.find? (Listing.set r.groups group _) g = _
    rw [Listing.find?_set, membersOf_concat]
    split
    · next hg =>
      subst hg
      rw [if_pos rfl, if_neg (by simp)]
      exact congrArg some (Listing.set_of_not_mem hfresh value)
    · next hg =>
      rw [if_neg (Ne.symm hg), List.append_nil]
      exact h.groups_eq g

/-- The first value of a group: the record gets nothing in the place that the group will take. -/
theorem Holds.newGroup (h : r.Holds items)
    (hd : Label.Distinct ((items ++ [Item.member group name value]).map Item.label))
    (hnil : Item.membersOf group items = []) :
    Holds (items ++ [Item.member group name value])
      { r with
        record := r.record.set group .null
        groups := r.groups ++ [(group, Record.set [] name value)] } := by
  have hnone : Listing.find? r.groups group = none := by rw [h.groups_eq, if_pos hnil]
  have hnew : group ∉ Listing.names r.groups := (Listing.find?_eq_none_iff _ _).mp hnone
  have hfield := fresh_group hd
  refine ⟨Listing.nodup_names_set h.record_nodup _ _, ?_, fun k v => ?_, fun g => ?_⟩
  · show (Listing.names (r.groups ++ _)).Nodup
    rw [← Listing.set_of_not_mem hnew]
    exact Listing.nodup_names_set h.groups_nodup _ _
  · -- the value in the record is the null that keeps the place of the group
    show Listing.find? (Listing.set r.record group .null) k = some v ↔ _
    rw [Listing.find?_set, field_mem_concat_iff, membersOf_concat]
    split
    · next hk =>
      subst hk
      rw [if_pos rfl]
      constructor
      · intro hv
        exact .inr ⟨(Option.some.inj hv).symm, by simp⟩
      · rintro (hmem | ⟨rfl, -⟩)
        · exact absurd hmem (hfield v)
        · rfl
    · next hk =>
      rw [if_neg (Ne.symm hk), List.append_nil]
      exact h.record_iff k v
  · show Listing.find? (r.groups ++ _) g = _
    rw [Listing.find?_append, h.groups_eq g, membersOf_concat]
    by_cases hg : group = g
    · subst hg
      rw [hnil, if_pos rfl, if_pos rfl]
      simp [Listing.find?_cons, Record.set, Listing.set]
    · rw [if_neg hg, List.append_nil, Listing.find?_cons, if_neg hg, Listing.find?_nil,
        Option.or_none]

theorem Holds.putInGroup (h : r.Holds items)
    (hd : Label.Distinct ((items ++ [Item.member group name value]).map Item.label)) :
    (r.putInGroup group name value).Holds (items ++ [Item.member group name value]) := by
  unfold Reading.putInGroup
  rw [h.groups_eq]
  by_cases hnil : Item.membersOf group items = []
  · rw [if_pos hnil]
    exact h.newGroup hd hnil
  · rw [if_neg hnil]
    exact h.extendGroup hd hnil

end Groups

theorem Holds.add {items : List Item} {r : Reading} (h : r.Holds items) {item : Item}
    (hd : Label.Distinct ((items ++ [item]).map Item.label)) :
    (r.add item).Holds (items ++ [item]) := by
  cases item with
  | field key value => exact h.put hd
  | member group name value => exact h.putInGroup hd

theorem Holds.addAll {items : List Item} {r : Reading} (h : r.Holds items) (more : List Item)
    (hd : Label.Distinct ((items ++ more).map Item.label)) :
    (more.foldl Reading.add r).Holds (items ++ more) := by
  induction more generalizing items r with
  | nil => rwa [List.append_nil]
  | cons item more ih =>
    have hsplit : items ++ item :: more = items ++ [item] ++ more := by simp
    rw [hsplit] at hd ⊢
    exact ih (h.add (hd.of_sublist ((List.sublist_append_left _ _).map _))) hd

/-! ### Keys in order -/

section Order

variable {items : List Item} {r : Reading} (h : r.Holds items)

include h

theorem Holds.mem_record_iff {key : Text} : key ∈ Listing.names r.record ↔
    (∃ v, .field key v ∈ items) ∨ Item.membersOf key items ≠ [] := by
  simp only [Listing.mem_names_iff, h.record_iff, exists_or, exists_eq_left]

theorem Holds.mem_groups_iff {group : Text} : group ∈ Listing.names r.groups ↔
    Item.membersOf group items ≠ [] := by
  rw [Listing.mem_names_iff, h.groups_eq]
  by_cases hnil : Item.membersOf group items = [] <;> simp [hnil]

/-- One more value adds its key at the end; a member of a group that is there adds none. -/
theorem Holds.names_add {item : Item}
    (hd : Label.Distinct ((items ++ [item]).map Item.label)) (labels : List Label) :
    Listing.names (r.add item).record
        ++ Label.keysAfter (Listing.names (r.add item).groups) labels
      = Listing.names r.record
        ++ Label.keysAfter (Listing.names r.groups) (item.label :: labels) := by
  cases item with
  | field key value =>
    obtain ⟨hfresh, hnone⟩ := fresh_field hd
    have hnew : key ∉ Listing.names r.record := by
      rw [h.mem_record_iff]
      rintro (⟨v, hv⟩ | hne)
      · exact hfresh v hv
      · exact hne hnone
    show Listing.names (Listing.set r.record key value) ++ _ = _
    rw [Listing.names_set, if_neg hnew, List.append_assoc]
    rfl
  | member group name value =>
    rw [show (Item.member group name value).label = .member group name from rfl, Label.keysAfter]
    show Listing.names (r.putInGroup group name value).record
      ++ Label.keysAfter (Listing.names (r.putInGroup group name value).groups) labels = _
    unfold Reading.putInGroup
    split
    · next members hmembers =>
      -- the group has its place in the record already
      have hthere := Listing.mem_names_of_find? hmembers
      rw [if_pos hthere]
      show Listing.names r.record
        ++ Label.keysAfter (Listing.names (Listing.set r.groups group _)) labels = _
      rw [Listing.names_set, if_pos hthere]
    · next hnone =>
      have habsent := (Listing.find?_eq_none_iff _ _).mp hnone
      have hnew : group ∉ Listing.names r.record := by
        rw [h.mem_record_iff]
        rintro (⟨v, hv⟩ | hne)
        · exact fresh_group hd v hv
        · exact habsent (h.mem_groups_iff.mpr hne)
      rw [if_neg habsent]
      show Listing.names (Listing.set r.record group .null)
        ++ Label.keysAfter (Listing.names (r.groups ++ [_])) labels = _
      rw [Listing.names_set, if_neg hnew, List.append_assoc]
      unfold Listing.names
      rw [List.map_append]
      rfl

/-- Values that are added one after the other add their keys in order. -/
theorem Holds.names_addAll (more : List Item)
    (hd : Label.Distinct ((items ++ more).map Item.label)) :
    Listing.names (more.foldl Reading.add r).record
      = Listing.names r.record
        ++ Label.keysAfter (Listing.names r.groups) (more.map Item.label) := by
  induction more generalizing items r with
  | nil => exact (List.append_nil _).symm
  | cons item more ih =>
    have hsplit : items ++ item :: more = items ++ [item] ++ more := by simp
    rw [hsplit] at hd
    have hitem := hd.of_sublist ((List.sublist_append_left _ _).map _)
    rw [List.foldl_cons, ih (h.add hitem) hd, h.names_add hitem]
    rfl

end Order

/-! ### The groups in their places -/

/-- The groups take places that are kept for them. -/
theorem names_fillIn {groups : Listing Record} {record : Record}
    (h : ∀ g ∈ Listing.names groups, g ∈ Listing.names record) :
    Listing.names (groups.foldl (fun r g => r.set g.1 (.record g.2)) record)
      = Listing.names record := by
  induction groups generalizing record with
  | nil => rfl
  | cons g groups ih =>
    have hsame : Listing.names (record.set g.1 (.record g.2)) = Listing.names record := by
      show Listing.names (Listing.set record g.1 _) = _
      rw [Listing.names_set, if_pos (h g.1 List.mem_cons_self)]
    rw [List.foldl_cons]
    exact (ih fun g' hg' => hsame ▸ h g' (List.mem_cons_of_mem _ hg')).trans hsame

theorem find?_fillIn {groups : Listing Record} (h : (Listing.names groups).Nodup) (record : Record)
    (key : Text) :
    Listing.find? (groups.foldl (fun r g => r.set g.1 (.record g.2)) record) key
      = match Listing.find? groups key with
        | some members => some (.record members)
        | none => Listing.find? record key := by
  induction groups generalizing record with
  | nil => rfl
  | cons g groups ih =>
    obtain ⟨hfresh, hrest⟩ := List.nodup_cons.mp h
    -- no later group takes the place of this one
    rw [List.foldl_cons, ih hrest, Listing.find?_cons]
    by_cases hg : g.1 = key
    · subst hg
      have hnone : Listing.find? groups g.1 = none := (Listing.find?_eq_none_iff _ _).mpr hfresh
      rw [hnone, if_pos rfl]
      show Listing.find? (Listing.set record g.1 _) g.1 = _
      rw [Listing.find?_set, if_pos rfl]
    · have hsame : Record.find? (record.set g.1 (.record g.2)) key = Listing.find? record key := by
        show Listing.find? (Listing.set record g.1 _) key = _
        rw [Listing.find?_set, if_neg (Ne.symm hg)]
      rw [if_neg hg]
      cases Listing.find? groups key with
      | some members => rfl
      | none => exact hsame

theorem find?_finish {r : Reading} (h : (Listing.names r.groups).Nodup) (key : Text) :
    r.finish.find? key = match Listing.find? r.groups key with
      | some members => some (.record members)
      | none => Listing.find? r.record key := find?_fillIn h r.record key

theorem nodup_fillIn (groups : Listing Record) {record : Record}
    (h : (Listing.names record).Nodup) :
    (Listing.names (groups.foldl (fun r g => r.set g.1 (.record g.2)) record)).Nodup := by
  induction groups generalizing record with
  | nil => exact h
  | cons g groups ih => exact ih (Listing.nodup_names_set h _ _)

end Reading

/-- The record that some items make up. -/
def gather (items : List Item) : Record := (items.foldl Reading.add (Reading.start 0)).finish

section Gather

variable {items : List Item} (hd : Label.Distinct (items.map Item.label))

include hd

/-- **What a gathered record holds**: the values that stand for themselves, and the groups. -/
theorem find?_gather (key : Text) (v : Value) : (gather items).find? key = some v ↔
    .field key v ∈ items
      ∨ (Item.membersOf key items ≠ [] ∧ v = .record (Item.membersOf key items)) := by
  have h := (Reading.holds_start 0).addAll items hd
  rw [List.nil_append] at h
  unfold gather
  rw [Reading.find?_finish h.groups_nodup, h.groups_eq]
  by_cases hnil : Item.membersOf key items = []
  · rw [if_pos hnil]
    simp only [h.record_iff, hnil, ne_eq, not_true_eq_false, and_false, false_and, or_false]
  · rw [if_neg hnil]
    have hno : Item.field key v ∉ items := by
      intro hmem
      obtain ⟨e, he⟩ := List.exists_mem_of_ne_nil _ hnil
      exact hd.apart key (Item.label_mem hmem) e.1 (Item.label_mem (Item.mem_membersOf.mp he))
    simp only [hno, hnil, ne_eq, not_false_eq_true, true_and, false_or, Option.some.injEq]
    exact eq_comm

theorem nodup_gather : (gather items).keys.Nodup := by
  have h := (Reading.holds_start 0).addAll items hd
  rw [List.nil_append] at h
  exact Reading.nodup_fillIn _ h.record_nodup

/-- **The keys of a gathered record**, in order. -/
theorem keys_gather : (gather items).keys = Label.keys (items.map Item.label) := by
  have hstart := Reading.holds_start 0
  have h := hstart.addAll items hd
  have hnames := hstart.names_addAll items hd
  rw [List.nil_append] at h
  refine (Reading.names_fillIn fun g hg => ?_).trans hnames
  exact h.mem_record_iff.mpr (.inr (h.mem_groups_iff.mp hg))

/-- A gathered record has exactly the keys of its items. -/
theorem mem_keys_gather {key : Text} :
    key ∈ (gather items).keys ↔ ∃ label ∈ items.map Item.label, label.key = key := by
  show key ∈ Listing.names _ ↔ _
  rw [Listing.mem_names_iff]
  constructor
  · rintro ⟨v, hv⟩
    rcases (find?_gather hd key v).mp hv with hmem | ⟨hne, -⟩
    · exact ⟨_, Item.label_mem hmem, rfl⟩
    · obtain ⟨e, he⟩ := List.exists_mem_of_ne_nil _ hne
      exact ⟨_, Item.label_mem (Item.mem_membersOf.mp he), rfl⟩
  · rintro ⟨label, hlabel, rfl⟩
    obtain ⟨item, hitem, rfl⟩ := List.mem_map.mp hlabel
    cases item with
    | field key v => exact ⟨v, (find?_gather hd key v).mpr (.inl hitem)⟩
    | member group name v =>
      have he : (name, v) ∈ Item.membersOf group items := Item.mem_membersOf.mpr hitem
      exact ⟨_, (find?_gather hd group _).mpr (.inr ⟨List.ne_nil_of_mem he, rfl⟩)⟩

end Gather

/-! ### Values in their places -/

/-- A record has a value in its place. -/
def Item.In (r : Record) : Item → Prop
  | .field key v => r.find? key = some v
  | .member group name v => ∃ members : Record, r.find? group = some (.record members)
      ∧ members.find? name = some v

/-- A record has a value in its place to which the given one is equal. -/
def Item.Matches (r : Record) : Item → Prop
  | .field key v => ∃ w, r.find? key = some w ∧ v.equal w = true
  | .member group name v => ∃ members : Record, ∃ w, r.find? group = some (.record members)
      ∧ members.find? name = some w ∧ v.equal w = true

/-- Every item is in the gathered record. -/
theorem in_gather {items : List Item} (hd : Label.Distinct (items.map Item.label)) :
    ∀ item ∈ items, item.In (gather items) := by
  intro item hitem
  cases item with
  | field key v => exact (find?_gather hd key v).mpr (.inl hitem)
  | member group name v =>
    have he : (name, v) ∈ Item.membersOf group items := Item.mem_membersOf.mpr hitem
    refine ⟨Item.membersOf group items, ?_, ?_⟩
    · exact (find?_gather hd group _).mpr (.inr ⟨List.ne_nil_of_mem he, rfl⟩)
    · exact Listing.find?_eq_some_of_mem (Item.names_membersOf_nodup hd.nodup group) he

/-! ### Equal records -/

theorem Value.within_iff {l : List (Text × Value)} {o : Record} : within l o = true ↔
    ∀ e ∈ l, ∃ w, Listing.find? o e.1 = some w ∧ e.2.equal w = true := by
  induction l with
  | nil => simp [within]
  | cons e l ih =>
    unfold within
    rw [Bool.and_eq_true, ih, List.forall_mem_cons]
    refine and_congr_left fun _ => ?_
    cases Listing.find? o e.1 <;> simp

/-- Records with the same keys and equal values are equal. -/
theorem Record.equal_of_find? {r o : Record} (hr : r.keys.Nodup) (ho : o.keys.Nodup)
    (hkeys : ∀ key, key ∈ r.keys ↔ key ∈ o.keys)
    (hvalues : ∀ key v, r.find? key = some v → ∃ w, o.find? key = some w ∧ v.equal w = true) :
    r.equal o = true := by
  have hlength : r.length = o.length := by
    have hperm := ((List.perm_ext_iff_of_nodup hr ho).mpr hkeys).length_eq
    unfold keys Listing.names at hperm
    rwa [List.length_map, List.length_map] at hperm
  show (r.length == o.length && Value.within r o) = true
  rw [Bool.and_eq_true]
  refine ⟨beq_iff_eq.mpr hlength, Value.within_iff.mpr fun e he => ?_⟩
  exact hvalues e.1 e.2 (Listing.find?_eq_some_of_mem hr he)

/-- A record with exactly the given places. -/
structure Record.HasLabels (r : Record) (labels : List Label) : Prop where
  nodup : r.keys.Nodup
  keys : ∀ key, key ∈ r.keys ↔ ∃ label ∈ labels, label.key = key
  members : ∀ group name, .member group name ∈ labels →
    ∃ members : Record, r.find? group = some (.record members) ∧ members.keys.Nodup
      ∧ ∀ name, name ∈ members.keys ↔ .member group name ∈ labels

/-- A record without groups has the places of its keys. -/
theorem Record.hasLabels_of_keys {r : Record} (h : r.keys.Nodup) :
    r.HasLabels (r.keys.map .field) := by
  refine ⟨h, fun key => ?_, fun group name hmem => ?_⟩
  · constructor
    · exact fun hkey => ⟨.field key, List.mem_map_of_mem hkey, rfl⟩
    · rintro ⟨label, hlabel, rfl⟩
      obtain ⟨key, hkey, rfl⟩ := List.mem_map.mp hlabel
      exact hkey
  · obtain ⟨key, -, hkey⟩ := List.mem_map.mp hmem
    exact absurd hkey (by simp)

/-- The values of a group are equal to those of a record in its place. -/
theorem membersOf_equal {items : List Item} (hd : Label.Distinct (items.map Item.label))
    {r : Record} (hr : r.HasLabels (items.map Item.label))
    (hmatches : ∀ item ∈ items, item.Matches r)
    {group : Text} (hne : Item.membersOf group items ≠ []) :
    ∃ members : Record, r.find? group = some (.record members)
      ∧ (Item.membersOf group items : Record).equal members = true := by
  obtain ⟨e, he⟩ := List.exists_mem_of_ne_nil _ hne
  obtain ⟨members, hfind, hnodup, hnames⟩ :=
    hr.members group e.1 (Item.label_mem (Item.mem_membersOf.mp he))
  have hnodup' := Item.names_membersOf_nodup hd.nodup group
  refine ⟨members, hfind, Record.equal_of_find? hnodup' hnodup (fun name => ?_) fun name v hv => ?_⟩
  · rw [hnames]
    constructor
    · intro hname
      obtain ⟨e, he, rfl⟩ := List.mem_map.mp hname
      exact Item.label_mem (Item.mem_membersOf.mp he)
    · intro hlabel
      obtain ⟨item, hitem, hlabel⟩ := List.mem_map.mp hlabel
      cases item with
      | field => exact absurd hlabel (by simp [Item.label])
      | member g n v =>
        obtain ⟨rfl, rfl⟩ := Label.member.inj hlabel
        exact List.mem_map_of_mem (f := (·.1)) (Item.mem_membersOf (e := (n, v)).mpr hitem)
  · obtain ⟨members', w, hfind', hw, hequal⟩ :=
      hmatches _ (Item.mem_membersOf.mp (Listing.mem_of_find? hv))
    obtain rfl := Value.record.inj (Option.some.inj (hfind.symm.trans hfind'))
    exact ⟨w, hw, hequal⟩

/-- **A record with the same places and equal values is equal to the gathered one.** -/
theorem gather_equal {items : List Item} (hd : Label.Distinct (items.map Item.label)) {r : Record}
    (hr : r.HasLabels (items.map Item.label)) (hmatches : ∀ item ∈ items, item.Matches r) :
    (gather items).equal r = true := by
  refine Record.equal_of_find? (nodup_gather hd) hr.nodup (fun key => ?_) fun key v hv => ?_
  · rw [mem_keys_gather hd, hr.keys]
  · rcases (find?_gather hd key v).mp hv with hmem | ⟨hne, rfl⟩
    · exact hmatches _ hmem
    · obtain ⟨members, hfind, hequal⟩ := membersOf_equal hd hr hmatches hne
      exact ⟨_, hfind, hequal⟩

end RecordLayout
