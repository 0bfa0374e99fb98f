import RecordLayout.Proofs.Options.Sound

/-!
# What a merge takes over

A merge offers values one by one, in the order of their names, and each of them decides about one
slot only.  So what a merge leaves is said slot by slot, for every policy: a value that is offered
is taken over if the table inherits the option and has no value of its own that counts, or prefers
the other side and has a different one.  A merge comes to its end if all that is taken over is
accepted, and then the same merge finds nothing left to do.

What is stored is in form, so it may differ from what was offered; a table that prefers the other
side takes such a value over again every time, and has the same value then.

## Main definitions

* `OptionMap.given?`: the value that a set gives for a name.
* `OptionTable.inherits`, `OptionTable.formed`, `OptionTable.accepts`: what a table makes of a
  value.
* `OptionTable.holds`, `OptionTable.adopts`: whether a table has a value that counts, and whether
  it takes one over.
* `OptionSource`: what a merge takes values from, and what it offers.

## Main results

* `OptionTable.of_takeOver`: **what one value that is offered can do**.
* `OptionTable.find?_takeOverAll_adopts`, `OptionTable.takeOverAll_eq_none_iff`: the slots after a
  merge, and when it comes to its end.
* `OptionTable.mergeFrom_adopted`: **merging by any policy**.
-/

namespace RecordLayout

/-! ### Looking values up -/

namespace Listing

variable {α : Type}

theorem find?_filter {l : Listing α} (h : (names l).Nodup) (p : α → Bool) (name : Text) :
    find? (l.filter fun e => p e.2) name = (find? l name).filter p := by
  induction l with
  | nil => rfl
  | cons e l ih =>
    obtain ⟨hfresh, hnodup⟩ := List.nodup_cons.mp h
    have hrest := ih hnodup
    by_cases hname : e.1 = name
    · rw [(find?_eq_none_iff l name).mpr (hname ▸ hfresh)] at hrest
      cases hp : p e.2 with
      | true => simp [find?_cons, hname, hp, Option.filter]
      | false => simpa [find?_cons, hname, hp, Option.filter] using hrest
    · cases hp : p e.2 with
      | true => simpa [find?_cons, hname, hp] using hrest
      | false => simpa [find?_cons, hname, hp] using hrest

theorem find?_filterMap {β : Type} {l : Listing α} (h : (names l).Nodup) (f : α → Option β)
    (name : Text) :
    find? (l.filterMap fun e => (f e.2).map (e.1, ·)) name = (find? l name).bind f := by
  induction l with
  | nil => rfl
  | cons e l ih =>
    obtain ⟨hfresh, hnodup⟩ := List.nodup_cons.mp h
    have hrest := ih hnodup
    by_cases hname : e.1 = name
    · rw [(find?_eq_none_iff l name).mpr (hname ▸ hfresh)] at hrest
      cases hf : f e.2 with
      | some b => simp [hf, find?_cons, hname]
      | none => simpa [hf, find?_cons, hname] using hrest
    · cases hf : f e.2 with
      | some b => simpa [hf, find?_cons, hname] using hrest
      | none => simpa [hf, find?_cons, hname] using hrest

/-- Keeping some values keeps names apart. -/
theorem names_filterMap_sublist {β : Type} (l : Listing α) (f : α → Option β) :
    (names (l.filterMap fun e => (f e.2).map (e.1, ·))).Sublist (names l) := by
  induction l with
  | nil => exact .slnil
  | cons e l ih =>
    cases hf : f e.2 with
    | some b =>
      rw [List.filterMap_cons_some (by rw [hf]; rfl)]
      exact ih.cons_cons e.1
    | none =>
      rw [List.filterMap_cons_none (by rw [hf]; rfl)]
      exact ih.cons e.1

end Listing

namespace NameMap

variable {α : Type}

/-- To give a name the value that it has changes nothing. -/
theorem insert_of_find? {m : NameMap α} {name : Text} {value : α} (h : m.find? name = some value) :
    m.insert name value = m := by
  have hsorted := m.sorted
  unfold find? at h
  suffices hsame : insertEntry name value m.entries = m.entries by
    unfold insert
    simp only [hsame]
  generalize m.entries = l at h hsorted
  induction l with
  | nil => exact absurd h (by simp)
  | cons e rest ih =>
    obtain ⟨hhead, htail⟩ := List.pairwise_cons.mp hsorted
    rw [Listing.find?_cons] at h
    unfold insertEntry
    split at h
    · next hname =>
      obtain rfl := Option.some.inj h
      rw [← hname, if_neg (List.lt_irrefl _), if_neg (List.lt_irrefl _)]
    · -- the name is further behind, and so greater than the first
      have hlt := hhead _ (Listing.mem_of_find? h)
      rw [if_neg (List.lt_asymm hlt), if_pos hlt, ih h htail]

end NameMap

/-! ### The values of a set -/

namespace OptionMap

/-- The value that a set gives for a name.  Nothing given is no value. -/
def given? (m : OptionMap) (name : Text) : Option Value := (m.find? name).filter (!·.isNull)

theorem given?_eq_some_iff {m : OptionMap} {name : Text} {value : Value} :
    m.given? name = some value ↔ m.find? name = some value ∧ value.isNull = false := by
  unfold given?
  rw [Option.filter_eq_some_iff, Bool.not_eq_true']

theorem find?_given (m : OptionMap) (name : Text) :
    Listing.find? (m.entries.filter fun e => !e.2.isNull) name = m.given? name :=
  Listing.find?_filter m.nodup_names (!·.isNull) name

end OptionMap

/-! ### One value -/

namespace OptionTable

variable {t u : OptionTable} {policy : MergePolicy} {name : Text} {value : Value}

/-- Whether a table inherits an option. -/
def inherits (t : OptionTable) (name : Text) : Bool := t.schema.inherits name

/-- A value of a name as a table stores it. -/
def formed (t : OptionTable) (name : Text) (value : Value) : Value :=
  match t.schema.find? name with
  | some spec => spec.transform value
  | none => value

/-- Whether a table accepts a value of a name, once it is in form. -/
def accepts (t : OptionTable) (name : Text) (value : Value) : Bool :=
  (t.schema.find? name).all fun spec => spec.accepts (spec.transform value)

/-- Whether a table has a value of a name that counts in a merge. -/
def holds (t : OptionTable) (policy : MergePolicy) (name : Text) : Bool :=
  (t.origin? name).any policy.counts

/-- Whether a table takes a value over that is offered: it inherits the option, and has no value
that counts, or the other side is preferred and offers a different one. -/
def adopts (t : OptionTable) (policy : MergePolicy) (name : Text) (value : Value) : Bool :=
  t.inherits name
    && (!t.holds policy name || (policy.prefer == .other && !(t.get name).equal value))

theorem inherits_congr (h : u.schema = t.schema) (name : Text) :
    u.inherits name = t.inherits name := by
  unfold inherits
  rw [h]

theorem formed_congr (h : u.schema = t.schema) (name : Text) (value : Value) :
    u.formed name value = t.formed name value := by
  unfold formed
  rw [h]

theorem accepts_congr (h : u.schema = t.schema) (name : Text) (value : Value) :
    u.accepts name value = t.accepts name value := by
  unfold accepts
  rw [h]

theorem adopts_congr (hschema : u.schema = t.schema)
    (hslot : u.slots.find? name = t.slots.find? name) (policy : MergePolicy) (value : Value) :
    u.adopts policy name value = t.adopts policy name value := by
  unfold adopts holds origin? get
  rw [inherits_congr hschema, hslot]

theorem formed_eq {spec : OptionSpec} (h : t.schema.find? name = some spec) (value : Value) :
    t.formed name value = spec.transform value := by
  unfold formed
  rw [h]

theorem accepts_eq {spec : OptionSpec} (h : t.schema.find? name = some spec) (value : Value) :
    t.accepts name value = spec.accepts (spec.transform value) := by
  unfold accepts
  rw [h]
  rfl

/-- A value is taken over if the option is inherited and the table does not keep its own. -/
theorem adopts_eq (t : OptionTable) (policy : MergePolicy) (name : Text) (value : Value) :
    t.adopts policy name value = (t.inherits name && !t.keeps policy name value) := by
  unfold adopts holds origin? get keeps
  cases t.slots.find? name with
  | none => rfl
  | some slot =>
    show (_ && (!policy.counts slot.origin || _))
      = (_ && !(policy.counts slot.origin && (_ || slot.value.equal value)))
    cases policy.counts slot.origin <;> cases policy.prefer <;> cases slot.value.equal value <;> rfl

/-- What one value that is offered comes to. -/
theorem takeOver_eq (policy : MergePolicy) (name : Text) (value : Value) :
    t.takeOver policy name value = if t.adopts policy name value then
        (match t.schema.find? name with
          | some spec => (t.schema.normalize spec value).map fun v => t.store name ⟨v, .inherited⟩
          | none => .ok t)
      else .ok t := by
  rw [adopts_eq]
  unfold takeOver inherits OptionSchema.inherits
  cases hspec : t.schema.find? name with
  | none => rfl
  | some spec =>
    dsimp only
    rw [OptionSchema.name_of_find? hspec]
    cases hinheritable : spec.inheritable <;> cases t.keeps policy name value <;>
      simp [hinheritable]

theorem takeOver_of_not_adopts (h : t.adopts policy name value = false) :
    t.takeOver policy name value = .ok t := by
  rw [takeOver_eq, h, if_neg Bool.false_ne_true]

theorem spec_of_adopts (h : t.adopts policy name value = true) :
    ∃ spec, t.schema.find? name = some spec := by
  have hinherits : t.schema.inherits name = true := (Bool.and_eq_true_iff.mp h).1
  obtain ⟨spec, hspec, -⟩ := (Option.any_eq_true _ _).mp hinherits
  exact ⟨spec, hspec⟩

theorem takeOver_of_accepts (h : t.adopts policy name value = true)
    (haccepts : t.accepts name value = true) :
    t.takeOver policy name value = .ok (t.store name ⟨t.formed name value, .inherited⟩) := by
  obtain ⟨spec, hspec⟩ := spec_of_adopts h
  rw [accepts_eq hspec] at haccepts
  have hnormal := (t.schema.normalize_eq_ok_iff spec value _).mpr ⟨rfl, haccepts⟩
  rw [takeOver_eq, h, if_pos rfl, hspec, formed_eq hspec]
  dsimp only
  rw [hnormal]
  rfl

/-- **What one value that is offered can do**: nothing, or it is stored in form as one that was
taken over. -/
theorem of_takeOver (h : t.takeOver policy name value = .ok u) :
    t.adopts policy name value = false ∧ u = t
      ∨ t.adopts policy name value = true ∧ t.accepts name value = true
        ∧ u = t.store name ⟨t.formed name value, .inherited⟩ := by
  cases hadopts : t.adopts policy name value with
  | false =>
    rw [takeOver_of_not_adopts hadopts] at h
    exact .inl ⟨rfl, (Except.ok.inj h).symm⟩
  | true =>
    obtain ⟨spec, hspec⟩ := spec_of_adopts hadopts
    rw [takeOver_eq, hadopts, if_pos rfl, hspec] at h
    obtain ⟨v, hv, rfl⟩ := Success.of_map h
    obtain ⟨rfl, haccepts⟩ := (t.schema.normalize_eq_ok_iff spec value v).mp hv
    exact .inr ⟨rfl, (accepts_eq hspec value).trans haccepts, by rw [formed_eq hspec]⟩

/-- One value that is offered decides about one slot. -/
theorem find?_takeOver_adopts (h : t.takeOver policy name value = .ok u) (key : Text) :
    u.slots.find? key =
      if key = name ∧ t.adopts policy name value = true then
        some ⟨t.formed name value, .inherited⟩
      else t.slots.find? key := by
  rcases of_takeOver h with ⟨hadopts, rfl⟩ | ⟨hadopts, -, rfl⟩
  · rw [hadopts, if_neg (by simp)]
  · show (t.slots.insert name _).find? key = _
    rw [NameMap.find?_insert, hadopts]
    simp only [and_true]

/-! ### One value after the other -/

theorem takeOverAll_schema (policy : MergePolicy) (t : OptionTable) (l : List (Text × Value)) :
    (takeOverAll policy t l).1.schema = t.schema := by
  induction l generalizing t with
  | nil => rfl
  | cons e l ih =>
    obtain ⟨name, value⟩ := e
    rw [takeOverAll_cons]
    split
    · next u hu => exact (ih u).trans (takeOver_schema hu)
    · rfl

/-- **The slots of a table after values were offered**, each name once: those that the table takes
over are stored in form, and all others are as they were. -/
theorem find?_takeOverAll_adopts {l : List (Text × Value)} (hl : (Listing.names l).Nodup)
    (h : (takeOverAll policy t l).2 = none) (key : Text) :
    (takeOverAll policy t l).1.slots.find? key =
      (((Listing.find? l key).filter (t.adopts policy key)).map
        fun v => ⟨t.formed key v, .inherited⟩).or (t.slots.find? key) := by
  induction l generalizing t with
  | nil => rfl
  | cons e l ih =>
    obtain ⟨name, value⟩ := e
    obtain ⟨hfresh, hnodup⟩ := List.nodup_cons.mp hl
    rw [takeOverAll_cons] at h ⊢
    split at h
    · next u hu =>
      have hslot := find?_takeOver_adopts hu key
      have hschema := takeOver_schema hu
      rw [ih hnodup h, Listing.find?_cons]
      by_cases hkey : key = name
      · -- the name comes only once, so nothing decides about its slot later
        subst hkey
        rw [(Listing.find?_eq_none_iff l key).mpr hfresh, if_pos rfl, hslot]
        cases hadopts : t.adopts policy key value <;> simp [Option.filter, hadopts]
      · have hsame : u.slots.find? key = t.slots.find? key := by
          rw [hslot, if_neg fun h => hkey h.1]
        rw [if_neg (Ne.symm hkey), hsame]
        simp only [formed_congr hschema, funext (adopts_congr hschema hsame policy)]
    · exact absurd h (by simp)

/-- **Values that are offered are taken to their end** if those that the table takes over are
accepted. -/
theorem takeOverAll_eq_none_iff {l : List (Text × Value)} (hl : (Listing.names l).Nodup) :
    (takeOverAll policy t l).2 = none ↔
      ∀ e ∈ l, t.adopts policy e.1 e.2 = true → t.accepts e.1 e.2 = true := by
  induction l generalizing t with
  | nil => simp
  | cons e l ih =>
    obtain ⟨name, value⟩ := e
    obtain ⟨hfresh, hnodup⟩ := List.nodup_cons.mp hl
    rw [takeOverAll_cons, List.forall_mem_cons]
    split
    · next u hu =>
      -- what comes later finds its own slot as it was
      have hschema := takeOver_schema hu
      have hrest : (∀ e ∈ l, u.adopts policy e.1 e.2 = true → u.accepts e.1 e.2 = true)
          ↔ ∀ e ∈ l, t.adopts policy e.1 e.2 = true → t.accepts e.1 e.2 = true := by
        refine forall₂_congr fun e he => ?_
        have hne : e.1 ≠ name := fun heq => hfresh (heq ▸ List.mem_map.mpr ⟨e, he, rfl⟩)
        have hsame : u.slots.find? e.1 = t.slots.find? e.1 := by
          rw [find?_takeOver_adopts hu, if_neg fun h => hne h.1]
        rw [adopts_congr hschema hsame, accepts_congr hschema]
      rw [ih hnodup, hrest]
      refine (and_iff_right fun hadopts => ?_).symm
      rcases of_takeOver hu with ⟨hnot, -⟩ | ⟨-, haccepts, -⟩
      · rw [hnot] at hadopts
        exact absurd hadopts (by simp)
      · exact haccepts
    · next error herror =>
      refine iff_of_false (by simp) fun h => ?_
      cases hadopts : t.adopts policy name value with
      | false => rw [takeOver_of_not_adopts hadopts] at herror; exact absurd herror (by simp)
      | true =>
        rw [takeOver_of_accepts hadopts (h.1 hadopts)] at herror
        exact absurd herror (by simp)

/-- Values of which none changes a table change nothing together. -/
theorem takeOverAll_of_fixed {l : List (Text × Value)}
    (h : ∀ e ∈ l, t.takeOver policy e.1 e.2 = .ok t) : takeOverAll policy t l = (t, none) := by
  induction l with
  | nil => rfl
  | cons e l ih =>
    obtain ⟨name, value⟩ := e
    rw [takeOverAll_cons, h (name, value) List.mem_cons_self]
    exact ih fun e he => h e (List.mem_cons_of_mem _ he)

/-- **Values that were taken to their end change nothing when they are offered again.**  Those that
were taken over may be so again, but they are stored already. -/
theorem takeOverAll_again {l : List (Text × Value)} (hl : (Listing.names l).Nodup)
    (h : (takeOverAll policy t l).2 = none) :
    takeOverAll policy (takeOverAll policy t l).1 l = ((takeOverAll policy t l).1, none) := by
  refine takeOverAll_of_fixed fun e he => ?_
  have hfind : Listing.find? l e.1 = some e.2 := (Listing.mem_iff_find? hl e.1 e.2).mp he
  have hslot := find?_takeOverAll_adopts hl h e.1
  have hschema := takeOverAll_schema policy t l
  rw [hfind] at hslot
  generalize (takeOverAll policy t l).1 = v at hslot hschema
  cases hagain : v.adopts policy e.1 e.2 with
  | false => exact takeOver_of_not_adopts hagain
  | true =>
    cases hadopts : t.adopts policy e.1 e.2 with
    | false =>
      -- the slot is as it was, and so is what is decided about it
      have hsame : v.slots.find? e.1 = t.slots.find? e.1 := by
        rw [hslot, Option.filter_some, hadopts]
        rfl
      rw [adopts_congr hschema hsame, hadopts] at hagain
      exact absurd hagain (by simp)
    | true =>
      have haccepts := (takeOverAll_eq_none_iff hl).mp h e he hadopts
      have hstored : v.slots.find? e.1 = some ⟨v.formed e.1 e.2, .inherited⟩ := by
        rw [hslot, Option.filter_some, hadopts, formed_congr hschema]
        rfl
      rw [takeOver_of_accepts hagain ((accepts_congr hschema _ _).trans haccepts)]
      unfold store
      rw [NameMap.insert_of_find? hstored]

end OptionTable

/-! ### Tables and sets that are merged -/

/-- What a merge takes values from. -/
inductive OptionSource
  /-- Another table, of any options. -/
  | table (u : OptionTable)
  /-- A set of values. -/
  | values (m : OptionMap)

namespace OptionSource

/-- The values that are offered, by name. -/
def offers (policy : MergePolicy) : OptionSource → List (Text × Value)
  | table u => u.offered policy
  | values m => m.entries.filter fun e => !e.2.isNull

/-- The value of a slot that a table offers: one that counts, and is not nothing. -/
def offeredOf (policy : MergePolicy) (slot : Slot) : Option Value :=
  if policy.counts slot.origin && !slot.value.isNull then some slot.value else none

/-- The value that is offered for a name.  What a set gives always counts. -/
def offer? (policy : MergePolicy) (name : Text) : OptionSource → Option Value
  | table u => (u.slots.find? name).bind (offeredOf policy)
  | values m => m.given? name

variable (source : OptionSource) (policy : MergePolicy)

theorem offered_eq (u : OptionTable) : u.offered policy
    = u.slots.entries.filterMap fun e => (offeredOf policy e.2).map (e.1, ·) := by
  unfold OptionTable.offered offeredOf
  congr 1
  funext ⟨name, slot⟩
  dsimp only
  split <;> rfl

theorem nodup_offers : (Listing.names (source.offers policy)).Nodup := by
  cases source with
  | table u =>
    show (Listing.names (u.offered policy)).Nodup
    rw [offered_eq]
    exact u.slots.nodup_names.sublist (Listing.names_filterMap_sublist _ _)
  | values m => exact m.nodup_names.sublist (List.filter_sublist.map _)

theorem find?_offers (name : Text) :
    Listing.find? (source.offers policy) name = source.offer? policy name := by
  cases source with
  | table u =>
    show Listing.find? (u.offered policy) name = _
    rw [offered_eq]
    exact Listing.find?_filterMap u.slots.nodup_names (offeredOf policy) name
  | values m => exact m.find?_given name

end OptionSource

namespace OptionTable

/-- The table with values of a source taken over, and the error that ended this. -/
def mergeFrom (t : OptionTable) (source : OptionSource) (policy : MergePolicy) :
    OptionTable × Option Error :=
  match source with
  | .table u => t.merge u policy
  | .values m => t.mergeValues m policy

theorem mergeFrom_eq (t : OptionTable) (source : OptionSource) (policy : MergePolicy) :
    t.mergeFrom source policy = takeOverAll policy t (source.offers policy) := by
  cases source <;> rfl

/-- **Merging by any policy**, from a table of any options or from a set of values:

* A merge comes to its end exactly if the table accepts all values that it takes over.
* Then these are stored in form as taken over, and all other slots are as they were.
* Then the same merge comes to its end again and changes nothing. -/
theorem mergeFrom_adopted (t : OptionTable) (source : OptionSource) (policy : MergePolicy) :
    ((t.mergeFrom source policy).2 = none ↔
      ∀ name value, source.offer? policy name = some value →
        t.adopts policy name value = true → t.accepts name value = true)
    ∧ ((t.mergeFrom source policy).2 = none →
      (∀ name value, source.offer? policy name = some value → t.adopts policy name value = true →
        (t.mergeFrom source policy).1.slots.find? name = some ⟨t.formed name value, .inherited⟩)
      ∧ (∀ name, (∀ value, source.offer? policy name = some value →
          t.adopts policy name value = false) →
        (t.mergeFrom source policy).1.slots.find? name = t.slots.find? name)
      ∧ (t.mergeFrom source policy).1.mergeFrom source policy
        = ((t.mergeFrom source policy).1, none)) := by
  have hnodup := source.nodup_offers policy
  have hfind := source.find?_offers policy
  simp only [mergeFrom_eq]
  refine ⟨(takeOverAll_eq_none_iff hnodup).trans ?_, fun h => ⟨?_, ?_, takeOverAll_again hnodup h⟩⟩
  · constructor
    · intro hall name value hoffer
      exact hall (name, value) (Listing.mem_of_find? ((hfind name).trans hoffer))
    · intro hall e he
      exact hall e.1 e.2 ((hfind e.1).symm.trans ((Listing.mem_iff_find? hnodup e.1 e.2).mp he))
  · intro name value hoffer hadopts
    rw [find?_takeOverAll_adopts hnodup h, hfind, hoffer, Option.filter_some, hadopts]
    rfl
  · intro name hkeeps
    rw [find?_takeOverAll_adopts hnodup h, hfind]
    cases hoffer : source.offer? policy name with
    | none => rfl
    | some value =>
      rw [Option.filter_some, hkeeps value hoffer]
      rfl

/-- The table of a column at the left of its slot. -/
def leftAligned : OptionTable :=
  (columnOptions.createTable (.ofList [(OptionName.name, .text "a"), (OptionName.length, .int 3),
    (OptionName.align, .text "left")])).toOption.getD default

/-- A set that gives the same side in capital letters, and nothing for the padding. -/
def capitalLeft : OptionMap :=
  .ofList [(OptionName.align, .text "LEFT"), (OptionName.padding, .null)]

/-- A side in capital letters differs from the one that is stored, so it is taken over every time;
what is stored then is the same side, as one that was taken over. -/
theorem mergeFrom_adopted_capitals :
    (leftAligned.mergeFrom (.values capitalLeft) ⟨.other, .undefined⟩).2 = none
    ∧ (leftAligned.mergeFrom (.values capitalLeft) ⟨.other, .undefined⟩).1.slots.find?
        OptionName.align = some ⟨.text "left", .inherited⟩
    ∧ (leftAligned.mergeFrom (.values capitalLeft) ⟨.other, .undefined⟩).1.slots.find?
        OptionName.padding = leftAligned.slots.find? OptionName.padding
    ∧ (leftAligned.mergeFrom (.values capitalLeft) ⟨.other, .undefined⟩).1.mergeFrom
        (.values capitalLeft) ⟨.other, .undefined⟩
      = ((leftAligned.mergeFrom (.values capitalLeft) ⟨.other, .undefined⟩).1, none) := by
  obtain ⟨-, hmerged⟩ := leftAligned.mergeFrom_adopted (.values capitalLeft) ⟨.other, .undefined⟩
  have hends : (leftAligned.mergeFrom (.values capitalLeft) ⟨.other, .undefined⟩).2 = none :=
    Option.isNone_iff_eq_none.mp (by decide)
  obtain ⟨hadopted, hkept, hagain⟩ := hmerged hends
  refine ⟨hends, ?_, hkept _ fun value hoffer => ?_, hagain⟩
  · exact hadopted OptionName.align (.text "LEFT") rfl (by decide)
  · exact absurd hoffer nofun

end OptionTable

end RecordLayout
