import RecordLayout.Proofs.Options.Adopting

/-!
# Merges that end early

A merge does not look through what is offered before it begins.  It takes values over in the order
of their names until it comes to one that it would take over and does not accept; there it ends, and
what it has taken over before stays.  A value that is not taken over is not looked at, so an option
set may hold a value that no table accepts, and be merged to its end.

## Main definitions

* `OptionTable.refuses`, `OptionTable.refusal`: a value that ends a merge, and the error it gives.
* `OptionTable.EndsAt`: the first value of a source that ends a merge.

## Main results

* `OptionTable.takeOverAll_of_refuses`: a merge that ends early is one of the values before.
* `OptionTable.mergeFrom_endsAt`: **what a merge that ends early has changed**.
* `OptionTable.changed_sideThenWide`: a refused merge that has changed a table, and a set that is
  not looked through.
-/

namespace RecordLayout

/-! ### Names in order -/

namespace Listing

variable {α : Type}

/-- Among entries that are in order, those before an entry are the ones of smaller names. -/
theorem find?_before {before rest : Listing α} {name : Text} {value : α}
    (h : (before ++ (name, value) :: rest).Pairwise fun a b => a.1 < b.1) (key : Text) :
    find? before key
      = if key < name then find? (before ++ (name, value) :: rest) key else none := by
  obtain ⟨-, hbehind, hacross⟩ := List.pairwise_append.mp h
  split
  · next hlt =>
    -- neither the entry nor one behind it has a name as small as that
    have hnone : find? ((name, value) :: rest) key = none := by
      refine (find?_eq_none_iff _ key).mpr fun hmem => ?_
      obtain ⟨e, he, rfl⟩ := List.mem_map.mp hmem
      rcases List.mem_cons.mp he with rfl | he
      · exact List.lt_irrefl _ hlt
      · exact List.lt_asymm hlt ((List.pairwise_cons.mp hbehind).1 e he)
    rw [find?_append, hnone, Option.or_none]
  · next hge =>
    refine (find?_eq_none_iff before key).mpr fun hmem => ?_
    obtain ⟨e, he, rfl⟩ := List.mem_map.mp hmem
    exact hge (hacross e he (name, value) List.mem_cons_self)

theorem nodup_of_pairwise {l : Listing α} (h : l.Pairwise fun a b => a.1 < b.1) :
    (names l).Nodup := by
  refine List.pairwise_map.mpr (h.imp fun hlt heq => ?_)
  rw [heq] at hlt
  exact List.lt_irrefl _ hlt

end Listing

/-- What a merge takes values from offers them in the order of their names. -/
theorem OptionSource.pairwise_offers (source : OptionSource) (policy : MergePolicy) :
    (source.offers policy).Pairwise fun a b => a.1 < b.1 := by
  cases source with
  | table u =>
    show (u.offered policy).Pairwise _
    rw [offered_eq]
    refine List.Pairwise.filterMap _ (fun a b hab x hx y hy => ?_) u.slots.sorted
    obtain ⟨_, _, rfl⟩ := Option.map_eq_some_iff.mp hx
    obtain ⟨_, _, rfl⟩ := Option.map_eq_some_iff.mp hy
    exact hab
  | values m => exact m.sorted.filter _

namespace OptionTable

variable {t u : OptionTable} {policy : MergePolicy} {name : Text} {value : Value}

/-! ### Values that end a merge -/

/-- Whether a value ends a merge: the table would take it over, and does not accept it. -/
def refuses (t : OptionTable) (policy : MergePolicy) (name : Text) (value : Value) : Bool :=
  t.adopts policy name value && !t.accepts name value

/-- The error that a value gives which is not accepted. -/
def refusal (t : OptionTable) (name : Text) (value : Value) : Error :=
  .invalidOption t.schema.owner name (((t.schema.find? name).map (·.expected)).getD [])
    (t.formed name value).toText

theorem refuses_eq_false_iff : t.refuses policy name value = false ↔
    (t.adopts policy name value = true → t.accepts name value = true) := by
  unfold refuses
  cases t.adopts policy name value <;> cases t.accepts name value <;> simp

theorem refuses_congr (hschema : u.schema = t.schema)
    (hslot : u.slots.find? name = t.slots.find? name) (policy : MergePolicy) (value : Value) :
    u.refuses policy name value = t.refuses policy name value := by
  unfold refuses
  rw [adopts_congr hschema hslot, accepts_congr hschema]

theorem refusal_congr (h : u.schema = t.schema) (name : Text) (value : Value) :
    u.refusal name value = t.refusal name value := by
  unfold refusal
  rw [h, formed_congr h]

/-- A value that ends a merge gives its error. -/
theorem takeOver_of_refuses (h : t.refuses policy name value = true) :
    t.takeOver policy name value = .error (t.refusal name value) := by
  obtain ⟨hadopts, hrejects⟩ := Bool.and_eq_true_iff.mp h
  obtain ⟨spec, hspec⟩ := spec_of_adopts hadopts
  rw [accepts_eq hspec, Bool.not_eq_true'] at hrejects
  rw [takeOver_eq, hadopts, if_pos rfl]
  unfold refusal
  rw [formed_eq hspec, hspec]
  unfold OptionSchema.normalize
  dsimp only
  rw [hrejects, OptionSchema.name_of_find? hspec]
  rfl

/-- Values that come after others which were taken to their end find the table as these left it. -/
theorem takeOverAll_append {l : List (Text × Value)} (h : (takeOverAll policy t l).2 = none)
    (rest : List (Text × Value)) :
    takeOverAll policy t (l ++ rest) = takeOverAll policy (takeOverAll policy t l).1 rest := by
  induction l generalizing t with
  | nil => rfl
  | cons e l ih =>
    obtain ⟨key, v⟩ := e
    rw [takeOverAll_cons] at h
    rw [List.cons_append, takeOverAll_cons, takeOverAll_cons]
    split at h
    · exact ih h
    · exact absurd h (by simp)

/-- **A merge that ends early is one of the values before**: it takes these over, and then gives the
error of the value that ends it. -/
theorem takeOverAll_of_refuses {before rest : List (Text × Value)}
    (hl : (Listing.names (before ++ (name, value) :: rest)).Nodup)
    (hbefore : ∀ e ∈ before, t.refuses policy e.1 e.2 = false)
    (h : t.refuses policy name value = true) :
    (takeOverAll policy t before).2 = none
      ∧ takeOverAll policy t (before ++ (name, value) :: rest)
        = ((takeOverAll policy t before).1, some (t.refusal name value)) := by
  rw [show Listing.names (before ++ (name, value) :: rest)
    = Listing.names before ++ name :: Listing.names rest from List.map_append] at hl
  obtain ⟨hnodup, -, hacross⟩ := List.nodup_append.mp hl
  have hends : (takeOverAll policy t before).2 = none :=
    (takeOverAll_eq_none_iff hnodup).mpr fun e he => refuses_eq_false_iff.mp (hbefore e he)
  have hschema := takeOverAll_schema policy t before
  -- the values before have other names, so this one finds its slot as it was
  have hfresh : Listing.find? before name = none :=
    (Listing.find?_eq_none_iff before name).mpr fun hmem =>
      hacross name hmem name List.mem_cons_self rfl
  have hslot := find?_takeOverAll_adopts hnodup hends name
  rw [hfresh] at hslot
  rw [← refuses_congr hschema hslot] at h
  refine ⟨hends, ?_⟩
  rw [takeOverAll_append hends, takeOverAll_cons, takeOver_of_refuses h, refusal_congr hschema]

/-! ### The first value that ends a merge -/

/-- The first value of a source that ends a merge. -/
structure EndsAt (t : OptionTable) (source : OptionSource) (policy : MergePolicy) (name : Text)
    (value : Value) : Prop where
  /-- The value is offered. -/
  offered : source.offer? policy name = some value
  /-- It is not accepted where it would be taken over. -/
  refused : t.refuses policy name value = true
  /-- Nothing of a smaller name is like that. -/
  first : ∀ key v, source.offer? policy key = some v → key < name → t.refuses policy key v = false

/-- A merge that comes to a value that ends it. -/
theorem mergeFrom_of_endsAt {source : OptionSource} (h : t.EndsAt source policy name value) :
    (t.mergeFrom source policy).2 = some (t.refusal name value)
      ∧ ∀ key, (t.mergeFrom source policy).1.slots.find? key =
        if key < name then
          (((source.offer? policy key).filter (t.adopts policy key)).map
            fun v => ⟨t.formed key v, .inherited⟩).or (t.slots.find? key)
        else t.slots.find? key := by
  have hsorted := source.pairwise_offers policy
  have hfind := source.find?_offers policy
  obtain ⟨before, rest, hoffers⟩ := List.append_of_mem
    (Listing.mem_of_find? ((hfind name).trans h.offered))
  rw [hoffers] at hsorted
  simp only [hoffers] at hfind
  have hnodup := Listing.nodup_of_pairwise hsorted
  have hbehind (e : Text × Value) (he : e ∈ before) : e.1 < name :=
    (List.pairwise_append.mp hsorted).2.2 e he (name, value) List.mem_cons_self
  -- what is offered before has a smaller name, so none of it ends the merge
  have hbefore (e : Text × Value) (he : e ∈ before) : t.refuses policy e.1 e.2 = false := by
    refine h.first e.1 e.2 ?_ (hbehind e he)
    rw [← hfind]
    exact (Listing.mem_iff_find? hnodup e.1 e.2).mp (List.mem_append_left _ he)
  obtain ⟨hends, hmerge⟩ := takeOverAll_of_refuses hnodup hbefore h.refused
  rw [mergeFrom_eq, hoffers, hmerge]
  refine ⟨rfl, fun key => ?_⟩
  have hpart := hnodup.sublist ((List.sublist_append_left before _).map Prod.fst)
  rw [find?_takeOverAll_adopts hpart hends, Listing.find?_before hsorted, hfind]
  split <;> rfl

/-- A merge that ends early comes to a value that ends it. -/
theorem exists_endsAt {source : OptionSource} (h : (t.mergeFrom source policy).2 ≠ none) :
    ∃ name value, t.EndsAt source policy name value := by
  have hsorted := source.pairwise_offers policy
  have hnodup := Listing.nodup_of_pairwise hsorted
  have hfind := source.find?_offers policy
  rw [mergeFrom_eq, ne_eq, takeOverAll_eq_none_iff hnodup] at h
  cases hfirst : (source.offers policy).find? fun e => t.refuses policy e.1 e.2 with
  | none =>
    refine absurd (fun e he => refuses_eq_false_iff.mp ?_) h
    simpa using List.find?_eq_none.mp hfirst e he
  | some e =>
    obtain ⟨name, value⟩ := e
    obtain ⟨hrefused, before, rest, hoffers, hbefore⟩ := List.find?_eq_some_iff_append.mp hfirst
    rw [hoffers] at hsorted hnodup
    simp only [hoffers] at hfind
    refine ⟨name, value, ?_, hrefused, fun key v hv hlt => ?_⟩
    · rw [← hfind]
      exact (Listing.mem_iff_find? hnodup name value).mp (by simp)
    · -- what has a smaller name is before the first value that is refused
      have hmem : Listing.find? before key = some v := by
        rw [Listing.find?_before hsorted, if_pos hlt, hfind, hv]
      simpa using hbefore (key, v) (Listing.mem_of_find? hmem)

/-- **What a merge that ends early has changed**, from a table of any options or from a set of
values, by any policy:

* A merge ends early exactly if some value ends it, and then it gives the error of the first one.
* What the table takes over of smaller names is stored in form as taken over, and all other slots
  are as they were.
* So the table is as it was exactly if all that it takes over of smaller names was stored
  already. -/
theorem mergeFrom_endsAt (t : OptionTable) (source : OptionSource) (policy : MergePolicy) :
    ((t.mergeFrom source policy).2 ≠ none ↔ ∃ name value, t.EndsAt source policy name value)
    ∧ ∀ name value, t.EndsAt source policy name value →
      (t.mergeFrom source policy).2 = some (t.refusal name value)
      ∧ (∀ key, (t.mergeFrom source policy).1.slots.find? key =
        if key < name then
          (((source.offer? policy key).filter (t.adopts policy key)).map
            fun v => ⟨t.formed key v, .inherited⟩).or (t.slots.find? key)
        else t.slots.find? key)
      ∧ ((∀ key, (t.mergeFrom source policy).1.slots.find? key = t.slots.find? key) ↔
        ∀ key v, source.offer? policy key = some v → key < name → t.adopts policy key v = true →
          t.slots.find? key = some ⟨t.formed key v, .inherited⟩) := by
  refine ⟨⟨exists_endsAt, fun ⟨name, value, h⟩ => ?_⟩, fun name value h => ?_⟩
  · rw [(mergeFrom_of_endsAt h).1]
    simp
  · obtain ⟨herror, hslots⟩ := mergeFrom_of_endsAt h
    refine ⟨herror, hslots, fun hsame key v hv hlt hadopts => ?_, fun hstored key => ?_⟩
    · rw [← hsame key, hslots key, if_pos hlt, hv, Option.filter_some, hadopts]
      rfl
    · rw [hslots key]
      split
      · next hlt =>
        cases hv : source.offer? policy key with
        | none => rfl
        | some v =>
          rw [Option.filter_some]
          split
          · next hadopts => exact (hstored key v hv hlt hadopts).symm
          · rfl
      · rfl

/-! ### Two tables -/

/-- The table of a column that has a name and a width only. -/
def unaligned : OptionTable :=
  (columnOptions.createTable (.ofList [(OptionName.name, .text "a"),
    (OptionName.length, .int 3)])).toOption.getD default

/-- A side, and a padding that is no character. -/
def sideThenWide : OptionMap :=
  .ofList [(OptionName.align, .text "left"), (OptionName.padding, .text "ab")]

/-- A side that there is not. -/
def noSide : OptionMap := .ofList [(OptionName.align, .text "middle")]

/-- The options of an owner that accepts every side and padding. -/
def looseOptions : OptionSchema where
  serial := firstFreeSerial
  owner := "source"
  specs := [{ name := OptionName.align }, { name := OptionName.padding }]

/-- A table with the same side and padding, which its own options accept. -/
def looseTable : OptionTable := (looseOptions.createTable sideThenWide).toOption.getD default

/-- The padding is the first value that is refused: the side before it is accepted. -/
theorem endsAt_sideThenWide :
    unaligned.EndsAt (.values sideThenWide) {} OptionName.padding (.text "ab") := by
  refine ⟨rfl, by decide, fun key v hv hlt => ?_⟩
  have hentries : sideThenWide.entries
      = [(OptionName.align, .text "left"), (OptionName.padding, .text "ab")] := rfl
  obtain ⟨hfind, -⟩ := OptionMap.given?_eq_some_iff.mp hv
  have hmem := Listing.mem_of_find? hfind
  rw [hentries, List.mem_cons, List.mem_singleton] at hmem
  rcases hmem with heq | heq
  · obtain ⟨rfl, rfl⟩ := Prod.mk.inj heq
    decide
  · rw [(Prod.mk.inj heq).1] at hlt
    exact absurd hlt (List.lt_irrefl _)

/-- A merge that ends at the padding has taken over the side before it. -/
theorem mergeFrom_endsAt_sideThenWide :
    unaligned.EndsAt (.values sideThenWide) {} OptionName.padding (.text "ab")
    ∧ (unaligned.mergeFrom (.values sideThenWide) {}).2
      = some (unaligned.refusal OptionName.padding (.text "ab"))
    ∧ (unaligned.mergeFrom (.values sideThenWide) {}).1.slots.find? OptionName.align
      = some ⟨.text "left", .inherited⟩
    ∧ (unaligned.mergeFrom (.values sideThenWide) {}).1.slots.find? OptionName.truncate
      = unaligned.slots.find? OptionName.truncate := by
  obtain ⟨herror, hslots, -⟩ :=
    (unaligned.mergeFrom_endsAt (.values sideThenWide) {}).2 _ _ endsAt_sideThenWide
  have hadopts : unaligned.adopts {} OptionName.align (.text "left") = true := by decide
  refine ⟨endsAt_sideThenWide, herror, ?_, ?_⟩
  · rw [hslots, if_pos (by decide), show OptionSource.offer? _ _ _ = some (.text "left") from rfl,
      Option.filter_some, hadopts]
    rfl
  · rw [hslots, if_neg (by decide)]

/-- **A merge that is refused may have changed a table, and a set is not looked through**:

* A side before a padding that is refused is taken over, from a set and from a table.
* A side that there is not is no error where the table has a side of its own. -/
theorem changed_sideThenWide :
    ((unaligned.mergeFrom (.values sideThenWide) {}).2.isSome = true
      ∧ unaligned.origin? OptionName.align = some .default
      ∧ (unaligned.mergeFrom (.values sideThenWide) {}).1.origin? OptionName.align
        = some .inherited)
    ∧ ((unaligned.mergeFrom (.table looseTable) {}).2.isSome = true
      ∧ (unaligned.mergeFrom (.table looseTable) {}).1.origin? OptionName.align
        = some .inherited)
    ∧ (leftAligned.inherits OptionName.align = true
      ∧ noSide.given? OptionName.align = some (.text "middle")
      ∧ leftAligned.accepts OptionName.align (.text "middle") = false
      ∧ (leftAligned.mergeFrom (.values noSide) {}).2.isNone = true) :=
  ⟨by decide, by decide, by decide, rfl, by decide,
    by decide⟩

end OptionTable

end RecordLayout
