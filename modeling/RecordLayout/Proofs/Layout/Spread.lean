import RecordLayout.Proofs.Layout.Closure

/-!
# Where a set comes to

A set that is refused nowhere goes through all schemas that can be reached and have not received it,
and through no schema twice.  A schema that it leaves behind has taken it over in all its tables and
let it wait at its references, and all schemas that it joins have received the set too, then or
before.  No other schema changes.

The walk is a search in depth, and while it is inside of a schema only some of the fields there have
been seen to; so what holds in the midst of a schema is a statement of its own.

## Main definitions

* `Schema.Handed`: a schema to which a set has come.
* `Layout.Admits`: a set that no table of a schema refuses.
* `Layout.Carries`: **what a set that is refused nowhere leaves behind**.
* `Layout.Midway`: the same in the midst of a schema.

## Main results

* `Layout.propagate_carries`: **a set that is admitted everywhere is carried to its end**.
-/

namespace RecordLayout

/-! ### Fields and schemas that a set comes to -/

/-- A field to which a set has come. -/
def Entry.handed (m : OptionMap) : Entry → Entry
  | .column c => .column (c.takeOver m).1
  | .nested t => .nested t
  | .reference ref => if ref.target?.isSome then .reference ref else .reference (ref.enqueue m)

/-- A schema to which a set has come. -/
structure Schema.Handed (m : OptionMap) (a b : Schema) : Prop where
  received : b.received = a.received ++ [m]
  options : b.options = (a.options.mergeValues m).1
  field : ∀ key, b.find? key = (a.find? key).map (Entry.handed m)

theorem Schema.Handed.hasReceived {a b : Schema} (h : a.Handed m b)
    (hm : OptionMap.equal m m = true) : b.hasReceived m = true := by
  unfold Schema.hasReceived
  rw [h.received, List.any_append]
  simp [hm]

theorem CustomCodec.adjust_adjust {change : OptionTable → OptionTable × Option Error}
    {c : CustomCodec} (h : ∀ t ∈ c.options?, change (change t).1 = ((change t).1, none)) :
    (c.adjust change).1.adjust change = ((c.adjust change).1, none) := by
  cases htable : c.options? with
  | none => simp only [adjust, htable, Option.map_none, Option.bind_none]
  | some t => simp only [adjust, htable, Option.map_some, Option.bind_some, h t htable]

theorem Codec.takeOver_takeOver {c : Codec} {m : OptionMap} (h : (c.takeOver m).2 = none) :
    (c.takeOver m).1.takeOver m = ((c.takeOver m).1, none) := by
  have hmerge {t : OptionTable} (ht : (t.mergeValues m).2 = none) :
      (t.mergeValues m).1.mergeValues m = ((t.mergeValues m).1, none) :=
    OptionTable.mergeValues_of_ignores (OptionTable.ignores_mergeValues ht)
  cases c with
  | column c => simp only [Codec.takeOver, Column.takeOver, hmerge h]
  | custom c =>
    have hadjust : (c.adjust (·.mergeValues m)).1.adjust (·.mergeValues m)
        = ((c.adjust (·.mergeValues m)).1, none) := by
      refine CustomCodec.adjust_adjust fun t ht => hmerge ?_
      rwa [Codec.takeOver_snd, show (Codec.custom c).table? = some t from ht] at h
    simp only [Codec.takeOver, hadjust]

theorem Reference.enqueue_enqueue {m : OptionMap} (hm : OptionMap.equal m m = true)
    (ref : Reference) : (ref.enqueue m).enqueue m = ref.enqueue m := by
  cases hwaits : ref.pending.any fun queued => queued.equal m with
  | true =>
    have hsame : ref.enqueue m = ref := by unfold enqueue; rw [hwaits, if_pos rfl]
    rw [hsame, hsame]
  | false =>
    have hadded : ref.enqueue m = { ref with pending := ref.pending ++ [m] } := by
      unfold enqueue
      rw [hwaits, if_neg Bool.false_ne_true]
    rw [hadded]
    unfold enqueue
    rw [if_pos (by simp [hm])]

/-- A set that comes to a field a second time changes nothing. -/
theorem Entry.handed_handed {m : OptionMap} (hm : OptionMap.equal m m = true) {e : Entry}
    (hcolumn : ∀ c, e = .column c → (c.takeOver m).2 = none) :
    (e.handed m).handed m = e.handed m := by
  cases e with
  | column c => simp only [handed, Codec.takeOver_takeOver (hcolumn c rfl)]
  | nested t => rfl
  | reference ref =>
    unfold handed
    cases htarget : ref.target? with
    | some t => simp [htarget]
    | none => simp [Layout.target?_enqueue, htarget, Reference.enqueue_enqueue hm]

namespace Layout

open Build

variable {L M N : Layout} {m : OptionMap} {P : SchemaId → Prop}

/-- A set that no table of a schema refuses. -/
def Admits (L : Layout) (s : SchemaId) (m : OptionMap) : Prop :=
  ∀ place t, L.table? s place = some t → t.Admits m

theorem Admits.options {s : SchemaId} (h : L.Admits s m) :
    ((L.schema s).options.mergeValues m).2 = none :=
  OptionTable.mergeValues_admits (h none _ rfl)

theorem Admits.codec {s : SchemaId} (h : L.Admits s m) {key : Text} {c : Codec}
    (hfind : (L.schema s).find? key = some (.column c)) : (c.takeOver m).2 = none := by
  rw [Codec.takeOver_snd]
  cases htable : c.table? with
  | none => rfl
  | some t =>
    refine OptionTable.mergeValues_admits (h (some key) t ?_)
    rw [table?_field, hfind]
    exact htable

/-- A field that leads to another schema stays as it is when a set comes to it. -/
theorem handed_of_known {s : SchemaId} {key : Text} {f : Field} {t : SchemaId} {e : Entry}
    (hfind : (L.schema s).find? key = some e) (hf : L.known? s key = some f)
    (ht : f.schema? = some t) (m : OptionMap) : e.handed m = e := by
  rcases known_schema_cases hf ht with ⟨hsome, -⟩ | ⟨ref, hsome, hbound, -⟩
  · obtain rfl := Option.some.inj (hfind.symm.trans hsome)
    rfl
  · obtain rfl := Option.some.inj (hfind.symm.trans hsome)
    simp only [Entry.handed, hbound, Option.isSome_some, if_true]

/-- The tables of a schema to which a set has come have the set merged. -/
theorem table?_of_handed {s : SchemaId} (h : (L.schema s).Handed m (M.schema s))
    (place : Option Text) :
    M.table? s place = (L.table? s place).map fun t => (t.mergeValues m).1 := by
  cases place with
  | none => exact congrArg some h.options
  | some key =>
    rw [table?_field, table?_field, h.field key]
    cases (L.schema s).find? key with
    | none => rfl
    | some e =>
      cases e with
      | column c => exact table?_takeOver c m
      | nested t => rfl
      | reference ref =>
        cases htarget : ref.target? <;> simp [Entry.handed, Entry.table?, htarget]

/-! ### What a set leaves behind -/

/-- A schema is as it was, or it is one of `P` and has received a set, and so have all schemas that
it joins. -/
def CarriedAt (P : SchemaId → Prop) (m : OptionMap) (L M : Layout) (t : SchemaId) : Prop :=
  M.schema t = L.schema t ∨
    (P t ∧ (L.schema t).hasReceived m = false ∧ (L.schema t).Handed m (M.schema t)
      ∧ ∀ u, L.Joins t u → (M.schema u).hasReceived m = true)

/-- What a set that is refused nowhere leaves behind. -/
structure Carries (P : SchemaId → Prop) (m : OptionMap) (L M : Layout) : Prop where
  evolves : L.Evolves 0 M
  schema : ∀ t, CarriedAt P m L M t

namespace Carries

theorem refl (P : SchemaId → Prop) (m : OptionMap) (L : Layout) : Carries P m L L :=
  ⟨.refl 0 L, fun _ => .inl rfl⟩

/-- No schema receives a set twice, so one that has it stays as it is. -/
theorem schema_eq (h : Carries P m L M) {t : SchemaId} (ht : (L.schema t).hasReceived m = true) :
    M.schema t = L.schema t := by
  rcases h.schema t with hsame | ⟨-, hlacks, -⟩
  · exact hsame
  · exact absurd (ht.symm.trans hlacks) (by decide)

end Carries

/-! ### In the midst of a schema -/

/-- What lies between the time at which a set comes to a schema `s` and a time at which not all of
its fields have been seen to. -/
structure Midway (P : SchemaId → Prop) (m : OptionMap) (s : SchemaId) (L M : Layout) : Prop where
  evolves : L.Evolves 0 M
  others : ∀ t, t ≠ s → CarriedAt P m L M t
  received : (M.schema s).received = (L.schema s).received ++ [m]
  options : (M.schema s).options = ((L.schema s).options.mergeValues m).1
  field : ∀ key, (M.schema s).find? key = (L.schema s).find? key
    ∨ (M.schema s).find? key = ((L.schema s).find? key).map (Entry.handed m)

/-- A set has come to a field of a schema, and to the schema behind it. -/
def SeenTo (m : OptionMap) (s : SchemaId) (L : Layout) (key : Text) (M : Layout) : Prop :=
  (M.schema s).find? key = ((L.schema s).find? key).map (Entry.handed m)
    ∧ ∀ f u, L.known? s key = some f → f.schema? = some u → (M.schema u).hasReceived m = true

namespace Midway

variable {s : SchemaId}

theorem hasReceived (h : Midway P m s L M) (hm : OptionMap.equal m m = true) :
    (M.schema s).hasReceived m = true := by
  unfold Schema.hasReceived
  rw [h.received, List.any_append]
  simp [hm]

/-- At the beginning the schema has noted the set and taken it over itself. -/
theorem start (hs : s < L.schemas.length) : Midway P m s L ((L.noted s m).taken s m) := by
  have hnoted : (L.noted s m).schema s
      = { L.schema s with received := (L.schema s).received ++ [m] } := by
    rw [noted, schema_modify, if_pos ⟨rfl, hs⟩]
  have hlength : s < (L.noted s m).schemas.length := by
    rw [noted, length_modify]
    exact hs
  have htaken : ((L.noted s m).taken s m).schema s
      = { L.schema s with
          received := (L.schema s).received ++ [m]
          options := ((L.schema s).options.mergeValues m).1 } := by
    rw [taken, schema_modify, if_pos ⟨rfl, hlength⟩, hnoted]
  refine ⟨(Evolves.single (.received s m)).trans (.single (.options s m)), fun t ht => .inl ?_,
    by rw [htaken], by rw [htaken], fun key => .inl (by rw [htaken]; rfl)⟩
  rw [taken, schema_modify, if_neg fun h => ht h.1.symm, noted, schema_modify,
    if_neg fun h => ht h.1.symm]

/-- The set has come to one more field, which is no way to another schema. -/
theorem hand (h : Midway P m s L M) {key : Text} {e e' : Entry}
    (he : (L.schema s).find? key = some e) (he' : (M.schema s).find? key = some e')
    (hidempotent : (e.handed m).handed m = e.handed m)
    (hchange : Change 0 M (M.modifyEntry s key fun _ => e'.handed m))
    (hleaf : ∀ f u, L.known? s key = some f → f.schema? ≠ some u) :
    Midway P m s L (M.modifyEntry s key fun _ => e'.handed m)
      ∧ SeenTo m s L key (M.modifyEntry s key fun _ => e'.handed m)
      ∧ ∀ k, SeenTo m s L k M → SeenTo m s L k (M.modifyEntry s key fun _ => e'.handed m) := by
  -- keys need not be distinct for this: the set may have come to the field before
  have hhanded : e'.handed m = e.handed m := by
    rcases h.field key with hfield | hfield
    · rw [he', he] at hfield
      rw [Option.some.inj hfield]
    · rw [he', he] at hfield
      rw [Option.some.inj hfield, hidempotent]
  have hfind (k : Text) := find?_modifyEntry (f := fun _ => e'.handed m) he' s k
  have hseen : ((M.modifyEntry s key fun _ => e'.handed m).schema s).find? key
      = ((L.schema s).find? key).map (Entry.handed m) := by
    rw [hfind key, if_pos ⟨rfl, rfl⟩, he, hhanded]
    rfl
  have hother (t : SchemaId) (ht : t ≠ s) :
      (M.modifyEntry s key fun _ => e'.handed m).schema t = M.schema t := by
    rw [modifyEntry, schema_modify, if_neg fun hand => ht hand.1.symm]
  have hevolves := Evolves.single hchange
  refine ⟨⟨h.evolves.trans hevolves, fun t ht => ?_, ?_, ?_, fun k => ?_⟩,
    ⟨hseen, fun f u hf hu => absurd hu (hleaf f u hf)⟩, fun k hk => ?_⟩
  · unfold CarriedAt
    rw [hother t ht]
    rcases h.others t ht with hsame | ⟨hP, hlacks, hhand, hjoined⟩
    · exact .inl hsame
    · exact .inr ⟨hP, hlacks, hhand, fun u hu => hevolves.hasReceived (hjoined u hu)⟩
  · rw [received_modifyEntry]
    exact h.received
  · rw [options_modifyEntry]
    exact h.options
  · by_cases hk : k = key
    · subst hk
      exact .inr hseen
    · rw [hfind k, if_neg fun hand => hk hand.2]
      exact h.field k
  · by_cases hkey : k = key
    · subst hkey
      exact ⟨hseen, fun f u hf hu => absurd hu (hleaf f u hf)⟩
    · refine ⟨?_, fun f u hf hu => hevolves.hasReceived (hk.2 f u hf hu)⟩
      rw [hfind k, if_neg fun hand => hkey hand.2]
      exact hk.1

/-- The set has come to its end in a schema behind a field. -/
theorem descend (h : Midway P m s L M) (hm : OptionMap.equal m m = true) (hL : L.WellMade)
    (hMN : Carries P m M N) {key : Text} {f : Field} {t : SchemaId}
    (hf : M.known? s key = some f) (ht : f.schema? = some t)
    (hhas : (N.schema t).hasReceived m = true) :
    Midway P m s L N ∧ SeenTo m s L key N ∧ ∀ k, SeenTo m s L k M → SeenTo m s L k N := by
  -- the walk may have come back to `s`, but `s` had received the set by then
  have hsame := hMN.schema_eq (h.hasReceived hm)
  have hfollows := h.evolves.follows hL
  refine ⟨⟨h.evolves.trans hMN.evolves, fun u hu => ?_, by rw [hsame]; exact h.received,
    by rw [hsame]; exact h.options, fun k => by rw [hsame]; exact h.field k⟩, ⟨?_, ?_⟩, ?_⟩
  · rcases h.others u hu with hidle | ⟨hP, hlacks, hhanded, hjoined⟩
    · rcases hMN.schema u with hidle' | ⟨hP, hlacks, hhanded, hjoined⟩
      · exact .inl (hidle'.trans hidle)
      · rw [hidle] at hlacks hhanded
        exact .inr ⟨hP, hlacks, hhanded, fun v hv => hjoined v (hfollows.joins_iff.mpr hv)⟩
    · unfold CarriedAt
      rw [hMN.schema_eq (hhanded.hasReceived hm)]
      exact .inr ⟨hP, hlacks, hhanded, fun v hv => hMN.evolves.hasReceived (hjoined v hv)⟩
  · rw [hsame]
    rcases h.field key with hfield | hfield
    · rw [hfield]
      cases hfind : (L.schema s).find? key with
      | none => rfl
      | some e =>
        exact congrArg some (handed_of_known (hfield.trans hfind) hf ht m).symm
    · exact hfield
  · intro g u hg hu
    obtain ⟨g', hg', hgg'⟩ := hfollows.known hg
    obtain rfl := Option.some.inj (hg'.symm.trans hf)
    obtain rfl : t = u := Option.some.inj (ht.symm.trans (hgg'.schema.trans hu))
    exact hhas
  · intro k hk
    exact ⟨by rw [hsame]; exact hk.1, fun g u hg hu => hMN.evolves.hasReceived (hk.2 g u hg hu)⟩

/-- What admits the set before it comes to `s` admits it in the midst of `s`, unless it has come to
it by then. -/
theorem admits (h : Midway P m s L M) (hm : OptionMap.equal m m = true)
    (hadmits : ∀ t, P t → (L.schema t).hasReceived m = false → L.Admits t m) {t : SchemaId}
    (ht : P t) (hlacks : (M.schema t).hasReceived m = false) : M.Admits t m := by
  by_cases hts : t = s
  · rw [hts, h.hasReceived hm] at hlacks
    exact absurd hlacks (by decide)
  · rcases h.others t hts with hidle | ⟨-, -, hhanded, -⟩
    · rw [hidle] at hlacks
      intro place tab htab
      rw [table?_of_schema hidle place] at htab
      exact hadmits t ht hlacks place tab htab
    · rw [hhanded.hasReceived hm] at hlacks
      exact absurd hlacks (by decide)

/-- All fields have been seen to. -/
theorem finish (h : Midway P m s L M) (hP : P s) (hlacks : (L.schema s).hasReceived m = false)
    (hall : ∀ key ∈ (L.schema s).fields, SeenTo m s L key M) : Carries P m L M := by
  refine ⟨h.evolves, fun t => ?_⟩
  by_cases ht : t = s
  · subst ht
    refine .inr ⟨hP, hlacks, ⟨h.received, h.options, fun key => ?_⟩, fun u hu => ?_⟩
    · cases hfind : (L.schema t).find? key with
      | some e => exact hfind ▸ (hall key (Listing.mem_names_of_find? hfind)).1
      | none =>
        rcases h.field key with hfield | hfield
        · rw [hfield, hfind]
          rfl
        · rw [hfield, hfind]
    · obtain ⟨key, f, hf, hfu⟩ := hu
      refine (hall key ?_).2 f u hf hfu
      cases hfind : (L.schema t).find? key with
      | some e => exact Listing.mem_names_of_find? hfind
      | none => rw [known?, hfind] at hf; exact absurd hf (by simp)
  · exact h.others t ht

end Midway

/-! ### The walk -/

/-- A set comes to a field in the midst of a schema. -/
theorem propagateInto_carries (hm : OptionMap.equal m m = true) (hL : L.WellMade) {s : SchemaId}
    (hadmits : L.Admits s m) {descend : SchemaId → Build Unit} (h : Midway P m s L M) {key : Text}
    (hdescend : ∀ t, M.Joins s t → (descend t).Ends M fun res N =>
      res = .ok () ∧ Carries P m M N ∧ (N.schema t).hasReceived m = true) :
    (propagateInto descend m s key).Ends M fun res N => res = .ok () ∧ Midway P m s L N
      ∧ SeenTo m s L key N ∧ ∀ k, SeenTo m s L k M → SeenTo m s L k N := by
  have hfollows := h.evolves.follows hL
  refine ends_propagateInto (fun c hc => ?_) (fun t f hf ht => ?_) (fun ref href hnone => ?_)
    fun hnone => ⟨rfl, h, ?_, fun _ hk => hk⟩
  · -- a column that has taken the set over already takes nothing over now
    obtain ⟨c₀, hc₀⟩ := hfollows.column_back hc
    have htakes := hadmits.codec hc₀
    have haccepted : (c.takeOver m).2 = none := by
      rcases h.field key with hfield | hfield
      · rw [hc, hc₀] at hfield
        rw [Entry.column.inj (Option.some.inj hfield)]
        exact htakes
      · rw [hc, hc₀] at hfield
        rw [Entry.column.inj (Option.some.inj hfield), Codec.takeOver_takeOver htakes]
    rw [haccepted]
    refine ⟨rfl, h.hand hc₀ hc (Entry.handed_handed hm fun d hd => ?_) (.codec hc m) ?_⟩
    · exact Entry.column.inj hd ▸ htakes
    · intro f u hf hu
      rw [known?, hc₀] at hf
      exact absurd (Option.some.inj hf ▸ hu) (by simp [Field.schema?])
  · refine (hdescend t ⟨key, f, hf, ht⟩).mono fun res N hN => ?_
    obtain ⟨hres, hMN, hhas⟩ := hN
    exact ⟨hres, h.descend hm hL hMN hf ht hhas⟩
  · -- nor does a set wait twice at a reference
    obtain ⟨p, hp, hpnone⟩ := hfollows.reference_back href hnone
    have hhanded : (Entry.reference ref).handed m = .reference (ref.enqueue m) := by
      simp only [Entry.handed, hnone, Option.isSome_none, Bool.false_eq_true, if_false]
    have hstep := h.hand hp href (Entry.handed_handed hm fun d hd => absurd hd (by simp))
      (by rw [hhanded]; exact .enqueued href hnone m) fun f u hf hu => by
        simp only [known?, hp, hpnone, Option.map_none] at hf
        exact absurd hf (by simp)
    rw [hhanded] at hstep
    exact ⟨rfl, hstep⟩
  · refine ⟨?_, fun f u hf hu => ?_⟩
    · rcases h.field key with hfield | hfield
      · rw [hnone, ← hfield, hnone]
        rfl
      · exact hfield
    · obtain ⟨g, hg, -⟩ := hfollows.known hf
      rw [known?, hnone] at hg
      exact absurd hg (by simp)

/-- Where a set stops, it is empty or has been received. -/
theorem hasReceived_of_stop {s : SchemaId}
    (h : m.isEmpty = true ∨ (L.schema s).hasReceived m = true) (hsome : m.isEmpty = false) :
    (L.schema s).hasReceived m = true :=
  h.resolve_left fun hempty => absurd (hempty.symm.trans hsome) (by decide)

/-- A set that no schema of `P` refuses, and that no way leads out of `P`, is carried to its end. -/
theorem propagateWithin_carries (hm : OptionMap.equal m m = true) {depth : Nat} {s : SchemaId}
    (hL : L.WellMade) (hclosed : ∀ t u, P t → L.Joins t u → P u)
    (hadmits : ∀ t, P t → (L.schema t).hasReceived m = false → L.Admits t m) (hP : P s)
    (hs : s < L.schemas.length) (hcard : (L.lacking m).card ≤ depth) :
    (propagateWithin depth m s).Ends L fun res M => res = .ok () ∧ Carries P m L M
      ∧ (m.isEmpty = false → (M.schema s).hasReceived m = true) := by
  -- each step is made in a schema that has not received the set, and then one fewer is left
  induction depth generalizing s L with
  | zero =>
    refine ends_propagateWithin (fun h => ⟨rfl, .refl P m L, hasReceived_of_stop h⟩)
      (fun hlacks _ => ?_) fun _ _ d hd => by omega
    have hempty := Finset.card_eq_zero.mp (Nat.le_zero.mp hcard)
    exact absurd (mem_lacking.mpr ⟨hs, hlacks⟩) (by rw [hempty]; exact Finset.notMem_empty s)
  | succ depth ih =>
    refine ends_propagateWithin (fun h => ⟨rfl, .refl P m L, hasReceived_of_stop h⟩)
      (fun _ hd => by omega) fun hsome hlacks d hd => ?_
    obtain rfl : depth = d := by omega
    refine ends_bind.mpr (ends_noteReceived.mpr (ends_bind.mpr (ends_takeOverOptions.mpr ?_)))
    have hadmitsS := hadmits s hP hlacks
    have hoptions : (((L.noted s m).schema s).options.mergeValues m).2 = none := by
      rw [noted, schema_modify, if_pos ⟨rfl, hs⟩]
      exact hadmitsS.options
    rw [hoptions]
    -- in every schema behind a field the set finds itself in the midst of `s`
    have hfields := ends_forM_each (I := Midway P m s L) (P := SeenTo m s L) (L.schema s).fields
      (Midway.start hs) fun key _ M hM => propagateInto_carries hm hL hadmitsS hM fun t ht => by
        have hmade := hM.evolves.wellMade hL
        have hfollows := hM.evolves.follows hL
        obtain ⟨k, f, hf, hft⟩ := ht
        have hjoins : L.Joins s t := hfollows.joins_iff.mp ⟨k, f, hf, hft⟩
        have hfewer := card_lacking_lt hM.evolves hL hs hlacks (hM.hasReceived hm)
        exact (ih hmade (fun u v hu huv => hclosed u v hu (hfollows.joins_iff.mp huv))
          (fun u hu hlacksU => hM.admits hm hadmits hu hlacksU) (hclosed s t hP hjoins)
          (hmade.coherent.known_lt hf hft) (by omega)).mono
            fun res N hN => ⟨hN.1, hN.2.1, hN.2.2 hsome⟩
    refine hfields.mono fun res M hM => ?_
    obtain ⟨hres, hmidway, hall, -⟩ := hM
    exact ⟨hres, hmidway.finish hP hlacks hall, fun _ => hmidway.hasReceived hm⟩

/-- **A set that is admitted everywhere is carried to its end.** -/
theorem propagate_carries (hm : OptionMap.equal m m = true) {s : SchemaId} (hL : L.WellMade)
    (hadmits : ∀ t, L.Reaches s t → L.Admits t m) (hs : s < L.schemas.length) :
    (propagate m s).Ends L fun res M => res = .ok () ∧ Carries (L.Reaches s) m L M
      ∧ (m.isEmpty = false → (M.schema s).hasReceived m = true) :=
  .of_eq (y := propagateWithin L.schemas.length m s) rfl
    (propagateWithin_carries hm hL (fun _ _ ht htu => ht.tail htu)
      (fun t ht _ => hadmits t ht) .refl hs (card_lacking_le m))

end Layout

end RecordLayout
