import RecordLayout.Proofs.Layout.Measure
import RecordLayout.Proofs.Layout.Queues
import RecordLayout.Proofs.Layout.Spread

/-!
# Steady layouts

A set that schemas take is refused nowhere, if all codecs receive what schemas hand down; so where
it comes it is carried to its end, and what a schema has received is covered from it on.  A layout
is steady if that is so.  In a steady layout a set may leave out the schemas that have received it,
because the schemas and columns that they reach take nothing over from it any more.

What is covered are the options that schemas inherit.  A codec that is made elsewhere may inherit
others, which no schema passes on to a codec that is declared later.

When a reference gets its target, all that its schema defines comes to the target first, and the
sets that were waiting find nothing to do.  So no options are refused then, and layouts stay steady.

## Main definitions

* `Layout.Supplies`: all options of a set that schemas inherit are covered from a schema on.
* `Layout.Steady`: **what a schema has received is covered**, and queues are in order.
* `Layout.Settles`: what a set leaves behind in a steady layout.
* `Layout.Idles`: what a set leaves behind that is supplied already.
* `Layout.Amid`: the layouts in the midst of queries.

## Main results

* `Layout.propagate_settles`: a set that is admitted settles.
* `Layout.bind_settles`: **a reference that gets its target passes all its options on**.
* `Layout.steady_kept`: **steady layouts stay steady**, and in them no options are refused.
* `Layout.amid_kept`: so do all layouts in the midst of queries.
-/

namespace RecordLayout

namespace Layout

open Build

variable {r : Nat} {E : SchemaId → SchemaId → Prop} {L M N : Layout} {s t : SchemaId}
  {m : OptionMap}

/-! ### Options that are covered -/

/-- All options that a set gives and schemas inherit are covered from a schema on. -/
def Supplies (E : SchemaId → SchemaId → Prop) (L : Layout) (s : SchemaId) (m : OptionMap) : Prop :=
  ∀ key value, m.given? key = some value → schemaOptions.inherits key = true → Covers E L s key

namespace Supplies

theorem reach (h : Supplies E L s m) (hst : Relation.ReflTransGen E s t) : Supplies E L t m :=
  fun key value hvalue hshared => (h key value hvalue hshared).reach hst

theorem evolve (h : Supplies E L s m) (hLM : L.Evolves r M) : Supplies E M s m :=
  fun key value hvalue hshared =>
    (h key value hvalue hshared).mono (fun _ _ => id) fun _ => hLM.defines

/-- Equal sets give the same options. -/
theorem of_equal {n : OptionMap} (h : Supplies E L s m) (hmn : m.equal n = true) :
    Supplies E L s n := by
  intro key value hvalue hshared
  obtain ⟨v, hv, -⟩ := OptionMap.given?_of_equal hmn hvalue
  exact h key v hv hshared

/-- An empty set gives nothing. -/
theorem of_isEmpty (hm : m.isEmpty = true) : Supplies E L s m := by
  intro key value hvalue
  have hnone : m.entries = [] := List.isEmpty_iff.mp hm
  have hfind := (OptionMap.given?_eq_some_iff.mp hvalue).1
  unfold NameMap.find? at hfind
  rw [hnone] at hfind
  exact absurd hfind (by simp)

/-- No table of a schema has an option open that is covered. -/
theorem isOpen_eq_false (h : Supplies E L s m) {place : Option Text} {tab : OptionTable}
    (htab : L.table? s place = some tab) {key : Text} {value : Value}
    (hvalue : m.given? key = some value) (hshared : schemaOptions.inherits key = true) :
    tab.isOpen key = false :=
  OptionTable.isOpen_eq_false_iff.mpr ((h key value hvalue hshared).defines place tab htab)

/-- Schemas and columns ignore a set whose options are covered. -/
theorem ignores (h : Supplies E L s m) {place : Option Text} {tab : OptionTable}
    (htab : L.table? s place = some tab) (hstandard : tab.Standard) : tab.Ignores m := by
  refine fun key value hvalue => OptionTable.isOpen_eq_false_iff.mpr fun hinherits => ?_
  have hclosed := h.isOpen_eq_false htab hvalue (hstandard.inherits hinherits)
  exact OptionTable.isOpen_eq_false_iff.mp hclosed hinherits

end Supplies

/-- In a well-made layout with valid options and queues in order, where codecs receive what is
handed down, what a schema has received is covered along `E`. -/
structure SteadyAlong (E : SchemaId → SchemaId → Prop) (L : Layout) : Prop where
  wellMade : L.WellMade
  tabled : L.Tabled
  receptive : L.Receptive
  queues : L.Queues
  delivered : ∀ s, ∀ m ∈ (L.schema s).received, schemaOptions.Takes m → Supplies E L s m

/-- What a schema has received is covered along all ways of the layout. -/
def Steady (L : Layout) : Prop := SteadyAlong L.Joins L

/-- A set that schemas take, and one has received, is covered. -/
theorem SteadyAlong.supplies (hL : SteadyAlong E L) (hm : schemaOptions.Takes m)
    (h : (L.schema s).hasReceived m = true) : Supplies E L s m := by
  obtain ⟨n, hn, hnm⟩ := List.any_eq_true.mp h
  exact (hL.delivered s n hn (OptionMap.takes_of_equal hnm hm)).of_equal hnm

/-- A set that schemas take is admitted by all. -/
theorem SteadyAlong.admits (hL : SteadyAlong E L) (hm : schemaOptions.Takes m)
    (hs : s < L.schemas.length) : L.Admits s m :=
  fun _ _ htab =>
    OptionTable.admits_of_takes (hm.received (hL.receptive.table? hL.tabled hs htab))

/-- So is one that is supplied, whether schemas take it or not. -/
theorem SteadyAlong.admits_of_supplies (hL : SteadyAlong E L) (hm : Supplies E L s m)
    (hs : s < L.schemas.length) : L.Admits s m :=
  fun _ _ htab => OptionTable.admits_of_receives (hL.receptive.table? hL.tabled hs htab)
    fun _ _ => hm.isOpen_eq_false htab

/-! ### Sets that settle -/

/-- What lies between two layouts when a set has settled from a schema on: all schemas and columns
that can be reached have merged it, and no schema has changed that cannot. -/
structure Settles (E : SchemaId → SchemaId → Prop) (m : OptionMap) (t : SchemaId) (L M : Layout) :
    Prop where
  evolves : L.Evolves 0 M
  steady : SteadyAlong E M
  supplies : Supplies E M t m
  reached : ∀ u, L.Reaches t u → ∀ place tab, L.table? u place = some tab → tab.Standard →
    M.table? u place = some (tab.mergeValues m).1
  others : ∀ u, ¬ L.Reaches t u → M.schema u = L.schema u

/-- A set comes to every schema on a way, until one supplies all the rest. -/
theorem Carries.comes (h : Carries (L.Reaches t) m L M) (hE : ∀ a b, E a b → L.Joins a b)
    (hskip : ∀ u, L.Reaches t u → (L.schema u).hasReceived m = true → Supplies E L u m)
    (hstart : m.isEmpty = false → (M.schema t).hasReceived m = true) {u : SchemaId}
    (hu : Relation.ReflTransGen E t u) :
    Supplies E L u m ∨ ((L.schema u).Handed m (M.schema u)
      ∧ ∀ v, L.Joins u v → (M.schema v).hasReceived m = true) := by
  -- a schema that has the set now had it before, and then supplies it, or it has just come there
  have hmarked {u : SchemaId} (hu : Relation.ReflTransGen E t u)
      (hhas : (M.schema u).hasReceived m = true) :
      Supplies E L u m ∨ ((L.schema u).Handed m (M.schema u)
        ∧ ∀ v, L.Joins u v → (M.schema v).hasReceived m = true) := by
    rcases h.schema u with hsame | ⟨-, -, hhanded, hjoined⟩
    · exact .inl (hskip u (Relation.ReflTransGen.mono hE _ _ hu) (hsame ▸ hhas))
    · exact .inr ⟨hhanded, hjoined⟩
  induction hu with
  | refl =>
    cases hempty : m.isEmpty with
    | true => exact .inl (.of_isEmpty hempty)
    | false => exact hmarked .refl (hstart hempty)
  | @tail u v hu huv ih =>
    rcases ih with hsupplies | ⟨-, hjoined⟩
    · exact .inl (hsupplies.reach (.single huv))
    · exact hmarked (hu.tail huv) (hjoined v (hE u v huv))

/-- Where a set has come, or finds nothing to do, schemas and columns have it merged. -/
theorem Carries.merged (h : Carries (L.Reaches t) m L M) {u : SchemaId}
    (hu : Supplies E L u m ∨ (L.schema u).Handed m (M.schema u)) {place : Option Text}
    {tab : OptionTable} (htab : L.table? u place = some tab) (hstandard : tab.Standard) :
    M.table? u place = some (tab.mergeValues m).1 := by
  have hhanded (hhanded : (L.schema u).Handed m (M.schema u)) :
      M.table? u place = some (tab.mergeValues m).1 := by
    rw [table?_of_handed hhanded place, htab]
    rfl
  rcases hu with hsupplies | hu
  · rcases h.schema u with hsame | ⟨-, -, hu, -⟩
    · rw [table?_of_schema hsame place, htab,
        OptionTable.mergeValues_of_ignores (hsupplies.ignores htab hstandard)]
    · exact hhanded hu
  · exact hhanded hu

/-- **A set that is admitted settles**, if the schemas that have received it before supply it. -/
theorem propagate_settles (hL : SteadyAlong E L) (hm : m.equal m = true)
    (ht : t < L.schemas.length) (hE : ∀ a b, E a b → L.Joins a b)
    (hreach : ∀ u, L.Reaches t u → Relation.ReflTransGen E t u)
    (hskip : ∀ u, L.Reaches t u → (L.schema u).hasReceived m = true → Supplies E L u m)
    (hadmits : ∀ u, L.Reaches t u → L.Admits u m) :
    (propagate m t).Ends L fun res M => res = .ok () ∧ Settles E m t L M := by
  have hends := (propagate_carries hm hL.wellMade hadmits ht).and (propagate_spreads hm t hL.queues)
  refine hends.mono fun res M hM => ?_
  obtain ⟨⟨hres, hcarries, hstart⟩, hspreads⟩ := hM
  have hevolves := hcarries.evolves
  have hcomes (u : SchemaId) (hu : L.Reaches t u) :
      Supplies E L u m ∨ (L.schema u).Handed m (M.schema u) :=
    (hcarries.comes hE hskip hstart (hreach u hu)).imp id And.left
  have hothers (u : SchemaId) (hu : ¬ L.Reaches t u) : M.schema u = L.schema u :=
    (hcarries.schema u).resolve_right fun h => hu h.1
  have hsupplies : Supplies E M t m := by
    intro key value hvalue hshared u hu
    have hu := Relation.ReflTransGen.mono hE _ _ hu
    rcases hcomes u hu with hbefore | hhanded
    · exact (hbefore.evolve hevolves key value hvalue hshared).defines
    · intro place tab htab hinherits
      rw [table?_of_handed hhanded place] at htab
      obtain ⟨old, hold, rfl⟩ := Option.map_eq_some_iff.mp htab
      rw [OptionTable.inherits_congr (OptionTable.mergeValues_schema old m)] at hinherits
      exact OptionTable.isDefined_mergeValues
        (OptionTable.mergeValues_admits (hadmits u hu place old hold)) hvalue hinherits
  refine ⟨hres, hevolves, ⟨hevolves.wellMade hL.wellMade, hevolves.tabled hL.tabled,
    hevolves.receptive hL.receptive, hspreads.queues, fun u n hn htakes => ?_⟩, hsupplies,
    fun u hu place tab => hcarries.merged (hcomes u hu), hothers⟩
  -- a schema that is reached may have received one set more, the others are as they were
  by_cases hu : L.Reaches t u
  · rcases hspreads.received u n hn with hbefore | rfl
    · exact (hL.delivered u n hbefore htakes).evolve hevolves
    · exact hsupplies.reach (hreach u hu)
  · rw [hothers u hu] at hn
    exact (hL.delivered u n hn htakes).evolve hevolves

/-- A sound set settles. -/
theorem propagate_settles_of_sound (hL : SteadyAlong E L) (hm : m.Sound)
    (ht : t < L.schemas.length) (hE : ∀ a b, E a b → L.Joins a b)
    (hreach : ∀ u, L.Reaches t u → Relation.ReflTransGen E t u) :
    (propagate m t).Ends L fun res M => res = .ok () ∧ Settles E m t L M :=
  propagate_settles hL hm.self ht hE hreach (fun _ _ hhas => hL.supplies hm.takes hhas)
    fun _ hu => hL.admits hm.takes (hL.wellMade.coherent.reaches_lt ht hu)

/-- What lies between two layouts when a set has come to nothing from a schema on: schemas and
columns have the options that they had, and no schema has changed that cannot be reached. -/
structure Idles (t : SchemaId) (L M : Layout) : Prop where
  standard : ∀ u place tab, L.table? u place = some tab → tab.Standard → M.table? u place = some tab
  others : ∀ u, ¬ L.Reaches t u → M.schema u = L.schema u

theorem Idles.refl (t : SchemaId) (L : Layout) : Idles t L L :=
  ⟨fun _ _ _ htab _ => htab, fun _ _ => rfl⟩

theorem Idles.trans (h : Idles t L M) (h' : Idles t M N) (hjoins : M.Joins = L.Joins) :
    Idles t L N := by
  refine ⟨fun u place tab htab hstandard => ?_, fun u hu => ?_⟩
  · exact h'.standard u place tab (h.standard u place tab htab hstandard) hstandard
  · refine (h'.others u fun hreaches => hu ?_).trans (h.others u hu)
    unfold Reaches at hreaches ⊢
    rwa [← hjoins]

/-- A set that is supplied already settles, and comes to nothing. -/
theorem propagate_settles_of_supplies (hL : SteadyAlong E L) (hm : m.equal m = true)
    (ht : t < L.schemas.length) (hE : ∀ a b, E a b → L.Joins a b)
    (hreach : ∀ u, L.Reaches t u → Relation.ReflTransGen E t u) (hsupplies : Supplies E L t m) :
    (propagate m t).Ends L fun res M => res = .ok () ∧ L.Evolves 0 M ∧ SteadyAlong E M
      ∧ Idles t L M := by
  have hall (u : SchemaId) (hu : L.Reaches t u) := hsupplies.reach (hreach u hu)
  refine (propagate_settles hL hm ht hE hreach (fun u hu _ => hall u hu) fun u hu =>
    hL.admits_of_supplies (hall u hu) (hL.wellMade.coherent.reaches_lt ht hu)).mono
      fun res M hM => ?_
  obtain ⟨hres, hsettles⟩ := hM
  refine ⟨hres, hsettles.evolves, hsettles.steady, fun u place tab htab hstandard => ?_,
    hsettles.others⟩
  by_cases hu : L.Reaches t u
  · rw [hsettles.reached u hu place tab htab hstandard,
      OptionTable.mergeValues_of_ignores ((hall u hu).ignores htab hstandard)]
  · rw [table?_of_schema (hsettles.others u hu) place, htab]

/-- Sets that are supplied already settle one after the other, and come to nothing. -/
theorem propagate_waiting {queued : List OptionMap} (hL : L.Steady) (ht : t < L.schemas.length)
    (hqueued : ∀ m ∈ queued, m.equal m = true ∧ Supplies L.Joins L t m) :
    (queued.forM (propagate · t)).Ends L fun res N => res = .ok () ∧ N.Steady ∧ Idles t L N := by
  refine (ends_forM_ok (I := fun M => L.Evolves 0 M ∧ M.Steady ∧ Idles t L M) queued
    ⟨.refl 0 L, hL, .refl t L⟩ fun m hm M hM => ?_).mono fun res N hN => ⟨hN.1, hN.2.2⟩
  obtain ⟨hevolves, hsteady, hidles⟩ := hM
  have hfollows := hevolves.follows hL.wellMade
  obtain ⟨hself, hsupplies⟩ := hqueued m hm
  refine (propagate_settles_of_supplies hsteady hself (hfollows.length ▸ ht) (fun _ _ => id)
    (fun _ => id) (hfollows.joins_eq ▸ hsupplies.evolve hevolves)).mono ?_
  rintro res N ⟨hres, hevolvesN, hsteadyN, hidlesN⟩
  refine ⟨hres, hevolves.trans hevolvesN, ?_, hidles.trans hidlesN hfollows.joins_eq⟩
  unfold Steady
  rwa [(hevolvesN.follows hsteady.wellMade).joins_eq]

/-! ### A new way -/

/-- Where all that a schema defines is supplied, no option that schemas inherit and that is closed
in the schema is left open. -/
theorem Supplies.covers (h : Supplies E L t (L.schema s).options.defined) (hL : L.Tabled)
    (hs : s < L.schemas.length) {key : Text} (hshared : schemaOptions.inherits key = true)
    (hkey : (L.schema s).options.isOpen key = false) : Covers E L t key := by
  obtain ⟨hvalid, hschema⟩ := hL.schema s hs
  have hinherits : (L.schema s).options.schema.inherits key = true := hschema ▸ hshared
  obtain ⟨value, hvalue⟩ :=
    hvalid.given?_defined hschema (OptionTable.isOpen_eq_false_iff.mp hkey hinherits)
  exact h key value hvalue hshared

/-- A schema takes nothing over from itself, wherever what it defines is passed on to. -/
theorem Settles.options_eq (h : Settles E (L.schema s).options.defined t L M)
    (hstandard : (L.schema s).options.Standard) :
    (M.schema s).options = (L.schema s).options := by
  by_cases hst : L.Reaches t s
  · have htable : (M.schema s).options
        = ((L.schema s).options.mergeValues (L.schema s).options.defined).1 :=
      Option.some.inj (h.reached s hst none _ rfl hstandard)
    rwa [OptionTable.mergeValues_defined] at htable
  · rw [h.others s hst]

/-- A new way keeps a layout steady if its end covers what its beginning defines. -/
theorem SteadyAlong.addEdge {E' : SchemaId → SchemaId → Prop} (hL : SteadyAlong E L)
    (hE : ∀ a b, E' a b → E a b ∨ (a = s ∧ b = t))
    (hnew : ∀ key, schemaOptions.inherits key = true → L.Defines s key → Covers E L t key) :
    SteadyAlong E' L :=
  ⟨hL.wellMade, hL.tabled, hL.receptive, hL.queues, fun u m hm htakes key value hvalue hshared =>
    (hL.delivered u m hm htakes key value hvalue hshared).addEdge hE (hnew key hshared)⟩

/-! ### Options for a target -/

/-- Options that are passed on to a target are not refused, and those that were waiting come to
nothing. -/
theorem passOptions_settles {ref : Reference} {queued : List OptionMap} (hL : SteadyAlong E L)
    (hs : s < L.schemas.length) (ht : t < L.schemas.length) (hE : ∀ a b, E a b → L.Joins a b)
    (hnew : ∀ a b, L.Joins a b → E a b ∨ (a = s ∧ b = t))
    (hreach : ∀ u, L.Reaches t u → Relation.ReflTransGen E t u) (href : ref.options.Held)
    (hqueued : ∀ m ∈ queued, m.equal m = true ∧ (L.schema s).options.Ignores m) :
    (passOptions s ref queued t).Ends L fun res N => res = .ok () ∧ Steady N
      ∧ ∃ M, Settles E ref.options t L M ∧ ∃ K, Settles E (M.schema s).options.defined t M K
        ∧ Idles t K N := by
  refine ends_bind.mpr ((propagate_settles_of_sound hL href.sound ht hE hreach).mono ?_)
  rintro res M ⟨rfl, hM⟩
  have hfollowsM := hM.evolves.follows hL.wellMade
  have hjoinsM := hfollowsM.joins_eq
  obtain ⟨hvalid, hschema⟩ := hM.steady.tabled.schema s (hfollowsM.length ▸ hs)
  have hheld := hvalid.held_defined hschema
  refine ends_bind.mpr (ends_schema.mpr (ends_bind.mpr
    ((propagate_settles_of_sound hM.steady hheld.sound (hfollowsM.length ▸ ht)
      (fun a b hab => hjoinsM ▸ hE a b hab) fun u hu => hreach u ?_).mono ?_)))
  · unfold Reaches at hu ⊢
    rwa [hjoinsM] at hu
  rintro res K ⟨rfl, hK⟩
  have hfollowsK := hK.evolves.follows hM.steady.wellMade
  have hjoinsK := hfollowsK.joins_eq.trans hjoinsM
  have hlengthK := hfollowsK.length.trans hfollowsM.length
  -- the sets that were waiting are ignored by `s`, so what has just settled leaves them nothing
  have hkept := hK.options_eq (.inl hschema)
  have hcovers (key : Text) (hshared : schemaOptions.inherits key = true)
      (hkey : (K.schema s).options.isOpen key = false) : Covers E K t key :=
    Supplies.covers (hkept.symm ▸ hK.supplies) hK.steady.tabled (hlengthK ▸ hs) hshared hkey
  have hdefines (key : Text) (hshared : schemaOptions.inherits key = true)
      (hkey : K.Defines s key) : Covers E K t key :=
    hcovers key hshared (OptionTable.isOpen_eq_false_iff.mpr (hkey none _ rfl))
  -- from now on the way from `s` to `t` counts
  have hnewK (a b : SchemaId) (hab : K.Joins a b) : E a b ∨ (a = s ∧ b = t) :=
    hnew a b (hjoinsK ▸ hab)
  have hsteady : K.Steady := hK.steady.addEdge hnewK hdefines
  have hwaits (m : OptionMap) (hm : m ∈ queued) : Supplies K.Joins K t m := by
    have hignores := hK.evolves.ignores (hM.evolves.ignores (hqueued m hm).2)
    exact fun key value hvalue hshared =>
      (hcovers key hshared (hignores key value hvalue)).addEdge hnewK (hdefines key hshared)
  refine (propagate_waiting hsteady (hlengthK ▸ ht) fun m hm =>
    ⟨(hqueued m hm).1, hwaits m hm⟩).mono fun res N hN => ?_
  exact ⟨hN.1, hN.2.1, M, hM, K, hK, hN.2.2⟩

/-! ### Propagation on purpose -/

/-- Propagation leaves a layout steady, also if the set is refused. -/
theorem propagate_steady (hL : L.Steady) (hm : m.equal m = true) (ht : t < L.schemas.length) :
    (propagate m t).Ends L fun _ M => M.Steady := by
  by_cases htakes : schemaOptions.Takes m
  · refine (propagate_settles_of_sound hL ⟨hm, htakes⟩ ht (fun _ _ => id)
      fun _ => id).mono fun res M hM => ?_
    unfold Steady
    rw [(hM.2.evolves.follows hL.wellMade).joins_eq]
    exact hM.2.steady
  · -- the set may be refused half-way, but nothing has to be covered for a set like that
    refine (propagate_spreads hm t hL.queues).mono fun res M hM => ?_
    unfold Steady
    rw [(hM.evolves.follows hL.wellMade).joins_eq]
    refine ⟨hM.evolves.wellMade hL.wellMade, hM.evolves.tabled hL.tabled,
      hM.evolves.receptive hL.receptive, hM.queues, fun u n hn hntakes => ?_⟩
    rcases hM.received u n hn with hbefore | rfl
    · exact (hL.delivered u n hbefore hntakes).evolve hM.evolves
    · exact absurd hntakes htakes

/-! ### What is done where something is looked up -/

/-- A change that lets no schema receive anything. -/
theorem SteadyAlong.change (hL : SteadyAlong E L) (h : Change r L M) (hqueues : M.Queues)
    (hreceived : ∀ s, (M.schema s).received = (L.schema s).received) : SteadyAlong E M :=
  ⟨(h.wellMade hL.wellMade).1, h.tabled hL.tabled, h.receptive hL.receptive, hqueues,
    fun s m hm htakes => (hL.delivered s m (hreceived s ▸ hm) htakes).evolve (.single h)⟩

/-- A change that opens no way. -/
theorem Steady.change (hL : L.Steady) (h : Change 0 L M) (hqueues : M.Queues)
    (hreceived : ∀ s, (M.schema s).received = (L.schema s).received) : M.Steady := by
  unfold Steady
  rw [h.follows.joins_eq]
  exact SteadyAlong.change hL h hqueues hreceived

/-- The way to a target leads nowhere that the target did not reach before. -/
theorem reaches_of_bound {key : Text} {ref : Reference}
    (href : (L.schema s).find? key = some (.reference ref)) {u : SchemaId}
    (hu : (L.modifyEntry s key fun _ => .reference (ref.bind t).2).Reaches t u) :
    L.Reaches t u := by
  induction hu with
  | refl => exact .refl
  | tail _ hjoins ih =>
    rcases joins_of_bound href hjoins with hjoins | ⟨-, rfl⟩
    · exact ih.tail hjoins
    · exact .refl

/-- **A reference that gets its target passes all its options on**, and leaves a layout steady. -/
theorem bind_settles (hL : L.Steady) {key : Text} {ref : Reference}
    (href : (L.schema s).find? key = some (.reference ref)) (hnone : ref.target? = none)
    (ht : L.target s ref = .ok t) :
    (bind s key t).Ends L fun res N => res = .ok () ∧ N.Steady
      ∧ ∃ M, Settles L.Joins ref.options t
          (L.modifyEntry s key fun _ => .reference (ref.bind t).2) M
        ∧ ∃ K, Settles L.Joins (M.schema s).options.defined t M K ∧ Idles t K N := by
  have hbound : Change (s + 1) L (L.modifyEntry s key fun _ => .reference (ref.bind t).2) :=
    .bound (Nat.lt_succ_self s) href hnone ht
  have hlength := hbound.follows.length
  have hqueued := hL.queues s key ref href
  have hsteady := SteadyAlong.change hL hbound
    (hL.queues.modifyEntry href fun q hq => Entry.reference.inj hq ▸ .bind ref _ t)
    (received_modifyEntry L s key _)
  rw [ends_bindReference href]
  exact passOptions_settles hsteady (hlength ▸ lt_of_find? href)
    (hlength ▸ hL.wellMade.coherent.target_lt href ht)
    (fun a b hab => hbound.follows.joins hab) (fun a b => joins_of_bound href)
    (fun u => reaches_of_bound href) (hL.tabled.entry s key _ href)
    fun m hm => ⟨hqueued.self m hm, (Evolves.single hbound).ignores (hqueued.ignored m hm)⟩

/-- **Steady layouts stay steady**, and in them no options are refused. -/
theorem steady_kept : Kept Steady where
  bound := fun _ hL href hnone ht =>
    (bind_settles hL href hnone ht).mono fun _ _ hM => ⟨hM.1, hM.2.1⟩
  refused := by
    intro L s key ref hL href hnone reason
    refine hL.change (.refused href hnone reason) (hL.queues.modifyEntry href fun q hq => ?_)
      (received_modifyEntry L s key _)
    rw [← Entry.reference.inj hq]
    exact (hL.queues s key ref href).fail reason
  measured := by
    intro L s o hL ho htrusts
    refine hL.change (.measured ho htrusts) (hL.queues.modify rfl fun _ => id) fun t => ?_
    rw [schema_modify]
    split <;> rfl

/-! ### In the midst of queries -/

/-- The layouts in the midst of queries: references have got their targets, searches have failed,
and widths have been noted. -/
inductive Amid (L : Layout) : Layout → Prop
  | start : Amid L L
  | bound {M N : Layout} (hM : Amid L M) {s t : SchemaId} {key : Text} {ref : Reference}
    (href : (M.schema s).find? key = some (.reference ref)) (hnone : ref.target? = none)
    (ht : M.target s ref = .ok t) (hN : bind s key t M = .ok () N) : Amid L N
  | refused {M : Layout} (hM : Amid L M) {s : SchemaId} {key : Text} {ref : Reference}
    (href : (M.schema s).find? key = some (.reference ref)) (hnone : ref.target? = none)
    (reason : Text) : Amid L (M.refusedAt s key reason)
  | measured {M : Layout} (hM : Amid L M) {s : SchemaId} {o : Outline} (ho : M.Unfolds s o)
    (htrusts : ∀ t ∈ o.schemas, M.Trusts t) : Amid L (M.modify s fun node =>
      { node with knownWidth? := some (UInt64.ofNat o.width, M.generation) })

theorem Amid.steady (h : Amid L M) (hL : L.Steady) : M.Steady := by
  induction h with
  | start => exact hL
  | bound _ href hnone ht hN ih =>
    exact ((bind_settles ih href hnone ht).of_ok hN).2.1
  | refused _ href hnone reason ih => exact steady_kept.refused ih href hnone reason
  | measured _ ho htrusts ih => exact steady_kept.measured ih ho htrusts

theorem Amid.develops (h : Amid L M) (hL : L.WellMade) : L.Develops M := by
  induction h with
  | start => exact .refl L
  | @bound M N _ s t key ref href hnone ht hN ih =>
    exact ih.trans ⟨s + 1, ((bind_ends (ih.wellMade hL) href hnone ht).of_ok hN).1⟩
  | refused _ href hnone reason ih =>
    exact ih.trans (.of_change (.refused (r := 0) href hnone reason))
  | measured _ ho htrusts ih => exact ih.trans (.of_change (.measured (r := 0) ho htrusts))

end Layout

end RecordLayout
