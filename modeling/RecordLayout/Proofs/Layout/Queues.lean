import RecordLayout.Proofs.Layout.Closure

/-!
# Sets that wait

A set that comes to a reference without a target waits there, unless an equal one does.  It came
through the schema of the reference, which took it over first; so whatever waits there, the schema
itself ignores from then on.  It need not be sound: the schema may have had all options of it, and
then it took none of them over.

A set that is refused on its way changes nothing about that.

## Main definitions

* `Reference.Queued`: **what is known of the sets that wait at a reference**.
* `Layout.Queues`: all that wait in a layout.
* `Layout.Spreads`: what lies between two layouts while a set is propagated, wherever it is refused.

## Main results

* `Layout.propagate_spreads`: propagation keeps the queues in order.
-/

namespace RecordLayout

/-- What is known of the sets that wait at a reference of a schema with the given options. -/
structure Reference.Queued (ref : Reference) (t : OptionTable) : Prop where
  /-- None waits where the target has been found. -/
  bound : ref.target?.isSome = true → ref.pending = []
  /-- None waits twice. -/
  distinct : ref.pending.Pairwise fun a b => a.equal b = false
  /-- Each equals itself. -/
  self : ∀ m ∈ ref.pending, m.equal m = true
  /-- The schema ignores all of them. -/
  ignored : ∀ m ∈ ref.pending, t.Ignores m

namespace Reference.Queued

variable {ref : Reference} {t u : OptionTable} {m : OptionMap}

theorem mono (h : ref.Queued t) (htu : ∀ m, t.Ignores m → u.Ignores m) : ref.Queued u :=
  ⟨h.bound, h.distinct, h.self, fun m hm => htu m (h.ignored m hm)⟩

theorem enqueue (h : ref.Queued t) (hnone : ref.target? = none) (hm : m.equal m = true)
    (hignores : t.Ignores m) : (ref.enqueue m).Queued t := by
  unfold Reference.enqueue
  split
  · exact h
  · next hfresh =>
    refine ⟨fun hsome => ?_, ?_, fun n hn => ?_, fun n hn => ?_⟩
    · rw [show Reference.target? { ref with pending := ref.pending ++ [m] } = ref.target? from rfl,
        hnone] at hsome
      exact absurd hsome (by simp)
    · refine List.pairwise_append.mpr ⟨h.distinct, List.pairwise_singleton _ _, fun a ha b hb => ?_⟩
      rw [List.mem_singleton.mp hb]
      simp only [List.any_eq_true, not_exists, not_and, Bool.not_eq_true] at hfresh
      exact hfresh a ha
    · rcases List.mem_append.mp hn with hn | hn
      · exact h.self n hn
      · exact List.mem_singleton.mp hn ▸ hm
    · rcases List.mem_append.mp hn with hn | hn
      · exact h.ignored n hn
      · exact List.mem_singleton.mp hn ▸ hignores

/-- A search that fails leaves the queue as it is. -/
theorem fail (h : ref.Queued t) (reason : Text) : (ref.fail reason).Queued t :=
  ⟨fun hsome => absurd hsome (by simp [Reference.fail, Reference.target?]), h.distinct, h.self,
    h.ignored⟩

/-- A reference that gets its target has an empty queue. -/
theorem bind (ref : Reference) (t : OptionTable) (target : SchemaId) :
    (ref.bind target).2.Queued t :=
  ⟨fun _ => rfl, .nil, fun m hm => absurd hm (by simp [Reference.bind]),
    fun m hm => absurd hm (by simp [Reference.bind])⟩

end Reference.Queued

namespace Layout

open Build

variable {r : Nat} {L M N : Layout} {m : OptionMap}

/-- What is known of the sets that wait in a layout. -/
def Queues (L : Layout) : Prop :=
  ∀ s key ref, (L.schema s).find? key = some (.reference ref) → ref.Queued (L.schema s).options

namespace Queues

/-- A change of a schema that leaves its fields as they are, and ignores what the schema did. -/
theorem modify (hL : L.Queues) {s : SchemaId} {f : Schema → Schema}
    (hentries : (f (L.schema s)).entries = (L.schema s).entries)
    (hignores : ∀ m, (L.schema s).options.Ignores m → (f (L.schema s)).options.Ignores m) :
    (L.modify s f).Queues := by
  intro t key ref href
  rw [schema_modify] at href ⊢
  split at href
  · next h =>
    rw [if_pos h]
    rw [← h.1] at href ⊢
    unfold Schema.find? at href
    rw [hentries] at href
    exact (hL s key ref href).mono hignores
  · next h =>
    rw [if_neg h]
    exact hL t key ref href

/-- A change of one field. -/
theorem modifyEntry (hL : L.Queues) {s : SchemaId} {key : Text} {e : Entry} {f : Entry → Entry}
    (he : (L.schema s).find? key = some e)
    (hf : ∀ ref, f e = .reference ref → ref.Queued (L.schema s).options) :
    (L.modifyEntry s key f).Queues := by
  intro t k ref href
  rw [options_modifyEntry]
  rw [find?_modifyEntry he] at href
  split at href
  · next h =>
    rw [← h.1]
    exact hf ref (Option.some.inj href)
  · exact hL t k ref href

end Queues

/-! ### Propagation -/

/-- What lies between two layouts while a set is propagated, wherever it is refused. -/
structure Spreads (m : OptionMap) (L M : Layout) : Prop where
  evolves : L.Evolves 0 M
  queues : M.Queues
  /-- The set is all that schemas receive. -/
  received : ∀ s, ∀ n ∈ (M.schema s).received, n ∈ (L.schema s).received ∨ n = m

namespace Spreads

theorem refl (hL : L.Queues) (m : OptionMap) : Spreads m L L :=
  ⟨.refl 0 L, hL, fun _ _ hn => .inl hn⟩

/-- A change that lets no schema receive anything. -/
theorem change (h : Spreads m L M) (hchange : Change 0 M N) (hN : N.Queues)
    (hreceived : ∀ s, (N.schema s).received = (M.schema s).received) : Spreads m L N :=
  ⟨h.evolves.trans (.single hchange), hN, fun s n hn => h.received s n (hreceived s ▸ hn)⟩

theorem note (h : Spreads m L M) (s : SchemaId) : Spreads m L (M.noted s m) := by
  refine ⟨h.evolves.trans (.single (.received s m)), h.queues.modify rfl fun _ hn => hn,
    fun t n hn => ?_⟩
  rw [noted, schema_modify] at hn
  split at hn
  · rcases List.mem_append.mp hn with hn | hn
    · exact h.received t n hn
    · exact .inr (List.mem_singleton.mp hn)
  · exact h.received t n hn

theorem take (h : Spreads m L M) (s : SchemaId) : Spreads m L (M.taken s m) := by
  refine h.change (.options s m) (h.queues.modify rfl fun _ hn => hn.mergeValues m) fun t => ?_
  rw [taken, schema_modify]
  split <;> rfl

theorem modifyEntry (h : Spreads m L M) {s : SchemaId} {key : Text} {e : Entry} {f : Entry → Entry}
    (he : (M.schema s).find? key = some e) (hchange : Change 0 M (M.modifyEntry s key f))
    (hf : ∀ ref, f e = .reference ref → ref.Queued (M.schema s).options) :
    Spreads m L (M.modifyEntry s key f) :=
  h.change hchange (h.queues.modifyEntry he hf) (received_modifyEntry M s key f)

end Spreads

/-- A schema that has taken a set over ignores it. -/
theorem ignores_taken {s : SchemaId} (h : ((L.schema s).options.mergeValues m).2 = none) :
    ((L.taken s m).schema s).options.Ignores m := by
  rw [taken, schema_modify]
  split
  · exact OptionTable.ignores_mergeValues h
  · next hs =>
    rw [schema_of_le (Nat.le_of_not_lt fun hlt => hs ⟨rfl, hlt⟩)]
    exact fun _ _ _ => rfl

/-- A set that comes to a field waits there only if the schema has taken it over. -/
theorem propagateInto_spreads (hm : m.equal m = true) {descend : SchemaId → Build Unit}
    {s : SchemaId} (h : Spreads m L M) (hignores : (M.schema s).options.Ignores m)
    (hdescend : ∀ t, (descend t).Ends M fun _ N => Spreads m L N ∧ M.Evolves 0 N) (key : Text) :
    (propagateInto descend m s key).Ends M fun _ N =>
      Spreads m L N ∧ (N.schema s).options.Ignores m := by
  refine ends_propagateInto (fun c hc => ?_) (fun t f hf ht => ?_) (fun ref href hnone => ?_)
    fun hnone => ⟨h, hignores⟩
  · have hchange : Change 0 M _ := .codec hc m
    exact ⟨h.modifyEntry hc hchange fun ref href => absurd href (by simp),
      (Evolves.single hchange).ignores hignores⟩
  · exact (hdescend t).mono fun _ N hN => ⟨hN.1, hN.2.ignores hignores⟩
  · have hchange : Change 0 M _ := .enqueued href hnone m
    refine ⟨h.modifyEntry href hchange fun q hq => ?_, (Evolves.single hchange).ignores hignores⟩
    rw [← Entry.reference.inj hq]
    exact (h.queues s key ref href).enqueue hnone hm hignores

theorem propagateWithin_spreads (hm : m.equal m = true) (depth : Nat) (s : SchemaId)
    (h : Spreads m L M) : (propagateWithin depth m s).Ends M fun _ N => Spreads m L N := by
  induction depth generalizing s M with
  | zero => exact ends_propagateWithin (fun _ => h) (fun _ _ => h) fun _ _ d hd => by omega
  | succ depth ih =>
    refine ends_propagateWithin (fun _ => h) (fun _ _ => h) fun _ _ d hd => ?_
    obtain rfl : depth = d := by omega
    refine ends_bind.mpr (ends_noteReceived.mpr (ends_bind.mpr (ends_takeOverOptions.mpr ?_)))
    have htaken := (h.note s).take s
    cases hmerged : (((M.noted s m).schema s).options.mergeValues m).2 with
    | some e => exact htaken
    | none =>
      -- only a schema that has taken the whole set over lets it go on to its fields
      have hignores := ignores_taken (L := M.noted s m) hmerged
      exact (ends_forM (I := fun N => Spreads m L N ∧ (N.schema s).options.Ignores m) _
        ⟨htaken, hignores⟩ fun key _ N hN => propagateInto_spreads hm hN.1 hN.2
          (fun t => (ih t hN.1).and (propagateWithin_evolves depth m t N)) key).mono
            fun _ _ hN => hN.1

/-- **Propagation keeps the queues in order**, wherever the set is refused. -/
theorem propagate_spreads (hm : m.equal m = true) (s : SchemaId) (hL : L.Queues) :
    (propagate m s).Ends L fun _ M => Spreads m L M :=
  propagateWithin_spreads hm _ s (.refl hL m)

end Layout

end RecordLayout
