import RecordLayout.Proofs.Layout.Problems
import RecordLayout.Proofs.Layout.Reached

/-!
# How often a set comes to a schema

A set that is propagated goes through shared targets and round the cycles of references.  A schema
that has received an equal set stops it; so a set that equals itself comes to no schema twice, the
number of schemas that lack it falls from one to the next, and no bound on the depth is ever felt.

A set with a NaN in it need not equal itself.  No schema stops such a set: it is received once more
wherever it comes, by a shared target once for every way there, and a cycle hands it round for ever.

## Main definitions

* `Layout.Visit`, `Layout.Visits`: what a set does in one step, and in a run of them.
* `Layout.Affords`: no more schemas lack a set than a depth allows.
* `Layout.Circling`: schemas that hand a set on to one another, and ignore it themselves.

## Main results

* `Layout.Visit.received`, `Layout.Visits.received_once`: what one step adds to what a schema has
  received, and what a run adds.
* `Layout.propagateWithin_eq`, `Layout.propagateWithin_not_isEndless`: **depth does not matter**.
* `Layout.propagateWithin_endless`: **what equals nothing goes round for ever**.
* `Session.Reached.propagate_visits`: **a set that equals itself comes to every schema once at
  most**.
* `Session.received_twice`: **a set with a NaN may come twice, and go round for ever**.
-/

namespace RecordLayout

/-- A merge ends early only where a value is not allowed. -/
theorem OptionTable.not_isEndless_of_mergeValues {t : OptionTable} {m : OptionMap} {e : Error}
    (h : (t.mergeValues m).2 = some e) : e.isEndless = false := by
  unfold mergeValues at h
  generalize (m.entries.filter fun e => !e.2.isNull) = l at h
  induction l generalizing t with
  | nil => exact absurd h (by simp)
  | cons pair l ih =>
    obtain ⟨name, value⟩ := pair
    rw [takeOverAll_cons] at h
    split at h
    · exact ih h
    · next e' he =>
      obtain rfl := Option.some.inj h
      unfold takeOver at he
      split at he
      · split at he
        · exact absurd he (by simp)
        · next spec _ _ =>
          unfold OptionSchema.normalize at he
          dsimp only at he
          split at he
          · exact absurd he (by simp [Except.map])
          · rw [← Except.error.inj he]
            rfl
      · exact absurd he (by simp)

theorem Codec.not_isEndless_of_takeOver {c : Codec} {m : OptionMap} {e : Error}
    (h : (c.takeOver m).2 = some e) : e.isEndless = false := by
  rw [takeOver_snd] at h
  obtain ⟨t, -, hmerged⟩ := Option.bind_eq_some_iff.mp h
  exact OptionTable.not_isEndless_of_mergeValues hmerged

namespace Layout

open Build

variable {r : Nat} {L M N : Layout} {m : OptionMap} {s t : SchemaId}

/-! ### Steps of a set -/

/-- What a set does in one step. -/
inductive Visit (m : OptionMap) (L : Layout) : Layout → Prop
  /-- A schema that lacks the set receives it. -/
  | noted {s : SchemaId} (h : (L.schema s).hasReceived m = false) : Visit m L (L.noted s m)
  /-- A schema takes it over, as far as it does not refuse it. -/
  | taken (s : SchemaId) : Visit m L (L.taken s m)
  /-- So does a codec. -/
  | codec {s : SchemaId} {key : Text} {c : Codec}
    (h : (L.schema s).find? key = some (.column c)) :
    Visit m L (L.modifyEntry s key fun _ => .column (c.takeOver m).1)
  /-- It waits at a reference. -/
  | enqueued {s : SchemaId} {key : Text} {ref : Reference}
    (h : (L.schema s).find? key = some (.reference ref)) (hnone : ref.target? = none) :
    Visit m L (L.modifyEntry s key fun _ => .reference (ref.enqueue m))

/-- What a set does in a run of steps. -/
def Visits (m : OptionMap) : Layout → Layout → Prop := Relation.ReflTransGen (Visit m)

theorem Visit.change (h : Visit m L M) : Change r L M := by
  cases h with
  | noted h => exact .received _ m
  | taken s => exact .options s m
  | codec h => exact .codec h m
  | enqueued h hnone => exact .enqueued h hnone m

theorem Visits.evolves (h : Visits m L M) : L.Evolves r M :=
  Relation.ReflTransGen.mono (fun _ _ hstep => hstep.change) _ _ h

/-- What a set does at a field is a run of steps, if what it does in other schemas is. -/
theorem propagateInto_visits {descend : SchemaId → Build Unit}
    (hdescend : ∀ t M, (descend t).Ends M fun _ N => Visits m M N) (s : SchemaId) (key : Text)
    (L : Layout) : (propagateInto descend m s key).Ends L fun _ M => Visits m L M :=
  ends_propagateInto (fun _ hc => .single (.codec hc)) (fun t _ _ _ => hdescend t L)
    (fun _ href hnone => .single (.enqueued href hnone)) fun _ => .refl

/-- A schema that a set comes to notes it, takes it over and hands it on. -/
theorem handOn_visits {descend : SchemaId → Build Unit}
    (hdescend : ∀ t M, (descend t).Ends M fun _ N => Visits m M N) (s : SchemaId) (L : Layout) :
    (do noteReceived s m
        takeOverOptions s m
        (L.schema s).fields.forM (propagateInto descend m s) : Build Unit).Ends L fun _ M =>
      Visits m ((L.noted s m).taken s m) M := by
  refine ends_bind.mpr (ends_noteReceived.mpr (ends_bind.mpr (ends_takeOverOptions.mpr ?_)))
  split
  · refine ends_forM (I := Visits m _) _ .refl fun key _ M hM => ?_
    exact (propagateInto_visits hdescend s key M).mono fun _ N hN => hM.trans hN
  · exact .refl

/-- Propagation is a run of steps of the set, wherever it is refused. -/
theorem propagateWithin_visits (depth : Nat) (m : OptionMap) (s : SchemaId) (L : Layout) :
    (propagateWithin depth m s).Ends L fun _ M => Visits m L M := by
  induction depth generalizing s L with
  | zero => exact ends_propagateWithin (fun _ => .refl) (fun _ _ => .refl) fun _ _ d hd => by omega
  | succ depth ih =>
    refine ends_propagateWithin (fun _ => .refl) (fun _ _ => .refl) fun _ hlacks d hd => ?_
    obtain rfl : depth = d := by omega
    refine (handOn_visits ih s L).mono fun _ M hM => ?_
    exact ((Relation.ReflTransGen.single (.noted hlacks)).tail (.taken s)).trans hM

/-! ### What schemas receive -/

/-- **What one step adds** to what a schema has received: nothing, or the set that it lacked. -/
theorem Visit.received (h : Visit m L M) (t : SchemaId) :
    (M.schema t).received = (L.schema t).received
      ∨ ((L.schema t).hasReceived m = false
        ∧ (M.schema t).received = (L.schema t).received ++ [m]) := by
  cases h with
  | @noted s hlacks =>
    unfold Layout.noted
    rw [schema_modify]
    split
    · next hs => exact .inr ⟨hs.1 ▸ hlacks, rfl⟩
    · exact .inl rfl
  | taken s =>
    unfold Layout.taken
    rw [schema_modify]
    split <;> exact .inl rfl
  | codec | enqueued => exact .inl (received_modifyEntry L _ _ _ t)

/-- Whatever the set is, nothing but the set is received. -/
theorem Visits.received_replicate (h : Visits m L M) (t : SchemaId) :
    ∃ n, (M.schema t).received = (L.schema t).received ++ List.replicate n m := by
  induction h with
  | refl => exact ⟨0, (List.append_nil _).symm⟩
  | tail _ hstep ih =>
    obtain ⟨n, hn⟩ := ih
    rcases hstep.received t with hsame | ⟨-, hadded⟩
    · exact ⟨n, hsame.trans hn⟩
    · refine ⟨n + 1, ?_⟩
      rw [hadded, hn, List.append_assoc, List.replicate_succ']

theorem received_handOn (hs : s < L.schemas.length) :
    (((L.noted s m).taken s m).schema s).received = (L.schema s).received ++ [m] := by
  have hs' : s < (L.noted s m).schemas.length := by
    unfold noted
    rwa [length_modify]
  unfold taken
  rw [schema_modify, if_pos ⟨rfl, hs'⟩]
  unfold noted
  rw [schema_modify, if_pos ⟨rfl, hs⟩]

/-- Once a schema has noted a set, it stays among what the schema has received. -/
theorem Visits.received_noted (h : Visits m ((L.noted s m).taken s m) M)
    (hs : s < L.schemas.length) :
    ∃ n, (M.schema s).received = (L.schema s).received ++ List.replicate (n + 1) m := by
  obtain ⟨n, hn⟩ := h.received_replicate s
  refine ⟨n, ?_⟩
  rw [hn, received_handOn hs, List.append_assoc]
  rfl

/-- **What a run adds**: a set that equals itself comes to a schema once, and only if that lacks
it. -/
theorem Visits.received_once (h : Visits m L M) (hm : m.equal m = true) (t : SchemaId) :
    (M.schema t).received = (L.schema t).received
      ∨ ((L.schema t).hasReceived m = false
        ∧ (M.schema t).received = (L.schema t).received ++ [m]) := by
  induction h with
  | refl => exact .inl rfl
  | @tail M N hrun hstep ih =>
    rcases hstep.received t with hsame | ⟨hlacks, hadded⟩
    · rw [hsame]
      exact ih
    · -- a schema that has received the set already does not lack it now
      rcases ih with hsame | ⟨-, hreceived⟩
      · refine .inr ⟨?_, hsame ▸ hadded⟩
        unfold Schema.hasReceived at hlacks ⊢
        rwa [hsame] at hlacks
      · unfold Schema.hasReceived at hlacks
        rw [hreceived, List.any_append] at hlacks
        exact absurd hlacks (by simp [hm])

/-! ### Depth -/

/-- A well-made layout in which no more schemas lack a set than a depth allows. -/
structure Affords (m : OptionMap) (depth : Nat) (L : Layout) : Prop where
  wellMade : L.WellMade
  card_le : (L.lacking m).card ≤ depth

theorem Affords.visits {depth : Nat} (hL : L.Affords m depth) (h : Visits m L M) :
    M.Affords m depth :=
  ⟨h.evolves (r := 0).wellMade hL.wellMade, Nat.le_trans
    (Finset.card_le_card (lacking_subset (h.evolves (r := 0)) hL.wellMade m)) hL.card_le⟩

/-- There are never more schemas that lack a set than schemas. -/
theorem affords_length (hL : L.WellMade) (m : OptionMap) {depth : Nat}
    (h : L.schemas.length ≤ depth) : L.Affords m depth :=
  ⟨hL, Nat.le_trans (card_lacking_le m) h⟩

/-- Once a schema has received the set, a depth of one less will do. -/
theorem Affords.descend {depth : Nat} (hL : L.Affords m (depth + 1)) (hm : m.equal m = true)
    (hs : s < L.schemas.length) (hlacks : (L.schema s).hasReceived m = false) :
    ((L.noted s m).taken s m).Affords m depth := by
  have hnoted : Change 0 L (L.noted s m) := .received s m
  have htaken : Change 0 (L.noted s m) ((L.noted s m).taken s m) := .options s m
  have hevolves := (Evolves.single hnoted).trans (.single htaken)
  have hfewer := card_lacking_lt hevolves hL.wellMade hs hlacks
    (htaken.hasReceived (hasReceived_note hm hs))
  exact ⟨hevolves.wellMade hL.wellMade, by have := hL.card_le; omega⟩

/-- There is depth left where a schema lacks the set. -/
theorem Affords.pos {depth : Nat} (hL : L.Affords m depth) (hs : s < L.schemas.length)
    (hlacks : (L.schema s).hasReceived m = false) : ∃ d, depth = d + 1 := by
  have hpos := Finset.card_pos.mpr ⟨s, mem_lacking.mpr ⟨hs, hlacks⟩⟩
  have hle := hL.card_le
  exact ⟨depth - 1, by omega⟩

/-- What a set does in a schema that lacks it. -/
theorem propagateWithin_succ (depth : Nat) (hsome : m.isEmpty = false)
    (hlacks : (L.schema s).hasReceived m = false) :
    propagateWithin (depth + 1) m s L =
      (do noteReceived s m
          takeOverOptions s m
          (L.schema s).fields.forM
            (propagateInto (propagateWithin depth m) m s) : Build Unit) L := by
  conv => lhs; unfold propagateWithin
  rw [hsome, hlacks]
  rfl

/-- A set does nothing where it is empty or has been received. -/
theorem propagateWithin_of_stop (depth : Nat)
    (h : (m.isEmpty || (L.schema s).hasReceived m) = true) :
    propagateWithin depth m s L = .ok () L := by
  unfold propagateWithin
  rw [h]
  rfl

theorem propagateInto_congr {d d' : SchemaId → Build Unit} {key : Text}
    (h : ∀ t f, L.known? s key = some f → f.schema? = some t → d t L = d' t L) :
    propagateInto d m s key L = propagateInto d' m s key L := by
  unfold propagateInto
  cases hfind : (L.schema s).find? key with
  | none => rfl
  | some e =>
    cases e with
    | column c => rfl
    | nested child => exact h child (.nested key child) (known_of_nested hfind) rfl
    | reference ref =>
      cases htarget : ref.target? with
      | none => simp only [htarget]
      | some target =>
        simp only [htarget]
        exact h target (.reference ref.storeName target)
          (known_of_reference hfind htarget) rfl

/-- What happens at a field that leads to a schema. -/
theorem propagateInto_of_known {descend : SchemaId → Build Unit} {key : Text} {f : Field}
    (hf : L.known? s key = some f) (ht : f.schema? = some t) :
    propagateInto descend m s key L = descend t L := by
  rcases known_cases hf with ⟨c, -, rfl⟩ | ⟨u, hu, rfl⟩ | ⟨ref, u, href, hu, rfl⟩
  · exact absurd ht nofun
  · obtain rfl := Option.some.inj ht
    simp only [propagateInto, hu]
  · obtain rfl := Option.some.inj ht
    simp only [propagateInto, href, hu]

/-- **Depth does not matter**, if it is as great as the number of schemas that lack the set. -/
theorem propagateWithin_eq (hm : m.equal m = true) {depth depth' : Nat} (hL : L.Affords m depth)
    (hL' : L.Affords m depth') (hs : s < L.schemas.length) :
    propagateWithin depth m s L = propagateWithin depth' m s L := by
  induction depth generalizing depth' s L with
  | zero =>
    -- no schema lacks the set, so this one does not
    have hhas : (L.schema s).hasReceived m = true := by
      cases hlacks : (L.schema s).hasReceived m with
      | true => rfl
      | false =>
        obtain ⟨d, hd⟩ := hL.pos hs hlacks
        omega
    rw [propagateWithin_of_stop _ (by simp [hhas]), propagateWithin_of_stop _ (by simp [hhas])]
  | succ depth ih =>
    cases hstop : m.isEmpty || (L.schema s).hasReceived m with
    | true => rw [propagateWithin_of_stop _ hstop, propagateWithin_of_stop _ hstop]
    | false =>
      obtain ⟨hsome, hlacks⟩ := Bool.or_eq_false_iff.mp hstop
      obtain ⟨d', rfl⟩ := hL'.pos hs hlacks
      rw [propagateWithin_succ depth hsome hlacks, propagateWithin_succ d' hsome hlacks]
      refine bind_congr (ends_noteReceived.mpr fun _ _ => ?_)
      refine bind_congr (ends_takeOverOptions.mpr fun _ _ => ?_)
      refine forM_congr (I := fun M => Affords m depth M ∧ Affords m d' M) _
        ⟨hL.descend hm hs hlacks, hL'.descend hm hs hlacks⟩ fun key _ M hM => ⟨?_, ?_⟩
      · apply propagateInto_congr
        intro t f hf ht
        exact ih hM.1 hM.2 (hM.1.wellMade.coherent.known_lt hf ht)
      · exact (propagateInto_visits (propagateWithin_visits depth m) s key M).mono fun _ N hN =>
          ⟨hM.1.visits hN, hM.2.visits hN⟩

/-- **A depth as great as the number of schemas that lack the set is never used up.** -/
theorem propagateWithin_not_isEndless (hm : m.equal m = true) {depth : Nat} (hL : L.Affords m depth)
    (hs : s < L.schemas.length) :
    (propagateWithin depth m s).Ends L fun res _ => ∀ e, res = .error e → e.isEndless = false := by
  have hok (e : Error) (h : (.ok () : Except Error Unit) = .error e) : e.isEndless = false :=
    absurd h (by simp)
  induction depth generalizing s L with
  | zero =>
    -- a schema that lacks the set needs a step more than there is
    refine ends_propagateWithin (fun _ => hok) (fun hlacks _ => ?_) fun _ _ d hd => by omega
    obtain ⟨d, hd⟩ := hL.pos hs hlacks
    omega
  | succ depth ih =>
    refine ends_propagateWithin (fun _ => hok) (fun _ hd => by omega) fun _ hlacks d hd => ?_
    obtain rfl : depth = d := by omega
    refine ends_bind.mpr (ends_noteReceived.mpr (ends_bind.mpr (ends_takeOverOptions.mpr ?_)))
    cases hmerged : (((L.noted s m).schema s).options.mergeValues m).2 with
    | some e =>
      intro e' he'
      exact Except.error.inj he' ▸ OptionTable.not_isEndless_of_mergeValues hmerged
    | none =>
      refine (ends_forM_results (I := fun M => Affords m depth M)
        (P := fun res => ∀ e, res = .error e → e.isEndless = false) hok _ (hL.descend hm hs hlacks)
        fun key _ M hM => ?_).mono fun _ _ h => h.1
      refine Ends.and ?_ ((propagateInto_visits (propagateWithin_visits depth m) s key M).mono
        fun _ _ hN => hM.visits hN)
      refine ends_propagateInto (fun c _ => ?_) (fun t f hf ht => ?_)
        (fun _ _ _ => hok) fun _ => hok
      · cases hmerged : (c.takeOver m).2 with
        | none => exact hok
        | some e =>
          intro e' he'
          exact Except.error.inj he' ▸ Codec.not_isEndless_of_takeOver hmerged
      · exact ih hM (hM.wellMade.coherent.known_lt hf ht)

/-! ### Sets that no set equals -/

theorem isEmpty_eq_false_of_unequal (hm : ∀ n : OptionMap, n.equal m = false) :
    m.isEmpty = false := by
  cases hempty : m.isEmpty with
  | false => rfl
  | true =>
    have hself : m.equal m = true :=
      NameMap.agrees_self fun e he => absurd he (by simp [List.isEmpty_iff.mp hempty])
    exact absurd hself (by simp [hm m])

/-- Such a set is never found among those received. -/
theorem hasReceived_eq_false_of_unequal (hm : ∀ n : OptionMap, n.equal m = false) (L : Layout)
    (s : SchemaId) : (L.schema s).hasReceived m = false :=
  List.any_eq_false.mpr fun n _ => by simp [hm n]

/-- A set that no set equals is received once more by the schema it is propagated into, however
often it has been there. -/
theorem received_of_unequal (hs : s < L.schemas.length) (hm : ∀ n : OptionMap, n.equal m = false) :
    (propagate m s).Ends L fun _ M =>
      ∃ n, (M.schema s).received = (L.schema s).received ++ List.replicate (n + 1) m := by
  refine .of_eq (y := propagateWithin L.schemas.length m s) rfl ?_
  refine ends_propagateWithin (fun hstop => ?_) (fun _ hzero => ?_) fun _ _ d _ => ?_
  · simp [isEmpty_eq_false_of_unequal hm, hasReceived_eq_false_of_unequal hm] at hstop
  · exact absurd (hzero ▸ hs) (Nat.not_lt_zero s)
  · refine (handOn_visits (propagateWithin_visits d m) s L).mono fun _ M hM => ?_
    exact hM.received_noted hs

/-- Schemas each of which takes nothing over from a set, and hands it on to one of them first of
all. -/
structure Circling (m : OptionMap) (C : SchemaId → Prop) (L : Layout) : Prop where
  ignores : ∀ s, C s → (L.schema s).options.Ignores m
  first : ∀ s, C s → ∃ key rest f t, (L.schema s).fields = key :: rest
    ∧ L.known? s key = some f ∧ f.schema? = some t ∧ C t

variable {C : SchemaId → Prop}

theorem options_noted (L : Layout) (s : SchemaId) (m : OptionMap) (t : SchemaId) :
    ((L.noted s m).schema t).options = (L.schema t).options := by
  rw [noted, schema_modify]
  split <;> rfl

theorem entries_handOn (L : Layout) (s : SchemaId) (m : OptionMap) (t : SchemaId) :
    (((L.noted s m).taken s m).schema t).entries = (L.schema t).entries := by
  have hnoted : ((L.noted s m).schema t).entries = (L.schema t).entries := by
    rw [noted, schema_modify]
    split <;> rfl
  rw [taken, schema_modify]
  split <;> exact hnoted

theorem Circling.handOn (h : L.Circling m C) (hs : C s) :
    ((L.noted s m).taken s m).Circling m C := by
  have hoptions (t : SchemaId) :
      (((L.noted s m).taken s m).schema t).options = (L.schema t).options := by
    rw [taken, schema_modify]
    split
    · next hst =>
      obtain ⟨rfl, -⟩ := hst
      dsimp only
      rw [options_noted, OptionTable.mergeValues_of_ignores (h.ignores s hs)]
    · exact options_noted L s m t
  refine ⟨fun t ht => hoptions t ▸ h.ignores t ht, fun t ht => ?_⟩
  obtain ⟨key, rest, f, u, hfields, hf, hfu, hu⟩ := h.first t ht
  refine ⟨key, rest, f, u, ?_, ?_, hfu, hu⟩
  · unfold Schema.fields at hfields ⊢
    rwa [entries_handOn]
  · unfold known? Schema.find? at hf ⊢
    rwa [entries_handOn]

/-- **A set that no set equals goes round for ever**, where schemas hand it on to one another in a
circle: no depth is enough. -/
theorem propagateWithin_endless (hm : ∀ n : OptionMap, n.equal m = false) (h : L.Circling m C)
    (hs : C s) (depth : Nat) : (propagateWithin depth m s).Ends L fun res _ =>
      ∃ name, res = .error (.endlessPropagation name) := by
  have hstopped {L : Layout} {s : SchemaId}
      (hstop : m.isEmpty = true ∨ (L.schema s).hasReceived m = true) : False := by
    simp [isEmpty_eq_false_of_unequal hm, hasReceived_eq_false_of_unequal hm] at hstop
  induction depth generalizing s L with
  | zero =>
    exact ends_propagateWithin (fun hstop => (hstopped hstop).elim) (fun _ _ => ⟨_, rfl⟩)
      fun _ _ d hd => by omega
  | succ depth ih =>
    refine ends_propagateWithin (fun hstop => (hstopped hstop).elim) (fun _ hd => by omega)
      fun _ _ d hd => ?_
    obtain rfl : depth = d := by omega
    have hhanded := h.handOn hs
    obtain ⟨key, rest, f, t, hfields, hf, hft, ht⟩ := hhanded.first s hs
    refine ends_bind.mpr (ends_noteReceived.mpr (ends_bind.mpr (ends_takeOverOptions.mpr ?_)))
    rw [options_noted, OptionTable.mergeValues_of_ignores (h.ignores s hs)]
    have hsame : (L.schema s).fields = key :: rest := by
      unfold Schema.fields at hfields ⊢
      rwa [entries_handOn] at hfields
    rw [hsame]
    -- the first field leads to a schema from which the set goes on for ever
    refine ends_bind.mpr (.of_eq (propagateInto_of_known hf hft) ((ih hhanded ht).mono ?_))
    rintro res M ⟨name, rfl⟩
    exact ⟨name, rfl⟩

end Layout

namespace Session

open Layout Build

variable {S : Session} {m : OptionMap} {s : SchemaId}

/-- **A set that equals itself comes to every schema once at most.**  In every layout that a session
comes to, its propagation ends, by itself and not at a bound on the depth: it is refused or comes to
its end, and every depth from the number of schemas on gives the same.  What a schema has received
is as before, or it lacked the set and has received it once. -/
theorem Reached.propagate_visits (hS : S.Reached Possible) (hs : s < S.layout.schemas.length)
    (hm : m.equal m = true) :
    ((propagate m s).Ends S.layout fun res M => (∀ e, res = .error e → e.isEndless = false)
        ∧ ∀ t, (M.schema t).received = (S.layout.schema t).received
          ∨ ((S.layout.schema t).hasReceived m = false
            ∧ (M.schema t).received = (S.layout.schema t).received ++ [m]))
      ∧ ∀ depth, S.layout.schemas.length ≤ depth →
        propagateWithin depth m s S.layout = propagate m s S.layout := by
  have hmade := hS.sane.layout.wellMade
  have haffords {depth : Nat} (h : S.layout.schemas.length ≤ depth) : S.layout.Affords m depth :=
    affords_length hmade m h
  refine ⟨?_, fun depth hdepth => ?_⟩
  · have hends := (propagateWithin_not_isEndless hm (haffords (Nat.le_refl _)) hs).and
      (propagateWithin_visits S.layout.schemas.length m s S.layout)
    refine .of_eq (y := propagateWithin S.layout.schemas.length m s) rfl ?_
    exact hends.mono fun _ _ hM => ⟨hM.1, hM.2.received_once hm⟩
  · exact propagateWithin_eq hm (haffords hdepth) (haffords (Nat.le_refl _)) hs

/-- A schema with two references to another one, which has a reference back that has not been
looked up. -/
def tangled : Session :=
  [ .addDefinition "catalog" .empty,
    .addSchema 0 "outer" .empty,
    .addSchema 0 "inner" .empty,
    .declare 0 (.reference "inner" "first" .empty),
    .declare 0 (.reference "inner" "second" .empty),
    .declare 1 (.reference "outer" "back" .empty),
    .ask (.field 0 "first"),
    .ask (.field 0 "second")].foldl step ⟨[], .empty⟩

/-- The same once the reference back has been looked up. -/
def knottedBack : Session := tangled.step (.ask (.field 1 "back"))

theorem reached_tangled : tangled.Reached Possible :=
  Reached.start.moves ⟨trivial, show 0 < List.length _ by decide,
    show 0 < List.length _ by decide, ⟨by decide, trivial⟩,
    ⟨by decide, trivial⟩, ⟨by decide, trivial⟩, trivial, trivial, trivial⟩

theorem reached_knottedBack : knottedBack.Reached Possible := .step reached_tangled trivial

/-- The set that is propagated round a cycle, and comes to the shared schema once. -/
theorem propagate_visits_knottedBack :
    let stars : OptionMap := NameMap.empty.insert OptionName.padding (.text "*")
    let L := knottedBack.layout
    let M := (propagate stars 0).after L
    knottedBack.Reached Possible ∧ stars.equal stars = true
      ∧ (M.schema 1).received ≠ (L.schema 1).received
      ∧ (∀ t, (M.schema t).received = (L.schema t).received
          ∨ ((L.schema t).hasReceived stars = false
            ∧ (M.schema t).received = (L.schema t).received ++ [stars]))
      ∧ ∀ depth, 2 ≤ depth → propagateWithin depth stars 0 L = propagate stars 0 L := by
  intro stars L M
  have hself : stars.equal stars = true := by decide
  have hlonger : (M.schema 1).received.length ≠ (L.schema 1).received.length := by decide
  obtain ⟨hends, hdepth⟩ := reached_knottedBack.propagate_visits
    (show 0 < knottedBack.layout.schemas.length by decide) hself
  exact ⟨reached_knottedBack, hself, fun h => hlonger (congrArg List.length h),
    (ends_iff.mp hends).2, hdepth⟩

/-- An option set with a NaN in it. -/
def unequal : OptionMap := NameMap.empty.insert "unit" (.float (.nan false))

/-- No set equals it. -/
theorem equal_unequal (n : OptionMap) : n.equal unequal = false := by
  cases hn : n.equal unequal with
  | false => rfl
  | true =>
    -- under its one name it holds a value that no value equals
    have hrel := NameMap.find?_of_agrees hn "unit"
    rw [show unequal.find? "unit" = some (.float (.nan false)) from rfl] at hrel
    generalize n.find? "unit" = v? at hrel
    cases hrel with
    | @some v _ hv =>
      cases v with
      | float x =>
        rw [Value.equal, Binary64.equal_of_isNaN (by rfl)] at hv
        exact absurd hv (by simp)
      | null | bool | int | text | record => exact absurd hv (by simp [Value.equal])

/-- A table ignores it that has no open slot of its one name. -/
theorem ignores_unequal {t : OptionTable} (h : t.isOpen "unit" = false) : t.Ignores unequal := by
  intro key value hvalue
  obtain ⟨hfind, -⟩ := OptionMap.given?_eq_some_iff.mp hvalue
  rw [unequal, NameMap.find?_insert] at hfind
  split at hfind
  · next hkey => exact hkey ▸ h
  · exact absurd hfind nofun

/-- Round the cycle, the schemas ignore the set and hand it on to each other. -/
theorem circling_knottedBack : knottedBack.layout.Circling unequal fun s => s = 0 ∨ s = 1 := by
  refine ⟨?_, ?_⟩
  · rintro s (rfl | rfl) <;> exact ignores_unequal (by rfl)
  · rintro s (rfl | rfl)
    · exact ⟨"first", ["second"], _, 1, by rfl, by rfl, by rfl, .inr rfl⟩
    · exact ⟨"back", [], _, 0, by rfl, by rfl, by rfl, .inl rfl⟩

/-- **A set with a NaN may come twice, and go round for ever**: the schema that two references share
receives it once for each of them, and a schema that is given it again receives it again; once there
is a way back, no depth is enough. -/
theorem received_twice :
    tangled.Reached Possible
      ∧ (let M := (propagate unequal 0).after tangled.layout
        (M.schema 1).received = (tangled.layout.schema 1).received ++ [unequal, unequal]
          ∧ ∃ n, (((propagate unequal 0).after M).schema 0).received
            = (M.schema 0).received ++ List.replicate (n + 1) unequal)
      ∧ knottedBack.Reached Possible
      ∧ (propagate unequal 0).outcome knottedBack.layout = .error (.endlessPropagation "outer")
      ∧ ∀ depth, ∃ name, (propagateWithin depth unequal 0).outcome knottedBack.layout
          = .error (.endlessPropagation name) := by
  refine ⟨reached_tangled, ⟨by rfl, ?_⟩, reached_knottedBack, by rfl, fun depth => ?_⟩
  · have hends := received_of_unequal (L := (propagate unequal 0).after tangled.layout) (s := 0)
      (by decide) equal_unequal
    exact ends_iff.mp hends
  · exact ends_iff.mp (propagateWithin_endless equal_unequal circling_knottedBack (.inl rfl) depth)

end Session

end RecordLayout
