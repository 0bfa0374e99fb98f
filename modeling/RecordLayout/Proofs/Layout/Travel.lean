import Mathlib.Data.Finset.Card
import Mathlib.Data.Finset.Range
import RecordLayout.Proofs.Layout.Calm
import RecordLayout.Proofs.Layout.Outcome

/-!
# How options travel

Propagation is a run of changes, whatever the set is and wherever it is refused.  A sound set is
refused nowhere, and because no schema takes it twice, the paths that it takes come to an end before
the depth that is allowed is used up.

## Main definitions

* `Layout.lacking`: the schemas that have not received a set.

## Main results

* `Layout.propagate_evolves`: propagation is a run of changes.
* `Layout.propagate_sound`: **a sound set comes to every place, and leaves the layout calm**.
-/

namespace RecordLayout

namespace Layout

open Build

variable {r : Nat} {L : Layout}

/-- What happens where a set comes to a schema. -/
theorem ends_propagateWithin {depth : Nat} {options : OptionMap} {s : SchemaId}
    {Q : Except Error Unit → Layout → Prop}
    (hstop : options.isEmpty = true ∨ (L.schema s).hasReceived options = true → Q (.ok ()) L)
    (hend : (L.schema s).hasReceived options = false → depth = 0 →
      Q (.error (.endlessPropagation (L.schema s).name)) L)
    (hgo : options.isEmpty = false → (L.schema s).hasReceived options = false →
      ∀ d, depth = d + 1 →
      (do noteReceived s options
          takeOverOptions s options
          (L.schema s).fields.forM
            (propagateInto (propagateWithin d options) options s) : Build Unit).Ends L Q) :
    (propagateWithin depth options s).Ends L Q := by
  by_cases h : (options.isEmpty || (L.schema s).hasReceived options) = true
  · refine .of_eq (y := pure ()) ?_ (ends_pure.mpr (hstop (Bool.or_eq_true_iff.mp h)))
    unfold propagateWithin
    exact if_pos h
  · have hgoes := Bool.or_eq_false_iff.mp (Bool.not_eq_true _ ▸ h)
    obtain ⟨hsome, hlacks⟩ := hgoes
    cases depth with
    | zero =>
      refine .of_eq (y := throw (.endlessPropagation (L.schema s).name)) ?_
        (ends_throw.mpr (hend hlacks rfl))
      unfold propagateWithin
      exact if_neg h
    | succ d =>
      refine .of_eq ?_ (hgo hsome hlacks d rfl)
      conv => lhs; unfold propagateWithin
      exact if_neg h

/-! ### Every set -/

theorem ends_settle {e : Option Error} {Q : Except Error Unit → Layout → Prop} :
    (settle e).Ends L Q ↔ Q (match e with | some e => .error e | none => .ok ()) L := by
  cases e <;> exact Iff.rfl

theorem ends_noteReceived {s : SchemaId} {options : OptionMap}
    {Q : Except Error Unit → Layout → Prop} :
    (noteReceived s options).Ends L Q ↔ Q (.ok ()) (L.noted s options) := Iff.rfl

theorem ends_takeOverOptions {s : SchemaId} {options : OptionMap}
    {Q : Except Error Unit → Layout → Prop} :
    (takeOverOptions s options).Ends L Q ↔
      Q (match ((L.schema s).options.mergeValues options).2 with
          | some e => .error e
          | none => .ok ()) (L.taken s options) := ends_settle

/-- What happens at each kind of field. -/
theorem ends_propagateInto {descend : SchemaId → Build Unit} {options : OptionMap} {s : SchemaId}
    {key : Text} {Q : Except Error Unit → Layout → Prop}
    (hcolumn : ∀ c, (L.schema s).find? key = some (.column c) →
      Q (match (c.takeOver options).2 with | some e => .error e | none => .ok ())
        (L.modifyEntry s key fun _ => .column (c.takeOver options).1))
    (hinner : ∀ t f, L.known? s key = some f → f.schema? = some t → (descend t).Ends L Q)
    (hwaits : ∀ ref, (L.schema s).find? key = some (.reference ref) → ref.target? = none →
      Q (.ok ()) (L.modifyEntry s key fun _ => .reference (ref.enqueue options)))
    (hnone : (L.schema s).find? key = none → Q (.ok ()) L) :
    (propagateInto descend options s key).Ends L Q := by
  cases hfind : (L.schema s).find? key with
  | none => exact .of_eq (y := pure ()) (by simp only [propagateInto, hfind]; rfl) (hnone hfind)
  | some e =>
    cases e with
    | column c =>
      refine .of_eq (y := takeOverInCodec s key c options) (by simp only [propagateInto, hfind]) ?_
      exact ends_settle.mpr (hcolumn c hfind)
    | nested child =>
      refine .of_eq (y := descend child) (by simp only [propagateInto, hfind]) ?_
      exact hinner child (.nested key child) (known_of_nested hfind) rfl
    | reference ref =>
      cases htarget : ref.target? with
      | some t =>
        refine .of_eq (y := descend t) (by simp only [propagateInto, hfind, htarget]) ?_
        exact hinner t (.reference ref.storeName t) (known_of_reference hfind htarget) rfl
      | none =>
        refine .of_eq (y := enqueue s key ref options)
          (by simp only [propagateInto, hfind, htarget]) ?_
        exact hwaits ref hfind htarget

theorem propagateWithin_evolves (depth : Nat) (options : OptionMap) (s : SchemaId) (L : Layout) :
    (propagateWithin depth options s).Ends L fun _ M => L.Evolves r M := by
  induction depth generalizing s L with
  | zero =>
    exact ends_propagateWithin (fun _ => .refl r L) (fun _ _ => .refl r L) fun _ _ d hd => by omega
  | succ depth ih =>
    refine ends_propagateWithin (fun _ => .refl r L) (fun _ _ => .refl r L) fun _ _ d hd => ?_
    obtain rfl : depth = d := by omega
    refine ends_bind.mpr (ends_noteReceived.mpr (ends_bind.mpr (ends_takeOverOptions.mpr ?_)))
    have hnoted := (Evolves.single (.received (r := r) s options)).trans
      (.single (.options (L := L.noted s options) s options))
    split
    · refine ends_forM (I := fun M => L.Evolves r M) _ hnoted fun key _ M hM => ?_
      refine ends_propagateInto (fun c hc => ?_) (fun t f _ _ => ?_) (fun ref href hnone => ?_)
        fun _ => hM
      · exact hM.trans (.single (.codec hc options))
      · exact (ih t M).mono fun _ N hN => hM.trans hN
      · exact hM.trans (.single (.enqueued href hnone options))
    · exact hnoted

/-- Propagation is a run of changes. -/
theorem propagate_evolves (options : OptionMap) (s : SchemaId) (L : Layout) :
    (propagate options s).Ends L fun _ M => L.Evolves r M :=
  propagateWithin_evolves _ options s L

/-! ### Sound sets -/

/-- The schemas that have not received a set. -/
def lacking (L : Layout) (m : OptionMap) : Finset SchemaId :=
  (Finset.range L.schemas.length).filter fun s => (L.schema s).hasReceived m = false

theorem mem_lacking {m : OptionMap} {s : SchemaId} :
    s ∈ L.lacking m ↔ s < L.schemas.length ∧ (L.schema s).hasReceived m = false := by
  unfold lacking
  rw [Finset.mem_filter, Finset.mem_range]

/-- The schemas that lack a set become fewer. -/
theorem lacking_subset {M : Layout} (h : L.Evolves r M) (hL : L.WellMade) (m : OptionMap) :
    M.lacking m ⊆ L.lacking m := by
  intro s hs
  obtain ⟨hlt, hlacks⟩ := mem_lacking.mp hs
  refine mem_lacking.mpr ⟨(h.follows hL).length ▸ hlt, Bool.eq_false_iff.mpr fun hhas => ?_⟩
  rw [h.hasReceived hhas] at hlacks
  exact absurd hlacks (by decide)

theorem card_lacking_le (m : OptionMap) : (L.lacking m).card ≤ L.schemas.length := by
  have h := Finset.card_filter_le (Finset.range L.schemas.length)
    fun s => (L.schema s).hasReceived m = false
  rwa [Finset.card_range] at h

theorem hasReceived_note {m : OptionMap} (hm : OptionMap.equal m m = true) {s : SchemaId}
    (hs : s < L.schemas.length) :
    ((L.noted s m).schema s).hasReceived m = true := by
  unfold noted
  rw [schema_modify, if_pos ⟨rfl, hs⟩]
  unfold Schema.hasReceived
  rw [List.any_append]
  simp [hm]

theorem Calm.of_change {M : Layout} (h : Change r L M) (hL : L.Calm) (hM : M.Every Entry.Calm) :
    M.Calm := ⟨h.tabled hL.tabled, h.receptive hL.receptive, hM⟩

theorem Every.enqueue (hL : L.Every Entry.Calm) {s : SchemaId} {key : Text} {ref : Reference}
    (h : (L.schema s).find? key = some (.reference ref)) {m : OptionMap} (hm : m.Sound) :
    (L.modifyEntry s key fun _ => .reference (ref.enqueue m)).Every Entry.Calm := by
  refine hL.modifyEntry fun _ _ n hn => ?_
  have hwaiting : ∀ n ∈ ref.pending, n.Sound := hL s key (.reference ref) h
  unfold Reference.enqueue at hn
  split at hn
  · exact hwaiting n hn
  · rcases List.mem_append.mp hn with hn | hn
    · exact hwaiting n hn
    · rw [List.mem_singleton.mp hn]
      exact hm

/-- A schema that has received a set lacks it no more. -/
theorem card_lacking_lt {M : Layout} (h : L.Evolves r M) (hL : L.WellMade) {m : OptionMap}
    {s : SchemaId} (hs : s < L.schemas.length) (hlacks : (L.schema s).hasReceived m = false)
    (hhas : (M.schema s).hasReceived m = true) : (M.lacking m).card < (L.lacking m).card := by
  refine Finset.card_lt_card ⟨lacking_subset h hL m, fun hsub => ?_⟩
  have hlacks' := (mem_lacking.mp (hsub (mem_lacking.mpr ⟨hs, hlacks⟩))).2
  rw [hhas] at hlacks'
  exact absurd hlacks' (by decide)

/-- A calm layout in which a set is lacking in at most `depth` schemas. -/
structure Ready (m : OptionMap) (depth : Nat) (L : Layout) : Prop where
  wellMade : L.WellMade
  calm : L.Calm
  card_le : (L.lacking m).card ≤ depth

theorem Ready.evolve {m : OptionMap} {depth : Nat} {M : Layout} (hL : L.Ready m depth)
    (h : L.Evolves r M) (hM : M.Calm) : M.Ready m depth :=
  ⟨h.wellMade hL.wellMade, hM,
    Nat.le_trans (Finset.card_le_card (lacking_subset h hL.wellMade m)) hL.card_le⟩

/-- A sound set passes every field, if it comes to its end in the schemas that it goes on to. -/
theorem propagateInto_sound {m : OptionMap} (hm : m.Sound) {depth : Nat}
    {descend : SchemaId → Build Unit} (hL : L.Ready m depth)
    (hdescend : ∀ t, t < L.schemas.length →
      (descend t).Ends L fun res M => res = .ok () ∧ M.Ready m depth) (s : SchemaId) (key : Text) :
    (propagateInto descend m s key).Ends L fun res M => res = .ok () ∧ M.Ready m depth := by
  have hcalm := hL.calm
  refine ends_propagateInto (fun c hc => ?_) (fun t f hf ht => ?_) (fun ref href hnone => ?_)
    fun _ => ⟨rfl, hL⟩
  · have hchange : Change 0 L _ := .codec hc m
    have hreceptive : c.Receptive := hcalm.receptive s key (.column c) hc
    rw [hreceptive.takeOver_none hm.takes]
    exact ⟨rfl, hL.evolve (.single hchange)
      (hcalm.of_change hchange (hcalm.waiting.modifyEntry fun _ _ => trivial))⟩
  · exact hdescend t (hL.wellMade.coherent.known_lt hf ht)
  · have hchange : Change 0 L _ := .enqueued href hnone m
    exact ⟨rfl, hL.evolve (.single hchange)
      (hcalm.of_change hchange (hcalm.waiting.enqueue href hm))⟩

/-- A sound set comes to its end in a calm layout, within as many schemas as lack it. -/
theorem propagateWithin_sound {m : OptionMap} (hm : m.Sound) {depth : Nat} {s : SchemaId}
    (hL : L.Ready m depth) (hs : s < L.schemas.length) :
    (propagateWithin depth m s).Ends L fun res M => res = .ok () ∧ M.Ready m depth := by
  induction depth generalizing s L with
  | zero =>
    refine ends_propagateWithin (fun _ => ⟨rfl, hL⟩) (fun hlacks _ => ?_) fun _ _ d hd => by omega
    -- a schema that lacks the set is one of none
    have hempty := Finset.card_eq_zero.mp (Nat.le_zero.mp hL.card_le)
    exact absurd (mem_lacking.mpr ⟨hs, hlacks⟩) (by rw [hempty]; exact Finset.notMem_empty s)
  | succ depth ih =>
    refine ends_propagateWithin (fun _ => ⟨rfl, hL⟩) (fun _ hd => by omega) fun _ hlacks d hd => ?_
    obtain rfl : depth = d := by omega
    refine ends_bind.mpr (ends_noteReceived.mpr (ends_bind.mpr (ends_takeOverOptions.mpr ?_)))
    have hnoted : Change 0 L (L.noted s m) := .received s m
    have hcalm := hL.calm.of_change hnoted (hL.calm.waiting.modify rfl)
    have htaken : Change 0 (L.noted s m) _ := .options (L := L.noted s m) s m
    have hevolves := (Evolves.single hnoted).trans (.single htaken)
    obtain ⟨-, hschema⟩ := hcalm.tabled.schema s (hnoted.follows.length ▸ hs)
    rw [OptionTable.mergeValues_takes (hschema ▸ hm.takes)]
    -- the schema no longer lacks the set, so there is depth enough for the schemas inside
    have hfewer := card_lacking_lt hevolves hL.wellMade hs hlacks
      (htaken.hasReceived (hasReceived_note hm.self hs))
    have hready : Ready m depth _ := ⟨hevolves.wellMade hL.wellMade,
      hcalm.of_change htaken (hcalm.waiting.modify rfl), by have := hL.card_le; omega⟩
    have hall := ends_forM_ok (I := fun M => M.Ready m depth) (L.schema s).fields hready
      fun key _ M hM => propagateInto_sound hm hM (fun t ht => ih hM ht) s key
    exact hall.mono fun res N hN =>
      ⟨hN.1, hN.2.wellMade, hN.2.calm, Nat.le_succ_of_le hN.2.card_le⟩

/-- **A sound set comes to every place, and leaves the layout calm.** -/
theorem propagate_sound {m : OptionMap} (hm : m.Sound) {s : SchemaId} (hmade : L.WellMade)
    (hcalm : L.Calm) (hs : s < L.schemas.length) :
    (propagate m s).Ends L fun res M => res = .ok () ∧ M.Calm := by
  have hends := propagateWithin_sound hm ⟨hmade, hcalm, card_lacking_le m⟩ hs
  exact .of_eq (y := propagateWithin L.schemas.length m s) rfl
    (hends.mono fun _ _ hM => ⟨hM.1, hM.2.calm⟩)

end Layout

end RecordLayout
