import RecordLayout.Proofs.Layout.Change
import RecordLayout.Proofs.Layout.Declared

/-!
# Calm layouts

The options of schemas and columns are valid tables, and references pass on sets that schemas hold,
which are sound.  The sets that wait at references are sound too, unless a set that is not was
propagated on purpose.  In a calm layout they all are, and all codecs receive what schemas hand
down; columns do, and it has to be known of the codecs that are made elsewhere.

## Main definitions

* `Layout.Every`: what holds of all fields of a layout.
* `Layout.Tabled`: all options are valid.
* `Layout.Receptive`: all codecs receive what schemas hand down.
* `Layout.Calm`: in addition, all sets that wait are sound.

## Main results

* `Layout.Evolves.tabled`: **options stay valid**.
* `Layout.Evolves.receptive`: codecs go on to receive what schemas hand down.
* `Layout.Evolves.hasReceived`: a set that has been received stays so.
-/

namespace RecordLayout

/-- The options of a column are valid, and a reference passes on a set that schemas hold. -/
def Entry.Tabled : Entry → Prop
  | .column (.column c) => c.options.Valid ∧ c.options.schema = columnOptions
  | .column (.custom _) => True
  | .nested _ => True
  | .reference ref => ref.options.Held

/-- A leaf receives what schemas hand down. -/
def Entry.Receptive : Entry → Prop
  | .column c => c.Receptive
  | _ => True

/-- The sets that wait at a reference are sound. -/
def Entry.Calm : Entry → Prop
  | .reference ref => ∀ m ∈ ref.pending, m.Sound
  | _ => True

namespace Layout

/-- What holds of all fields of a layout. -/
def Every (P : Entry → Prop) (L : Layout) : Prop :=
  ∀ s key e, (L.schema s).find? key = some e → P e

/-- All options are valid. -/
structure Tabled (L : Layout) : Prop where
  schema : ∀ s, s < L.schemas.length →
    (L.schema s).options.Valid ∧ (L.schema s).options.schema = schemaOptions
  entry : L.Every Entry.Tabled

/-- All codecs receive what schemas hand down. -/
def Receptive (L : Layout) : Prop := L.Every Entry.Receptive

/-- All options are valid, all codecs receive what is handed down, and all sets that wait are
sound. -/
structure Calm (L : Layout) : Prop where
  tabled : L.Tabled
  receptive : L.Receptive
  waiting : L.Every Entry.Calm

variable {r : Nat} {L M : Layout}

/-! ### Changes of one schema -/

/-- What holds of all fields holds after a change that leaves the entries as they are. -/
theorem Every.modify {P : Entry → Prop} (hL : L.Every P) {s : SchemaId} {f : Schema → Schema}
    (hentries : (f (L.schema s)).entries = (L.schema s).entries) : (L.modify s f).Every P := by
  intro t key e he
  rw [schema_modify] at he
  split at he
  · next h =>
    rw [← h.1] at he
    unfold Schema.find? at he
    rw [hentries] at he
    exact hL s key e he
  · exact hL t key e he

/-- What holds of all fields holds after a change of one field that keeps it. -/
theorem Every.modifyEntry {P : Entry → Prop} (hL : L.Every P) {s : SchemaId} {key : Text}
    {f : Entry → Entry} (hf : ∀ e, (L.schema s).find? key = some e → P (f e)) :
    (L.modifyEntry s key f).Every P := by
  intro t k e he
  rw [Layout.modifyEntry, schema_modify] at he
  split at he
  · next h =>
    rw [← h.1] at he
    change Listing.find? (Listing.modify (L.schema s).entries key f) k = some e at he
    rw [Listing.find?_modify] at he
    split at he
    · obtain ⟨old, hold, rfl⟩ := Option.map_eq_some_iff.mp he
      next hk => exact hf old (hk ▸ hold)
    · exact hL s k e he
  · exact hL t k e he

theorem Tabled.modify (hL : L.Tabled) {s : SchemaId} {f : Schema → Schema}
    (hentries : (f (L.schema s)).entries = (L.schema s).entries)
    (hoptions : s < L.schemas.length →
      (f (L.schema s)).options.Valid ∧ (f (L.schema s)).options.schema = schemaOptions) :
    (L.modify s f).Tabled := by
  refine ⟨fun t ht => ?_, hL.entry.modify hentries⟩
  rw [length_modify] at ht
  rw [schema_modify]
  split
  · next h => exact h.1 ▸ hoptions (h.1 ▸ ht)
  · exact hL.schema t ht

theorem Tabled.modifyEntry (hL : L.Tabled) {s : SchemaId} {key : Text} {f : Entry → Entry}
    (hf : ∀ e, (L.schema s).find? key = some e → (f e).Tabled) :
    (L.modifyEntry s key f).Tabled := by
  refine ⟨fun t ht => ?_, hL.entry.modifyEntry hf⟩
  rw [Layout.modifyEntry, length_modify] at ht
  rw [options_modifyEntry]
  exact hL.schema t ht

/-! ### What changes leave -/

theorem tabled_takeOver {c : Codec} (h : (Entry.column c).Tabled) (values : OptionMap) :
    (Entry.column (c.takeOver values).1).Tabled := by
  cases c with
  | custom c => trivial
  | column c =>
    obtain ⟨hvalid, hschema⟩ := h
    obtain ⟨hvalid', hschema'⟩ := hvalid.mergeValues values
    exact ⟨hvalid', hschema'.trans hschema⟩

/-- A change keeps all options valid. -/
theorem Change.tabled (h : Change r L M) (hL : L.Tabled) : M.Tabled := by
  cases h with
  | received s values => exact hL.modify rfl (hL.schema s)
  | options s values =>
    refine hL.modify rfl fun hs => ?_
    obtain ⟨hvalid, hschema⟩ := hL.schema s hs
    exact ⟨(hvalid.mergeValues values).1, (hvalid.mergeValues values).2.trans hschema⟩
  | @codec s key c h values =>
    exact hL.modifyEntry fun _ _ => tabled_takeOver (hL.entry s key _ h) values
  | @enqueued s key ref h hnone values =>
    refine hL.modifyEntry fun _ _ => ?_
    have hsame : (ref.enqueue values).options = ref.options := by
      unfold Reference.enqueue
      split <;> rfl
    show (ref.enqueue values).options.Held
    rw [hsame]
    exact hL.entry s key _ h
  | @refused s key ref h hnone reason =>
    refine hL.modifyEntry fun e he => ?_
    obtain rfl := Option.some.inj (he.symm.trans h)
    have hpassed : ref.options.Held := hL.entry s key (.reference ref) h
    exact hpassed
  | @bound s key ref t hs h hnone ht =>
    have hpassed : ref.options.Held := hL.entry s key (.reference ref) h
    exact hL.modifyEntry fun _ _ => hpassed
  | @measured s o h htrusts => exact hL.modify rfl (hL.schema s)

/-- **Options stay valid.** -/
theorem Evolves.tabled (h : L.Evolves r M) (hL : L.Tabled) : M.Tabled := by
  induction h with
  | refl => exact hL
  | tail _ hchange ih => exact hchange.tabled ih

/-- A change leaves it to all codecs to receive what is handed down. -/
theorem Change.receptive (h : Change r L M) (hL : L.Receptive) : M.Receptive := by
  cases h with
  | received | options | measured => exact Every.modify hL rfl
  | @codec s key c h values =>
    have hc : c.Receptive := hL s key (.column c) h
    exact Every.modifyEntry hL fun _ _ => hc.takeOver values
  | refused href =>
    refine Every.modifyEntry hL fun e he => ?_
    obtain rfl := Option.some.inj (he.symm.trans href)
    trivial
  | enqueued | bound => exact Every.modifyEntry hL fun _ _ => trivial

/-- Codecs go on to receive what schemas hand down. -/
theorem Evolves.receptive (h : L.Evolves r M) (hL : L.Receptive) : M.Receptive := by
  induction h with
  | refl => exact hL
  | tail _ hchange ih => exact hchange.receptive ih

/-- A change takes back nothing that a schema has received. -/
theorem Change.hasReceived (h : Change r L M) {t : SchemaId} {m : OptionMap}
    (ht : (L.schema t).hasReceived m = true) : (M.schema t).hasReceived m = true := by
  have hmodify {s : SchemaId} {f : Schema → Schema}
      (hf : (L.schema s).hasReceived m = true → (f (L.schema s)).hasReceived m = true) :
      ((L.modify s f).schema t).hasReceived m = true := by
    rw [schema_modify]
    split
    · next hs => rw [← hs.1]; exact hf (hs.1 ▸ ht)
    · exact ht
  cases h with
  | received s values =>
    refine hmodify fun hs => ?_
    unfold Schema.hasReceived at hs ⊢
    rw [List.any_append, hs]
    rfl
  | options s values => exact hmodify id
  | codec | enqueued | refused | bound | measured => exact hmodify id

/-- A set that has been received stays so. -/
theorem Evolves.hasReceived (h : L.Evolves r M) {t : SchemaId} {m : OptionMap}
    (ht : (L.schema t).hasReceived m = true) : (M.schema t).hasReceived m = true := by
  induction h with
  | refl => exact ht
  | tail _ hchange ih => exact hchange.hasReceived ih

end Layout

end RecordLayout
