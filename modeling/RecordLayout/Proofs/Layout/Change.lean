import Mathlib.Logic.Relation
import RecordLayout.Proofs.Layout.Outline

/-!
# Changes made by reading a layout

Whatever is asked of a layout, and however options travel through it, the layout is changed in seven
ways only.  Each of them leaves the fields in their places, so a run of them leads to a layout that
goes on from the first; and a width that is noted is the width of an outline, all of whose schemas
are trusted too, so it stays the width as long as it is trusted.

## Main definitions

* `Layout.Change`: one change, which gives targets to references before some place at most.
* `Layout.Evolves`: any number of changes.
* `Layout.Trusts`: the width of a schema is known in this generation.
* `Layout.Measured`: **every width that is trusted is the width of an outline**.
* `Layout.WellMade`: a layout is coherent and measured.

## Main results

* `Layout.Evolves.follows`, `Layout.Evolves.wellMade`: what changes lead to.
-/

namespace RecordLayout

namespace Layout

/-- The width of a schema is known, and no field has been added since it was noted. -/
def Trusts (L : Layout) (s : SchemaId) : Prop :=
  ((L.schema s).trustedWidth? L.generation).isSome = true

/-- The layout in which a schema has received an option set. -/
def noted (L : Layout) (s : SchemaId) (values : OptionMap) : Layout :=
  L.modify s fun node => { node with received := node.received ++ [values] }

/-- The layout in which a schema has taken an option set over. -/
def taken (L : Layout) (s : SchemaId) (values : OptionMap) : Layout :=
  L.modify s fun node => { node with options := ((L.schema s).options.mergeValues values).1 }

/-- One change to a layout; targets are found for references of schemas before `r` only. -/
inductive Change (r : Nat) (L : Layout) : Layout → Prop
  /-- An option set has been propagated into a schema. -/
  | received (s : SchemaId) (values : OptionMap) : Change r L (L.noted s values)
  /-- A schema takes an option set over. -/
  | options (s : SchemaId) (values : OptionMap) : Change r L (L.taken s values)
  /-- A codec takes an option set over. -/
  | codec {s : SchemaId} {key : Text} {c : Codec}
    (h : (L.schema s).find? key = some (.column c)) (values : OptionMap) :
    Change r L (L.modifyEntry s key fun _ => .column (c.takeOver values).1)
  /-- An option set waits at a reference. -/
  | enqueued {s : SchemaId} {key : Text} {ref : Reference}
    (h : (L.schema s).find? key = some (.reference ref)) (hnone : ref.target? = none)
    (values : OptionMap) : Change r L (L.modifyEntry s key fun _ => .reference (ref.enqueue values))
  /-- A search for a target has failed. -/
  | refused {s : SchemaId} {key : Text} {ref : Reference}
    (h : (L.schema s).find? key = some (.reference ref)) (hnone : ref.target? = none)
    (reason : Text) :
    Change r L (L.modifyEntry s key fun
      | .reference ref => .reference (ref.fail reason)
      | entry => entry)
  /-- A reference gets the target that its name stands for. -/
  | bound {s : SchemaId} {key : Text} {ref : Reference} {t : SchemaId} (hs : s < r)
    (h : (L.schema s).find? key = some (.reference ref)) (hnone : ref.target? = none)
    (ht : L.target s ref = .ok t) :
    Change r L (L.modifyEntry s key fun _ => .reference (ref.bind t).2)
  /-- The width of a schema is noted once those of all schemas inside are trusted. -/
  | measured {s : SchemaId} {o : Outline} (h : L.Unfolds s o)
    (htrusts : ∀ t ∈ o.schemas, L.Trusts t) :
    Change r L (L.modify s fun node =>
      { node with knownWidth? := some (UInt64.ofNat o.width, L.generation) })

/-- Any number of changes. -/
def Evolves (r : Nat) : Layout → Layout → Prop := Relation.ReflTransGen (Change r)

/-- Every width that is trusted is the width of an outline, and so are those of all schemas
inside. -/
def Measured (L : Layout) : Prop :=
  ∀ s total g, (L.schema s).knownWidth? = some (total, g) →
    g ≤ L.generation ∧ (g = L.generation →
      ∃ o, L.Unfolds s o ∧ total = UInt64.ofNat o.width ∧ ∀ t ∈ o.schemas, L.Trusts t)

/-- A layout is coherent and measured. -/
structure WellMade (L : Layout) : Prop where
  coherent : L.Coherent
  measured : L.Measured

/-! ### Changes of one schema -/

variable {r : Nat} {L M N : Layout}

theorem schema_of_le {s : SchemaId} (h : L.schemas.length ≤ s) : L.schema s = .blank := by
  unfold schema
  rw [List.getD_eq_getElem?_getD, List.getElem?_eq_none h]
  rfl

theorem lt_of_find? {s : SchemaId} {key : Text} {e : Entry}
    (h : (L.schema s).find? key = some e) : s < L.schemas.length := by
  refine Nat.lt_of_not_le fun hle => ?_
  rw [schema_of_le hle] at h
  exact absurd h (by simp [Schema.find?, Schema.blank])

/-- The fields after a change of one of them. -/
theorem find?_modifyEntry {s : SchemaId} {key : Text} {f : Entry → Entry} {e : Entry}
    (h : (L.schema s).find? key = some e) (t : SchemaId) (k : Text) :
    ((L.modifyEntry s key f).schema t).find? k =
      if s = t ∧ k = key then some (f e) else (L.schema t).find? k := by
  have hs := lt_of_find? h
  rw [modifyEntry, schema_modify]
  by_cases ht : s = t
  · subst ht
    rw [if_pos ⟨rfl, hs⟩]
    show Listing.find? (Listing.modify (L.schema s).entries key f) k = _
    rw [Listing.find?_modify]
    by_cases hk : k = key
    · subst hk
      rw [if_pos rfl, if_pos ⟨rfl, rfl⟩, show Listing.find? (L.schema s).entries k = some e from h]
      rfl
    · rw [if_neg hk, if_neg fun hand => hk hand.2]
      rfl
  · rw [if_neg fun hand => ht hand.1, if_neg fun hand => ht hand.1]

theorem options_modifyEntry (L : Layout) (s : SchemaId) (key : Text) (f : Entry → Entry)
    (t : SchemaId) : ((L.modifyEntry s key f).schema t).options = (L.schema t).options := by
  rw [modifyEntry, schema_modify]
  split <;> rfl

theorem received_modifyEntry (L : Layout) (s : SchemaId) (key : Text) (f : Entry → Entry)
    (t : SchemaId) : ((L.modifyEntry s key f).schema t).received = (L.schema t).received := by
  rw [modifyEntry, schema_modify]
  split <;> rfl

theorem Follows.of_modify {s : SchemaId} {f : Schema → Schema}
    (hschema : SchemaFollows (L.schema s) (f (L.schema s)))
    (hentry : ∀ key, Option.Rel (EntryFollows r L s) ((L.schema s).find? key)
      ((f (L.schema s)).find? key)) : L.Follows r (L.modify s f) := by
  refine ⟨length_modify L s f, rfl, rfl, fun t => ?_, fun t key => ?_⟩
  · rw [schema_modify]
    split
    · next h => rw [← h.1]; exact hschema
    · exact .refl _
  · rw [schema_modify]
    split
    · next h => rw [← h.1]; exact hentry key
    · exact (Follows.refl r L).entry t key

/-- A change that leaves the entries as they are. -/
theorem Follows.of_sameEntries {s : SchemaId} {f : Schema → Schema}
    (hschema : SchemaFollows (L.schema s) (f (L.schema s)))
    (hentries : (f (L.schema s)).entries = (L.schema s).entries) : L.Follows r (L.modify s f) := by
  refine .of_modify hschema fun key => ?_
  unfold Schema.find?
  rw [hentries]
  exact (Follows.refl r L).entry s key

/-- A change of one field. -/
theorem Follows.of_modifyEntry {s : SchemaId} {key : Text} {e : Entry} {f : Entry → Entry}
    (h : (L.schema s).find? key = some e) (hf : EntryFollows r L s e (f e)) :
    L.Follows r (L.modifyEntry s key f) := by
  refine .of_modify ⟨rfl, rfl, rfl, rfl, Listing.names_modify _ _ _, rfl, rfl⟩ fun k => ?_
  show Option.Rel _ _ (Listing.find? (Listing.modify (L.schema s).entries key f) k)
  rw [Listing.find?_modify]
  split
  · next hk =>
    rw [hk, show Listing.find? (L.schema s).entries key = some e from h, h]
    exact .some hf
  · exact (Follows.refl r L).entry s k

theorem ReferenceFollows.of_state {s : SchemaId} {ref q : Reference} (hnone : ref.target? = none)
    (hname : q.schemaName = ref.schemaName) (hstore : q.storeName = ref.storeName)
    (hoptions : q.options = ref.options)
    (hfound : ∀ t, q.target? = some t → s < r ∧ L.target s ref = .ok t) :
    ReferenceFollows r L s ref q := by
  refine ⟨hname, hstore, hoptions, fun t ht => ?_, fun _ => hfound⟩
  rw [hnone] at ht
  exact absurd ht (by simp)

theorem target?_enqueue (ref : Reference) (values : OptionMap) :
    (ref.enqueue values).target? = ref.target? := by
  unfold Reference.enqueue
  split <;> rfl

theorem ReferenceFollows.enqueue (s : SchemaId) {ref : Reference} (hnone : ref.target? = none)
    (values : OptionMap) : ReferenceFollows r L s ref (ref.enqueue values) := by
  have hsame : (ref.enqueue values).schemaName = ref.schemaName
      ∧ (ref.enqueue values).storeName = ref.storeName
      ∧ (ref.enqueue values).options = ref.options := by
    unfold Reference.enqueue
    split <;> exact ⟨rfl, rfl, rfl⟩
  refine .of_state hnone hsame.1 hsame.2.1 hsame.2.2 fun t ht => ?_
  rw [target?_enqueue, hnone] at ht
  exact absurd ht (by simp)

/-- A change leads to a layout that goes on from the one before. -/
theorem Change.follows (h : Change r L M) : L.Follows r M := by
  cases h with
  | received s values => exact .of_sameEntries ⟨rfl, rfl, rfl, rfl, rfl, rfl, rfl⟩ rfl
  | options s values => exact .of_sameEntries ⟨rfl, rfl, rfl, rfl, rfl, rfl, rfl⟩ rfl
  | codec h values => exact .of_modifyEntry h (.column (Codec.sameSlot_takeOver _ values))
  | enqueued h hnone values => exact .of_modifyEntry h (.reference (.enqueue _ hnone values))
  | refused h hnone reason =>
    refine .of_modifyEntry h (.reference (.of_state hnone rfl rfl rfl fun t ht => ?_))
    exact absurd ht (by simp [Reference.fail, Reference.target?])
  | bound hs h hnone ht =>
    refine .of_modifyEntry h (.reference (.of_state hnone rfl rfl rfl fun u hu => ?_))
    rw [Reference.target?_bind] at hu
    exact ⟨hs, Option.some.inj hu ▸ ht⟩
  | measured h htrusts => exact .of_sameEntries ⟨rfl, rfl, rfl, rfl, rfl, rfl, rfl⟩ rfl

/-! ### Widths that are trusted -/

theorem Trusts.of_eq {s : SchemaId} (h : L.Trusts s)
    (hwidth : (M.schema s).knownWidth? = (L.schema s).knownWidth?)
    (hgeneration : M.generation = L.generation) : M.Trusts s := by
  unfold Trusts Schema.trustedWidth? at h ⊢
  rw [hwidth, hgeneration]
  exact h

theorem trustedWidth?_eq_some_iff {a : Schema} {g : Nat} {total : UInt64} :
    a.trustedWidth? g = some total ↔ a.knownWidth? = some (total, g) := by
  unfold Schema.trustedWidth?
  split
  · next total' g' h =>
    rw [h]
    split <;> simp_all
  · next h => simp [h]

theorem trusts_iff {s : SchemaId} :
    L.Trusts s ↔ ∃ total, (L.schema s).knownWidth? = some (total, L.generation) := by
  unfold Trusts
  rw [Option.isSome_iff_exists]
  simp only [trustedWidth?_eq_some_iff]

/-- A trusted width is the width of an outline whose schemas are all trusted. -/
theorem Measured.unfolds (hL : L.Measured) {s : SchemaId} {total : UInt64}
    (h : (L.schema s).trustedWidth? L.generation = some total) :
    ∃ o, L.Unfolds s o ∧ total = UInt64.ofNat o.width ∧ ∀ t ∈ o.schemas, L.Trusts t :=
  (hL s total _ (trustedWidth?_eq_some_iff.mp h)).2 rfl

/-- An outline goes on, with its width and its schemas. -/
theorem Unfolds.follow {s : SchemaId} {o : Outline} (ho : L.Unfolds s o) (h : L.Follows r M) :
    ∃ p, M.Unfolds s p ∧ o.Follows p := by
  unfold Unfolds
  rw [(h.schema s).fields]
  exact UnfoldsTo.follow ho h

/-- Where no width is noted, all that are trusted stay the widths of outlines. -/
theorem Measured.of_follows (hL : L.Measured) (h : L.Follows r M)
    (hwidth : ∀ s, (M.schema s).knownWidth? = (L.schema s).knownWidth?) : M.Measured := by
  intro s total g hknown
  rw [hwidth s] at hknown
  rw [h.generation]
  refine ⟨(hL s total g hknown).1, fun hg => ?_⟩
  obtain ⟨o, ho, htotal, htrusts⟩ := (hL s total g hknown).2 hg
  obtain ⟨p, hp, hop⟩ := ho.follow h
  refine ⟨p, hp, by rw [htotal, hop.width_eq], fun t ht => ?_⟩
  rw [hop.schemas_eq] at ht
  exact (htrusts t ht).of_eq (hwidth t) h.generation

/-- What a change that notes no width leaves of the widths. -/
theorem knownWidth?_modify {s : SchemaId} {f : Schema → Schema}
    (hf : (f (L.schema s)).knownWidth? = (L.schema s).knownWidth?) (t : SchemaId) :
    ((L.modify s f).schema t).knownWidth? = (L.schema t).knownWidth? := by
  rw [schema_modify]
  split
  · next h => rw [← h.1]; exact hf
  · rfl

/-- Noting a width that belongs to an outline keeps all widths those of outlines. -/
theorem Measured.note (hL : L.Measured) {s : SchemaId} {o : Outline} (ho : L.Unfolds s o)
    (htrusts : ∀ t ∈ o.schemas, L.Trusts t) :
    let M := L.modify s fun node =>
      { node with knownWidth? := some (UInt64.ofNat o.width, L.generation) }
    M.Measured ∧ ∀ t, L.Trusts t → M.Trusts t := by
  intro M
  have hfollows : L.Follows 0 M := .of_sameEntries ⟨rfl, rfl, rfl, rfl, rfl, rfl, rfl⟩ rfl
  have hkept (t : SchemaId) : (M.schema t).knownWidth? = (L.schema t).knownWidth?
      ∨ (t = s ∧ (M.schema t).knownWidth? = some (UInt64.ofNat o.width, L.generation)) := by
    rw [show M.schema t = _ from schema_modify L s t _]
    split
    · next h => exact .inr ⟨h.1.symm, rfl⟩
    · exact .inl rfl
  have htrust (t : SchemaId) (ht : L.Trusts t) : M.Trusts t := by
    rcases hkept t with h | ⟨-, h⟩
    · exact ht.of_eq h rfl
    · exact trusts_iff.mpr ⟨_, h⟩
  -- an outline that could be trusted before can be trusted with the new width too
  have hfollow (t : SchemaId) (p : Outline) (hp : L.Unfolds t p)
      (hp' : ∀ u ∈ p.schemas, L.Trusts u) :
      ∃ q, M.Unfolds t q ∧ UInt64.ofNat p.width = UInt64.ofNat q.width
        ∧ ∀ u ∈ q.schemas, M.Trusts u := by
    obtain ⟨q, hq, hpq⟩ := hp.follow hfollows
    refine ⟨q, hq, by rw [hpq.width_eq], fun u hu => htrust u (hp' u ?_)⟩
    rwa [hpq.schemas_eq] at hu
  refine ⟨fun t total g hknown => ?_, htrust⟩
  rcases hkept t with h | ⟨rfl, h⟩
  · rw [h] at hknown
    obtain ⟨hle, hout⟩ := hL t total g hknown
    refine ⟨hle, fun hg => ?_⟩
    obtain ⟨p, hp, htotal, hp'⟩ := hout hg
    rw [htotal]
    exact hfollow t p hp hp'
  · obtain ⟨rfl, rfl⟩ := Prod.mk.inj (Option.some.inj (h.symm.trans hknown))
    exact ⟨Nat.le_refl _, fun _ => hfollow t o ho htrusts⟩

/-- A change keeps a layout well made, and widths trusted. -/
theorem Change.wellMade (h : Change r L M) (hL : L.WellMade) :
    M.WellMade ∧ ∀ t, L.Trusts t → M.Trusts t := by
  have hfollows := h.follows
  have hquiet (hwidth : ∀ s, (M.schema s).knownWidth? = (L.schema s).knownWidth?) :
      M.WellMade ∧ ∀ t, L.Trusts t → M.Trusts t :=
    ⟨⟨hfollows.coherent hL.coherent, hL.measured.of_follows hfollows hwidth⟩,
      fun t ht => ht.of_eq (hwidth t) hfollows.generation⟩
  cases h with
  | received | options => exact hquiet (knownWidth?_modify rfl)
  | codec | enqueued | refused | bound => exact hquiet (knownWidth?_modify rfl)
  | measured ho htrusts =>
    obtain ⟨hmeasured, htrust⟩ := hL.measured.note ho htrusts
    exact ⟨⟨hfollows.coherent hL.coherent, hmeasured⟩, htrust⟩

/-! ### Any number of changes -/

namespace Evolves

theorem refl (r : Nat) (L : Layout) : L.Evolves r L := Relation.ReflTransGen.refl

theorem single (h : Change r L M) : L.Evolves r M := Relation.ReflTransGen.single h

theorem trans (h : L.Evolves r M) (h' : M.Evolves r N) : L.Evolves r N :=
  Relation.ReflTransGen.trans h h'

theorem mono {r' : Nat} (h : L.Evolves r M) (hr : r ≤ r') : L.Evolves r' M := by
  refine Relation.ReflTransGen.mono (fun A B hAB => ?_) _ _ h
  cases hAB with
  | received s values => exact .received s values
  | options s values => exact .options s values
  | codec h values => exact .codec h values
  | enqueued h hnone values => exact .enqueued h hnone values
  | refused h hnone reason => exact .refused h hnone reason
  | bound hs h hnone ht => exact .bound (Nat.lt_of_lt_of_le hs hr) h hnone ht
  | measured h htrusts => exact .measured h htrusts

/-- **Changes lead to a well-made layout that goes on from the first**, in which every width that
was trusted still is. -/
theorem follows_wellMade (h : L.Evolves r M) (hL : L.WellMade) :
    L.Follows r M ∧ M.WellMade ∧ ∀ t, L.Trusts t → M.Trusts t := by
  induction h with
  | refl => exact ⟨.refl r L, hL, fun _ ht => ht⟩
  | tail _ hchange ih =>
    obtain ⟨hfollows, hmade, htrust⟩ := ih
    obtain ⟨hmade', htrust'⟩ := hchange.wellMade hmade
    exact ⟨hfollows.trans hL.coherent hchange.follows, hmade', fun t ht => htrust' t (htrust t ht)⟩

theorem follows (h : L.Evolves r M) (hL : L.WellMade) : L.Follows r M := (h.follows_wellMade hL).1

theorem wellMade (h : L.Evolves r M) (hL : L.WellMade) : M.WellMade := (h.follows_wellMade hL).2.1

theorem trusts (h : L.Evolves r M) (hL : L.WellMade) {t : SchemaId} (ht : L.Trusts t) :
    M.Trusts t := (h.follows_wellMade hL).2.2 t ht

end Evolves

end Layout

end RecordLayout
