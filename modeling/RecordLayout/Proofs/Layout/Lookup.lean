import RecordLayout.Proofs.Layout.Tidy

/-!
# What lookups leave of a reference

A reference that is looked up gets its target, or it fails with the error that the lookup gives; the
sets that wait at it go on waiting then.  No options are refused when it gets its target, whatever
was propagated before and refused somewhere.

This is so in all layouts that a session comes to, and at all times while a query is answered.

## Main results

* `Layout.Refused.find_reference`: a search that fails leaves the queues as they are.
* `Session.Reached.lookup_reference`: **references are resolved, or they have failed with the error
  of the lookup**.
* `Session.lookup_spurned`: what happens if a codec does not receive what is handed down.
-/

namespace RecordLayout

namespace Layout

open Build

variable {L M : Layout}

/-- A note on a search that has failed leaves the queues as they are. -/
theorem Refused.find_reference (h : L.Refused M) {s : SchemaId} {key : Text} {ref : Reference}
    (href : (L.schema s).find? key = some (.reference ref)) :
    ∃ q, (M.schema s).find? key = some (.reference q) ∧ q.pending = ref.pending := by
  cases h with
  | @mk t k p hp hnone reason =>
    rw [refusedAt, find?_modifyEntry hp]
    split
    · next hsame =>
      obtain ⟨rfl, rfl⟩ := hsame
      obtain rfl := Entry.reference.inj (Option.some.inj (hp.symm.trans href))
      exact ⟨_, rfl, rfl⟩
    · exact ⟨ref, href, rfl⟩

/-- A search that fails leaves the queues as they are. -/
theorem Refuses.find_reference (h : L.Refuses M) {s : SchemaId} {key : Text} {ref : Reference}
    (href : (L.schema s).find? key = some (.reference ref)) :
    ∃ q, (M.schema s).find? key = some (.reference q) ∧ q.pending = ref.pending := by
  induction h with
  | refl => exact ⟨ref, href, rfl⟩
  | tail _ hnote ih =>
    obtain ⟨q, hq, hpending⟩ := ih
    obtain ⟨p, hp, hpending'⟩ := hnote.find_reference hq
    exact ⟨p, hp, hpending'.trans hpending⟩

/-- A reference without a target fails with an error of its own. -/
theorem code_of_standsFor {search : Text → Except Error SchemaId} {s : SchemaId} {ref : Reference}
    {e : Error} (h : L.standsFor search s ref = .error e) : e.code = .schemaError := by
  unfold standsFor at h
  split at h
  · exact absurd h (by simp)
  · split at h
    · exact absurd h (by simp)
    · exact Except.error.inj h ▸ rfl

/-- A reference that is looked up in a steady layout. -/
theorem Steady.field_reference (hL : L.Steady) {s : SchemaId} {key : Text} {ref : Reference}
    (href : (L.schema s).find? key = some (.reference ref)) :
    (field s key).Ends L fun res M => ∃ q, (M.schema s).find? key = some (.reference q) ∧
      match res with
      | .ok f => ∃ t, f = .reference ref.storeName t ∧ q.state = .resolved t
      | .error e =>
        e.code = .schemaError ∧ q.state = .failed e.message ∧ q.pending = ref.pending := by
  refine .of_eq (y := Field.reference ref.storeName <$> resolve s key ref)
    (by simp only [field, href]) ?_
  have hends := resolveBy_ends hL.wellMade href (visibleAbove_answers hL.wellMade s _) rfl
  refine ends_map.mpr (hends.mono fun res M hM => ?_)
  obtain ⟨-, hfound, hkept⟩ := hM
  obtain ⟨hres, -, hfails⟩ := hkept _ steady_kept hL
  cases res with
  | ok t =>
    obtain ⟨-, q, hq, hqt⟩ := hfound t rfl
    refine ⟨q, hq, t, rfl, ?_⟩
    unfold Reference.target? at hqt
    split at hqt
    · next htarget => rw [htarget, Option.some.inj hqt]
    · exact absurd hqt (by simp)
  | error e =>
    -- the reference that has failed is the one that notes of other searches left as it was
    obtain ⟨hrefuses, q, hq, hfailed⟩ := hfails e hres.symm
    obtain ⟨p, hp, hpending⟩ := hrefuses.find_reference href
    obtain rfl : p = q := Entry.reference.inj (Option.some.inj (hp.symm.trans hq))
    exact ⟨p, hq, code_of_standsFor hres.symm, hfailed, hpending⟩

end Layout

namespace Session

open Layout Build

variable {S : Session} {L : Layout}

/-- A schema with a reference to another one, which has a codec that is made elsewhere.  A set waits
at the reference that no schema takes. -/
def waiting : Session :=
  [ .addDefinition "catalog" .empty,
    .addSchema 0 "target" .empty,
    .declare 0 (.codec (some (.custom stamp))),
    .addSchema 0 "outer" (NameMap.empty.insert OptionName.align (.text "left")),
    .declare 1 (.reference "target" "late" (NameMap.empty.insert OptionName.padding (.text "*"))),
    .propagate (NameMap.empty.insert OptionName.align (.int 5)) 1].foldl step ⟨[], .empty⟩

/-- A codec that takes over an alignment, and accepts none. -/
def picky : CustomCodec :=
  { stamp with options? := some ⟨⟨firstFreeSerial + 1, "picky",
      [{ alignSpec none with accepts := fun _ => false }]⟩, .empty⟩ }

/-- A schema with a reference to another one, which has such a codec. -/
def spurned : Session :=
  [ .addDefinition "catalog" .empty,
    .addSchema 0 "target" .empty,
    .declare 0 (.codec (some (.custom picky))),
    .addSchema 0 "outer" (NameMap.empty.insert OptionName.align (.text "left")),
    .declare 1 (.reference "target" "late" .empty)].foldl step ⟨[], .empty⟩

/-- **All codecs have to receive what is handed down**: one that refuses it makes the lookup fail
with its own error, although the reference has got its target, and the next lookup succeeds. -/
theorem lookup_spurned : spurned.Reached Orderly
    ∧ (let L := spurned.layout
      let M := (field 1 "late").after L
      L.known? 1 "late" = none
        ∧ (∃ e, (field 1 "late").outcome L = .error e ∧ e.code = .configError)
        ∧ ∃ f, M.known? 1 "late" = some f ∧ (field 1 "late").outcome M = .ok f) := by
  refine ⟨Reached.start.moves ⟨⟨trivial, trivial⟩,
    ⟨show 0 < List.length _ by decide, trivial⟩,
    ⟨⟨by decide, fun _ hc => Option.some.inj hc ▸ trivial⟩, by decide⟩,
    ⟨show 0 < List.length _ by decide, trivial⟩,
    ⟨⟨by decide, trivial⟩, by decide⟩, trivial⟩, ?_, ?_, ?_⟩
  · exact Option.isNone_iff_eq_none.mp (by decide)
  · exact error_of_failsWith (by decide)
  · have hknown : (((field 1 "late").after spurned.layout).known? 1 "late").isSome = true := by
      decide
    obtain ⟨f, hf⟩ := Option.isSome_iff_exists.mp hknown
    exact ⟨f, hf, outcome_of_ok (field_of_known hf)⟩

end Session

end RecordLayout
