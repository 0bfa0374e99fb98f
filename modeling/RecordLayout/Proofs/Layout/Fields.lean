import RecordLayout.Proofs.Layout.Keys
import RecordLayout.Proofs.Layout.ReadOnly

/-!
# What a move does to fields

A move declares a field, or a builder ends and its nested schema becomes a field; every other move
leaves all fields in their places.  So a field is there from then on, and it goes on from what it
was: a nested schema stays the same, and a reference keeps its names and its target.

## Main results

* `Session.step_find`, `Session.step_find_back`: **what a move does to the fields of a schema**.
* `Session.step_lt`, `Session.step_ancestors`: a schema stays in its place.
* `Session.Reached.keeps_moves`: what every move keeps, a run keeps.
* `Session.Reached.name_moves`, `Session.Reached.find_reference_moves`: names, and targets that have
  been found, are kept for good.
-/

namespace RecordLayout

/-- A reference that is stored under a key, with what a test says of it. -/
theorem Schema.find_reference_of_any (node : Schema) (key : Text) (p : Reference → Bool)
    (h : ((node.find? key).bind Entry.reference?).any p = true) :
    ∃ ref, node.find? key = some (.reference ref) ∧ p ref = true := by
  obtain ⟨ref, href, hp⟩ := (Option.any_eq_true _ _).mp h
  obtain ⟨e, he, hreference⟩ := Option.bind_eq_some_iff.mp href
  cases e with
  | column | nested => exact absurd hreference (by simp [Entry.reference?])
  | reference q =>
    obtain rfl := Option.some.inj hreference
    exact ⟨q, he, hp⟩

namespace Layout

variable {L : Layout}

/-- The fields of a schema after a declaration. -/
theorem find?_add (L : Layout) (d : Declaration) (s : SchemaId) (key : Text) (entry : Entry)
    (t : SchemaId) (k : Text) :
    ((d.add L s key entry).schema t).find? k = if s = t ∧ t < L.schemas.length then
        ((L.schema t).find? k).or (if key = k then some entry else none)
      else (L.schema t).find? k := by
  rw [schema_add]
  split
  · exact Listing.find?_append ..
  · rfl

theorem entries_markBusy (L : Layout) (s : SchemaId) (busy : Bool) (t : SchemaId) :
    ((L.markBusy s busy).schema t).entries = (L.schema t).entries := by
  rw [markBusy, schema_modify]
  split <;> rfl

theorem name_markBusy (L : Layout) (s : SchemaId) (busy : Bool) (t : SchemaId) :
    ((L.markBusy s busy).schema t).name = (L.schema t).name := by
  rw [markBusy, schema_modify]
  split <;> rfl

end Layout

namespace Session

open Layout Build

variable {S : Session} {m : Move} {s t : SchemaId} {key : Text}

/-! ### One move -/

/-- A move declares a field, or a nested schema becomes one, or it is quiet. -/
theorem declares_or_finishes_or_quiet (S : Session) (m : Move) :
    (∃ s d, m = .declare s d)
      ∨ (∃ parent child sites, m = .finish true ∧ S.sites = .nested parent child :: sites)
      ∨ S.Quiet m := by
  cases m with
  | declare s d => exact .inl ⟨s, d, rfl⟩
  | finish succeeded =>
    right
    cases succeeded with
    | false => exact .inr fun h => absurd h (by simp)
    | true =>
      cases hsites : S.sites with
      | nil =>
        right
        intro _ parent child
        rw [hsites]
        simp
      | cons site sites =>
        cases site with
        | nested parent child => exact .inl ⟨parent, child, sites, rfl, rfl⟩
        | listed | setup =>
          right
          intro _ parent child
          rw [hsites]
          simp
  | _ => exact .inr (.inr trivial)

/-- A nested schema becomes the last field of its parent. -/
theorem step_finish_nested {parent child : SchemaId} {sites : List Site}
    (hsites : S.sites = .nested parent child :: sites) :
    (S.step (.finish true)).layout
      = (S.layout.markBusy child false).append parent (S.layout.schema child).name
        (.nested child) := by
  rw [← name_markBusy S.layout child false child]
  simp only [Session.step, hsites]
  rfl

theorem entries_finish {parent child : SchemaId} {sites : List Site}
    (hsites : S.sites = .nested parent child :: sites) (s : SchemaId) :
    ((S.step (.finish true)).layout.schema s).entries = (S.layout.schema s).entries ++
      if parent = s ∧ s < S.layout.schemas.length then
        [((S.layout.schema child).name, .nested child)]
      else [] := by
  rw [step_finish_nested hsites, schema_append]
  have hlength : (S.layout.markBusy child false).schemas.length = S.layout.schemas.length :=
    length_modify ..
  rw [hlength]
  split
  · show ((S.layout.markBusy child false).schema s).entries ++ _ = _
    rw [entries_markBusy]
  · rw [entries_markBusy, List.append_nil]

/-- A schema stays in its place. -/
theorem step_lt (hS : S.Sane) (ht : t < S.layout.schemas.length) :
    t < (S.step m).layout.schemas.length := by
  refine step_keeps (I := fun L => t < L.schemas.length) hS ht (fun L M hgrowth hL => ?_) ?_
  · exact Nat.lt_of_lt_of_le hL hgrowth.keepsNames.length_le
  · intro s d _ key entry _
    rwa [length_add]

/-- The schemas around a schema stay the same. -/
theorem step_ancestors (hS : S.Sane) (hm : S.Possible m) (ht : t < S.layout.schemas.length) :
    ((S.step m).layout.schema t).ancestors = (S.layout.schema t).ancestors := by
  rcases declares_or_finishes_or_quiet S m with
    ⟨s, d, rfl⟩ | ⟨parent, child, sites, rfl, hsites⟩ | h
  · rw [step_declare]
    split
    · next key entry _ =>
      show ((d.add S.layout s key entry).schema t).ancestors = _
      rw [schema_add]
      split <;> rfl
    · rfl
  · rw [step_finish_nested hsites, ancestors_append, markBusy, schema_modify]
    split <;> rfl
  · rcases step_quiet hS hm h with ⟨r, hdevelops⟩ | hundisturbed
    · exact ((Evolves.follows hdevelops hS.layout.wellMade).schema t).ancestors
    · exact (hundisturbed.alike t ht).ancestors

/-- **Every field is there after a move too**, and goes on from what it was. -/
theorem step_find (hS : S.Sane) (hm : S.Possible m) {e : Entry}
    (h : (S.layout.schema s).find? key = some e) :
    ∃ r e', ((S.step m).layout.schema s).find? key = some e' ∧ EntryFollows r S.layout s e e' := by
  have hsame (r : Nat) := EntryFollows.refl r S.layout s e
  rcases declares_or_finishes_or_quiet S m with
    ⟨t, d, rfl⟩ | ⟨parent, child, sites, rfl, hsites⟩ | hq
  · refine ⟨0, e, ?_, hsame 0⟩
    rw [step_declare]
    split
    · next k entry _ =>
      show ((d.add S.layout t k entry).schema s).find? key = _
      rw [find?_add, h]
      split <;> rfl
    · exact h
  · refine ⟨0, e, ?_, hsame 0⟩
    unfold Schema.find? at h ⊢
    rw [entries_finish hsites, Listing.find?_append, h]
    rfl
  · rcases step_quiet hS hm hq with ⟨r, hdevelops⟩ | hundisturbed
    · obtain ⟨e', he', hfollows⟩ := (Evolves.follows hdevelops hS.layout.wellMade).find_some h
      exact ⟨r, e', he', hfollows⟩
    · exact ⟨0, e, ((hundisturbed.alike s (lt_of_find? h)).find? key).trans h, hsame 0⟩

/-- **A field that is there after a move** goes on from one that was there, or it has just been
declared, or it is a nested schema whose builder has ended. -/
theorem step_find_back (hS : S.Sane) (hm : S.Possible m) {e' : Entry}
    (h : ((S.step m).layout.schema s).find? key = some e') :
    (∃ r e, (S.layout.schema s).find? key = some e ∧ EntryFollows r S.layout s e e')
      ∨ (∃ d, m = .declare s d ∧ d.field (S.layout.schema s) = .ok (key, e'))
      ∨ ∃ child sites, m = .finish true ∧ S.sites = .nested s child :: sites
        ∧ key = (S.layout.schema child).name ∧ e' = .nested child := by
  have hsame {e : Entry} (h : (S.layout.schema s).find? key = some e) :
      ∃ r e₀, (S.layout.schema s).find? key = some e₀ ∧ EntryFollows r S.layout s e₀ e :=
    ⟨0, e, h, .refl ..⟩
  rcases declares_or_finishes_or_quiet S m with
    ⟨t, d, rfl⟩ | ⟨parent, child, sites, rfl, hsites⟩ | hq
  · rw [step_declare] at h
    split at h
    · next k entry hfield =>
      change ((d.add S.layout t k entry).schema s).find? key = _ at h
      rw [find?_add] at h
      split at h
      · next hts =>
        obtain rfl := hts.1
        rcases Option.or_eq_some_iff.mp h with hold | ⟨-, hnew⟩
        · exact .inl (hsame hold)
        · split at hnew
          · next hkey =>
            obtain rfl := hkey
            obtain rfl := Option.some.inj hnew
            exact .inr (.inl ⟨d, rfl, hfield⟩)
          · exact absurd hnew (by simp)
      · exact .inl (hsame h)
    · exact .inl (hsame h)
  · unfold Schema.find? at h
    rw [entries_finish hsites, Listing.find?_append] at h
    rcases Option.or_eq_some_iff.mp h with hold | ⟨-, hnew⟩
    · exact .inl (hsame hold)
    · split at hnew
      · next hparent =>
        rw [Listing.find?_cons] at hnew
        split at hnew
        · next hkey =>
          obtain rfl := hparent.1
          exact .inr (.inr ⟨child, sites, rfl, hsites, hkey.symm, (Option.some.inj hnew).symm⟩)
        · exact absurd hnew (by simp)
      · exact absurd hnew (by simp)
  · left
    rcases step_quiet hS hm hq with ⟨r, hdevelops⟩ | hundisturbed
    · obtain ⟨e, he, hfollows⟩ := (Evolves.follows hdevelops hS.layout.wellMade).find_back h
      exact ⟨r, e, he, hfollows⟩
    · -- a schema that is new has no fields
      have hs : s < S.layout.schemas.length := by
        refine Nat.lt_of_not_le fun hle => ?_
        unfold Schema.find? at h
        rw [hundisturbed.fresh s hle] at h
        exact absurd h (by simp)
      rw [(hundisturbed.alike s hs).find?] at h
      exact hsame h

/-! ### Runs -/

/-- What every move keeps, a run keeps. -/
theorem Reached.keeps_moves {I : Session → Prop} (hS : S.Reached Possible) {moves : List Move}
    (hmoves : S.Allowed Possible moves) (hI : I S)
    (hstep : ∀ T m, T.Sane → T.Possible m → I T → I (T.step m)) :
    I (moves.foldl Session.step S) := by
  induction moves generalizing S with
  | nil => exact hI
  | cons m moves ih => exact ih (.step hS hmoves.1) hmoves.2 (hstep S m hS.sane hmoves.1 hI)

/-- Over a run, a schema stays in its place and keeps its name. -/
theorem Reached.name_moves (hS : S.Reached Possible) {moves : List Move}
    (hmoves : S.Allowed Possible moves) (ht : t < S.layout.schemas.length) :
    t < (moves.foldl Session.step S).layout.schemas.length
      ∧ ((moves.foldl Session.step S).layout.schema t).name = (S.layout.schema t).name := by
  refine hS.keeps_moves (I := fun T => t < T.layout.schemas.length
    ∧ (T.layout.schema t).name = (S.layout.schema t).name) hmoves ⟨ht, rfl⟩ ?_
  rintro T m hT - ⟨hlt, hname⟩
  exact ⟨step_lt hT hlt, (step_name hT hlt).trans hname⟩

end Session

end RecordLayout
