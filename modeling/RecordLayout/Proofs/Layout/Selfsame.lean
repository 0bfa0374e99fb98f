import RecordLayout.Proofs.Layout.Lasting
import RecordLayout.Proofs.Layout.Refusal
import RecordLayout.Proofs.Layout.Tidy

/-!
# Sets that equal themselves

What a reference passes on to its target are its own options, what its schema defines, and the sets
that wait at it.  The first two are values that schemas hold, so they equal themselves.  The sets
that wait came from a propagation; if none with a NaN in it was ever propagated, they do so too, and
every layout that comes about hands on nothing else.

## Main definitions

* `Layout.Selfsame`: a layout that hands on nothing but sets that equal themselves.

## Main results

* `Layout.ends_passOptions`: what all sets that are passed on keep.
* `Layout.selfsame_lasting`: queries leave such layouts such.
* `Session.Reached.selfsame`: **layouts hand on sets that equal themselves**, if no NaN is
  propagated.
-/

namespace RecordLayout

/-- The sets that wait at a reference equal themselves. -/
def Entry.Selfsame : Entry → Prop
  | .reference ref => ∀ m ∈ ref.pending, m.equal m = true
  | _ => True

theorem Entry.Calm.selfsame {e : Entry} (h : e.Calm) : e.Selfsame := by
  cases e with
  | column | nested => trivial
  | reference ref => exact fun m hm => (show m.Sound from h m hm).self

namespace Layout

open Build

variable {L M : Layout} {m : OptionMap}

/-- A layout with valid options that hands on nothing but sets that equal themselves. -/
structure Selfsame (L : Layout) : Prop where
  tabled : L.Tabled
  waiting : L.Every Entry.Selfsame

/-! ### Propagation -/

theorem Visit.waiting (h : Visit m L M) (hm : m.equal m = true) (hL : L.Every Entry.Selfsame) :
    M.Every Entry.Selfsame := by
  cases h with
  | noted | taken => exact hL.modify rfl
  | codec => exact hL.modifyEntry fun _ _ => trivial
  | @enqueued s key ref href =>
    refine hL.modifyEntry fun _ _ n hn => ?_
    obtain ⟨count, hpending⟩ := (Reference.Lengthened.enqueue m ref).pending
    rw [hpending] at hn
    rcases List.mem_append.mp hn with hn | hn
    · exact (show Entry.Selfsame (.reference ref) from hL s key _ href) n hn
    · rw [(List.mem_replicate.mp hn).2]
      exact hm

/-- A set that equals itself leaves nothing else waiting. -/
theorem Visits.selfsame (h : Visits m L M) (hm : m.equal m = true) (hL : L.Selfsame) :
    M.Selfsame := by
  refine ⟨(h.evolves (r := 0)).tabled hL.tabled, ?_⟩
  induction h with
  | refl => exact hL.waiting
  | tail _ hstep ih => exact hstep.waiting hm ih

theorem leaves_propagate (hm : m.equal m = true) (t : SchemaId) :
    Leaves Selfsame (propagate m t) := fun L hL =>
  .of_eq (y := propagateWithin L.schemas.length m t) rfl
    ((propagateWithin_visits _ m t L).mono fun _ _ hM => hM.selfsame hm hL)

/-! ### Targets -/

/-- What is defined on a schema equals itself. -/
theorem Tabled.equal_defined (hL : L.Tabled) (s : SchemaId) :
    (L.schema s).options.defined.equal (L.schema s).options.defined = true := by
  by_cases hs : s < L.schemas.length
  · obtain ⟨hvalid, hschema⟩ := hL.schema s hs
    exact (hvalid.sound_defined hschema).self
  · rw [schema_of_le (Nat.le_of_not_lt hs)]
    rfl

/-- What the propagation of every set that equals itself keeps, and what all results of it have in
common, holds after a reference has passed its options on. -/
theorem ends_passOptions {I : Layout → Prop} {P : Except Error Unit → Prop} (hdone : P (.ok ()))
    {s t : SchemaId} {ref : Reference} {queued : List OptionMap}
    (htabled : ∀ M, I M → M.Tabled) (hpass : ∀ m : OptionMap, m.equal m = true → ∀ M, I M →
      (propagate m t).Ends M fun res N => P res ∧ I N)
    (hoptions : ref.options.Held) (hqueued : ∀ m ∈ queued, m.equal m = true) (hL : I L) :
    (passOptions s ref queued t).Ends L fun res M => P res ∧ I M := by
  refine ends_bind.mpr ((hpass _ hoptions.sound.self L hL).mono fun res M hM => ?_)
  cases res with
  | error e => exact hM
  | ok _ =>
    refine ends_bind.mpr (ends_schema.mpr (ends_bind.mpr ?_))
    refine (hpass _ ((htabled M hM.2).equal_defined s) M hM.2).mono fun res N hN => ?_
    cases res with
    | error e => exact hN
    | ok _ => exact ends_forM_results hdone queued hN.2 fun m hm => hpass m (hqueued m hm)

/-- The layout in which a reference has a target, before it has passed options on. -/
theorem Selfsame.bound (hL : L.Selfsame) {s t : SchemaId} {key : Text} {ref : Reference}
    (href : (L.schema s).find? key = some (.reference ref)) :
    (L.modifyEntry s key fun _ => .reference (ref.bind t).2).Selfsame :=
  ⟨hL.tabled.modifyEntry fun _ _ => (show ref.options.Held from hL.tabled.entry s key _ href),
    hL.waiting.modifyEntry fun _ _ m hm => absurd hm (by simp [Reference.bind])⟩

/-- **Queries leave layouts that hand on nothing but sets that equal themselves.** -/
theorem selfsame_lasting : Lasting Selfsame where
  bound := by
    intro s key t L hL
    -- binding is called for references only; elsewhere it does nothing
    by_cases href : ∃ ref, (L.schema s).find? key = some (.reference ref)
    · obtain ⟨ref, href⟩ := href
      rw [ends_bindReference href]
      refine (ends_passOptions (P := fun _ => True) trivial (fun _ hM => hM.tabled)
        (fun m hm M hM => ?_) (hL.tabled.entry s key _ href) (hL.waiting s key _ href)
        (hL.bound href)).mono fun _ _ hM => hM.2
      exact (leaves_propagate hm t M hM).mono fun _ _ hN => ⟨trivial, hN⟩
    · refine .of_eq (y := pure ()) ?_ hL
      unfold bind
      split
      · next ref hfind => exact absurd ⟨ref, hfind⟩ href
      · rfl
  refused := by
    intro s key ref reason L hL
    refine ends_refuse.mpr ⟨hL.tabled.modifyEntry fun e he => ?_,
      hL.waiting.modifyEntry fun e he => ?_⟩
    · have htabled := hL.tabled.entry s key e he
      cases e <;> exact htabled
    · have hwaiting := hL.waiting s key e he
      cases e <;> exact hwaiting
  measured := fun s _ _ _ hL =>
    ⟨hL.tabled.modify rfl (hL.tabled.schema s), hL.waiting.modify rfl⟩

theorem Every.push_newSchema {P : Entry → Prop} (hL : L.Every P) {scope : Scope} {name : Text}
    {options : OptionMap} {node : Schema} (h : L.newSchema scope name options = .ok node) :
    (L.push node).Every P := by
  obtain ⟨_, _, rfl, -⟩ := newSchema_ok h
  exact hL.push rfl

end Layout

namespace Session

open Layout Build

variable {S : Session} {m : Move}

/-- A field that is declared holds nothing that waits. -/
theorem waiting_add {L : Layout} (hL : L.Every Entry.Selfsame) {s : SchemaId} {key : Text}
    {entry : Entry} (h : (L.schema s).Accepts key entry) (d : Declaration) :
    (d.add L s key entry).Every Entry.Selfsame := by
  have hentry := (h.entry L.schemas.length).2.2.selfsame
  exact d.add_induction (P := fun M => M.Every Entry.Selfsame) (hL.append s key hentry)
    fun happend => happend.modify rfl

/-- **What one move keeps**, if it propagates no NaN. -/
theorem step_selfsame (hS : S.Sane) (hsame : S.layout.Selfsame) (hm : S.Possible m)
    (hproper : m.Proper) : (S.step m).layout.Selfsame := by
  refine ⟨(step_sane hS hm).1.layout.tabled, ?_⟩
  have hwaiting := hsame.waiting
  have hbusy (s : SchemaId) (busy : Bool) : (S.layout.markBusy s busy).Every Entry.Selfsame :=
    hwaiting.modify rfl
  have heffect := S.step_effect m
  generalize S.step m = T at heffect ⊢
  cases heffect with
  | refused => exact hwaiting
  | created hnode => exact hwaiting.push_newSchema hnode
  | defined | cataloged => exact hwaiting.of_schemas rfl
  | listed hopen hnode hfree => exact (hwaiting.push_newSchema hnode).of_schemas rfl
  | @declared s d key entry hfield =>
    exact waiting_add hwaiting (Declaration.accepts hm.2 hfield) d
  | set | conditioned => exact hwaiting.modify rfl
  | propagated options s =>
    exact (ends_iff.mp (leaves_propagate hproper.equal_self s S.layout hsame)).waiting
  | asked q => exact (ends_iff.mp (q.pervaded selfsame_lasting.pervasive S.layout hsame)).waiting
  | begunNested hopen hnode hkey | begunListed hopen hnode hfree =>
    exact (hwaiting.push_newSchema hnode).modify rfl
  | begunSetup => exact hbusy _ true
  | closed => exact hbusy _ false
  | closedNested => exact (hbusy _ false).append _ _ trivial
  | closedListed => exact (hbusy _ false).of_schemas rfl

/-- **Layouts hand on nothing but sets that equal themselves**, if no NaN is propagated. -/
theorem Reached.selfsame (hS : S.Reached fun S m => S.Possible m ∧ m.Proper) :
    S.layout.Selfsame := by
  induction hS with
  | start => exact ⟨tabled_empty, every_empty _⟩
  | step hS hm ih => exact step_selfsame (hS.mono fun _ _ h => h.1).sane ih hm.1 hm.2

end Session

end RecordLayout
