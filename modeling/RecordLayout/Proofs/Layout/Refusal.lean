import RecordLayout.Proofs.Layout.Closure
import RecordLayout.Proofs.Layout.Visits

/-!
# What a refused set leaves behind

A set that is refused somewhere has been noted by every schema that it came to, before the schema
took it over.  So the schema that it was propagated into stops it from then on: propagated again, it
does nothing, and no error is given.

Nor is a set looked through before it is merged.  Its values are taken over one by one, until one is
refused; the ones before it stay, and so does what the set did in other fields and schemas.  But all
that it can leave is some of its own values in slots that were open, and the set itself where sets
are received or wait.

## Main definitions

* `OptionTable.PartlyMerged`: a table into which a set has been merged as far as it went.
* `Reference.Lengthened`: a reference at which a set may wait that did not before.

## Main results

* `Layout.Visit.table?`, `Layout.Visits.table?`: what one step leaves in a table, and what a run
  does.
* `Layout.Visit.reference?`, `Layout.Visits.reference?`: and what at a reference.
* `Layout.propagate_refused`: **a refused set leaves traces, and is forgotten**.
-/

namespace RecordLayout

/-! ### Tables and references -/

namespace OptionTable

/-- A table into which a set has been merged as far as it went: some of the slots that were open
have the value of the set, and all others are as they were. -/
structure PartlyMerged (m : OptionMap) (t u : OptionTable) : Prop where
  schema : u.schema = t.schema
  slot : ∀ key, u.slots.find? key = t.slots.find? key
    ∨ (t.isOpen key = true ∧ ∃ value, m.given? key = some value
      ∧ u.slots.find? key = some ⟨t.formed key value, .inherited⟩)

namespace PartlyMerged

variable {m : OptionMap} {t u v : OptionTable}

theorem refl (m : OptionMap) (t : OptionTable) : t.PartlyMerged m t := ⟨rfl, fun _ => .inl rfl⟩

theorem trans (h : t.PartlyMerged m u) (h' : u.PartlyMerged m v) : t.PartlyMerged m v := by
  refine ⟨h'.schema.trans h.schema, fun key => ?_⟩
  rcases h.slot key with hsame | ⟨hopen, value, hvalue, hslot⟩
  · rcases h'.slot key with hsame' | ⟨hopen', value, hvalue, hslot⟩
    · exact .inl (hsame'.trans hsame)
    · rw [isOpen_congr h.schema hsame] at hopen'
      rw [formed_congr h.schema] at hslot
      exact .inr ⟨hopen', value, hvalue, hslot⟩
  · -- a slot that has got a value is open no more
    refine .inr ⟨hopen, value, hvalue, ?_⟩
    rcases h'.slot key with hsame' | ⟨hopen', -⟩
    · exact hsame'.trans hslot
    · have hclosed : u.isOpen key = false :=
        isOpen_eq_false_iff.mpr fun _ => isDefined_of_find? hslot
      exact absurd (hclosed.symm.trans hopen') (by decide)

end PartlyMerged

/-- Values of a set that are taken over one by one. -/
theorem partlyMerged_takeOverAll {m : OptionMap} {l : List (Text × Value)}
    (hl : ∀ e ∈ l, m.given? e.1 = some e.2) (t : OptionTable) :
    t.PartlyMerged m (takeOverAll {} t l).1 := by
  induction l generalizing t with
  | nil => exact .refl m t
  | cons e l ih =>
    obtain ⟨name, value⟩ := e
    rw [takeOverAll_cons]
    split
    · next u hu =>
      have hstep : t.PartlyMerged m u := by
        refine ⟨takeOver_schema hu, fun key => ?_⟩
        rw [find?_takeOver hu]
        split
        · next hkey =>
          obtain ⟨rfl, hopen⟩ := hkey
          exact .inr ⟨hopen, value, hl _ List.mem_cons_self, rfl⟩
        · exact .inl rfl
      exact hstep.trans (ih (fun e he => hl e (List.mem_cons_of_mem _ he)) u)
    · exact .refl m t

/-- However far a merge comes, it leaves nothing but values of the set in slots that were open. -/
theorem partlyMerged_mergeValues (m : OptionMap) (t : OptionTable) :
    t.PartlyMerged m (t.mergeValues m).1 := by
  refine partlyMerged_takeOverAll (fun e he => ?_) t
  obtain ⟨hmem, hsome⟩ := List.mem_filter.mp he
  exact OptionMap.given?_eq_some_iff.mpr ⟨NameMap.find?_of_mem hmem, by simpa using hsome⟩

end OptionTable

/-- A reference that is as it was, but that a set may wait at it which did not before. -/
structure Reference.Lengthened (m : OptionMap) (p q : Reference) : Prop where
  same : q = { p with pending := q.pending }
  pending : ∃ n, q.pending = p.pending ++ List.replicate n m

namespace Reference.Lengthened

variable {m : OptionMap} {p q r : Reference}

theorem refl (m : OptionMap) (p : Reference) : p.Lengthened m p :=
  ⟨rfl, 0, (List.append_nil _).symm⟩

theorem trans (h : p.Lengthened m q) (h' : q.Lengthened m r) : p.Lengthened m r := by
  obtain ⟨n, hn⟩ := h.pending
  obtain ⟨n', hn'⟩ := h'.pending
  refine ⟨?_, n + n', ?_⟩
  · rw [h'.same, h.same]
  · rw [hn', hn, List.append_assoc, List.replicate_append_replicate]

theorem enqueue (m : OptionMap) (p : Reference) : p.Lengthened m (p.enqueue m) := by
  unfold Reference.enqueue
  split
  · exact .refl m p
  · exact ⟨rfl, 1, rfl⟩

end Reference.Lengthened

namespace Layout

open Build

variable {L M : Layout} {m : OptionMap} {s : SchemaId}

/-! ### What a step leaves -/

/-- **What one step leaves in a table.** -/
theorem Visit.table? (h : Visit m L M) (t : SchemaId) (place : Option Text) :
    Option.Rel (OptionTable.PartlyMerged m) (L.table? t place) (M.table? t place) := by
  cases h with
  | noted h => exact table?_modify (.refl m) rfl (.refl m _) t place
  | taken s =>
    exact table?_modify (.refl m) rfl (OptionTable.partlyMerged_mergeValues m _) t place
  | @codec s key c hc =>
    refine table?_modifyEntry (.refl m) hc ?_ t place
    rw [table?_takeOver]
    cases (Entry.column c).table? with
    | none => exact .none
    | some tab => exact .some (OptionTable.partlyMerged_mergeValues m tab)
  | enqueued href hnone => exact table?_modifyEntry (.refl m) href .none t place

/-- The reference under a key, if there is one. -/
def reference? (L : Layout) (s : SchemaId) (key : Text) : Option Reference :=
  ((L.schema s).find? key).bind Entry.reference?

/-- **What one step leaves at a reference.** -/
theorem Visit.reference? (h : Visit m L M) (t : SchemaId) (key : Text) :
    Option.Rel (Reference.Lengthened m) (L.reference? t key) (M.reference? t key) := by
  have hrefl (ref? : Option Reference) : Option.Rel (Reference.Lengthened m) ref? ref? := by
    cases ref? with
    | none => exact .none
    | some ref => exact .some (.refl m ref)
  unfold Layout.reference?
  cases h with
  | @noted s =>
    rw [show ((L.noted s m).schema t).find? key = _ from find?_modify rfl t key]
    exact hrefl _
  | taken s =>
    rw [show ((L.taken s m).schema t).find? key = _ from find?_modify rfl t key]
    exact hrefl _
  | codec hc =>
    rw [find?_modifyEntry hc]
    split
    · next hkey =>
      rw [← hkey.1, hkey.2, hc]
      exact .none
    · exact hrefl _
  | @enqueued s key' ref href =>
    rw [find?_modifyEntry href]
    split
    · next hkey =>
      rw [← hkey.1, hkey.2, href]
      exact .some (.enqueue m ref)
    · exact hrefl _

/-- What every step leaves, where it is kept from one step to the next, a run leaves. -/
theorem Visits.relates {α : Type} {R : α → α → Prop} {f : Layout → Option α} (hrefl : ∀ a, R a a)
    (htrans : ∀ a b c, R a b → R b c → R a c)
    (hstep : ∀ L M, Visit m L M → Option.Rel R (f L) (f M)) (h : Visits m L M) :
    Option.Rel R (f L) (f M) := by
  induction h with
  | refl =>
    cases f L with
    | none => exact .none
    | some a => exact .some (hrefl a)
  | @tail M N _ hMN ih =>
    have hlast := hstep M N hMN
    generalize f L = a? at ih ⊢
    generalize f M = b? at ih hlast
    generalize f N = c? at hlast ⊢
    cases ih with
    | none =>
      cases hlast
      exact .none
    | some hab =>
      cases hlast with
      | some hbc => exact .some (htrans _ _ _ hab hbc)

theorem Visits.table? (h : Visits m L M) (t : SchemaId) (place : Option Text) :
    Option.Rel (OptionTable.PartlyMerged m) (L.table? t place) (M.table? t place) :=
  h.relates (f := fun L => L.table? t place) (.refl m) (fun _ _ _ => .trans)
    fun _ _ hstep => hstep.table? t place

theorem Visits.reference? (h : Visits m L M) (t : SchemaId) (key : Text) :
    Option.Rel (Reference.Lengthened m) (L.reference? t key) (M.reference? t key) :=
  h.relates (f := fun L => L.reference? t key) (.refl m) (fun _ _ _ => .trans)
    fun _ _ hstep => hstep.reference? t key

/-! ### What a refusal leaves -/

/-- A set that a schema stops does nothing there. -/
theorem propagate_of_received (h : (L.schema s).hasReceived m = true) :
    propagate m s L = .ok () L :=
  propagateWithin_of_stop _ (by simp [h])

/-- **A refused set leaves traces, and is forgotten.**  If the propagation of a set fails, the
schema it was propagated into has received it all the same; and if the set equals itself,
propagating it again does nothing and gives no error.  All that it leaves besides is the set, once
or more, where sets are received or wait, and some of its values in slots that were open. -/
theorem propagate_refused (hs : s < L.schemas.length) {e : Error}
    (h : propagate m s L = .error e M) :
    (∃ n, (M.schema s).received = (L.schema s).received ++ List.replicate (n + 1) m)
      ∧ (m.equal m = true → propagate m s M = .ok () M)
      ∧ ∀ t, (∃ n, (M.schema t).received = (L.schema t).received ++ List.replicate n m)
        ∧ (∀ place, Option.Rel (OptionTable.PartlyMerged m) (L.table? t place) (M.table? t place))
        ∧ ∀ key, Option.Rel (Reference.Lengthened m) (L.reference? t key) (M.reference? t key) := by
  have hvisits : Visits m L M := (propagateWithin_visits L.schemas.length m s L).of_error h
  have hreceived : ∃ n,
      (M.schema s).received = (L.schema s).received ++ List.replicate (n + 1) m := by
    -- the set did not stop at `s` itself, so it was noted there before anything was refused
    have hends : (propagateWithin L.schemas.length m s).Ends L fun res M =>
        res = .ok () ∨ ∃ n,
          (M.schema s).received = (L.schema s).received ++ List.replicate (n + 1) m := by
      refine ends_propagateWithin (fun _ => .inl rfl) (fun _ hzero => ?_) fun _ _ d _ => ?_
      · exact absurd (hzero ▸ hs) (Nat.not_lt_zero s)
      · refine (handOn_visits (propagateWithin_visits d m) s L).mono fun _ M hM => .inr ?_
        exact hM.received_noted hs
    exact (hends.of_error h).resolve_left (by simp)
  refine ⟨hreceived, fun hm => ?_, fun t => ⟨hvisits.received_replicate t, ?_, ?_⟩⟩
  · obtain ⟨n, hn⟩ := hreceived
    apply propagate_of_received
    unfold Schema.hasReceived
    rw [hn, List.any_append, List.replicate_succ, List.any_cons, hm]
    simp
  · exact fun place => hvisits.table? t place
  · exact fun key => hvisits.reference? t key

end Layout

namespace Session

open Layout Build

/-- A schema with a column. -/
def row : Session :=
  [ .createSchema .detached "row" .empty,
    .declare 0 (.column "a" 3 .empty)].foldl step ⟨[], .empty⟩

/-- A set with a value that is refused. -/
def middle : OptionMap := NameMap.empty.insert OptionName.align (.text "middle")

/-- A set with a value that is taken over, before another one that is refused. -/
def leftThenWide : OptionMap :=
  (NameMap.empty.insert OptionName.align (.text "left")).insert OptionName.padding (.text "ab")

theorem row_refuses : ∃ e, propagate middle 0 row.layout
    = .error e ((propagate middle 0).after row.layout) :=
  ⟨_, outcome_eq_error_iff.mp (by rfl)⟩

/-- The set that the schema refuses is received, and not refused again. -/
theorem propagate_refused_row : ∃ e M, propagate middle 0 row.layout = .error e M
    ∧ (∃ n, (M.schema 0).received
        = (row.layout.schema 0).received ++ List.replicate (n + 1) middle)
    ∧ propagate middle 0 M = .ok () M := by
  obtain ⟨e, he⟩ := row_refuses
  obtain ⟨hreceived, hagain, -⟩ := propagate_refused (by decide) he
  exact ⟨e, _, he, hreceived, hagain (by decide)⟩

/-- **A refusal may change options, and is not repeated**: the option before the one that is refused
is defined afterwards, and a set that was refused is accepted without effect the next time. -/
theorem refused_not_again :
    (∃ e M, propagate middle 0 row.layout = .error e M
      ∧ (M.schema 0).received ≠ (row.layout.schema 0).received
      ∧ propagate middle 0 M = .ok () M)
    ∧ ∃ e M, propagate leftThenWide 0 row.layout = .error e M
      ∧ (row.layout.schema 0).options.isDefined OptionName.align = false
      ∧ (M.schema 0).options.isDefined OptionName.align = true := by
  obtain ⟨e, he⟩ := row_refuses
  refine ⟨⟨e, _, he, fun h => ?_, ?_⟩, _, _, outcome_eq_error_iff.mp (by rfl), ?_, ?_⟩
  · exact absurd (congrArg List.length h) (by decide)
  · exact propagate_of_received (by decide)
  · decide
  · decide

end Session

end RecordLayout
