import RecordLayout.Proofs.Layout.Indifferent

/-!
# Calls do not depend on what is inherited

Sessions whose layouts are bare the same may go on with the same calls.  Each call returns the same
in both, and in the end the same schemas are there, with the same fields, groups and widths.

## Main definitions

* `Call.Possible`, `Call.answers`: calls one after the other, and what they return.

## Main results

* `Layout.Akin.level`: layouts that are bare the same are measured alike.
* `Session.Reached.answers_alike`: **inheritance does not decide what a declaration does**.
-/

namespace RecordLayout

open Layout Build Session

/-! ### Widths -/

namespace Layout

variable {L M : Layout}

theorem extentOf_bare (L : Layout) (s : SchemaId) (key : Text) :
    L.bare.extentOf s key = L.extentOf s key := by
  unfold extentOf fieldOf
  rw [schema_bare, Schema.find?_bare]
  cases (L.schema s).find? key with
  | none => rfl
  | some e =>
    cases e with
    | column c => exact congrArg (Except.ok <| Sum.inl ·) c.width_bare
    | nested t => rfl
    | reference ref =>
      show ((L.bare.target s ref.bare).map _).map _ = ((L.target s ref).map _).map _
      rw [target_bare]
      cases L.target s ref <;> rfl

/-- Layouts that are bare the same are measured alike. -/
theorem Akin.level (h : L.Akin M) : L.Level M where
  left := ⟨h.left.sane.wellMade, h.left.calm⟩
  right := ⟨h.right.sane.wellMade, h.right.calm⟩
  length := h.length.symm
  name s := (h.name s).symm
  fields s := by rw [← Schema.fields_bare, ← h.schema, Schema.fields_bare]
  extent s key := by rw [← extentOf_bare, ← h.bare, extentOf_bare]
  unweighed := by
    refine ⟨?_, fun s => ?_⟩
    · show M.bare.generation = L.bare.generation
      rw [h.bare]
    · show (M.schema s).bare.knownWidth? = (L.schema s).bare.knownWidth?
      rw [h.schema]

theorem Akin.groups (h : L.Akin M) (s : SchemaId) :
    (M.schema s).groups = (L.schema s).groups := by
  show (M.schema s).bare.groups = (L.schema s).bare.groups
  rw [h.schema]

theorem Level.width (h : L.Level M) (s : SchemaId) :
    (Layout.width s).outcome M = (Layout.width s).outcome L := by
  have hruns := h.widthWithin maxDepth [] s
  unfold outcome Layout.width
  generalize Layout.widthWithin maxDepth [] s L = first at hruns ⊢
  generalize Layout.widthWithin maxDepth [] s M = second at hruns ⊢
  cases hruns <;> rfl

end Layout

/-! ### Calls -/

namespace Call

variable {ρ : Type} {L M : Layout}

/-- A call whose schema, catalog or scope is there. -/
def Possible (L : Layout) : Call ρ → Prop
  | definition .. => True
  | schema scope _ _ => L.ScopeExists scope
  | listed c _ _ _ => c < L.catalogs.length
  | field s _ => s < L.schemas.length
  | nested parent _ _ _ => parent < L.schemas.length

/-- What a call returns, and the state after it. -/
def answer (c : Call ρ) (state : Layout × ρ) : Except Error Unit × Layout × ρ :=
  match c.run state with
  | .ok _ state => (.ok (), state)
  | .error e state => (.error e, state)

/-- What calls return, one after the other, and the state after them. -/
def answers : List (Call ρ) → Layout × ρ → List (Except Error Unit) × Layout × ρ
  | [], state => ([], state)
  | c :: calls, state =>
    let (result, state) := c.answer state
    let (results, state) := answers calls state
    (result :: results, state)

/-- Calls each of which is possible when its turn comes. -/
def AllPossible : List (Call ρ) → Layout × ρ → Prop
  | [], _ => True
  | c :: calls, state => c.Possible state.1 ∧ AllPossible calls (c.answer state).2

/-- A call does the same in layouts that are bare the same. -/
theorem abreast {c : Call ρ} (hc : c.Proper (fun L M => L.bare = M.bare) Declaration.Sound)
    (h : L.Akin M)
    (hpossible : c.Possible L) (notes : ρ) :
    Abreast (AkinPast 0) (c.run (L, notes)) (c.run (M, notes)) := by
  have hzero {L M : Layout} (h : L.Akin M) : AkinPast 0 (L, notes) (M, notes) :=
    ⟨h, Nat.zero_le _, rfl⟩
  cases c with
  | definition name options =>
    unfold run keepNotes
    dsimp only
    rw [discard_apply, discard_apply]
    unfold addDefinition
    cases hnew : newDefinition name options with
    | error e => exact .error e (hzero h)
    | ok definition => exact .ok _ (hzero (h.pushDefinition hnew))
  | schema scope name options =>
    unfold run keepNotes
    dsimp only
    rw [discard_apply, discard_apply]
    rcases opensAlike_createSchema h hpossible name options with
      ⟨a, b, ha, hb, hpush⟩ | ⟨e, ha, hb⟩
    · rw [ha, hb]
      exact .ok _ (hzero hpush)
    · rw [ha, hb]
      exact .error e (hzero h)
  | listed c name options builder =>
    have hopens := opensAlike_openSchema h hpossible name options
    refine Abreast.discard ?_
    cases builder with
    | none =>
      show Abreast _ ((keepNotes (openSchema c name options) >>= _) _)
        ((keepNotes (openSchema c name options) >>= _) _)
      rw [bind_apply, bind_apply]
      unfold keepNotes
      dsimp only
      rcases hopens with ⟨a, b, ha, hb, hpush⟩ | ⟨e, ha, hb⟩
      · rw [ha, hb]
        exact .ok _ (hzero (hpush.enlist c (lt_length_push ..)))
      · rw [ha, hb]
        exact .error e (hzero h)
    | some build =>
      rw [declareSchema_some]
      exact abreast_building h hopens (fun _ => rfl)
        (fun s L M notes hLM hs => (hc.builder build rfl s).abreast (fun _ _ => id) ⟨hLM, hs, rfl⟩)
        (Nat.zero_le _) notes
  | field s d => exact h.run (hc.declaration s d rfl) s (Nat.zero_le _) notes
  | nested parent name options builder =>
    refine Abreast.discard ?_
    -- this is what a builder of the parent could do
    have hdeclares : Declares (fun L M => L.bare = M.bare) Declaration.Sound parent
        (declareNested parent name options builder) :=
      .nested parent name options fun build hbuild => hc.builder build hbuild
    have hstart : AkinPast (parent + 1) (L, notes) (M, notes) := ⟨h, hpossible, rfl⟩
    exact (hdeclares.abreast (fun _ _ => id) hstart).mono
      fun _ _ hLM => ⟨hLM.1, Nat.zero_le _, hLM.2.2⟩

/-- Calls return the same in layouts that are bare the same, and leave such layouts. -/
theorem answers_abreast {calls : List (Call ρ)}
    (hcalls : ∀ c ∈ calls, c.Proper (fun L M => L.bare = M.bare) Declaration.Sound)
    {state state' : Layout × ρ}
    (h : AkinPast 0 state state') (hpossible : AllPossible calls state) :
    (answers calls state).1 = (answers calls state').1
      ∧ AkinPast 0 (answers calls state).2 (answers calls state').2 := by
  induction calls generalizing state state' with
  | nil => exact ⟨rfl, h⟩
  | cons c calls ih =>
    obtain ⟨L, notes⟩ := state
    obtain ⟨M, notes'⟩ := state'
    obtain ⟨hakin, -, rfl⟩ := h
    obtain ⟨hfirst, hrest⟩ := hpossible
    have hanswer : (c.answer (L, notes)).1 = (c.answer (M, notes)).1
        ∧ AkinPast 0 (c.answer (L, notes)).2 (c.answer (M, notes)).2 := by
      have hruns := abreast (hcalls c List.mem_cons_self) hakin hfirst notes
      unfold answer
      generalize c.run (L, notes) = first at hruns ⊢
      generalize c.run (M, notes) = second at hruns ⊢
      cases hruns with
      | ok a h => exact ⟨rfl, h⟩
      | error e h => exact ⟨rfl, h⟩
    obtain ⟨hresults, hend⟩ :=
      ih (fun c hc => hcalls c (List.mem_cons_of_mem _ hc)) hanswer.2 hrest
    refine ⟨?_, hend⟩
    show (c.answer (L, notes)).1 :: (answers calls (c.answer (L, notes)).2).1 = _
    rw [hanswer.1, hresults]
    rfl

end Call

/-! ### Sessions -/

namespace Session

variable {ρ : Type} {S T : Session}

/-- **Inheritance does not decide what a declaration does.**  If the layouts of two sessions differ
in options that may be inherited, and in the sets that wait or have been received, at most, then the
same calls, one after the other, return the same in both: the same results, the same errors, and the
same notes.  In the end the layouts have the same schemas, with the same fields, the same groups,
and the same widths or errors in place of them.  What there is around a new schema or a new codec is
always taken over without an error. -/
theorem Reached.answers_alike (hS : S.Reached fun S m => S.Possible m ∧ m.Sound)
    (hT : T.Reached fun S m => S.Possible m ∧ m.Sound) (hbare : S.layout.bare = T.layout.bare)
    {calls : List (Call ρ)}
    (hcalls : ∀ c ∈ calls, c.Proper (fun L M => L.bare = M.bare) Declaration.Sound) {notes : ρ}
    (hpossible : Call.AllPossible calls (S.layout, notes)) :
    (Call.answers calls (S.layout, notes)).1 = (Call.answers calls (T.layout, notes)).1
      ∧ (Call.answers calls (S.layout, notes)).2.2 = (Call.answers calls (T.layout, notes)).2.2
      ∧ (let L := (Call.answers calls (S.layout, notes)).2.1
        let M := (Call.answers calls (T.layout, notes)).2.1
        L.schemas.length = M.schemas.length
          ∧ (∀ s, (L.schema s).fields = (M.schema s).fields
            ∧ (L.schema s).groups = (M.schema s).groups
            ∧ (width s).outcome L = (width s).outcome M)
          ∧ L.Bequeaths ∧ M.Bequeaths)
      ∧ S.layout.Bequeaths ∧ T.layout.Bequeaths := by
  have hakin : S.layout.Akin T.layout := ⟨hbare, hS.fit, hT.fit⟩
  have hstart : AkinPast 0 (S.layout, notes) (T.layout, notes) := ⟨hakin, Nat.zero_le _, rfl⟩
  obtain ⟨hresults, hend, -, hnotes⟩ := Call.answers_abreast hcalls hstart hpossible
  refine ⟨hresults, hnotes, ⟨hend.length, fun s => ?_, hend.left.bequeaths, hend.right.bequeaths⟩,
    hakin.left.bequeaths, hakin.right.bequeaths⟩
  exact ⟨(hend.level.fields s).symm, (hend.groups s).symm, (hend.level.width s).symm⟩

/-! ### Stars that make no difference -/

/-- A session in which a schema of a definition has been started, with options for both. -/
def started (definition schema : OptionMap) : Session :=
  [.addDefinition "definition" definition, .addSchema 0 "outer" schema].foldl step ⟨[], .empty⟩

/-- What is padded with stars on the left. -/
def starred : Session :=
  started (.ofList [(OptionName.padding, .text "*")]) (.ofList [(OptionName.align, .text "LEFT")])

/-- What is padded with nothing in particular. -/
def unstarred : Session := started (.ofList [(OptionName.truncate, .bool true)]) .empty

theorem starts {definition schema : OptionMap}
    (h : 0 < (step ⟨[], .empty⟩ (.addDefinition "definition" definition)).layout.catalogs.length) :
    (started definition schema).Reached fun S m => S.Possible m ∧ m.Sound :=
  Reached.start.moves ⟨⟨trivial, trivial⟩, ⟨h, trivial⟩, trivial⟩

/-- A builder that declares a column and a schema with a filler in it. -/
def filling : Builder Unit := fun s => do
  keepNotes ((Declaration.column "first" 3 .empty).run s)
  discard (declareNested s "innermost" .empty
    (some fun t => keepNotes ((Declaration.filler 2 "").run t)))

theorem declares_filling {same : Layout → Layout → Prop} (s : SchemaId) :
    Declares same Declaration.Sound s (filling s) := by
  refine .bind (.field s ⟨trivial, trivial⟩) fun _ => ?_
  refine .bind (.nested s "innermost" .empty fun build hbuild t => ?_) fun _ => .pure s ()
  obtain rfl := Option.some.inj hbuild
  exact .field t ⟨trivial, trivial⟩

/-- Calls of which the first and the last one fail. -/
def attempts : List (Call Unit) :=
  [ .nested 0 "inner" .empty (some Call.clumsy),
    .nested 0 "inner" .empty (some filling),
    .field 0 (.column "last" 4 .empty),
    .listed 0 "outer" .empty none]

theorem proper_attempts : ∀ c ∈ attempts,
    c.Proper (fun L M => L.bare = M.bare) Declaration.Sound := by
  intro c hc
  unfold attempts at hc
  simp only [List.mem_cons, List.not_mem_nil, or_false] at hc
  rcases hc with rfl | rfl | rfl | rfl
  · refine ⟨fun s d h => absurd h nofun, fun build hbuild s => ?_⟩
    obtain rfl := Option.some.inj hbuild
    exact Call.declares_clumsy s
  · refine ⟨fun s d h => absurd h nofun, fun build hbuild s => ?_⟩
    obtain rfl := Option.some.inj hbuild
    exact declares_filling s
  · refine ⟨fun s d h => ?_, fun build hbuild s => absurd hbuild nofun⟩
    obtain ⟨-, rfl⟩ := Call.field.inj h
    exact ⟨trivial, trivial⟩
  · exact ⟨fun s d h => absurd h nofun, fun build hbuild s => absurd hbuild nofun⟩

/-- With stars and without, the same calls fail, and the schema is as wide in the end. -/
theorem answers_alike_starred :
    (starred.layout.schema 0).options.isDefined OptionName.padding = true
      ∧ (unstarred.layout.schema 0).options.isDefined OptionName.padding = false
      ∧ (let first := Call.answers attempts (starred.layout, ())
        let second := Call.answers attempts (unstarred.layout, ())
        first.1.map Except.isOk = [false, true, true, false] ∧ first.1 = second.1
          ∧ (width 0).outcome first.2.1 = .ok 9 ∧ (width 0).outcome second.2.1 = .ok 9) := by
  have hbare : starred.layout.bare = unstarred.layout.bare := rfl
  have hpossible : Call.AllPossible attempts (starred.layout, ()) :=
    ⟨show 0 < _ by decide, show 0 < _ by decide +kernel, show 0 < _ by decide +kernel,
      show 0 < _ by decide +kernel, trivial⟩
  obtain ⟨hresults, -, ⟨-, hfields, -⟩, -⟩ := (starts (by decide)).answers_alike
    (starts (by decide)) hbare proper_attempts hpossible
  have hwidth : (width 0).outcome (Call.answers attempts (starred.layout, ())).2.1 = .ok 9 :=
    outcome_eq_ok_iff.mpr (ok_of_gives (by decide +kernel))
  exact ⟨by decide, by decide, by decide +kernel, hresults, hwidth,
    (hfields 0).2.2 ▸ hwidth⟩

end Session

end RecordLayout
