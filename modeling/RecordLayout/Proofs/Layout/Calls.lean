import RecordLayout.Proofs.Layout.Growth

/-!
# Calls that fail

A schema or a field is declared by one call, which may take a builder.  A call that fails leaves
what was there before as it was: it is checked before anything is added, and what a builder has
declared by the time it fails belongs to a schema that nothing leads to.

A builder is given a schema and declares fields of it.  It may go on from an error, keep notes, and
look at the layout; how much it may look at is a parameter here.

## Main definitions

* `Build.look`, `Build.note`: what a builder does besides declaring.
* `Declares`: a computation that declares fields of one schema only.
* `Call`, `Call.run`: what is done to declare a definition, a schema or a field.
* `Layout.Spares`: what stands before some place stays as it is.

## Main results

* `Declares.spares`: a builder spares all that is older than its schema.
* `Call.unchanged_of_error`: **a call that fails leaves every schema and every catalog as it was**.
-/

namespace RecordLayout

namespace Build

variable {ρ α : Type}

/-- What can be seen of the layout. -/
def look (f : Layout → α) : BuildWith ρ α := fun (L, notes) => .ok (f L) (L, notes)

/-- What can be seen of the notes, which may be changed. -/
def note (f : ρ → α × ρ) : BuildWith ρ α := fun (L, notes) => .ok (f notes).1 (L, (f notes).2)

theorem discard_apply {σ : Type} (x : EStateM Error σ α) (state : σ) :
    (discard x) state = match x state with
      | .ok _ state => .ok () state
      | .error e state => .error e state := by
  show EStateM.map _ x state = _
  unfold EStateM.map
  cases x state <;> rfl

theorem rescue_apply (x : BuildWith ρ α) (handle : Error → BuildWith ρ α) (state : Layout × ρ) :
    tryCatch x handle state = match x state with
      | .ok a state => .ok a state
      | .error e state => handle e state := by
  show EStateM.tryCatch x handle state = _
  unfold EStateM.tryCatch
  cases x state <;> rfl

end Build

open Build in
/-- What declares fields of a schema, by declarations that are `allowed`, and does nothing else to
the layout.  It sees of the layout what is the same in layouts that are the `same`. -/
inductive Declares {ρ : Type} (same : Layout → Layout → Prop) (allowed : Declaration → Prop) :
    SchemaId → {α : Type} → BuildWith ρ α → Prop
  | pure (s : SchemaId) {α : Type} (a : α) : Declares same allowed s (Pure.pure a)
  | throw (s : SchemaId) {α : Type} (e : Error) : Declares same allowed s (throw e : BuildWith ρ α)
  | look (s : SchemaId) {α : Type} {f : Layout → α} (hf : ∀ L M, same L M → f L = f M) :
    Declares same allowed s (look f)
  | note (s : SchemaId) {α : Type} (f : ρ → α × ρ) : Declares same allowed s (note f)
  | bind {s : SchemaId} {α β : Type} {x : BuildWith ρ α} {f : α → BuildWith ρ β}
    (hx : Declares same allowed s x) (hf : ∀ a, Declares same allowed s (f a)) :
    Declares same allowed s (x >>= f)
  | rescue {s : SchemaId} {α : Type} {x : BuildWith ρ α} {handle : Error → BuildWith ρ α}
    (hx : Declares same allowed s x) (hhandle : ∀ e, Declares same allowed s (handle e)) :
    Declares same allowed s (tryCatch x handle)
  | field (s : SchemaId) {d : Declaration} (hd : allowed d) :
    Declares same allowed s (keepNotes (d.run s))
  | nested (s : SchemaId) (name : Text) (options : OptionMap) {builder : Option (Builder ρ)}
    (hbuilder : ∀ build, builder = some build → ∀ child,
      Declares same allowed child (build child)) :
    Declares same allowed s (Layout.declareNested s name options builder)

/-- A codec that is to be declared is one that there can be, and receives what schemas hand down. -/
def Declaration.Sound (d : Declaration) : Prop := d.Made ∧ d.Receptive

/-- What is done to declare a definition, a schema or a field. -/
inductive Call (ρ : Type)
  /-- A definition, without schemas. -/
  | definition (name : Text) (options : OptionMap)
  /-- A schema that is no field of another and not listed. -/
  | schema (scope : Scope) (name : Text) (options : OptionMap)
  /-- A schema of a definition. -/
  | listed (c : CatalogId) (name : Text) (options : OptionMap) (builder : Option (Builder ρ))
  /-- A column, a codec, a filler or a reference. -/
  | field (s : SchemaId) (d : Declaration)
  /-- A nested schema. -/
  | nested (parent : SchemaId) (name : Text) (options : OptionMap) (builder : Option (Builder ρ))

namespace Call

open Layout Build

variable {ρ : Type}

/-- What is done in a call. -/
def run : Call ρ → BuildWith ρ Unit
  | definition name options => keepNotes (discard (addDefinition name options))
  | schema scope name options => keepNotes (discard (createSchema scope name options))
  | listed c name options builder => discard (declareSchema c name options builder)
  | field s d => keepNotes (d.run s)
  | nested parent name options builder => discard (declareNested parent name options builder)

/-- The builder that a call is given. -/
def builder? : Call ρ → Option (Builder ρ)
  | listed _ _ _ builder | nested _ _ _ builder => builder
  | definition .. | schema .. | field .. => none

/-- A call with a declaration that is `allowed`, or with a builder that only makes such
declarations, for the schema that it is given. -/
structure Proper (same : Layout → Layout → Prop) (allowed : Declaration → Prop) (c : Call ρ) :
    Prop where
  declaration : ∀ s d, c = field s d → allowed d
  builder : ∀ build, c.builder? = some build → ∀ s, Declares same allowed s (build s)

end Call

namespace Layout

open Build Session

variable {ρ α β : Type} {L M N : Layout} {n : Nat} {s : SchemaId}

/-- What stands before a place stays as it is, and so do the catalogs. -/
structure Spares (n : Nat) (L M : Layout) : Prop where
  length_le : L.schemas.length ≤ M.schemas.length
  catalogs : M.catalogs = L.catalogs
  schema : ∀ t < n, M.schema t = L.schema t

namespace Spares

theorem refl (n : Nat) (L : Layout) : L.Spares n L := ⟨Nat.le_refl _, rfl, fun _ _ => rfl⟩

theorem trans (h : L.Spares n M) (h' : M.Spares n N) : L.Spares n N where
  length_le := Nat.le_trans h.length_le h'.length_le
  catalogs := h'.catalogs.trans h.catalogs
  schema t ht := (h'.schema t ht).trans (h.schema t ht)

theorem modify (hs : n ≤ s) (L : Layout) (f : Schema → Schema) : L.Spares n (L.modify s f) := by
  refine ⟨Nat.le_of_eq (length_modify L s f).symm, rfl, fun t ht => ?_⟩
  rw [schema_modify, if_neg]
  rintro ⟨rfl, -⟩
  exact Nat.not_lt_of_le hs ht

theorem append (hs : n ≤ s) (L : Layout) (key : Text) (entry : Entry) :
    L.Spares n (L.append s key entry) :=
  ⟨Nat.le_of_eq (length_append ..).symm, rfl, (modify hs L _).schema⟩

theorem push (hn : n ≤ L.schemas.length) (node : Schema) : L.Spares n (L.push node) := by
  refine ⟨?_, rfl, fun t ht => schema_push_of_lt L node (Nat.lt_of_lt_of_le ht hn)⟩
  rw [length_push]
  exact Nat.le_succ _

/-- A new field of a schema at the place or after it. -/
theorem declaration (hs : n ≤ s) (L : Layout) (d : Declaration) :
    L.Spares n ((d.run s).after L) := by
  unfold Build.after
  rw [d.run_apply]
  cases d.field (L.schema s) with
  | error e => exact refl n L
  | ok made => exact d.add_induction (append hs L _ _) fun h => h.trans (modify hs _ _)

end Spares

/-- A schema that is added at the place or after it, and worked on by a builder that spares the
schemas before. -/
theorem Spares.built (hn : n ≤ L.schemas.length) (node : Schema) {x : BuildWith ρ α} {notes : ρ}
    (hx : ∀ M : Layout, n ≤ M.schemas.length → M.Spares n (layoutAfter x M notes)) :
    L.Spares n ((layoutAfter x ((L.push node).markBusy L.schemas.length true) notes).markBusy
      L.schemas.length false) := by
  have hpush := Spares.push hn node
  have hbusy := hpush.trans (.modify hn _ fun node => { node with busy := true })
  have hbuilt := hbusy.trans (hx _ (Nat.le_trans hn hbusy.length_le))
  exact hbuilt.trans (.modify hn _ fun node => { node with busy := false })

theorem layoutAfter_bind (x : BuildWith ρ α) (f : α → BuildWith ρ β) (L : Layout) (notes : ρ) :
    layoutAfter (x >>= f) L notes = match x (L, notes) with
      | .ok a (M, notes) => layoutAfter (f a) M notes
      | .error _ (M, _) => M := by
  unfold layoutAfter
  rw [bind_apply]
  cases x (L, notes) <;> rfl

theorem layoutAfter_rescue (x : BuildWith ρ α) (handle : Error → BuildWith ρ α) (L : Layout)
    (notes : ρ) :
    layoutAfter (tryCatch x handle) L notes = match x (L, notes) with
      | .ok _ (M, _) => M
      | .error e (M, notes) => layoutAfter (handle e) M notes := by
  unfold layoutAfter
  rw [rescue_apply]
  cases x (L, notes) <;> rfl

theorem layoutAfter_keepNotes (x : Build α) (L : Layout) (notes : ρ) :
    layoutAfter (keepNotes x) L notes = x.after L := by
  unfold layoutAfter keepNotes Build.after
  dsimp only
  cases x L <;> rfl

end Layout

open Layout Build Session

variable {ρ α : Type} {same : Layout → Layout → Prop} {allowed : Declaration → Prop}

/-- A computation that does not succeed ends in an error. -/
theorem exists_error {x : BuildWith ρ α} {L : Layout} {notes : ρ}
    (h : Session.succeeds x L notes = false) :
    ∃ e notes', x (L, notes) = .error e (layoutAfter x L notes, notes') := by
  unfold Session.succeeds at h
  unfold layoutAfter
  cases hx : x (L, notes) with
  | ok a state =>
    rw [hx] at h
    exact absurd h (by simp)
  | error e state => exact ⟨e, state.2, rfl⟩

/-- **A builder spares all that is older than its schema**: it changes this schema, and those that
it adds. -/
theorem Declares.spares {s : SchemaId} {x : BuildWith ρ α} (h : Declares same allowed s x) {n : Nat}
    (hs : n ≤ s) {L : Layout} (hn : n ≤ L.schemas.length) (notes : ρ) :
    L.Spares n (layoutAfter x L notes) := by
  induction h generalizing L notes with
  | pure s a => exact .refl n L
  | throw s e => exact .refl n L
  | look s hf => exact .refl n L
  | note s f => exact .refl n L
  | @bind s α β x f hx hf ihx ihf =>
    have hfirst := ihx hs hn notes
    rw [layoutAfter_bind]
    unfold layoutAfter at hfirst
    cases hres : x (L, notes) with
    | ok a state =>
      rw [hres] at hfirst
      exact hfirst.trans (ihf a hs (Nat.le_trans hn hfirst.length_le) state.2)
    | error e state =>
      rw [hres] at hfirst
      exact hfirst
  | @rescue s α x handle hx hhandle ihx ihhandle =>
    have hfirst := ihx hs hn notes
    rw [layoutAfter_rescue]
    unfold layoutAfter at hfirst
    cases hres : x (L, notes) with
    | ok a state =>
      rw [hres] at hfirst
      exact hfirst
    | error e state =>
      rw [hres] at hfirst
      exact hfirst.trans (ihhandle e hs (Nat.le_trans hn hfirst.length_le) state.2)
  | @field s d hd =>
    rw [layoutAfter_keepNotes]
    exact .declaration hs L d
  | @nested s name options builder hbuilder ih =>
    cases builder with
    | none => exact .refl n L
    | some build =>
      rw [declareNested_some, layoutAfter_building]
      cases hopen : openNested s name options L with
      | error e M =>
        rw [openNested_error hopen]
        exact .refl n L
      | ok child M =>
        obtain ⟨node, -, -, -, rfl, rfl⟩ := openNested_ok hopen
        -- the child is newer than all that is to be spared, so its builder spares it too
        have hbuilt := Spares.built hn node fun M hM => ih build rfl L.schemas.length hn hM notes
        unfold Site.close
        dsimp only
        split
        · exact hbuilt.trans (.append hs _ _ _)
        · exact hbuilt

/-! ### Calls -/

theorem Layout.addDefinition_error {name : Text} {options : OptionMap} {L M : Layout} {e : Error}
    (h : addDefinition name options L = .error e M) : M = L := by
  unfold addDefinition at h
  split at h
  · exact absurd h nofun
  · exact (EStateM.Result.error.inj h).2.symm

theorem Layout.createSchema_error {scope : Scope} {name : Text} {options : OptionMap} {L M : Layout}
    {e : Error} (h : createSchema scope name options L = .error e M) : M = L := by
  unfold createSchema at h
  split at h
  · exact absurd h nofun
  · exact (EStateM.Result.error.inj h).2.symm

theorem Declaration.run_error {d : Declaration} {s : SchemaId} {L M : Layout} {e : Error}
    (h : d.run s L = .error e M) : M = L := by
  rw [d.run_apply] at h
  split at h
  · exact absurd h nofun
  · exact (EStateM.Result.error.inj h).2.symm

namespace Call

theorem discard_error {σ : Type} {x : EStateM Error σ α} {e : Error} {state state' : σ}
    (h : (discard x) state = .error e state') : x state = .error e state' := by
  rw [discard_apply] at h
  split at h
  · exact absurd h nofun
  · next hx =>
    obtain ⟨rfl, rfl⟩ := EStateM.Result.error.inj h
    exact hx

theorem keepNotes_error {x : Build α} {L M : Layout} {notes notes' : ρ} {e : Error}
    (h : keepNotes x (L, notes) = .error e (M, notes')) : x L = .error e M := by
  unfold keepNotes at h
  dsimp only at h
  split at h
  · exact absurd h nofun
  · next hx =>
    obtain ⟨rfl, hstate⟩ := EStateM.Result.error.inj h
    rw [hx, (Prod.mk.inj hstate).1]

/-- A builder at work that fails leaves all schemas that were there before as they were. -/
theorem spares_building {site : SchemaId → Site}
    (hsite : ∀ s N, (site s).close N false = N.markBusy s false) {x : Build SchemaId}
    {L M : Layout} (hok : ∀ s N, x L = .ok s N → s = L.schemas.length ∧ ∃ node, N = L.push node)
    (herror : ∀ e N, x L = .error e N → N = L) {build : Builder ρ}
    (hbuild : ∀ s, Declares same allowed s (build s)) {notes notes' : ρ} {e : Error}
    (h : building site x build (L, notes) = .error e (M, notes')) :
    L.Spares L.schemas.length M := by
  unfold building at h
  dsimp only at h
  split at h
  · next s N hx =>
    obtain ⟨rfl, node, rfl⟩ := hok s N hx
    split at h
    · exact absurd h nofun
    · next hfail =>
      obtain ⟨-, hstate⟩ := EStateM.Result.error.inj h
      have hspares := Spares.built (Nat.le_refl _) node fun N hN =>
        (hbuild L.schemas.length).spares (Nat.le_refl _) hN notes
      unfold layoutAfter at hspares
      rw [hfail] at hspares
      rwa [← (Prod.mk.inj hstate).1, hsite]
  · next e N hx =>
    obtain ⟨-, hstate⟩ := EStateM.Result.error.inj h
    rw [← (Prod.mk.inj hstate).1, herror e N hx]
    exact .refl _ L

/-- A call that fails spares all schemas that were there before. -/
theorem spares_of_error {c : Call ρ} (hc : c.Proper same allowed) {L M : Layout} {notes notes' : ρ}
    {e : Error} (h : c.run (L, notes) = .error e (M, notes')) : L.Spares L.schemas.length M := by
  cases c with
  | definition name options =>
    rw [addDefinition_error (discard_error (keepNotes_error h))]
    exact .refl _ L
  | schema scope name options =>
    rw [createSchema_error (discard_error (keepNotes_error h))]
    exact .refl _ L
  | field s d =>
    rw [d.run_error (keepNotes_error h)]
    exact .refl _ L
  | listed c name options builder =>
    have herror := discard_error h
    cases builder with
    | none =>
      -- without a builder nothing fails once the schema has been added
      change (keepNotes (openSchema c name options) >>= _) _ = _ at herror
      rw [bind_apply] at herror
      split at herror
      · exact absurd herror nofun
      · next hopen =>
        rw [openSchema_error (keepNotes_error (hopen.trans herror))]
        exact .refl _ L
    | some build =>
      rw [declareSchema_some] at herror
      refine spares_building (fun s N => rfl) (fun s N hopen => ?_) (fun e N => openSchema_error)
        (hc.builder build rfl) herror
      obtain ⟨node, -, -, hs, hN⟩ := openSchema_ok hopen
      exact ⟨hs, node, hN⟩
  | nested parent name options builder =>
    have herror := discard_error h
    cases builder with
    | none =>
      obtain ⟨-, hstate⟩ := EStateM.Result.error.inj herror
      rw [← (Prod.mk.inj hstate).1]
      exact .refl _ L
    | some build =>
      rw [declareNested_some] at herror
      refine spares_building (fun s N => rfl) (fun s N hopen => ?_) (fun e N => openNested_error)
        (hc.builder build rfl) herror
      obtain ⟨node, -, -, -, hs, hN⟩ := openNested_ok hopen
      exact ⟨hs, node, hN⟩

/-- **A call that fails leaves every schema and every catalog as it was**, whatever its builder has
declared before it failed. -/
theorem unchanged_of_error {c : Call ρ} (hc : c.Proper same allowed) {L M : Layout}
    {notes notes' : ρ} {e : Error} (h : c.run (L, notes) = .error e (M, notes')) :
    M.catalogs = L.catalogs ∧ ∀ t < L.schemas.length, M.schema t = L.schema t := by
  have hspares := spares_of_error hc h
  exact ⟨hspares.catalogs, hspares.schema⟩

/-- A schema of a definition with one field. -/
def halfFilled : Session :=
  [ .addDefinition "definition" .empty,
    .addSchema 0 "outer" .empty,
    .declare 0 (.column "first" 3 .empty)].foldl step ⟨[], .empty⟩

/-- A builder that declares a column and a schema with a filler in it, and then a reference to no
schema. -/
def clumsy : Builder Unit := fun s => do
  keepNotes ((Declaration.column "second" 4 .empty).run s)
  discard (declareNested s "innermost" .empty
    (some fun t => keepNotes ((Declaration.filler 2 "*").run t)))
  keepNotes ((Declaration.reference "" "" .empty).run s)

theorem declares_clumsy (s : SchemaId) : Declares same Declaration.Sound s (clumsy s) := by
  refine .bind (.field s ⟨trivial, trivial⟩) fun _ => .bind ?_ fun _ => .field s ⟨trivial, trivial⟩
  refine .bind (.nested s "innermost" .empty fun build hbuild t => ?_) fun _ => .pure s ()
  obtain rfl := Option.some.inj hbuild
  exact .field t ⟨trivial, trivial⟩

/-- The builder has added two schemas by the time it fails, and the schema around them is as it
was. -/
theorem unchanged_halfFilled :
    ∃ e M, (Call.nested 0 "inner" .empty (some clumsy)).run (halfFilled.layout, ())
        = .error e (M, ())
      ∧ M.schemas.length = 3 ∧ M.catalogs = halfFilled.layout.catalogs
      ∧ ∀ t < halfFilled.layout.schemas.length, M.schema t = halfFilled.layout.schema t := by
  have hproper : (Call.nested 0 "inner" .empty (some clumsy)).Proper Eq Declaration.Sound := by
    refine ⟨fun s d h => absurd h nofun, fun build hbuild s => ?_⟩
    obtain rfl := Option.some.inj hbuild
    exact declares_clumsy s
  have hfails : Session.succeeds (Call.nested 0 "inner" .empty (some clumsy)).run
      halfFilled.layout () = false := by decide +kernel
  obtain ⟨e, notes, herror⟩ := exists_error hfails
  exact ⟨e, _, herror, by decide +kernel, unchanged_of_error hproper herror⟩

end Call

end RecordLayout
