import RecordLayout.Proofs.Layout.Transcript

/-!
# Reading with schemas that are known

Where all that a schema leads to has been found and measured, reading a line looks nothing up and
changes nothing.  A codec may refuse its slot, and the walk may go too deep, because widths that are
trusted were given without it; nothing else can fail.  Unlike for a validated schema, nothing is
asked of the depth here.

## Main definitions

* `Build.Reads`: a computation that changes nothing and gives no errors but those that are allowed.
* `Layout.Legible`: an outline that is trusted, with codecs that give no other errors.

## Main results

* `Layout.Unfolds.reads`: reading with a schema that is known gives no errors but those of its
  codecs and of the depth.
* `Layout.Unfolds.reads_parse`: **why a line cannot be read with a schema that is known**.
-/

namespace RecordLayout

/-! ### Computations that only read -/

namespace Build

variable {α β : Type} {allowed : Error → Prop} {L : Layout}

/-- A computation that leaves the layout as it is, and gives no errors but those that are allowed.
-/
def Reads (allowed : Error → Prop) (L : Layout) (x : Build α) : Prop :=
  x.Ends L fun res M => M = L ∧ ∀ e, res = .error e → allowed e

theorem reads_pure (a : α) : Reads allowed L (pure a : Build α) := ⟨rfl, nofun⟩

theorem reads_throw {e : Error} (he : allowed e) : Reads allowed L (throw e : Build α) :=
  ⟨rfl, fun _ h => Except.error.inj h ▸ he⟩

theorem reads_ofExcept {r : Except Error α} (hr : ∀ e, r = .error e → allowed e) :
    Reads allowed L (Build.ofExcept r) := ends_ofExcept.mpr ⟨rfl, hr⟩

theorem Reads.bind {x : Build α} {f : α → Build β} (hx : Reads allowed L x)
    (hf : ∀ a, Reads allowed L (f a)) : Reads allowed L (x >>= f) := by
  refine ends_bind.mpr (Ends.mono hx ?_)
  rintro (e | a) M ⟨rfl, hallowed⟩
  · exact ⟨rfl, fun _ h => Except.error.inj h ▸ hallowed e rfl⟩
  · exact hf a

theorem Reads.map {x : Build α} (hx : Reads allowed L x) (f : α → β) :
    Reads allowed L (f <$> x) := by
  refine ends_map.mpr (Ends.mono hx ?_)
  rintro (e | a) M ⟨rfl, hallowed⟩
  · exact ⟨rfl, fun _ h => Except.error.inj h ▸ hallowed e rfl⟩
  · exact ⟨rfl, nofun⟩

/-- What gives a result and changes nothing goes on with the result. -/
theorem Yields.reads {x : Build α} {f : α → Build β} {a : α} (hx : Yields x L a)
    (hf : Reads allowed L (f a)) : Reads allowed L (x >>= f) :=
  ends_bind.mpr (.of_eq (y := pure a) hx hf)

end Build

namespace Layout

open Build

variable {allowed : Error → Prop} {L : Layout} {s t : SchemaId} {line : Text} {o : Outline}

/-- All that is inside an outline is trusted, and its codecs give no errors but those that are
allowed. -/
structure Legible (allowed : Error → Prop) (L : Layout) (o : Outline) : Prop where
  trusts : ∀ t ∈ o.schemas, L.Trusts t
  codecs : ∀ c ∈ o.codecs, ∀ slot e, c.parse slot = .error e → allowed e

namespace Legible

variable {c : Codec} {key name : Text} {inner rest : Outline}

theorem after_column (h : L.Legible allowed (.column c rest)) : L.Legible allowed rest :=
  ⟨h.trusts, fun d hd => h.codecs d (List.mem_cons_of_mem c hd)⟩

theorem inside (h : L.Legible allowed (.branch key t name inner rest)) :
    L.Legible allowed inner :=
  ⟨fun u hu => h.trusts u (List.mem_cons_of_mem t (List.mem_append_left _ hu)),
    fun d hd => h.codecs d (List.mem_append_left _ hd)⟩

theorem after_branch (h : L.Legible allowed (.branch key t name inner rest)) :
    L.Legible allowed rest :=
  ⟨fun u hu => h.trusts u (List.mem_cons_of_mem t (List.mem_append_right _ hu)),
    fun d hd => h.codecs d (List.mem_append_right _ hd)⟩

end Legible

/-- Some fields of a schema are read without a lookup. -/
theorem UnfoldsTo.reads {keys : List Text} (ho : L.UnfoldsTo s keys o)
    (hlegible : L.Legible allowed o)
    {descend : SchemaId → UInt64 → Build Record} {measure : SchemaId → Build UInt64}
    (hdescend : ∀ t i, L.Unfolds t i → L.Legible allowed i → ∀ start,
      Reads allowed L (descend t start))
    (hmeasure : ∀ t i, L.Unfolds t i → L.Trusts t → Yields (measure t) L (UInt64.ofNat i.width))
    (reading : Reading) :
    Reads allowed L (keys.foldlM (parseField descend measure line s) reading) := by
  induction ho generalizing reading with
  | nil s => exact reads_pure reading
  | @column s key keys c rest h _ ih =>
    rw [List.foldlM_cons]
    refine Reads.bind (Yields.reads (field_of_known h) ?_) (ih hlegible.after_column)
    dsimp only
    split
    · exact reads_pure _
    · exact Reads.bind (reads_ofExcept (hlegible.codecs c List.mem_cons_self _))
        fun _ => reads_pure _
  | @branch s t key keys f inner rest h ht hinner _ _ ih =>
    have hbody (at' : Text) : Reads allowed L (do
        let record ← descend t reading.cursor
        let width ← measure t
        return (reading.put at' (.record record)).skip width : Build Reading) :=
      (hdescend t inner hinner hlegible.inside _).bind fun _ =>
        (hmeasure t inner hinner (hlegible.trusts t List.mem_cons_self)).reads (reads_pure _)
    rw [List.foldlM_cons]
    refine Reads.bind (Yields.reads (field_of_known h) ?_) (ih hlegible.after_branch)
    cases f with
    | column c => exact absurd ht (by simp [Field.schema?])
    | nested at' u | reference at' u =>
      obtain rfl : u = t := Option.some.inj ht
      exact hbody at'

/-- **Reading with a schema that is known looks nothing up**: it fails in the depth of the walk or
in a codec, and in nothing else. -/
theorem Unfolds.reads (hL : L.Measured) (ho : L.Unfolds s o) (hlegible : L.Legible allowed o)
    (hdeep : ∀ e : Error, e.code = .schemaError → allowed e) (room : Nat) (path : List SchemaId)
    (start : UInt64) : Reads allowed L (parseWithin line room path s start) := by
  induction room generalizing path s o start with
  | zero =>
    refine Ends.of_eq (y := throw (L.blocked path s)) rfl (reads_throw (hdeep _ ?_))
    unfold blocked
    split <;> rfl
  | succ room ih =>
    by_cases hs : s ∈ path
    · exact Ends.of_eq (y := throw (.cycle (L.schema s).name))
        ((parseWithin_succ ..).trans (if_pos hs)) (reads_throw (hdeep _ rfl))
    · refine Ends.of_eq ((parseWithin_succ ..).trans (if_neg hs)) (Reads.map ?_ _)
      exact UnfoldsTo.reads ho hlegible (fun t i hi hlegible start =>
        ih hi hlegible (s :: path) start)
        (fun t i hi ht => hi.measures hL ht room (s :: path)) _

/-- A line is read with a schema that is known, or a walk goes too deep, or a codec says why not. -/
theorem Unfolds.reads_parse (hL : L.Measured) (ho : L.Unfolds s o)
    (htrusts : ∀ t ∈ o.schemas, L.Trusts t) (line : Text) (start : UInt64) :
    Reads (fun e => e.code = .schemaError ∨ ∃ c ∈ o.codecs, ∃ slot, c.parse slot = .error e) L
      (parse s line start) :=
  ho.reads hL ⟨htrusts, fun c hc slot _ he => .inr ⟨c, hc, slot, he⟩⟩ (fun _ he => .inl he) maxDepth
    [] start

end Layout

end RecordLayout
