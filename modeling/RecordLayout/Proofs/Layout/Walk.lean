import RecordLayout.Proofs.Layout.Problems

/-!
# Walks

Looking for errors, reading and writing go through a schema in the same way.  Each is a recursion of
its own, with ends of its own; but they meet the same schemas, and whatever they change on their
way, they find the same behind every key.  So one that ends with a result stops nowhere, and one
that stops nowhere fails for no other reason than what is read or written.

## Main definitions

* `StatusCode.structural`: the codes of errors in what has been declared.
* `Error.Spares`: the code of an error is none of some codes.
* `Codec.Avoids`: a codec whose errors spare some codes.
* `CustomCodec.Avoids`: that this is so whatever options the codec takes over.
* `Build.Tells`: what an end says about whether something is so.
* `Layout.Walkable`: walks find the same in all the layouts that they go through.

## Main results

* `Layout.Walkable.errorsWithin`: **errors are the problems of a schema**.
* `Layout.Walkable.parse`, `Layout.Walkable.format`: **reading and writing tell whether there are
  any**.
-/

namespace RecordLayout

/-! ### What codecs report -/

/-- The codes of errors in what has been declared, not in what is read or written. -/
def StatusCode.structural : List StatusCode := [.schemaError, .configError, .notFound]

/-- The code of an error is none of some codes. -/
def Error.Spares (codes : List StatusCode) (e : Error) : Prop := e.code ∉ codes

/-- Errors in what is read or written spare the codes of what has been declared. -/
theorem Error.spares_of_data {codes : List StatusCode} (hcodes : codes ⊆ StatusCode.structural)
    {e : Error} (h : e.code = .error ∨ e.code = .invalidArgument ∨ e.code = .internal) :
    e.Spares codes := by
  intro hmem
  have hstructural := hcodes hmem
  rcases h with h | h | h <;> rw [h] at hstructural <;> exact absurd hstructural (by decide)

/-- A codec whose errors spare some codes. -/
structure Codec.Avoids (codes : List StatusCode) (c : Codec) : Prop where
  parse : ∀ slot e, c.parse slot = .error e → e.Spares codes
  format : ∀ value e, c.format value = .error e → e.Spares codes

/-- Any codec avoids no codes. -/
theorem Codec.Avoids.nil (c : Codec) : c.Avoids [] :=
  ⟨fun _ _ _ => List.not_mem_nil, fun _ _ _ => List.not_mem_nil⟩

/-- A codec from elsewhere whose errors spare some codes, whatever options it takes over. -/
def CustomCodec.Avoids (codes : List StatusCode) (c : CustomCodec) : Prop :=
  ∀ options?, (Codec.custom { c with options? }).Avoids codes

namespace Column

theorem textOf_code {v : Value} {e : Error} (h : textOf v = .error e) : e.code = .error := by
  unfold textOf at h
  cases hv : v.expectText with
  | ok t => rw [hv] at h; exact absurd h nofun
  | error f => rw [hv] at h; rw [← Except.error.inj h]; rfl

theorem alignsLeft_code {c : Column} {e : Error} (h : c.alignsLeft = .error e) :
    e.code = .error := by
  unfold alignsLeft at h
  cases hside : textOf (c.options.get OptionName.align) with
  | ok side => rw [hside] at h; exact absurd h nofun
  | error e' =>
    rw [hside] at h
    rw [← Except.error.inj h]
    exact textOf_code hside

theorem parseNumber_code {c : Column} {isInteger : Bool} {raw text : Text} {e : Error}
    (h : c.parseNumber isInteger raw text = .error e) : e.code = .invalidArgument := by
  unfold parseNumber at h
  dsimp only at h
  split at h
  · split at h <;> exact absurd h nofun
  · split at h <;> split at h
    · exact absurd h nofun
    · exact Except.error.inj h ▸ rfl
    · exact absurd h nofun
    · exact Except.error.inj h ▸ rfl

/-- Reading a slot fails because of its options or its text only. -/
theorem parse_code {c : Column} {slot : Text} {e : Error} (h : c.parse slot = .error e) :
    e.code = .error ∨ e.code = .invalidArgument := by
  unfold parse at h
  split at h
  · exact absurd h nofun
  · obtain hpad | ⟨pad, -, h⟩ := Success.or_of_bind_error h
    · exact .inl (textOf_code hpad)
    split at h
    · exact absurd h nofun
    obtain hleft | ⟨left, -, h⟩ := Success.or_of_bind_error h
    · exact .inl (alignsLeft_code hleft)
    obtain htype | ⟨type, -, h⟩ := Success.or_of_bind_error h
    · exact .inl (textOf_code htype)
    split at h
    · exact absurd h nofun
    · exact .inr (parseNumber_code h)

theorem textFor_code {c : Column} {v : Value} {e : Error} (h : c.textFor v = .error e) :
    e.code = .error ∨ e.code = .invalidArgument := by
  cases v with
  | float x =>
    change c.numeral x = .error e at h
    unfold numeral at h
    split at h
    · split at h
      · exact absurd h nofun
      · exact .inl (Except.error.inj h ▸ rfl)
    · exact absurd h nofun
  | record r => exact .inr (Except.error.inj h ▸ rfl)
  | null | bool | int | text => exact absurd h nofun

/-- Writing a value fails because of the options or the value only. -/
theorem format_code {c : Column} {value : Value} {e : Error} (h : c.format value = .error e) :
    e.code = .error ∨ e.code = .invalidArgument := by
  unfold format at h
  obtain hpad | ⟨pad, -, h⟩ := Success.or_of_bind_error h
  · exact .inl (textOf_code hpad)
  split at h
  · exact absurd h nofun
  obtain htext | ⟨text, -, h⟩ := Success.or_of_bind_error h
  · exact textFor_code htext
  split at h
  · exact .inr (Except.error.inj h ▸ rfl)
  obtain hleft | ⟨left, -, h⟩ := Success.or_of_bind_error h
  · exact .inl (alignsLeft_code hleft)
  · exact absurd h nofun

end Column

/-- Columns report nothing about what has been declared. -/
theorem Codec.avoids_column {codes : List StatusCode} (hcodes : codes ⊆ StatusCode.structural)
    (c : Column) : (Codec.column c).Avoids codes where
  parse _ _ h := Error.spares_of_data hcodes ((Column.parse_code h).imp id .inl)
  format _ _ h := Error.spares_of_data hcodes ((Column.format_code h).imp id .inl)

/-! ### What an end says -/

namespace Build

variable {α β : Type}

/-- What an end says: a result, that `p` holds; an error that is not allowed, that it does not. -/
def Tells (allowed : Error → Prop) (p : Prop) : Except Error α → Prop
  | .ok _ => p
  | .error e => p → allowed e

theorem Tells.congr {allowed : Error → Prop} {p q : Prop} {res : Except Error α} (hpq : p ↔ q)
    (h : Tells allowed p res) : Tells allowed q res := by
  cases res with
  | ok a => exact hpq.mp h
  | error e => exact fun hq => h (hpq.mpr hq)

theorem Tells.map {allowed : Error → Prop} {p : Prop} {res : Except Error α} (f : α → β)
    (h : Tells allowed p res) : Tells allowed p (res.map f) := by
  cases res <;> exact h

theorem Tells.of_error {allowed : Error → Prop} {p : Prop} {res : Except Error α} {e : Error}
    (h : Tells allowed p res) (hres : res = .error e) (hp : p) : allowed e := by
  subst hres
  exact h hp

/-- Steps over a list tell of all its elements what each of them tells of its own. -/
theorem ends_foldlM_tells {f : β → α → Build β} {I : Layout → Prop} (allowed : Error → Prop)
    (P : α → Prop) (l : List α) (b : β) {L : Layout} (hL : I L)
    (hstep : ∀ b, ∀ a ∈ l, ∀ M, I M →
      (f b a).Ends M fun res N => I N ∧ Tells allowed (P a) res) :
    (l.foldlM f b).Ends L fun res N => I N ∧ Tells allowed (∀ a ∈ l, P a) res := by
  induction l generalizing b L with
  | nil => exact ends_pure.mpr ⟨hL, fun a ha => absurd ha List.not_mem_nil⟩
  | cons a l ih =>
    rw [List.foldlM_cons]
    refine ends_bind.mpr ((hstep b a List.mem_cons_self L hL).mono fun res M hM => ?_)
    obtain ⟨hM, htells⟩ := hM
    cases res with
    | error e => exact ⟨hM, fun hall => htells (hall a List.mem_cons_self)⟩
    | ok c =>
      refine (ih c hM fun b a ha => hstep b a (List.mem_cons_of_mem _ ha)).mono fun res N hN => ?_
      exact ⟨hN.1, hN.2.congr ((List.forall_mem_cons (p := P)).trans (and_iff_right htells)).symm⟩

end Build

namespace Layout

open Build

/-! ### Walks -/

/-- Walks through the schemas `R` find the same as in `L`, in all the layouts `J` that they go
through, and all codecs on their way avoid some codes. -/
structure Walkable (codes : List StatusCode) (L : Layout) (R : SchemaId → Prop)
    (J : Layout → Prop) : Prop where
  /-- The codes are about what has been declared. -/
  structural : codes ⊆ StatusCode.structural
  /-- Walks stay among the schemas. -/
  leads : ∀ {s t}, R s → L.Leads s t → R t
  /-- The keys stay where they are. -/
  fields : ∀ {M}, J M → ∀ s, (M.schema s).fields = (L.schema s).fields
  /-- Schemas keep their names. -/
  name : ∀ {M}, J M → ∀ s, (M.schema s).name = (L.schema s).name
  /-- What is found behind a key. -/
  field : ∀ {M}, J M → ∀ {s}, R s → ∀ key, (field s key).Ends M fun res N => J N
    ∧ res.map Field.schema? = L.childOf s key ∧ ∀ c, res = .ok (.column c) → c.Avoids codes
  /-- Schemas where a walk stops nowhere have a width. -/
  width : ∀ {M}, J M → ∀ {room path s}, R s → L.Clear room path s →
    (widthWithin room path s).Ends M fun res N => J N ∧ ∃ total, res = .ok total

namespace Walkable

variable {codes : List StatusCode} {L M : Layout} {R : SchemaId → Prop} {J : Layout → Prop}
  {room : Nat} {path : List SchemaId} {s t : SchemaId}

theorem blocked (h : Walkable codes L R J) (hM : J M) (path : List SchemaId) (s : SchemaId) :
    M.blocked path s = L.blocked path s := by
  unfold Layout.blocked
  rw [h.name hM]

/-- What a walk goes on to behind a key. -/
theorem clearAt_iff {key : Text} {f : Field}
    (h : (Except.ok f).map Field.schema? = L.childOf s key) :
    L.ClearAt room path s key ↔ ∀ t, f.schema? = some t → L.Clear room path t := by
  unfold ClearAt
  rw [← h]
  refine ⟨fun ⟨child, hchild, hclear⟩ t ht => hclear t ?_, fun hclear => ⟨_, rfl, hclear⟩⟩
  rw [← Except.ok.inj hchild]
  exact ht

theorem not_clearAt {key : Text} {e : Error}
    (h : (Except.error e).map Field.schema? = L.childOf s key) :
    ¬ L.ClearAt room path s key := by
  rintro ⟨child, hchild, -⟩
  rw [hchild] at h
  exact absurd h nofun

/-- A walk stops nowhere behind a key exactly if it stops nowhere in the schema there. -/
theorem clear_iff_clearAt {key : Text} {f : Field}
    (h : (Except.ok f).map Field.schema? = L.childOf s key) (hf : f.schema? = some t) :
    L.Clear room path t ↔ L.ClearAt room path s key := by
  rw [clearAt_iff h]
  simp [hf]

/-- A walk does not stop behind the key of a column. -/
theorem clearAt_of_leaf {key : Text} {f : Field}
    (h : (Except.ok f).map Field.schema? = L.childOf s key) (hf : f.schema? = none) :
    L.ClearAt room path s key := by
  rw [clearAt_iff h]
  simp [hf]

/-- What is found behind a key is met by walks. -/
theorem child (h : Walkable codes L R J) (hs : R s) {key : Text} (hkey : key ∈ (L.schema s).fields)
    {f : Field} (hf : (Except.ok f).map Field.schema? = L.childOf s key) (ht : f.schema? = some t) :
    R t := by
  refine h.leads hs (leads_iff.mpr ⟨key, hkey, ?_⟩)
  rw [← hf]
  exact congrArg Except.ok ht

/-! ### Looking for errors -/

/-- The errors behind a field that is known to be there. -/
theorem ends_fieldErrors_of_field {descend : SchemaId → Build (List Error)} {found : List Error}
    {key : Text} (hkey : key ∈ (L.schema s).fields) {Q : Except Error (List Error) → Layout → Prop}
    (h : (Layout.field s key).Ends L fun res M =>
      match res.map Field.schema? with
      | .ok none => Q (.ok found) M
      | .ok (some t) => (descend t).Ends M fun res N => Q (res.map (found ++ ·)) N
      | .error e => (e.isEndless = true → Q (.error e) M)
        ∧ (e.isEndless = false → Q (.ok (found ++ [e])) M)) :
    (fieldErrors descend s found key).Ends L Q := by
  refine ends_fieldErrors (fun hleaf href => ?_) (fun t ht => ?_) fun ref href => ?_
  · cases hfind : (L.schema s).find? key with
    | none => exact absurd hkey ((Listing.find?_eq_none_iff _ _).mp hfind)
    | some e =>
      cases e with
      | column c => exact h.of_ok (field_of_known (known_of_column hfind))
      | nested t => exact absurd (hleaf _ (known_of_nested hfind)) (by simp [Field.schema?])
      | reference ref => exact absurd hfind (href ref)
  · exact h.of_ok (field_of_known (known_of_nested ht))
  · have hmap : (Field.reference ref.storeName <$> resolve s key ref).Ends L _ :=
      .of_eq (by simp only [Layout.field, href]) h
    refine (ends_map.mp hmap).mono fun res M hM => ?_
    cases res <;> exact hM

/-- The errors behind a field are the problems there. -/
theorem fieldErrors (h : Walkable codes L R J) (hM : J M) (hs : R s) {key : Text}
    (hkey : key ∈ (L.schema s).fields) {descend : SchemaId → Build (List Error)}
    {problems : SchemaId → List Error}
    (hdescend : ∀ {t M}, R t → J M → (descend t).Ends M fun res N =>
      J N ∧ res = .ok (problems t)) (found : List Error) :
    (fieldErrors descend s found key).Ends M fun res N =>
      J N ∧ res = .ok (found ++ L.problemsAt problems s key) := by
  refine ends_fieldErrors_of_field (h.fields hM s ▸ hkey) ((h.field hM hs key).mono ?_)
  rintro res N ⟨hN, hchild, -⟩
  unfold problemsAt
  rw [← hchild]
  cases res with
  | error e =>
    -- that nothing is found behind a key is never a matter of something that does not end
    have hends := childOf_not_isEndless hchild.symm
    exact ⟨fun hendless => absurd (hendless.symm.trans hends) (by decide), fun _ => ⟨hN, rfl⟩⟩
  | ok f =>
    cases hf : f.schema? with
    | none =>
      simp only [Except.map, hf, List.append_nil]
      exact ⟨hN, trivial⟩
    | some t =>
      simp only [Except.map, hf]
      refine (hdescend (h.child hs hkey hchild hf) hN).mono fun res O hO => ?_
      obtain ⟨hO, rfl⟩ := hO
      exact ⟨hO, rfl⟩

/-- The problems behind some of the keys come after those found before. -/
theorem foldlM_fieldErrors (h : Walkable codes L R J) (hs : R s)
    {descend : SchemaId → Build (List Error)} {problems : SchemaId → List Error}
    (hdescend : ∀ {t M}, R t → J M → (descend t).Ends M fun res N =>
      J N ∧ res = .ok (problems t)) {keys : List Text} (hkeys : keys ⊆ (L.schema s).fields)
    (found : List Error) (hM : J M) :
    (keys.foldlM (Layout.fieldErrors descend s) found).Ends M fun res N =>
      J N ∧ res = .ok (found ++ keys.flatMap (L.problemsAt problems s)) := by
  induction keys generalizing found M with
  | nil => exact ends_pure.mpr ⟨hM, by simp⟩
  | cons key keys ih =>
    rw [List.foldlM_cons, List.flatMap_cons, ← List.append_assoc]
    refine ends_bind.mpr
      ((h.fieldErrors hM hs (hkeys List.mem_cons_self) hdescend found).mono fun res N hN => ?_)
    obtain ⟨hN, rfl⟩ := hN
    exact ih (fun k hk => hkeys (List.mem_cons_of_mem _ hk)) _ hN

/-- **Errors are the problems of a schema.** -/
theorem errorsWithin (h : Walkable codes L R J) (hM : J M) (hs : R s) (room : Nat)
    (path : List SchemaId) :
    (errorsWithin room path s).Ends M fun res N =>
      J N ∧ res = .ok (L.problemsWithin room path s) := by
  induction room generalizing path s M with
  | zero =>
    refine .of_eq (y := pure [M.blocked path s]) rfl (ends_pure.mpr ⟨hM, ?_⟩)
    rw [h.blocked hM]
    rfl
  | succ room ih =>
    unfold problemsWithin
    by_cases hmem : s ∈ path
    · refine .of_eq (y := pure [.cycle (M.schema s).name])
        ((errorsWithin_succ ..).trans (if_pos hmem)) (ends_pure.mpr ⟨hM, ?_⟩)
      rw [if_pos hmem, h.name hM]
    · refine .of_eq ((errorsWithin_succ ..).trans (if_neg hmem)) ?_
      rw [if_neg hmem, h.fields hM]
      exact h.foldlM_fieldErrors hs (fun ht hN => ih hN ht (s :: path)) (List.Subset.refl _) [] hM

/-- All errors, each text once, are the problems. -/
theorem errors (h : Walkable codes L R J) (hM : J M) (hs : R s) :
    (errors s).Ends M fun res N => J N ∧ res = .ok (Error.distinct (L.problems s)) := by
  refine ends_map.mpr ((h.errorsWithin hM hs maxDepth []).mono fun res N hN => ?_)
  obtain ⟨hN, rfl⟩ := hN
  exact ⟨hN, rfl⟩

/-! ### Reading -/

/-- Reading a field tells whether a walk stops behind its key. -/
theorem parseField (h : Walkable codes L R J) (hM : J M) (hs : R s) {key : Text}
    (hkey : key ∈ (L.schema s).fields) {line : Text}
    {descend : SchemaId → UInt64 → Build Record} {measure : SchemaId → Build UInt64}
    (hdescend : ∀ {t M}, R t → J M → ∀ start, (descend t start).Ends M fun res N =>
      J N ∧ Tells (Error.Spares codes) (L.Clear room path t) res)
    (hmeasure : ∀ {t M}, R t → J M → L.Clear room path t → (measure t).Ends M fun res N =>
      J N ∧ ∃ total, res = .ok total) (reading : Reading) :
    (parseField descend measure line s reading key).Ends M fun res N =>
      J N ∧ Tells (Error.Spares codes) (L.ClearAt room path s key) res := by
  refine ends_bind.mpr ((h.field hM hs key).mono fun res N hN => ?_)
  obtain ⟨hN, hchild, havoids⟩ := hN
  cases res with
  | error e => exact ⟨hN, fun hclear => absurd hclear (not_clearAt hchild)⟩
  | ok f =>
    -- the measure comes after the record, so where it is asked for there is nothing to stop it
    have hinner (at' : Text) (t : SchemaId) (hf : f.schema? = some t) :
        (do
          let record ← descend t reading.cursor
          let width ← measure t
          return (reading.put at' (.record record)).skip width : Build Reading).Ends N
            fun res O => J O ∧ Tells (Error.Spares codes) (L.ClearAt room path s key) res := by
      have ht := h.child hs hkey hchild hf
      have hiff : L.Clear room path t ↔ L.ClearAt room path s key := clear_iff_clearAt hchild hf
      refine ends_bind.mpr ((hdescend ht hN reading.cursor).mono fun res O hO => ?_)
      obtain ⟨hO, htells⟩ := hO
      cases res with
      | error e => exact ⟨hO, htells.congr hiff⟩
      | ok record =>
        refine ends_bind.mpr ((hmeasure ht hO htells).mono fun res P hP => ?_)
        obtain ⟨hP, total, rfl⟩ := hP
        exact ends_pure.mpr ⟨hP, hiff.mp htells⟩
    cases f with
    | column c =>
      have hclear : L.ClearAt room path s key := clearAt_of_leaf hchild rfl
      dsimp only
      split
      · exact ends_pure.mpr ⟨hN, hclear⟩
      · refine ends_bind.mpr (ends_ofExcept.mpr ?_)
        cases hparse : c.parse (slotAt line reading.cursor c.width) with
        | ok value => exact ends_pure.mpr ⟨hN, hclear⟩
        | error e => exact ⟨hN, fun _ => (havoids c rfl).parse _ e hparse⟩
    | nested at' t => exact hinner at' t rfl
    | reference at' t => exact hinner at' t rfl

theorem parseWithin (h : Walkable codes L R J) (hM : J M) (hs : R s) (line : Text) (room : Nat)
    (path : List SchemaId) (start : UInt64) :
    (parseWithin line room path s start).Ends M fun res N =>
      J N ∧ Tells (Error.Spares codes) (L.Clear room path s) res := by
  induction room generalizing path s start M with
  | zero =>
    exact .of_eq (y := throw (M.blocked path s)) rfl
      (ends_throw.mpr ⟨hM, fun hclear => absurd hclear not_clear_zero⟩)
  | succ room ih =>
    by_cases hmem : s ∈ path
    · exact .of_eq (y := throw (.cycle (M.schema s).name))
        ((parseWithin_succ ..).trans (if_pos hmem))
        (ends_throw.mpr ⟨hM, fun hclear => absurd hmem (clear_succ_iff.mp hclear).1⟩)
    · refine .of_eq ((parseWithin_succ ..).trans (if_neg hmem)) ?_
      rw [h.fields hM]
      refine ends_map.mpr ((ends_foldlM_tells (Error.Spares codes) (L.ClearAt room (s :: path) s)
        _ _ hM fun reading key hkey N hN => ?_).mono fun res N hN => ?_)
      · exact h.parseField hN hs hkey (fun ht hO start => ih hO ht (s :: path) start)
          (fun ht hO hclear => h.width hO ht hclear) reading
      · exact ⟨hN.1, (hN.2.congr (clear_succ_iff.trans (and_iff_right hmem)).symm).map _⟩

/-- **Reading tells whether a walk stops anywhere.** -/
theorem parse (h : Walkable codes L R J) (hM : J M) (hs : R s) (line : Text) (start : UInt64) :
    (parse s line start).Ends M fun res N =>
      J N ∧ Tells (Error.Spares codes) (L.Clear maxDepth [] s) res :=
  h.parseWithin hM hs line maxDepth [] start

/-! ### Writing -/

theorem columnValue_code {schema : Text} {record : Record} {c : Codec} {e : Error}
    (h : columnValue schema record c = .error e) : e.code = .invalidArgument := by
  unfold columnValue at h
  split at h
  · exact absurd h nofun
  · split at h
    · exact absurd h nofun
    · split at h
      · exact absurd h nofun
      · exact absurd h nofun
      · exact absurd h nofun
      · exact Except.error.inj h ▸ rfl

theorem nestedRecord_code {schema key : Text} {record : Record} {e : Error}
    (h : nestedRecord schema record key = .error e) : e.code = .invalidArgument := by
  unfold nestedRecord at h
  split at h
  · exact absurd h nofun
  · exact absurd h nofun
  · exact absurd h nofun
  · exact Except.error.inj h ▸ rfl

/-- Writing a field tells whether a walk stops behind its key. -/
theorem formatField (h : Walkable codes L R J) (hM : J M) (hs : R s) {key : Text}
    (hkey : key ∈ (L.schema s).fields) {descend : SchemaId → Record → Build Text}
    (hdescend : ∀ {t M}, R t → J M → ∀ record, (descend t record).Ends M fun res N =>
      J N ∧ Tells (Error.Spares codes) (L.Clear room path t) res) (record : Record) :
    (formatField descend record s key).Ends M fun res N =>
      J N ∧ Tells (Error.Spares codes) (L.ClearAt room path s key) res := by
  refine ends_bind.mpr ((h.field hM hs key).mono fun res N hN => ?_)
  obtain ⟨hN, hchild, havoids⟩ := hN
  cases res with
  | error e => exact ⟨hN, fun hclear => absurd hclear (not_clearAt hchild)⟩
  | ok f =>
    -- a record that lacks what the field needs is refused before the walk goes on
    have hinner (at' : Text) (t : SchemaId) (hf : f.schema? = some t) :
        (do
          let node ← Build.schema s
          let inner ← Build.ofExcept (nestedRecord node.name record at')
          descend t inner : Build Text).Ends N
            fun res O => J O ∧ Tells (Error.Spares codes) (L.ClearAt room path s key) res := by
      have hiff : L.Clear room path t ↔ L.ClearAt room path s key := clear_iff_clearAt hchild hf
      refine ends_bind.mpr (ends_schema.mpr (ends_bind.mpr (ends_ofExcept.mpr ?_)))
      cases hinner : nestedRecord (N.schema s).name record at' with
      | error e =>
        exact ⟨hN, fun _ =>
          Error.spares_of_data h.structural (.inr (.inl (nestedRecord_code hinner)))⟩
      | ok inner =>
        exact (hdescend (h.child hs hkey hchild hf) hN inner).mono
          fun _ _ hO => ⟨hO.1, hO.2.congr hiff⟩
    cases f with
    | column c =>
      have hclear : L.ClearAt room path s key := clearAt_of_leaf hchild rfl
      refine ends_bind.mpr (ends_schema.mpr (ends_bind.mpr (ends_ofExcept.mpr ?_)))
      cases hvalue : columnValue (N.schema s).name record c with
      | error e =>
        exact ⟨hN, fun _ =>
          Error.spares_of_data h.structural (.inr (.inl (columnValue_code hvalue)))⟩
      | ok value =>
        refine ends_ofExcept.mpr ⟨hN, ?_⟩
        cases hformat : c.format value with
        | ok slot => exact hclear
        | error e => exact fun _ => (havoids c rfl).format _ e hformat
    | nested at' t => exact hinner at' t rfl
    | reference at' t => exact hinner at' t rfl

theorem formatWithin (h : Walkable codes L R J) (hM : J M) (hs : R s) (room : Nat)
    (path : List SchemaId) (record : Record) :
    (formatWithin room path s record).Ends M fun res N =>
      J N ∧ Tells (Error.Spares codes) (L.Clear room path s) res := by
  induction room generalizing path s record M with
  | zero =>
    exact .of_eq (y := throw (M.blocked path s)) rfl
      (ends_throw.mpr ⟨hM, fun hclear => absurd hclear not_clear_zero⟩)
  | succ room ih =>
    by_cases hmem : s ∈ path
    · exact .of_eq (y := throw (.cycle (M.schema s).name))
        ((formatWithin_succ ..).trans (if_pos hmem))
        (ends_throw.mpr ⟨hM, fun hclear => absurd hmem (clear_succ_iff.mp hclear).1⟩)
    · refine .of_eq ((formatWithin_succ ..).trans (if_neg hmem)) ?_
      rw [h.fields hM]
      refine (ends_foldlM_tells (Error.Spares codes) (L.ClearAt room (s :: path) s) _ _
        hM fun line key hkey N hN => ?_).mono fun res N hN => ?_
      · exact ends_map.mpr ((h.formatField hN hs hkey
          (fun ht hO record => ih hO ht (s :: path) record) record).mono
            fun _ _ hO => ⟨hO.1, hO.2.map _⟩)
      · exact ⟨hN.1, hN.2.congr (clear_succ_iff.trans (and_iff_right hmem)).symm⟩

/-- **Writing tells whether a walk stops anywhere.** -/
theorem format (h : Walkable codes L R J) (hM : J M) (hs : R s) (record : Record) :
    (format s record).Ends M fun res N =>
      J N ∧ Tells (Error.Spares codes) (L.Clear maxDepth [] s) res := by
  refine ends_bind.mpr ((h.formatWithin hM hs maxDepth [] record).mono fun res N hN => ?_)
  obtain ⟨hN, htells⟩ := hN
  cases res with
  | error e => exact ⟨hN, htells⟩
  | ok line =>
    refine ends_bind.mpr ((h.width hN hs htells).mono fun res O hO => ?_)
    obtain ⟨hO, total, rfl⟩ := hO
    dsimp only
    split
    · exact ends_pure.mpr ⟨hO, htells⟩
    · refine ends_bind.mpr (ends_schema.mpr (ends_throw.mpr ⟨hO, fun _ => ?_⟩))
      exact Error.spares_of_data h.structural (.inr (.inr rfl))

end Walkable

end Layout

end RecordLayout
