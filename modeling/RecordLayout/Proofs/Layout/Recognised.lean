import RecordLayout.Proofs.Layout.Legible
import RecordLayout.Proofs.Layout.Matching
import RecordLayout.Proofs.Layout.Touching
import RecordLayout.Proofs.Layout.Walk
import RecordLayout.Proofs.Layout.Warm

/-!
# Lines that are recognised

A line that a schema has written is as wide as the schema, and white space that is taken off its end
makes it no wider.  The width was asked for when the line was written, so it is trusted; and schemas
that are tried before change nothing about that, although they may find targets, pass options on and
fail.  So a definition finds a schema for the line, at the latest the one that has written it,
unless one that is tried before is measured for ever: a set with a NaN in it that waits there may go
round a cycle as soon as the target is found.

The schema that is found has been measured, so all that it leads to is known, and reading the line
with it looks nothing up.

## Main definitions

* `Layout.SureFit`: a line that fits a schema, whatever is asked.

## Main results

* `Text.width_trimEnd_le`: a text without the end of it is no wider.
* `Layout.sureFit_of_format`: what a schema writes fits it.
* `Layout.firstMatch_of_sureFit`: a schema is found, at the latest one that is a sure fit.
* `Session.Reached.recognises`: **a definition recognises the lines that its schemas write**.
* `Session.schemaOfLine_endless`: a line whose schema is looked up for ever.
-/

namespace RecordLayout

/-! ### White space at the end -/

namespace Text

variable {s t : Text}

theorem trimEnd_isPrefix (p : UInt8 → Bool) (t : Text) : t.trimEnd p <+: t := by
  have hbegins := List.reverse_prefix.mpr (List.dropWhile_suffix (l := t.reverse) p)
  rwa [List.reverse_reverse] at hbegins

/-- The beginning of a text is no wider than the text. -/
theorem width_le_of_isPrefix (h : s <+: t) (hlen : t.length < 2 ^ 31) : s.width ≤ t.width := by
  obtain ⟨u, rfl⟩ := h
  have hsum : (s ++ u).length = s.length + u.length := List.length_append
  rw [width_of_lt (by omega), width_of_lt hlen, countFrom_append]
  exact Nat.le_add_right _ _

theorem width_trimEnd_le (p : UInt8 → Bool) (hlen : t.length < 2 ^ 31) :
    (t.trimEnd p).width ≤ t.width :=
  width_le_of_isPrefix (trimEnd_isPrefix p t) hlen

end Text

namespace Layout

open Build

variable {L M N : Layout} {s t : SchemaId} {line : Text} {o : Outline}

/-! ### Lines that are sure to fit -/

/-- A line fits a schema, whatever is asked: the width of the schema is trusted and wide enough, and
the line meets the schema's condition. -/
structure SureFit (L : Layout) (s : SchemaId) (line : Text) : Prop where
  trusts : L.Trusts s
  wide : ∀ o, L.Unfolds s o →
    (line.trimEnd Text.isWhite).width ≤ (UInt64.ofNat o.width).toNat
  condition : (L.schema s).condition?.all (· line) = true

/-- A line that is sure to fit is found to fit, and nothing changes. -/
theorem SureFit.matchesLine (h : L.SureFit s line) (hL : L.WellMade) :
    matchesLine s line L = .ok true L := by
  obtain ⟨total, htotal⟩ := Option.isSome_iff_exists.mp h.trusts
  obtain ⟨o, ho, -⟩ := hL.measured.unfolds htotal
  have hwidth : width s L = .ok (UInt64.ofNat o.width) L :=
    ho.measures hL.measured h.trusts maxDepth []
  rw [matchesLine_eq, hwidth]
  dsimp only
  rw [decide_eq_true (h.wide o ho), h.condition]
  rfl

/-- A line stays sure to fit when the layout goes on. -/
theorem SureFit.develop (h : L.SureFit s line) (hL : L.WellMade) (hLM : L.Develops M) :
    M.SureFit s line where
  trusts := hLM.trusts hL h.trusts
  wide p hp := by
    obtain ⟨total, htotal⟩ := Option.isSome_iff_exists.mp h.trusts
    obtain ⟨o, ho, -⟩ := hL.measured.unfolds htotal
    obtain ⟨q, hq, hoq⟩ := ho.follow (hLM.follows hL)
    rw [UnfoldsTo.unique hp hq, hoq.width_eq]
    exact h.wide o ho
  condition := by
    rw [((hLM.follows hL).schema s).condition]
    exact h.condition

/-- **What a schema writes fits it**, if it is short enough to be counted and meets the schema's
condition. -/
theorem sureFit_of_format (hL : L.WellMade) (hs : s < L.schemas.length) {record : Record}
    (hformat : format s record L = .ok line N) (hshort : line.length < 2 ^ 31)
    (hcondition : (L.schema s).condition?.all (· line) = true) :
    L.Develops N ∧ N.SureFit s line := by
  have hends : (format s record).Ends L fun res N => L.Develops N ∧ ∀ line, res = .ok line →
      N.Trusts s ∧ ∃ o, N.Unfolds s o ∧ line.width = (UInt64.ofNat o.width).toNat := by
    refine ends_bind.mpr ((gentle_pervasive.formatWithin maxDepth [] s record L hL).mono ?_)
    rintro (e | written) M ⟨hLM, -⟩
    · exact ⟨hLM, nofun⟩
    refine ends_bind.mpr ((width_ends s (hLM.wellMade hL)).mono ?_)
    rintro (e | total) N ⟨hMN, -, hweighed⟩
    · exact ⟨hLM.trans hMN, nofun⟩
    -- the width that was asked for last is the one that the line is compared with
    have hLN := hLM.trans hMN
    obtain ⟨o, ho, rfl, -, htrusts⟩ := hweighed total rfl
    dsimp only
    split
    · next hwidth =>
      refine ends_pure.mpr ⟨hLN, fun line hline => ?_⟩
      obtain rfl := Except.ok.inj hline
      exact ⟨htrusts ((hLN.follows hL).length ▸ hs), o, ho, hwidth⟩
    · exact ends_bind.mpr (ends_schema.mpr (ends_throw.mpr ⟨hLN, nofun⟩))
  obtain ⟨hLN, hwritten⟩ := hends.of_ok hformat
  obtain ⟨htrusts, o, ho, hwidth⟩ := hwritten line rfl
  refine ⟨hLN, htrusts, fun p hp => ?_, ?_⟩
  · rw [UnfoldsTo.unique hp ho, ← hwidth]
    exact Text.width_trimEnd_le _ hshort
  · rw [((hLN.follows hL).schema s).condition]
    exact hcondition

/-! ### The first schema that fits -/

/-- Schemas are tried one after the other. -/
theorem firstMatch_cons (line : Text) (t : SchemaId) (rest : List SchemaId) (L : Layout) :
    firstMatch line (t :: rest) L = match matchesLine t line L with
      | .ok true M => .ok (some t) M
      | .ok false M => firstMatch line rest M
      | .error e M => .error e M := by
  show EStateM.bind (matchesLine t line) _ L = _
  unfold EStateM.bind
  cases matchesLine t line L with
  | ok fits M => cases fits <;> rfl
  | error e M => rfl

/-- A schema that does not fit leaves the layout that it is asked about in. -/
theorem asked_matchesLine {fits : Bool} (h : matchesLine t line L = .ok fits M) :
    L.asked [.matchesLine t line] = M := by
  show (discard (matchesLine t line)).after L = M
  rw [show (discard (matchesLine t line)).after L = _ from after_map ..]
  unfold Build.after
  rw [h]

/-- There is no answer to whether a line fits only where this is asked for ever. -/
theorem isEndless_of_matchesLine {e : Error} (h : matchesLine t line L = .error e M) :
    e.isEndless = true :=
  (outcome_width_of_matchesLine (outcome_of_error h)).2

/-- **A schema is found, at the latest one that is a sure fit**: those before it are asked one after
the other until one fits, unless one of them is asked for ever. -/
theorem firstMatch_of_sureFit (hL : L.WellMade) (hfits : L.SureFit s line)
    (before after : List SchemaId) :
    (∃ e M, firstMatch line (before ++ s :: after) L = .error e M ∧ e.isEndless = true)
      ∨ ∃ earlier t M, earlier ++ [t] <+: before ++ [s]
        ∧ firstMatch line (before ++ s :: after) L = .ok (some t) M
        ∧ matchesLine t line (L.asked (earlier.map (.matchesLine · line))) = .ok true M := by
  induction before generalizing L with
  | nil =>
    have hmatches := hfits.matchesLine hL
    refine .inr ⟨[], s, L, List.prefix_rfl, ?_, hmatches⟩
    rw [List.nil_append, firstMatch_cons, hmatches]
  | cons u before ih =>
    have htry := firstMatch_cons line u (before ++ s :: after) L
    cases hmatches : matchesLine u line L with
    | error e M =>
      rw [hmatches] at htry
      exact .inl ⟨e, M, htry, isEndless_of_matchesLine hmatches⟩
    | ok fits M =>
      rw [hmatches] at htry
      cases fits with
      | true => exact .inr ⟨[], u, M, ⟨before ++ [s], rfl⟩, htry, hmatches⟩
      | false =>
        -- a schema that does not fit has been asked only, and the sure fit stays one
        obtain ⟨hLM, -⟩ := (gentle_pervasive.matchesLine u line L hL).of_ok hmatches
        rcases ih (hLM.wellMade hL) (hfits.develop hL hLM) with
          ⟨e, N, hfirst, hendless⟩ | ⟨earlier, t, N, hbegins, hfirst, hfound⟩
        · exact .inl ⟨e, N, htry.trans hfirst, hendless⟩
        · refine .inr ⟨u :: earlier, t, N, List.prefix_cons_inj u |>.mpr hbegins,
            htry.trans hfirst, ?_⟩
          rw [List.map_cons, ← List.singleton_append, asked_append, asked_matchesLine hmatches]
          exact hfound

/-- A schema that a line was found to fit is known from then on. -/
theorem unfolds_of_matchesLine (hL : L.WellMade) (h : matchesLine s line L = .ok true M) :
    M.WellMade ∧ ∃ o, M.Unfolds s o ∧ ∀ t ∈ o.schemas, M.Trusts t := by
  rw [matchesLine_eq] at h
  cases hwidth : width s L with
  | error e N =>
    simp only [hwidth] at h
    split at h <;> exact absurd h nofun
  | ok total N =>
    simp only [hwidth] at h
    obtain ⟨-, rfl⟩ := EStateM.Result.ok.inj h
    obtain ⟨hLM, -, hweighed⟩ := (width_ends s hL).of_ok hwidth
    obtain ⟨o, ho, -, htrusts, -⟩ := hweighed total rfl
    exact ⟨hLM.wellMade hL, o, ho, htrusts⟩

/-! ### Definitions -/

/-- A schema of a catalog is one of the layout. -/
theorem Coherent.lt_of_mem_schemas (hL : L.Coherent) {c : CatalogId}
    (h : s ∈ (L.catalog c).schemas) : s < L.schemas.length := by
  obtain ⟨e, he, hes⟩ := List.mem_filterMap.mp h
  exact hL.listed_lt c s (List.mem_map.mpr ⟨e, he, hes⟩)

theorem Develops.catalog_eq (hL : L.WellMade) (hLM : L.Develops M) (c : CatalogId) :
    M.catalog c = L.catalog c := by
  unfold catalog
  rw [(hLM.follows hL).catalogs]

/-- The schema of a line is the first that fits. -/
theorem schemaOfLine_eq {c : CatalogId}
    (h : firstMatch line (L.catalog c).schemas L = .ok (some t) M) :
    schemaOfLine c line L = .ok t M := by
  show EStateM.bind (firstMatch line (L.catalog c).schemas) _ L = _
  unfold EStateM.bind
  rw [h]
  rfl

/-- There is none if one of them is asked for ever. -/
theorem schemaOfLine_of_error {c : CatalogId} {e : Error}
    (h : firstMatch line (L.catalog c).schemas L = .error e M) :
    schemaOfLine c line L = .error e M := by
  show EStateM.bind (firstMatch line (L.catalog c).schemas) _ L = _
  unfold EStateM.bind
  rw [h]

/-- The record of a line is read with the schema of the line. -/
theorem recordOfLine_eq {c : CatalogId} (h : schemaOfLine c line L = .ok t M) :
    recordOfLine c line L = ((t, ·) <$> parse t line) M := by
  show EStateM.bind (schemaOfLine c line) _ L = EStateM.map _ (parse t line) M
  unfold EStateM.bind EStateM.map
  rw [h]
  show EStateM.bind (parse t line) _ M = _
  unfold EStateM.bind
  cases parse t line 0 M <;> rfl

/-- A line that has a schema which is known is not refused for anything that is not found, unless a
codec that is made elsewhere says so. -/
theorem Unfolds.of_notFound (hM : M.Measured) (ho : M.Unfolds t o)
    (htrusts : ∀ u ∈ o.schemas, M.Trusts u) {c : CatalogId}
    (hschema : schemaOfLine c line L = .ok t M) {e : Error}
    (he : (recordOfLine c line).outcome L = .error e) (hcode : e.code = .notFound) :
    ∃ codec : CustomCodec, .custom codec ∈ o.codecs ∧ ∃ slot, codec.parse slot = .error e := by
  have hreads : (recordOfLine c line).Ends L fun res _ => ∀ e, res = .error e →
      e.code = .schemaError ∨ ∃ codec ∈ o.codecs, ∃ slot, codec.parse slot = .error e := by
    unfold Ends
    rw [recordOfLine_eq hschema]
    exact Ends.mono ((ho.reads_parse hM htrusts line 0).map _) fun _ _ h => h.2
  obtain hdeep | ⟨codec, hcodec, slot, hslot⟩ := ends_iff.mp hreads e he
  · exact absurd (hdeep.symm.trans hcode) (by decide)
  · cases codec with
    | column column =>
      rcases Column.parse_code hslot with h | h <;> exact absurd (h.symm.trans hcode) (by decide)
    | custom codec => exact ⟨codec, hcodec, slot, hslot⟩

end Layout

namespace Session

open Layout Build

/-- **A definition recognises the lines that its schemas write.**  Right after a schema has written
a line that is short enough to be counted, and meets the schema's condition if it has one:

* A schema is found for the line, at the latest the one that has written it, unless the search goes
  on for ever.
* A record is read from the line with the schema that is found, all of which is known.
* If that says that something is not found, then a codec that is made elsewhere says so.
* If no NaN has been propagated, then the search comes to an end. -/
theorem Reached.recognises {S : Session} (hS : S.Reached Possible) {c : CatalogId}
    {before after : List SchemaId} {s : SchemaId} {record : Record} {line : Text} {N : Layout}
    (hlisted : (S.layout.catalog c).schemas = before ++ s :: after)
    (hformat : format s record S.layout = .ok line N) (hshort : line.length < 2 ^ 31)
    (hcondition : (S.layout.schema s).condition?.all (· line) = true) :
    (Halts ((schemaOfLine c line).outcome N) →
        ∃ t ∈ before ++ [s], ∃ M o, schemaOfLine c line N = .ok t M ∧ M.Unfolds t o
          ∧ recordOfLine c line N = ((t, ·) <$> parse t line) M
          ∧ ∀ e, (recordOfLine c line).outcome N = .error e → e.code = .notFound →
            ∃ codec : CustomCodec, .custom codec ∈ o.codecs ∧ ∃ slot, codec.parse slot = .error e)
      ∧ (S.Reached (fun S m => S.Possible m ∧ m.Proper) →
        Halts ((schemaOfLine c line).outcome N)) := by
  have hL := hS.sane.layout.wellMade
  have hs : s < S.layout.schemas.length :=
    hL.coherent.lt_of_mem_schemas (c := c) (by simp [hlisted])
  obtain ⟨hdevelops, hfits⟩ := sureFit_of_format hL hs hformat hshort hcondition
  have hN := hdevelops.wellMade hL
  have hsearch : (N.catalog c).schemas = before ++ s :: after := by
    rw [hdevelops.catalog_eq hL, hlisted]
  refine ⟨fun hhalts => ?_, fun hproper => ?_⟩
  · have hfirst := firstMatch_of_sureFit hN hfits before after
    rw [← hsearch] at hfirst
    rcases hfirst with ⟨e, M, hfirst, hendless⟩ | ⟨earlier, t, M, hbegins, hfirst, hmatches⟩
    · have hfails := hhalts e (outcome_of_error (schemaOfLine_of_error hfirst))
      exact absurd hendless (by simp [hfails])
    have hschema : schemaOfLine c line N = .ok t M := schemaOfLine_eq hfirst
    -- when the line is read, the schema that fits has just been measured
    obtain ⟨hK, -⟩ := asked_develops hN (earlier.map (.matchesLine · line))
    obtain ⟨hM, o, ho, htrusts⟩ := unfolds_of_matchesLine (hK.wellMade hN) hmatches
    exact ⟨t, hbegins.subset (by simp), M, o, hschema, ho, recordOfLine_eq hschema,
      fun e => ho.of_notFound hM.measured htrusts hschema⟩
  · have hsame : N.Selfsame := by
      have hends := selfsame_lasting.pervasive.format s record S.layout hproper.selfsame
      exact hends.of_ok hformat
    exact (ends_iff.mp (concludes_schemaOfLine c line N hN hsame)).2.2

/-- A definition with a schema of one column, one with a reference that leads nowhere, one that has
a column and a reference to the first, and a wide one. -/
def registry : Session :=
  [ .addDefinition "catalog" .empty,
    .addSchema 0 "part" .empty,
    .addSchema 0 "broken" .empty,
    .addSchema 0 "row" .empty,
    .addSchema 0 "wide" .empty,
    .declare 0 (.column "code" 2 .empty),
    .declare 1 (.reference "absent" "" .empty),
    .declare 2 (.column "first" 3 .empty),
    .declare 2 (.reference "part" "" .empty),
    .declare 3 (.column "all" 9 .empty)].foldl step ⟨[], .empty⟩

theorem reached_registry : registry.Reached fun S m => S.Possible m ∧ m.Proper :=
  Reached.start.moves ⟨⟨trivial, trivial⟩,
    ⟨show 0 < List.length _ by decide, trivial⟩,
    ⟨show 0 < List.length _ by decide, trivial⟩,
    ⟨show 0 < List.length _ by decide, trivial⟩,
    ⟨show 0 < List.length _ by decide, trivial⟩,
    ⟨⟨by decide, trivial⟩, trivial⟩, ⟨⟨by decide, trivial⟩, trivial⟩,
    ⟨⟨by decide, trivial⟩, trivial⟩, ⟨⟨by decide, trivial⟩, trivial⟩,
    ⟨⟨by decide, trivial⟩, trivial⟩, trivial⟩

/-- A record of the third schema, and the line for it. -/
def registered : Record := [("first", .text "x"), ("part", .record [("code", .text "yz")])]

/-- The layout after the line has been written. -/
def writtenRegistry : Layout := (format 2 registered).after registry.layout

theorem format_registry : format 2 registered registry.layout = .ok "  xyz" writtenRegistry :=
  ok_of_gives (by decide +kernel)

/-- The line that the third schema has written is too wide for the first, and the second has no
width; so it is read with the third. -/
theorem recognises_registry : ∃ M, schemaOfLine 0 "  xyz" writtenRegistry = .ok 2 M
    ∧ recordOfLine 0 "  xyz" writtenRegistry = ((2, ·) <$> parse 2 "  xyz") M := by
  have hlisted : (registry.layout.catalog 0).schemas = [0, 1] ++ 2 :: [3] := by decide
  obtain ⟨hfound, hhalts⟩ := (reached_registry.mono fun _ _ h => h.1).recognises hlisted
    format_registry (by decide) (by decide)
  obtain ⟨t, -, M, o, hschema, -, hrecord, -⟩ := hfound (hhalts reached_registry)
  have hthird : schemaOfLine 0 "  xyz" writtenRegistry = .ok 2 _ := ok_of_gives (by decide +kernel)
  obtain ⟨rfl, -⟩ := EStateM.Result.ok.inj (hschema.symm.trans hthird)
  exact ⟨M, hschema, hrecord⟩

/-! ### A line that is looked up for ever -/

/-- A definition whose first schema has a reference to the third, which refers to itself; and a set
that equals nothing waits at that reference. -/
def snare : Session :=
  [ .addDefinition "catalog" .empty,
    .addSchema 0 "early" .empty,
    .addSchema 0 "row" .empty,
    .addSchema 0 "knot" .empty,
    .declare 0 (.reference "knot" "" .empty),
    .declare 1 (.column "code" 2 .empty),
    .declare 2 (.reference "knot" "itself" .empty),
    .ask (.field 2 "itself"),
    .propagate unequal 0].foldl step ⟨[], .empty⟩

/-- A record of the second schema. -/
def snared : Record := [("code", .text "ab")]

/-- The layout after the line for it has been written. -/
def writtenSnare : Layout := (format 1 snared).after snare.layout

theorem reached_snare : snare.Reached Possible :=
  Reached.start.moves ⟨trivial, show 0 < List.length _ by decide,
    show 0 < List.length _ by decide, show 0 < List.length _ by decide,
    ⟨by decide, trivial⟩, ⟨by decide, trivial⟩, ⟨by decide, trivial⟩,
    trivial, show 0 < List.length _ by decide, trivial⟩

/-- **A line that is looked up for ever.**  The second schema has written it; the first one is tried
before, and the set that waits there goes round the third as soon as that is found: no depth is
enough. -/
theorem schemaOfLine_endless : snare.Reached Possible
    ∧ (snare.layout.catalog 0).schemas = [0] ++ 1 :: [2]
    ∧ format 1 snared snare.layout = .ok "ab" writtenSnare
    ∧ (Text.ofString "ab").length < 2 ^ 31
    ∧ (snare.layout.schema 1).condition?.isNone = true
    ∧ (∃ name, (schemaOfLine 0 "ab").outcome writtenSnare = .error (.endlessPropagation name))
    ∧ ∀ depth, ∃ name, (propagateWithin depth unequal 2).outcome writtenSnare
        = .error (.endlessPropagation name) := by
  have hcircling : writtenSnare.Circling unequal (· = 2) := by
    have hfields : (writtenSnare.schema 2).fields = ["itself"] := by decide +kernel
    have hfield : (writtenSnare.known? 2 "itself").bind Field.schema? = some 2 := by decide +kernel
    obtain ⟨f, hf, hft⟩ := Option.bind_eq_some_iff.mp hfield
    refine ⟨?_, ?_⟩
    · rintro s rfl
      exact ignores_unequal (by decide +kernel)
    · rintro s rfl
      exact ⟨_, [], f, 2, hfields, hf, hft, rfl⟩
  have hsearch : (match (schemaOfLine 0 "ab").outcome writtenSnare with
      | .error (.endlessPropagation _) => true
      | _ => false) = true := by decide +kernel
  refine ⟨reached_snare, by decide, ok_of_gives (by decide +kernel), by decide,
    by decide, ?_, fun depth => ?_⟩
  · split at hsearch
    · next name hendless => exact ⟨name, hendless⟩
    · exact absurd hsearch nofun
  · exact ends_iff.mp (propagateWithin_endless equal_unequal hcircling rfl depth)

end Session

end RecordLayout
