import RecordLayout.Proofs.Layout.Sliding
import RecordLayout.Proofs.Text.Seams

/-!
# Positions that do not fit a word

Reading counts positions in 64-bit words, and so are widths added up; neither is checked.  Columns
may be as wide as half of what a word holds, and reading may start anywhere, so that a column may
begin at a position that is not held by a word.  It is then read from the position modulo `2 ^ 64`,
which may be inside the line, before the start, or in a slot that has been read already.

As long as that does not happen, reading goes forward: the slots are the bytes between the exact
positions, one after the other, and those behind the end of the line are empty.

## Main definitions

* `Outline.places`: the columns that are read, with their exact positions.
* `Outline.ReadsForward`: no slot is before the start or over another one, and those behind the
  line are empty.

## Main results

* `Outline.readsForward`: **outlines read forward**, if no column behind the line is taken for one
  inside it.
* `Session.Reached.parse_wordWindow`: **what a validated schema reads, for all positions**.
* `Session.not_readsForward_pair`: two columns of which one is read from before the start.
-/

namespace RecordLayout

open Text Text.Owed Layout

namespace Outline

/-- The columns that are read, with their positions counted in characters. -/
def places : Outline → Nat → List (Codec × Nat)
  | done, _ => []
  | column c rest, start =>
    if c.isFiller then rest.places (start + c.width.toNat)
    else (c, start) :: rest.places (start + c.width.toNat)
  | branch _ _ _ inner rest, start => inner.places start ++ rest.places (start + inner.width)

/-- What is read depends on the slots at the places only. -/
theorem itemsBy_congr {o : Outline} {slot slot' : Nat → Nat → Text} {start : Nat}
    (h : ∀ e ∈ o.places start, slot e.2 e.1.width.toNat = slot' e.2 e.1.width.toNat) :
    o.itemsBy slot start = o.itemsBy slot' start := by
  induction o generalizing start with
  | done => rfl
  | column c rest ih =>
    rw [places] at h
    rw [itemsBy, itemsBy]
    cases hfiller : c.isFiller with
    | true =>
      rw [hfiller] at h
      rw [if_pos rfl, if_pos rfl, ih h]
    | false =>
      rw [hfiller] at h
      obtain ⟨hslot, hrest⟩ := List.forall_mem_cons.mp h
      rw [hslot, ih hrest]
  | branch key t inside inner rest ihinner ihrest =>
    obtain ⟨hinner, hrest⟩ := List.forall_mem_append.mp h
    rw [itemsBy, itemsBy, ihinner hinner, ihrest hrest]

/-- Places lie inside the window of the outline. -/
theorem mem_places {o : Outline} {start : Nat} {e : Codec × Nat} (he : e ∈ o.places start) :
    start ≤ e.2 ∧ e.2 + e.1.width.toNat ≤ start + o.width := by
  induction o generalizing start with
  | done => exact absurd he (by simp [places])
  | column c rest ih =>
    have hrest (he : e ∈ rest.places (start + c.width.toNat)) :
        start ≤ e.2 ∧ e.2 + e.1.width.toNat ≤ start + (c.width.toNat + rest.width) := by
      have hmore := ih he
      omega
    rw [places] at he
    rw [width]
    cases hfiller : c.isFiller with
    | true =>
      rw [hfiller] at he
      exact hrest he
    | false =>
      rw [hfiller] at he
      rcases List.mem_cons.mp he with rfl | he
      · exact ⟨Nat.le_refl _, by dsimp only; omega⟩
      · exact hrest he
  | branch key t inside inner rest ihinner ihrest =>
    rw [width]
    rcases List.mem_append.mp he with he | he
    · have hinner := ihinner he
      omega
    · have hrest := ihrest he
      omega

/-- **No place is over another one.** -/
theorem places_apart (o : Outline) (start : Nat) :
    (o.places start).Pairwise fun d e => d.2 + d.1.width.toNat ≤ e.2 := by
  induction o generalizing start with
  | done => exact .nil
  | column c rest ih =>
    rw [places]
    split
    · exact ih _
    · exact .cons (fun e he => (mem_places he).1) (ih _)
  | branch key t inside inner rest ihinner ihrest =>
    refine List.pairwise_append.mpr ⟨ihinner start, ihrest _, fun d hd e he => ?_⟩
    exact Nat.le_trans (mem_places hd).2 (mem_places he).1

/-- Reading goes forward: a column behind the last character is given an empty slot, and every slot
holds the bytes at its exact place, none of them before the start and none of them in two slots. -/
structure ReadsForward (o : Outline) (line : Text) (start : Nat) : Prop where
  empty : ∀ e ∈ o.places start, countFrom nothing line ≤ e.2 →
    line.wordWindow e.2 e.1.width.toNat = []
  slot : ∀ e ∈ o.places start, line.wordWindow e.2 e.1.width.toNat
    = (line.drop (line.offset e.2)).take
      (line.offset (e.2 + e.1.width.toNat) - line.offset e.2)
  behind : ∀ e ∈ o.places start, line.offset start ≤ line.offset e.2
  apart : (o.places start).Pairwise fun d e =>
    line.offset (d.2 + d.1.width.toNat) ≤ line.offset e.2

/-- **Outlines read forward**, and what is read is what is at the exact positions, if no column
behind the line is taken for one inside it. -/
theorem readsForward {o : Outline} {line : Text} {start : Nat}
    (h : ∀ e ∈ o.places start, line.width ≤ e.2 → line.width ≤ e.2 % 2 ^ 64) :
    o.ReadsForward line start ∧ o.itemsBy line.wordWindow start = o.items line start := by
  have hexact (e : Codec × Nat) (he : e ∈ o.places start) :
      line.wordWindow e.2 e.1.width.toNat = line.window e.2 e.1.width.toNat := by
    rcases Nat.lt_or_ge e.2 line.width with hlt | hge
    · have hshort := line.width_lt
      rw [wordWindow, Nat.mod_eq_of_lt (by omega)]
    · rw [wordWindow, window_eq_nil (h e he hge), window_eq_nil hge]
  refine ⟨⟨fun e he hcount => ?_, fun e he => ?_, fun e he => ?_, ?_⟩, itemsBy_congr hexact⟩
  · rw [hexact e he]
    exact window_eq_nil (Nat.le_trans line.width_le_countFrom hcount) _
  · rw [hexact e he]
    exact line.window_eq_take_drop _ _
  · exact line.offset_mono (mem_places he).1
  · exact (o.places_apart start).imp fun hle => line.offset_mono hle

/-- Where all positions fit a word, no column is taken for another place. -/
theorem lt_of_mem_places {o : Outline} {start : Nat} (hfits : start + o.width < 2 ^ 64)
    {e : Codec × Nat} (he : e ∈ o.places start) {n : Nat} (h : n ≤ e.2) : n ≤ e.2 % 2 ^ 64 := by
  have hplace := (mem_places he).2
  rwa [Nat.mod_eq_of_lt (by omega)]

end Outline

namespace Session

open Build

/-- **What a validated schema reads, for all positions.**  A schema that has been validated has as
its width the sum of its columns modulo `2 ^ 64`, and reads every column from its exact position
modulo `2 ^ 64`, whatever the line and the start.  So a column is given an empty slot exactly if
that is behind the line; and reading goes forward, if no column behind the line is taken for one
inside it. -/
theorem Reached.parse_wordWindow {S : Session} (hS : S.Reached Possible) {s : SchemaId}
    (hs : s < S.layout.schemas.length) {M N : Layout} (hvalid : validate s S.layout = .ok () M)
    (hMN : M.Develops N) :
    ∃ o, N.Unfolds s o
      ∧ (∃ total : UInt64, width s N = .ok total N ∧ total.toNat = o.width % 2 ^ 64)
      ∧ ∀ (line : Text) (start : UInt64),
        parse s line start N = Build.ofExcept ((o.itemsBy line.wordWindow start.toNat).map gather) N
        ∧ (∀ e ∈ o.places start.toNat, e.1.width ≠ 0 →
          (line.wordWindow e.2 e.1.width.toNat = [] ↔ line.width ≤ e.2 % 2 ^ 64))
        ∧ ((∀ e ∈ o.places start.toNat, line.width ≤ e.2 → line.width ≤ e.2 % 2 ^ 64) →
          o.ReadsForward line start.toNat
          ∧ parse s line start N
            = Build.ofExcept ((o.items line start.toNat).map gather) N) := by
  obtain ⟨-, p, hp⟩ := validate_ok hS.sane.layout.wellMade hs hvalid
  obtain ⟨o, ho, -⟩ := hp.develop hMN
  refine ⟨o, ho.unfolds, ⟨_, ho.yields_width, UInt64.toNat_ofNat'⟩, fun line start => ?_⟩
  have hparse := ho.reports_parse_word line start
  refine ⟨hparse, fun e _ hwidth => ?_, fun hplaces => ?_⟩
  · refine line.window_eq_nil_iff _ fun hzero => hwidth (UInt64.toNat_inj.mp hzero)
  · obtain ⟨hforward, hitems⟩ := Outline.readsForward hplaces
    exact ⟨hforward, hparse.trans (by rw [hitems])⟩

/-! ### Two columns -/

/-- A schema with two columns of one character. -/
def pair : Session :=
  [.createSchema .detached "row" .empty,
    .declare 0 (.column "a" 1 .empty),
    .declare 0 (.column "b" 1 .empty)].foldl step ⟨[], .empty⟩

/-- Its layout after it has been validated. -/
def validatedPair : Layout := (validate 0).after pair.layout

theorem reached_pair : pair.Reached Possible :=
  Reached.start.moves ⟨trivial, ⟨show 0 < List.length _ by decide, trivial⟩,
    ⟨show 0 < List.length _ by decide, trivial⟩, trivial⟩

theorem validate_pair : validate 0 pair.layout = .ok () validatedPair :=
  ok_of_gives (by decide +kernel)

/-- The width of a field, if it is a column that is read. -/
def slotWidth? : Option Field → Option UInt64
  | some (.column c) => if c.isFiller then none else some c.width
  | _ => none

theorem column_of_slotWidth? {f? : Option Field} {width : UInt64} (h : slotWidth? f? = some width) :
    ∃ c, f? = some (.column c) ∧ c.isFiller = false ∧ c.width = width := by
  unfold slotWidth? at h
  split at h
  · next c =>
    split at h
    · exact absurd h nofun
    · next hfiller => exact ⟨c, rfl, by simpa using hfiller, Option.some.inj h⟩
  · exact absurd h nofun

/-- The outline of the two columns. -/
theorem unfolds_validatedPair : ∃ a b : Codec, a.isFiller = false ∧ a.width = 1
    ∧ b.isFiller = false ∧ b.width = 1
    ∧ validatedPair.Unfolds 0 (.column a (.column b .done)) := by
  have hslot : slotWidth? (validatedPair.known? 0 "a") = some 1 := by decide +kernel
  have hslot' : slotWidth? (validatedPair.known? 0 "b") = some 1 := by decide +kernel
  obtain ⟨a, hfirst, hfiller, hwidth⟩ := column_of_slotWidth? hslot
  obtain ⟨b, hsecond, hfiller', hwidth'⟩ := column_of_slotWidth? hslot'
  refine ⟨a, b, hfiller, hwidth, hfiller', hwidth', ?_⟩
  have hfields : (validatedPair.schema 0).fields = [Text.ofString "a", Text.ofString "b"] := by
    decide +kernel
  unfold Unfolds
  rw [hfields]
  exact .column hfirst (.column hsecond (.nil 0))

/-- Their places. -/
theorem places_pair {a b : Codec} (ha : a.isFiller = false ∧ a.width = 1)
    (hb : b.isFiller = false ∧ b.width = 1) (start : Nat) :
    (Outline.column a (.column b .done)).places start = [(a, start), (b, start + 1)] := by
  simp [Outline.places, ha, hb]

/-- The two columns are read forward from the second character on: the second one has nothing to
read. -/
theorem parse_wordWindow_pair : validate 0 pair.layout = .ok () validatedPair
    ∧ (∃ total : UInt64, width 0 validatedPair = .ok total validatedPair ∧ total.toNat = 2)
    ∧ ∃ o, validatedPair.Unfolds 0 o ∧ o.ReadsForward "xy" 1
      ∧ ∃ e ∈ o.places 1, e.2 = 2 ∧ Text.wordWindow "xy" e.2 e.1.width.toNat = [] := by
  obtain ⟨a, b, ha, hwa, hb, hwb, hexpected⟩ := unfolds_validatedPair
  obtain ⟨o, ho, ⟨total, htotal, hsum⟩, hparse⟩ := reached_pair.parse_wordWindow (s := 0)
    (show 0 < List.length _ by decide) validate_pair (.refl _)
  obtain rfl := UnfoldsTo.unique ho hexpected
  have hwidth : (Outline.column a (.column b .done)).width = 2 := by
    simp [Outline.width, hwa, hwb]
  obtain ⟨-, hempty, hforward⟩ := hparse "xy" 1
  have hplaces := places_pair ⟨ha, hwa⟩ ⟨hb, hwb⟩ 1
  refine ⟨validate_pair, ⟨total, htotal, by rw [hsum, hwidth]; rfl⟩, _, ho, ?_, ?_⟩
  · exact (hforward fun e he hbehind => Outline.lt_of_mem_places
      (by rw [hwidth]; decide) he hbehind).1
  · have hmem : (b, 2) ∈ (Outline.column a (.column b .done)).places (1 : UInt64).toNat := by
      show (b, 2) ∈ Outline.places _ 1
      rw [hplaces]
      simp
    have hbehind : Text.width "xy" ≤ 2 % 2 ^ 64 := by decide
    exact ⟨(b, 2), hmem, rfl, (hempty _ hmem (by rw [hwb]; decide)).mpr hbehind⟩

/-- The second column of a record that was read, as a text. -/
def secondText (r : Except Error Record) : Option Text :=
  r.toOption.bind fun r => (r.find? "b").bind Value.text?

/-- Read from the last position that fits a word, the second column begins behind the line, and
holds its first character, which is before the start. -/
theorem not_readsForward_pair : pair.Reached Possible
    ∧ validate 0 pair.layout = .ok () validatedPair
    ∧ secondText ((parse 0 "xy" 18446744073709551615).outcome validatedPair) = some "x"
    ∧ ∃ o, validatedPair.Unfolds 0 o
      ∧ (∃ e ∈ o.places 18446744073709551615, countFrom nothing "xy" ≤ e.2
        ∧ Text.wordWindow "xy" e.2 e.1.width.toNat = "x")
      ∧ ¬ o.ReadsForward "xy" 18446744073709551615 := by
  obtain ⟨a, b, ha, hwa, hb, hwb, hexpected⟩ := unfolds_validatedPair
  have hplaces := places_pair ⟨ha, hwa⟩ ⟨hb, hwb⟩ 18446744073709551615
  have hmem : (b, 18446744073709551616)
      ∈ (Outline.column a (.column b .done)).places 18446744073709551615 := by
    rw [hplaces]
    simp
  have hslot : Text.wordWindow "xy" 18446744073709551616 b.width.toNat = "x" := by
    rw [hwb]
    decide
  have hbehind : countFrom nothing "xy" ≤ 18446744073709551616 := by decide
  refine ⟨reached_pair, validate_pair, by decide +kernel, _, hexpected,
    ⟨_, hmem, hbehind, hslot⟩, fun hforward => ?_⟩
  have hnil := hforward.empty _ hmem hbehind
  rw [hslot] at hnil
  exact absurd hnil (by decide)

end Session

end RecordLayout
