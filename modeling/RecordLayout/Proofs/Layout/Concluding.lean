import RecordLayout.Proofs.Layout.Touching

/-!
# What comes to an end

A set that is passed on to a target goes everywhere from there, round the cycles of references too.
It comes to an end if it equals itself; one with a NaN in it may be handed round for ever.  A lookup
that sets this off does not end then, and nothing goes on after it that has asked for the lookup:
neither a width, nor whether a line fits, nor the schema of a line.

Where no NaN has been propagated, no such set waits anywhere, and all of these come to an end.

## Main definitions

* `Layout.Concludes`: a computation that comes to an end by itself, where no NaN is passed on.

## Main results

* `Layout.concludes_widthWithin`: **widths come to an end**, if no NaN is passed on.
* `Layout.concludes_matchesLine`, `Layout.concludes_schemaOfLine`: so does what asks for them.
-/

namespace RecordLayout

namespace Layout

open Build

variable {L M : Layout} {s t : SchemaId} {line : Text}

/-! ### Computations that come to an end -/

/-- A computation that comes to an end by itself wherever sets that are passed on equal themselves,
and leaves a layout where they do. -/
def Concludes {α : Type} (x : Build α) : Prop :=
  ∀ L : Layout, L.WellMade → L.Selfsame → x.Ends L fun res M => M.WellMade ∧ M.Selfsame ∧ Halts res

namespace Concludes

variable {α β : Type}

theorem pure (a : α) : Concludes (pure a : Build α) := fun _ hL hsame => ⟨hL, hsame, halts_ok a⟩

theorem fail {f : Layout → Error} (hf : ∀ L, (f L).isEndless = false) :
    Concludes (fun L => .error (f L) L : Build α) := fun L hL hsame =>
  ⟨hL, hsame, halts_error (hf L)⟩

theorem bind {x : Build α} {f : α → Build β} (hx : Concludes x) (hf : ∀ a, Concludes (f a)) :
    Concludes (x >>= f) := by
  refine fun L hL hsame => ends_bind.mpr ((hx L hL hsame).mono ?_)
  rintro (e | a) M ⟨hM, hsameM, hhalts⟩
  · exact ⟨hM, hsameM, halts_error (hhalts e rfl)⟩
  · exact hf a M hM hsameM

theorem map {x : Build α} (hx : Concludes x) (f : α → β) : Concludes (f <$> x) := fun L hL hsame =>
  ends_map.mpr ((hx L hL hsame).mono fun _ _ hM => ⟨hM.1, hM.2.1, hM.2.2.map f⟩)

/-- An attempt recovers from all errors but those that do not end. -/
theorem attempt {x : Build α} (hx : Concludes x) : Concludes (attempt x) := by
  refine fun L hL hsame => ends_attempt.mpr ((hx L hL hsame).mono ?_)
  rintro (e | a) M ⟨hM, hsameM, hhalts⟩
  · rw [attempted_of_not_endless (hhalts e rfl)]
    exact ⟨hM, hsameM, halts_ok _⟩
  · exact ⟨hM, hsameM, halts_ok _⟩

theorem foldlM {f : β → α → Build β} (hf : ∀ b a, Concludes (f b a)) (l : List α) (b : β) :
    Concludes (l.foldlM f b) := by
  induction l generalizing b with
  | nil => exact .pure b
  | cons a l ih =>
    rw [List.foldlM_cons]
    exact (hf b a).bind ih

end Concludes

/-! ### Widths, and what asks for them -/

theorem concludes_field (s : SchemaId) (key : Text) : Concludes (field s key) := fun L hL hsame =>
  (((gentle_field s key L hL).and (selfsame_lasting.field s key L hsame)).and
    (field_roams hL hsame s key)).mono fun _ _ hM => ⟨hM.1.1.1.wellMade hL, hM.1.2, hM.2.1⟩

theorem concludes_fieldWidth {descend : SchemaId → Build UInt64}
    (hdescend : ∀ t, Concludes (descend t)) (s : SchemaId) (key : Text) :
    Concludes (fieldWidth descend s key) := by
  refine (concludes_field s key).bind fun f => ?_
  cases f with
  | column c => exact .pure c.width
  | nested _ t | reference _ t => exact hdescend t

/-- **Measuring a schema comes to an end by itself**, where sets that are passed on equal
themselves. -/
theorem concludes_widthWithin (room : Nat) (path : List SchemaId) (s : SchemaId) :
    Concludes (widthWithin room path s) := by
  induction room generalizing path s with
  | zero =>
    refine fun L hL hsame => ends_widthWithin (fun _ _ => ⟨hL, hsame, halts_ok _⟩)
      (fun _ _ => ⟨hL, hsame, halts_error ?_⟩) (fun _ h => absurd rfl h)
      fun _ d hd => absurd hd (by omega)
    unfold blocked
    split <;> rfl
  | succ room ih =>
    intro L hL hsame
    have hhalts : (widthWithin (room + 1) path s).Ends L fun res _ => Halts res := by
      refine ends_widthWithin (fun _ _ => halts_ok _)
        (fun _ h => absurd h (Nat.succ_ne_zero room)) (fun _ _ _ => halts_error rfl)
        fun _ d hd _ => ?_
      obtain rfl : room = d := by omega
      refine (Concludes.foldlM (fun total key =>
        (concludes_fieldWidth (ih (s :: path)) s key).map _) _ 0 L hL hsame).mono ?_
      rintro (e | total) M ⟨-, -, hhalts⟩
      · exact hhalts
      · exact halts_ok total
    exact (((gentle_widthWithin _ _ s L hL).and
      (selfsame_lasting.widthWithin _ _ s L hsame)).and hhalts).mono
        fun _ _ hM => ⟨hM.1.1.1.wellMade hL, hM.1.2, hM.2⟩

/-- Whether a line fits is found out, one way or the other. -/
theorem concludes_matchesLine (s : SchemaId) (line : Text) : Concludes (matchesLine s line) := by
  refine (concludes_widthWithin maxDepth [] s).attempt.bind fun total => ?_
  cases total with
  | error e => exact .pure false
  | ok total => exact fun L hL hsame => ends_bind.mpr (ends_schema.mpr ⟨hL, hsame, halts_ok _⟩)

theorem concludes_firstMatch (line : Text) (schemas : List SchemaId) :
    Concludes (firstMatch line schemas) := by
  induction schemas with
  | nil => exact .pure none
  | cons s schemas ih =>
    refine (concludes_matchesLine s line).bind fun fits => ?_
    cases fits with
    | true => exact .pure (some s)
    | false => exact ih

/-- The schema of a line is found, or it is said that there is none. -/
theorem concludes_schemaOfLine (c : CatalogId) (line : Text) : Concludes (schemaOfLine c line) := by
  have hschemas : Concludes (definitionSchemas c) := fun L hL hsame => ⟨hL, hsame, halts_ok _⟩
  refine hschemas.bind fun schemas => (concludes_firstMatch line schemas).bind fun found => ?_
  cases found with
  | some s => exact .pure s
  | none => exact .fail fun _ => rfl

end Layout

end RecordLayout
