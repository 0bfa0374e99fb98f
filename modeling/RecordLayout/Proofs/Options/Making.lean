import RecordLayout.Proofs.Options.Merging

/-!
# What is in a table that is made

A table is made of the options that are given: what is given is brought into form and is the owner's
own, and the other options have their defaults.  When such a table inherits from another one, what
the other defines comes between the two.

## Main results

* `OptionSchema.exists_createTable`: what has to be given for a table to be made.
* `OptionTable.find?_createTable`: **the slots of a table that is made**.
* `OptionTable.find?_merge`: **the slots of such a table once it has inherited**.
-/

namespace RecordLayout

namespace OptionSchema

variable {s : OptionSchema} {slots slots' : NameMap Slot}

theorem find?_place {option : Text × Value} (h : s.place slots option = .ok slots') (key : Text) :
    slots'.find? key = (if option.1 = key ∧ option.2.isNull = false then
        (s.find? key).map fun spec => ⟨spec.transform option.2, .explicit⟩
      else Option.none).or (slots.find? key) := by
  unfold place at h
  split at h
  · next spec hspec =>
    split at h
    · next hnull =>
      rw [if_neg (by simp [hnull])]
      exact Except.ok.inj h ▸ rfl
    · next hvalue =>
      obtain ⟨v, hv, rfl⟩ := Success.of_map h
      obtain ⟨rfl, -⟩ := (s.normalize_eq_ok_iff spec option.2 v).mp hv
      show (slots.insert option.1 _).find? key = _
      rw [NameMap.find?_insert]
      by_cases hkey : option.1 = key
      · subst hkey
        rw [if_pos rfl, if_pos ⟨rfl, Bool.eq_false_iff.mpr hvalue⟩, hspec]
        rfl
      · rw [if_neg (Ne.symm hkey), if_neg fun h => hkey h.1]
        rfl
  · exact absurd h (by simp)

/-- Each name is given once, so what is placed under it stays. -/
theorem find?_foldlM_place {l : List (Text × Value)} (hl : (Listing.names l).Nodup)
    (h : l.foldlM s.place slots = .ok slots') (key : Text) :
    slots'.find? key = (((Listing.find? l key).filter (!·.isNull)).bind fun value =>
        (s.find? key).map fun spec => ⟨spec.transform value, .explicit⟩).or (slots.find? key) := by
  induction l generalizing slots with
  | nil => exact Except.ok.inj h ▸ rfl
  | cons option l ih =>
    rw [List.foldlM_cons] at h
    obtain ⟨mid, hmid, hrest⟩ := Success.of_bind h
    obtain ⟨hfresh, hnodup⟩ := List.nodup_cons.mp hl
    rw [ih hnodup hrest, find?_place hmid, Listing.find?_cons]
    by_cases hkey : option.1 = key
    · subst hkey
      rw [(Listing.find?_eq_none_iff l option.1).mpr hfresh, if_pos rfl]
      cases hnull : option.2.isNull <;> simp [Option.filter, hnull]
    · rw [if_neg hkey, if_neg fun h => hkey h.1]
      rfl

theorem find?_fill {spec : OptionSpec} (h : s.fill slots spec = .ok slots') (key : Text) :
    slots'.find? key = (slots.find? key).or
      (if spec.name = key then spec.default?.map (⟨·, .default⟩) else Option.none) := by
  unfold fill at h
  split at h
  · next hthere =>
    obtain ⟨slot, hslot⟩ := Option.isSome_iff_exists.mp hthere
    obtain rfl := Except.ok.inj h
    split
    · next hkey =>
      rw [← hkey, show slots.find? spec.name = some slot from hslot]
      rfl
    · rw [Option.or_none]
  · next habsent =>
    split at h
    · exact absurd h (by simp)
    · split at h
      · next value hvalue =>
        rw [← Except.ok.inj h]
        show (slots.insert spec.name _).find? key = _
        rw [NameMap.find?_insert, hvalue]
        by_cases hkey : key = spec.name
        · have hnone : slots.find? key = Option.none := by
            rw [hkey]
            exact Option.not_isSome_iff_eq_none.mp habsent
          rw [if_pos hkey, if_pos hkey.symm, hnone]
          rfl
        · rw [if_neg hkey, if_neg (Ne.symm hkey), Option.or_none]
      · next hnone =>
        rw [Except.ok.inj h, hnone]
        split <;> simp

/-- Each option is declared once, so it has the default of its declaration. -/
theorem find?_foldlM_fill {specs : List OptionSpec} (hspecs : (specs.map (·.name)).Nodup)
    (h : specs.foldlM s.fill slots = .ok slots') (key : Text) :
    slots'.find? key = (slots.find? key).or
      ((specs.find? fun spec => spec.name = key).bind (·.default?.map (⟨·, .default⟩))) := by
  induction specs generalizing slots with
  | nil =>
    rw [Except.ok.inj h]
    simp
  | cons spec specs ih =>
    rw [List.foldlM_cons] at h
    obtain ⟨mid, hmid, hrest⟩ := Success.of_bind h
    obtain ⟨hfresh, hnodup⟩ := List.nodup_cons.mp hspecs
    rw [ih hnodup hrest, find?_fill hmid]
    by_cases hkey : spec.name = key
    · -- no other option is declared under this name
      have hnone : (specs.find? fun other => other.name = key) = Option.none := by
        refine List.find?_eq_none.mpr fun other hother hname => hfresh ?_
        exact List.mem_map.mpr ⟨other, hother, (of_decide_eq_true hname).trans hkey.symm⟩
      rw [if_pos hkey, hnone, List.find?_cons_of_pos (by simpa using hkey)]
      simp
    · rw [if_neg hkey, List.find?_cons_of_neg (by simpa using hkey), Option.or_none]

/-! ### Tables that can be made -/

theorem exists_foldlM_place {l : List (Text × Value)}
    (h : ∀ e ∈ l, ∃ spec, s.find? e.1 = some spec
      ∧ (e.2.isNull = false → spec.accepts (spec.transform e.2) = true)) :
    ∃ slots', l.foldlM s.place slots = .ok slots' := by
  have hplaces := Success.foldlM_succeeds (I := fun _ => True) (f := s.place) (l := l) (b := slots)
    (fun e he slots _ => ?_) trivial
  · exact hplaces.imp fun _ h => h.1
  obtain ⟨spec, hspec, haccepts⟩ := h e he
  unfold place
  rw [hspec]
  cases hnull : e.2.isNull with
  | true => exact ⟨slots, rfl, trivial⟩
  | false =>
    have hvalue := (s.normalize_eq_ok_iff spec e.2 _).mpr ⟨rfl, haccepts hnull⟩
    refine ⟨slots.insert e.1 ⟨spec.transform e.2, .explicit⟩, ?_, trivial⟩
    simp [hvalue, Except.map]

theorem exists_foldlM_fill {specs : List OptionSpec}
    (h : ∀ spec ∈ specs, spec.required = true → slots.contains spec.name = true) :
    ∃ slots', specs.foldlM s.fill slots = .ok slots' := by
  have hfills := Success.foldlM_succeeds (f := s.fill) (b := slots) (l := specs)
    (I := fun slots => ∀ spec ∈ specs, spec.required = true → slots.contains spec.name = true)
    (fun spec hspec slots hslots => ?_) h
  · exact hfills.imp fun _ h => h.1
  cases hfill : s.fill slots spec with
  | ok slots' =>
    refine ⟨slots', rfl, fun other hother hrequired => ?_⟩
    have hkept := hslots other hother hrequired
    unfold NameMap.contains at hkept ⊢
    rw [find?_fill hfill, Option.isSome_or, hkept, Bool.true_or]
  | error e =>
    -- only an option that is required and is not there is missed
    unfold fill at hfill
    split at hfill
    · exact absurd hfill nofun
    · next habsent =>
      split at hfill
      · next hrequired => exact absurd (hslots spec hspec hrequired) habsent
      · split at hfill <;> exact absurd hfill nofun

/-- **A table is made** if all that is given is declared and accepted, and all that is required is
given. -/
theorem exists_createTable (hs : s.Distinct) {provided : OptionMap}
    (hgiven : ∀ e ∈ provided.entries, ∃ spec, s.find? e.1 = some spec
      ∧ (e.2.isNull = false → spec.accepts (spec.transform e.2) = true))
    (hrequired : ∀ spec ∈ s.specs, spec.required = true →
      (provided.given? spec.name).isSome = true) : ∃ t, s.createTable provided = .ok t := by
  obtain ⟨given, hplaced⟩ : ∃ given, provided.entries.foldlM s.place .empty = .ok given :=
    exists_foldlM_place hgiven
  obtain ⟨slots, hfilled⟩ : ∃ slots, s.specs.foldlM s.fill given = .ok slots := by
    refine exists_foldlM_fill fun spec hspec hneeded => ?_
    obtain ⟨value, hvalue⟩ := Option.isSome_iff_exists.mp (hrequired spec hspec hneeded)
    unfold NameMap.contains
    rw [find?_foldlM_place provided.nodup_names hplaced, hs.find?_of_mem hspec]
    show (((provided.given? spec.name).bind _).or _).isSome = true
    rw [hvalue]
    rfl
  refine ⟨⟨s, slots⟩, ?_⟩
  unfold createTable
  rw [hplaced]
  show (s.specs.foldlM s.fill given >>= _) = _
  rw [hfilled]
  rfl

end OptionSchema

namespace OptionTable

variable {s : OptionSchema} {provided : OptionMap} {t u : OptionTable} {key : Text}
  {spec : OptionSpec}

/-- **The slots of a table that is made**: what is given is brought into form and is the owner's
own; what is not has the default of its declaration. -/
theorem find?_createTable (hs : s.Distinct) (h : s.createTable provided = .ok t)
    (hspec : s.find? key = some spec) :
    t.slots.find? key = ((provided.given? key).map (⟨spec.transform ·, .explicit⟩)).or
      (spec.default?.map (⟨·, .default⟩)) := by
  unfold OptionSchema.createTable at h
  obtain ⟨given, hplaced, h⟩ := Success.of_bind h
  obtain ⟨slots, hfilled, h⟩ := Success.of_bind h
  obtain rfl := Except.ok.inj h
  show slots.find? key = _
  rw [OptionSchema.find?_foldlM_fill hs hfilled,
    OptionSchema.find?_foldlM_place provided.nodup_names hplaced, hspec,
    show s.specs.find? (fun spec => spec.name = key) = some spec from hspec]
  show ((((provided.given? key).bind _).or none).or _) = _
  cases provided.given? key <;> simp

/-- What is given for an option is read from the table, brought into form. -/
theorem get_createTable (hs : s.Distinct) (h : s.createTable provided = .ok t)
    (hspec : s.find? key = some spec) {v : Value} (hgiven : provided.given? key = some v) :
    t.get key = spec.transform v := by
  unfold get
  rw [find?_createTable hs h hspec, hgiven]
  rfl

/-- What a table inherits from values that schemas hold is taken over as it is. -/
theorem find?_mergeValues_held {m : OptionMap} (hm : m.Held) (ht : t.Standard) (key : Text) :
    (t.mergeValues m).1.slots.find? key =
      if t.isOpen key then ((m.find? key).map fun v => ⟨v, .inherited⟩).or (t.slots.find? key)
      else t.slots.find? key := by
  have htakes := hm.sound.takes.received ht.receives
  rw [find?_mergeValues (mergeValues_takes htakes), ← hm.given?_eq]
  cases hopen : t.isOpen key with
  | false => rfl
  | true =>
    cases hvalue : m.given? key with
    | none => rfl
    | some value =>
      have hinherits := (Bool.and_eq_true_iff.mp hopen).1
      rw [Option.map_some, Option.map_some, hm.formed_eq hvalue ht hinherits]

/-- **The slots of a table that is made and inherits**: of what is given, what the other table
defines and the default, the first counts. -/
theorem find?_merge (hs : s = schemaOptions ∨ s = columnOptions)
    (h : s.createTable provided = .ok t) (hu : u.defined.Held) (hspec : s.find? key = some spec)
    (hinheritable : spec.inheritable = true) :
    (t.merge u).1.slots.find? key = ((provided.given? key).map (⟨spec.transform ·, .explicit⟩)).or
      (((u.defined.find? key).map (⟨·, .inherited⟩)).or (spec.default?.map (⟨·, .default⟩))) := by
  have hdistinct : s.Distinct := by
    rcases hs with rfl | rfl
    · exact OptionSchema.distinct_schemaOptions
    · exact OptionSchema.distinct_columnOptions
  obtain ⟨-, hschema⟩ := OptionSchema.createTable_valid hdistinct h
  have hmade := find?_createTable hdistinct h hspec
  have hinherits : t.inherits key = true := by
    unfold inherits
    rw [hschema, OptionSchema.inherits_of_find? hspec, hinheritable]
  have hstandard : t.Standard := by
    unfold Standard
    rwa [hschema]
  rw [merge_eq, find?_mergeValues_held hu hstandard, hmade]
  unfold isOpen isDefined origin?
  rw [hinherits, hmade]
  cases provided.given? key with
  | some value => rfl
  | none => cases spec.default? <;> rfl

end OptionTable

end RecordLayout
