import RecordLayout.Proofs.Options.Making

/-!
# Tables that are changed

A table is made with an option schema, and then values are set and taken over in any order, by any
policy; some of these calls fail, and a merge that fails has taken over what came before.  Whatever
is done, the table stays valid, and what was required of it is there and is no default.

The transforms and the tests of the option schema are arbitrary.

## Main definitions

* `OptionSchema.Built`: option schemas as they are built.
* `OptionCall`: a call that changes a table.
* `OptionTable.after`, `OptionTable.run`: a table after one call, and after a number of them.
* `OptionTable.Complete`: a valid table that has all that is required.

## Main results

* `OptionSchema.Built.distinct`: no option is declared twice.
* `OptionTable.Complete.after`, `OptionTable.Complete.run`: **tables stay valid and complete**.
-/

namespace RecordLayout

/-! ### Option schemas that are built -/

namespace OptionSchema

/-- Option schemas as they are built: options are declared one by one, and named as required,
readable or writable. -/
inductive Built : OptionSchema → Prop
  | start (serial : Nat) (owner : Text) : Built ⟨serial, owner, []⟩
  | define {s : OptionSchema} (hs : Built s) (spec : OptionSpec) : Built (s.define spec)
  | configure {s : OptionSchema} (hs : Built s) (required reader writer : List Text) :
    Built (s.configure required reader writer)

theorem mem_names_defineIn {spec : OptionSpec} {specs : List OptionSpec} {name : Text}
    (h : name ∈ (defineIn spec specs).map (·.name)) :
    name = spec.name ∨ name ∈ specs.map (·.name) := by
  induction specs with
  | nil => simpa [defineIn] using h
  | cons old rest ih =>
    unfold defineIn at h
    split at h
    · rcases List.mem_cons.mp h with rfl | h
      · exact .inl rfl
      · exact .inr (List.mem_cons_of_mem _ h)
    · rcases List.mem_cons.mp h with rfl | h
      · exact .inr List.mem_cons_self
      · exact (ih h).imp_right (List.mem_cons_of_mem _)

/-- A declaration takes the place of the one of its name. -/
theorem nodup_defineIn {specs : List OptionSpec} (h : (specs.map (·.name)).Nodup)
    (spec : OptionSpec) : ((defineIn spec specs).map (·.name)).Nodup := by
  induction specs with
  | nil => simp [defineIn]
  | cons old rest ih =>
    obtain ⟨hfresh, hrest⟩ := List.nodup_cons.mp h
    unfold defineIn
    split
    · next hname =>
      dsimp only at hfresh
      rw [hname] at hfresh
      exact List.nodup_cons.mpr ⟨hfresh, hrest⟩
    · next hname =>
      refine List.nodup_cons.mpr ⟨fun hmem => ?_, ih hrest⟩
      exact (mem_names_defineIn hmem).elim hname hfresh

/-- **No option is declared twice.** -/
theorem Built.distinct {s : OptionSchema} (hs : s.Built) : s.Distinct := by
  induction hs with
  | start serial owner => exact List.nodup_nil
  | define hs spec ih => exact nodup_defineIn ih spec
  | @configure s hs required reader writer ih =>
    have hnames : (s.configure required reader writer).specs.map (·.name) = s.specs.map (·.name) :=
      List.map_map
    unfold Distinct
    rwa [hnames]

variable {s : OptionSchema} {slots slots' : NameMap Slot}

/-- What is required has to be given before the defaults are filled in. -/
theorem contains_of_required {specs : List OptionSpec} (hspecs : (specs.map (·.name)).Nodup)
    (h : specs.foldlM s.fill slots = .ok slots') {spec : OptionSpec} (hspec : spec ∈ specs)
    (hrequired : spec.required = true) : slots.contains spec.name = true := by
  induction specs generalizing slots with
  | nil => simp at hspec
  | cons first specs ih =>
    rw [List.foldlM_cons] at h
    obtain ⟨mid, hmid, hrest⟩ := Success.of_bind h
    obtain ⟨hfresh, hnodup⟩ := List.nodup_cons.mp hspecs
    rcases List.mem_cons.mp hspec with rfl | hspec
    · unfold fill at hmid
      rw [hrequired] at hmid
      split at hmid
      · next hthere => exact hthere
      · exact absurd hmid nofun
    · -- the default of another option does not help
      have hmidThere := ih hnodup hrest hspec
      have hne : first.name ≠ spec.name := fun heq =>
        hfresh (List.mem_map.mpr ⟨spec, hspec, heq.symm⟩)
      unfold NameMap.contains at hmidThere ⊢
      rwa [find?_fill hmid, if_neg hne, Option.or_none] at hmidThere

end OptionSchema

namespace OptionTable

/-- A valid table in which everything that is required is there and is no default. -/
structure Complete (t : OptionTable) : Prop where
  valid : t.Valid
  required : ∀ spec ∈ t.schema.specs, spec.required = true → t.isDefined spec.name = true

/-- **A table that is made is complete.** -/
theorem complete_createTable {s : OptionSchema} (hs : s.Distinct) {provided : OptionMap}
    {t : OptionTable} (h : s.createTable provided = .ok t) : t.Complete ∧ t.schema = s := by
  obtain ⟨hvalid, hschema⟩ := OptionSchema.createTable_valid hs h
  refine ⟨⟨hvalid, fun spec hspec hrequired => ?_⟩, hschema⟩
  rw [hschema] at hspec
  have hfind := hs.find?_of_mem hspec
  unfold OptionSchema.createTable at h
  obtain ⟨given, hplaced, h⟩ := Success.of_bind h
  obtain ⟨slots, hfilled, h⟩ := Success.of_bind h
  obtain rfl := Except.ok.inj h
  obtain ⟨slot, hslot⟩ := Option.isSome_iff_exists.mp
    (OptionSchema.contains_of_required hs hfilled hspec hrequired)
  -- an option that is required has no default, so its slot was there before filling
  have hgiven : slot.origin = .explicit := by
    have hfound := OptionSchema.find?_foldlM_place provided.nodup_names hplaced spec.name
    rw [show given.find? spec.name = some slot from hslot, hfind, NameMap.find?_empty,
      Option.or_none] at hfound
    obtain ⟨value, -, hvalue⟩ := Option.bind_eq_some_iff.mp hfound.symm
    rw [← Option.some.inj hvalue]
  have hthere : slots.find? spec.name = some slot := by
    rw [OptionSchema.find?_foldlM_fill hs hfilled,
      show given.find? spec.name = some slot from hslot]
    rfl
  exact isDefined_of_slot hthere (by rw [hgiven]; simp)

end OptionTable

/-! ### Calls that change a table -/

/-- A call that changes a table. -/
inductive OptionCall
  /-- The owner sets a value. -/
  | set (name : Text) (value : Value) (overwrite : Bool)
  /-- Values of a table or a set are taken over. -/
  | merge (source : OptionSource) (policy : MergePolicy)

namespace OptionTable

variable {t u : OptionTable}

/-- A table after a call, whether the call succeeds or not. -/
def after (t : OptionTable) : OptionCall → OptionTable
  | .set name value overwrite =>
    match t.set name value overwrite with
    | .ok u => u
    | .error _ => t
  | .merge source policy => (t.mergeFrom source policy).1

/-- A table after a number of calls. -/
def run (t : OptionTable) (calls : List OptionCall) : OptionTable := calls.foldl after t

/-- **A call keeps a table complete**, also one that fails. -/
theorem Complete.after (ht : t.Complete) (call : OptionCall) :
    (t.after call).Complete ∧ (t.after call).schema = t.schema := by
  cases call with
  | set name value overwrite =>
    unfold OptionTable.after
    dsimp only
    split
    · next u hu =>
      obtain ⟨hvalid, hschema⟩ := ht.valid.set hu
      refine ⟨⟨hvalid, fun spec hspec hrequired => isDefined_set hu ?_⟩, hschema⟩
      exact ht.required spec (hschema ▸ hspec) hrequired
    · exact ⟨ht, rfl⟩
  | merge source policy =>
    unfold OptionTable.after
    dsimp only
    rw [mergeFrom_eq]
    obtain ⟨hvalid, hschema⟩ := ht.valid.takeOverAll policy (source.offers policy)
    refine ⟨⟨hvalid, fun spec hspec hrequired => isDefined_takeOverAll policy _ ?_⟩, hschema⟩
    exact ht.required spec (hschema ▸ hspec) hrequired

/-- **A table stays complete in every run.** -/
theorem Complete.run (ht : t.Complete) (calls : List OptionCall) :
    (t.run calls).Complete ∧ (t.run calls).schema = t.schema := by
  induction calls generalizing t with
  | nil => exact ⟨ht, rfl⟩
  | cons call calls ih =>
    obtain ⟨hstep, hschema⟩ := ht.after call
    obtain ⟨hrun, hschema'⟩ := ih hstep
    exact ⟨hrun, hschema'.trans hschema⟩

end OptionTable

end RecordLayout
