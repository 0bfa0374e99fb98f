import RecordLayout.Proofs.Layout.Exact

/-!
# Validated schemas are read only

Once a schema has been validated, all references on ways from it have their targets, and all widths
are known.  So nothing that is asked of it, or of a schema that it meets, changes the layout any
more, and no answer says that something is wrong with what has been declared.  This goes on until a
field is declared, whatever else happens.

## Main definitions

* `Query.schema?`: the schema that a query is about.
* `Session.Quiet`: the moves that declare no field.
* `Layout.Undisturbed`: a layout whose schemas are left as they are, but for their settings.

## Main results

* `Layout.Settled.walkable`: walks through a settled schema change nothing.
* `Session.step_settled`: settled schemas stay settled until a field is declared.
* `Session.Reached.validated_readOnly`: **validated schemas are read only**.
-/

namespace RecordLayout

/-- The schema that a query is about, and no name or definition. -/
def Query.schema? : Query → Option SchemaId
  | .width s | .matchesLine s _ | .parse s _ _ | .format s _ | .errors s | .validate s
  | .field s _ => some s
  | .visibleSchema .. | .definitionErrors _ | .validateDefinition _ | .schemaOfLine ..
  | .recordOfLine .. => none

namespace Layout

open Build

variable {codes : List StatusCode} {L M N : Layout} {s t u : SchemaId} {o : Outline} {key : Text}

/-! ### Settled schemas -/

theorem meets_of_joins (h : L.Joins s t) : L.Meets s t := by
  obtain ⟨key, f, hf, ht⟩ := h
  refine ⟨key, f, ?_, ht⟩
  unfold outcome
  rw [field_of_known hf]

/-- A walk stops nowhere in an outline that is not too deep. -/
theorem Unfolds.clear (ho : L.Unfolds s o) {room : Nat} {path : List SchemaId}
    (hpath : ∀ p ∈ path, Relation.TransGen L.Leads p s) (hheight : o.height < room) :
    L.Clear room path s := by
  induction room generalizing path s o with
  | zero => exact absurd hheight (Nat.not_lt_zero _)
  | succ room ih =>
    refine clear_succ_iff.mpr ⟨fun hs => ho.not_leads_self (hpath s hs), fun key hkey => ?_⟩
    obtain ⟨f, hf⟩ := UnfoldsTo.known ho hkey
    refine ⟨f.schema?, by rw [childOf, fieldOf_of_known hf]; rfl, fun t ht => ?_⟩
    obtain ⟨i, hi, -, hlt, -⟩ := UnfoldsTo.inner ho hkey hf ht
    exact ih hi (path_cons hpath ⟨key, hkey, f, fieldOf_of_known hf, ht⟩)
      (Nat.lt_of_lt_of_le hlt (Nat.le_of_lt_succ hheight))

namespace Settled

theorem clear (h : L.Settled s o) : L.Clear maxDepth [] s :=
  h.unfolds.clear (fun _ hp => absurd hp (by simp)) h.height_lt

/-- A field that there is is known. -/
theorem known (h : L.Settled s o) (hkey : key ∈ (L.schema s).fields) :
    ∃ f, L.known? s key = some f := UnfoldsTo.known h.unfolds hkey

/-- What a settled schema joins is settled. -/
theorem joins (h : L.Settled s o) (hst : L.Joins s t) : ∃ i, L.Settled t i := by
  obtain ⟨key, f, hf, ht⟩ := hst
  have hkey := mem_fields_of_fieldOf (fieldOf_of_known hf)
  obtain ⟨i, hi, -, hheight, hmem, hsub⟩ := UnfoldsTo.inner h.unfolds hkey hf ht
  obtain ⟨total, htotal⟩ := Option.isSome_iff_exists.mp (h.trusts t hmem)
  -- the width noted for `t` is that of an outline of its own, and there is only one
  obtain ⟨j, hj, rfl, -⟩ := h.wellMade.measured.unfolds htotal
  obtain rfl := UnfoldsTo.unique hi hj
  exact ⟨i, h.wellMade, hi, Nat.lt_trans hheight h.height_lt, fun v hv => h.trusts v (hsub hv),
    htotal⟩

theorem reaches (h : L.Settled s o) (hst : L.Reaches s t) : ∃ i, L.Settled t i := by
  induction hst with
  | refl => exact ⟨o, h⟩
  | tail _ htu ih =>
    obtain ⟨i, hi⟩ := ih
    exact hi.joins htu

/-- What a settled schema leads to it joins. -/
theorem joins_of_leads (h : L.Settled s o) (hst : L.Leads s t) : L.Joins s t := by
  obtain ⟨key, hkey, f, hf, ht⟩ := hst
  obtain ⟨g, hg⟩ := h.known hkey
  obtain rfl := Except.ok.inj (hf.symm.trans (fieldOf_of_known hg))
  exact ⟨key, f, hg, ht⟩

/-- Looking up a field of a settled schema changes nothing. -/
theorem field (h : L.Settled s o) (key : Text) :
    Layout.field s key L = ofExcept (L.fieldOf s key) L := by
  by_cases hkey : key ∈ (L.schema s).fields
  · obtain ⟨f, hf⟩ := h.known hkey
    rw [field_of_known hf, fieldOf_of_known hf]
    rfl
  · have hnone : (L.schema s).find? key = none := (Listing.find?_eq_none_iff _ _).mpr hkey
    simp only [Layout.field, fieldOf, hnone]
    rfl

/-- What a settled schema meets it joins. -/
theorem joins_of_meets (h : L.Settled s o) (hst : L.Meets s t) : L.Joins s t := by
  obtain ⟨key, f, hf, ht⟩ := hst
  have hends : (Layout.field s key).Ends L fun res _ => res = L.fieldOf s key :=
    .of_eq (h.field key) (ends_ofExcept.mpr rfl)
  rw [ends_iff.mp hends] at hf
  exact h.joins_of_leads ⟨key, mem_fields_of_fieldOf hf, f, hf, ht⟩

/-- What a settled schema reaches are the schemas met on ways from it. -/
theorem reaches_iff (h : L.Settled s o) : L.Reaches s t ↔ Relation.ReflTransGen L.Meets s t := by
  refine ⟨fun hst => Relation.ReflTransGen.mono (fun _ _ => meets_of_joins) _ _ hst, fun hst => ?_⟩
  induction hst with
  | refl => exact .refl
  | tail _ htu ih =>
    obtain ⟨i, hi⟩ := h.reaches ih
    exact ih.tail (hi.joins_of_meets htu)

/-- Walks through a settled schema change nothing. -/
theorem walkable (h : L.Settled s o) (hcodes : codes ⊆ StatusCode.structural)
    (havoids : ∀ t, L.Reaches s t → ∀ key c, (L.schema t).find? key = some (.column (.custom c)) →
      (Codec.custom c).Avoids codes) :
    Walkable codes L (L.Reaches s) (· = L) where
  structural := hcodes
  leads hst htu := by
    obtain ⟨i, hi⟩ := h.reaches hst
    exact hst.tail (hi.joins_of_leads htu)
  fields hM s := by rw [hM]
  name hM s := by rw [hM]
  field := by
    rintro M rfl t hst key
    obtain ⟨i, hi⟩ := h.reaches hst
    refine .of_eq (hi.field key) (ends_ofExcept.mpr ⟨rfl, rfl, fun c hc => ?_⟩)
    cases c with
    | column c => exact Codec.avoids_column hcodes c
    | custom c => exact havoids t hst key c (find_of_fieldOf_column hc)
  width := by
    rintro M rfl room path t hst -
    obtain ⟨i, hi⟩ := h.reaches hst
    exact ends_widthWithin (fun total _ => ⟨rfl, total, rfl⟩)
      (fun hnone => absurd (hnone.symm.trans hi.trusted) nofun)
      (fun hnone => absurd (hnone.symm.trans hi.trusted) nofun)
      fun hnone => absurd (hnone.symm.trans hi.trusted) nofun

/-! ### Queries -/

theorem width (h : L.Settled s o) : ∃ total, Layout.width s L = .ok total L := by
  refine ⟨UInt64.ofNat o.width, ?_⟩
  unfold Layout.width widthWithin
  rw [h.trusted]

/-- Walks through a settled schema change nothing, whatever codecs report. -/
theorem quiet (h : L.Settled s o) : Walkable [] L (L.Reaches s) (· = L) :=
  h.walkable (List.nil_subset _) fun _ _ _ c _ => .nil (.custom c)

/-- Validating a settled schema again changes nothing, and finds nothing. -/
theorem validate (h : L.Settled s o) : Layout.validate s L = .ok () L := by
  have hends : (Layout.validate s).Ends L fun res M => M = L ∧ res = .ok () := by
    refine ends_bind.mpr ((h.quiet.errors rfl .refl).mono fun res M hM => ?_)
    obtain ⟨rfl, rfl⟩ := hM
    rw [show M.problems s = [] from h.clear]
    refine ends_map.mpr ((h.quiet.width rfl .refl h.clear).mono fun res N hN => ?_)
    obtain ⟨rfl, total, rfl⟩ := hN
    exact ⟨rfl, rfl⟩
  obtain ⟨hsame, hok⟩ := ends_iff.mp hends
  rw [outcome_eq_ok_iff.mp hok, hsame]

/-- **A query about a schema that a settled one reaches changes nothing.** -/
theorem ask (h : L.Settled s o) {q : Query} (hq : q.schema? = some t) (hst : L.Reaches s t) :
    q.run.after L = L := by
  obtain ⟨i, hi⟩ := h.reaches hst
  have hwidth : (Layout.width t).Ends L fun res M => M = L ∧ ∃ total, res = .ok total :=
    h.quiet.width rfl hst hi.clear
  cases q with
  | width u =>
    obtain rfl : u = t := Option.some.inj hq
    exact (after_map ..).trans (ends_iff.mp hwidth).1
  | matchesLine u line =>
    obtain rfl : u = t := Option.some.inj hq
    have hends : (matchesLine u line).Ends L fun _ M => M = L := by
      refine ends_bind.mpr (ends_attempt.mpr (hwidth.mono fun res M hM => ?_))
      obtain ⟨rfl, total, rfl⟩ := hM
      exact ends_bind.mpr (ends_schema.mpr (ends_pure.mpr rfl))
    exact (after_map ..).trans (ends_iff.mp hends)
  | parse u line start =>
    obtain rfl : u = t := Option.some.inj hq
    exact (after_map ..).trans (ends_iff.mp (h.quiet.parse rfl hst line start)).1
  | format u record =>
    obtain rfl : u = t := Option.some.inj hq
    exact (after_map ..).trans (ends_iff.mp (h.quiet.format rfl hst record)).1
  | errors u =>
    obtain rfl : u = t := Option.some.inj hq
    exact (after_map ..).trans (ends_iff.mp (h.quiet.errors rfl hst)).1
  | validate u =>
    obtain rfl : u = t := Option.some.inj hq
    show (Layout.validate u).after L = L
    unfold after
    rw [hi.validate]
  | field u key =>
    obtain rfl : u = t := Option.some.inj hq
    exact (after_map ..).trans (ends_iff.mp (h.quiet.field rfl hst key)).1
  | visibleSchema | definitionErrors | validateDefinition | schemaOfLine | recordOfLine =>
    exact absurd hq nofun

/-- Queries about schemas that a settled one reaches change nothing. -/
theorem asked (h : L.Settled s o) {queries : List Query}
    (hqueries : ∀ q ∈ queries, ∃ t, q.schema? = some t ∧ L.Reaches s t) :
    L.asked queries = L := by
  induction queries with
  | nil => rfl
  | cons q queries ih =>
    obtain ⟨t, ht, hst⟩ := hqueries q List.mem_cons_self
    show (q.run.after L).asked queries = L
    rw [h.ask ht hst]
    exact ih fun q hq => hqueries q (List.mem_cons_of_mem _ hq)

end Settled

/-! ### Until a field is declared -/

/-- A layout with all schemas of another one, left as they are but for their settings, and with new
ones without fields. -/
structure Undisturbed (L M : Layout) : Prop where
  length_le : L.schemas.length ≤ M.schemas.length
  alike : ∀ t < L.schemas.length, Alike (L.schema t) (M.schema t)
  fresh : ∀ t, L.schemas.length ≤ t → (M.schema t).entries = []
  generation : M.generation = L.generation

theorem entries_of_le {t : SchemaId} (h : L.schemas.length ≤ t) : (L.schema t).entries = [] := by
  rw [schema_of_le h]
  rfl

theorem Undisturbed.refl (L : Layout) : Undisturbed L L :=
  ⟨Nat.le_refl _, fun _ _ => .of_eq rfl, fun _ => entries_of_le, rfl⟩

theorem Undisturbed.trans (h : Undisturbed L M) (h' : Undisturbed M N) : Undisturbed L N where
  length_le := Nat.le_trans h.length_le h'.length_le
  alike t ht :=
    have hLM := h.alike t ht
    have hMN := h'.alike t (Nat.lt_of_lt_of_le ht h.length_le)
    ⟨hMN.name.trans hLM.name, hMN.ancestors.trans hLM.ancestors, hMN.entries.trans hLM.entries,
      hMN.knownWidth.trans hLM.knownWidth⟩
  fresh t ht := by
    rcases Nat.lt_or_ge t M.schemas.length with hlt | hge
    · exact (h'.alike t hlt).entries.trans (h.fresh t ht)
    · exact h'.fresh t hge
  generation := h'.generation.trans h.generation

theorem undisturbed_of_schemas (h : M.schemas = L.schemas)
    (hgeneration : M.generation = L.generation) : Undisturbed L M where
  length_le := Nat.le_of_eq (congrArg List.length h.symm)
  alike t _ := .of_eq (by unfold schema; rw [h])
  fresh t ht := entries_of_le (h ▸ ht)
  generation := hgeneration

theorem undisturbed_push {scope : Scope} {name : Text} {options : OptionMap} {node : Schema}
    (h : L.newSchema scope name options = .ok node) : Undisturbed L (L.push node) where
  length_le := by rw [length_push]; exact Nat.le_succ _
  alike t ht := .of_eq (schema_push_of_lt L node ht)
  fresh t ht := by
    obtain ⟨_, _, rfl, -⟩ := newSchema_ok h
    rw [schema_push]
    split
    · rfl
    · exact entries_of_le ht
  generation := rfl

theorem undisturbed_setting (L : Layout) (s : SchemaId) {f : Schema → Schema}
    (hf : ∀ node, Alike node (f node)) : Undisturbed L (L.modify s f) where
  length_le := Nat.le_of_eq (length_modify ..).symm
  alike t _ := by
    rw [schema_modify]
    split
    · exact hf _
    · exact .of_eq rfl
  fresh t ht := entries_of_le (Nat.le_trans (Nat.le_of_eq (length_modify ..)) ht)
  generation := rfl

theorem undisturbed_markBusy (L : Layout) (s : SchemaId) (busy : Bool) :
    Undisturbed L (L.markBusy s busy) :=
  undisturbed_setting L s fun _ => ⟨rfl, rfl, rfl, rfl⟩

/-- A settled schema stays settled in a layout that is undisturbed. -/
theorem Settled.undisturbed (h : L.Settled s o) (hs : s < L.schemas.length) (hLM : Undisturbed L M)
    (hM : M.WellMade) : ∃ p, M.Settled s p := by
  obtain ⟨p, hp, hop⟩ := h.unfolds.of_alike h.wellMade.coherent hs hLM.alike
  refine ⟨p, hM, hp, hop.height_eq ▸ h.height_lt, fun t ht => ?_, ?_⟩
  · rw [hop.schemas_eq] at ht
    have hlt := h.unfolds.schemas_lt h.wellMade.coherent t ht
    exact (h.trusts t ht).of_eq (hLM.alike t hlt).knownWidth hLM.generation
  · rw [hop.width_eq, trustedWidth?_eq_some_iff, (hLM.alike s hs).knownWidth, hLM.generation]
    exact trustedWidth?_eq_some_iff.mp h.trusted

end Layout

namespace Session

open Layout Build

variable {S : Session}

/-- A move that declares no field. -/
def Quiet (S : Session) : Move → Prop
  | .declare .. => False
  | .finish succeeded =>
    succeeded = true → ∀ parent child, some (.nested parent child) ≠ S.sites.head?
  | _ => True

/-- A move that declares no field changes the contents of schemas by developing them at most. -/
theorem step_quiet (hS : S.Sane) {m : Move} (hm : S.Possible m) (hquiet : S.Quiet m) :
    S.layout.Develops (S.step m).layout ∨ Undisturbed S.layout (S.step m).layout := by
  have heffect := S.step_effect m
  generalize S.step m = T at heffect ⊢
  cases heffect with
  | refused => exact .inr (.refl _)
  | created hnode => exact .inr (undisturbed_push hnode)
  | defined | cataloged => exact .inr (undisturbed_of_schemas rfl rfl)
  | listed hopen hnode hfree =>
    exact .inr ((undisturbed_push hnode).trans (undisturbed_of_schemas rfl rfl))
  | declared => exact absurd hquiet id
  | set | conditioned => exact .inr (undisturbed_setting _ _ fun _ => ⟨rfl, rfl, rfl, rfl⟩)
  | propagated options s => exact .inl (develops_propagate options s S.layout)
  | asked q => exact .inl (q.develops hS.layout.wellMade)
  | begunNested hopen hnode hkey | begunListed hopen hnode hfree =>
    exact .inr ((undisturbed_push hnode).trans (undisturbed_markBusy _ _ true))
  | begunSetup => exact .inr (undisturbed_markBusy _ _ true)
  | closed => exact .inr (undisturbed_markBusy _ _ false)
  | closedNested hsites =>
    -- a nested schema would become a field now
    exact absurd (congrArg List.head? hsites).symm (hquiet rfl _ _)
  | closedListed =>
    exact .inr ((undisturbed_markBusy _ _ false).trans (undisturbed_of_schemas rfl rfl))

/-- **Settled schemas stay settled until a field is declared.** -/
theorem step_settled (hS : S.Sane) {m : Move} (hm : S.Possible m) (hquiet : S.Quiet m)
    {s : SchemaId} (hs : s < S.layout.schemas.length) {o : Outline} (h : S.layout.Settled s o) :
    s < (S.step m).layout.schemas.length ∧ ∃ p, (S.step m).layout.Settled s p := by
  rcases step_quiet hS hm hquiet with hdevelops | hundisturbed
  · obtain ⟨p, hp, -⟩ := h.develop hdevelops
    exact ⟨hdevelops.length_eq hS.layout ▸ hs, p, hp⟩
  · exact ⟨Nat.lt_of_lt_of_le hs hundisturbed.length_le,
      h.undisturbed hs hundisturbed (step_sane hS hm).1.layout.wellMade⟩

/-- Settled schemas stay settled over any number of moves that declare no field. -/
theorem settled_moves (hS : S.Sane) {moves : List Move}
    (hmoves : S.Allowed (fun T m => T.Possible m ∧ T.Quiet m) moves) {s : SchemaId}
    (hs : s < S.layout.schemas.length) {o : Outline} (h : S.layout.Settled s o) :
    ∃ p, (moves.foldl step S).layout.Settled s p := by
  induction moves generalizing S o with
  | nil => exact ⟨o, h⟩
  | cons m moves ih =>
    obtain ⟨⟨hm, hquiet⟩, hrest⟩ := hmoves
    obtain ⟨hs', p, hp⟩ := step_settled hS hm hquiet hs h
    exact ih (step_sane hS hm).1 hrest hs' hp

/-- **Validated schemas are read only.**  After a schema has been validated, and whatever has been
done since but to declare a field, no query about the schema, or about one that it meets, changes
anything in the layout.  All of these schemas have a width and are valid; and as long as codecs from
elsewhere do not report it themselves, reading and writing do not fail because of what has been
declared. -/
theorem Reached.validated_readOnly (hS : S.Reached Possible) {s : SchemaId}
    (hs : s < S.layout.schemas.length) {M : Layout} (hvalid : validate s S.layout = .ok () M)
    {moves : List Move}
    (hmoves : Allowed (fun T m => T.Possible m ∧ T.Quiet m) ⟨S.sites, M⟩ moves) :
    let L := (moves.foldl Session.step ⟨S.sites, M⟩).layout
    (∀ queries, (∀ q ∈ queries, ∃ t, q.schema? = some t ∧ Relation.ReflTransGen L.Meets s t) →
      L.asked queries = L)
    ∧ ∀ t, Relation.ReflTransGen L.Meets s t →
      (∃ total, width t L = .ok total L) ∧ validate t L = .ok () L
      ∧ ((∀ u, Relation.ReflTransGen L.Meets s u → ∀ key c,
            (L.schema u).find? key = some (.column (.custom c)) →
              (Codec.custom c).Avoids StatusCode.structural) →
          (∀ line start e, (parse t line start).outcome L = .error e →
            e.code ∉ StatusCode.structural)
          ∧ ∀ record e, (format t record).outcome L = .error e →
            e.code ∉ StatusCode.structural) := by
  intro L
  obtain ⟨hdevelops, o, ho⟩ := validate_ok hS.sane.layout.wellMade hs hvalid
  -- the validation is a query of the session, and what follows begins from its layout
  have hsane : Sane ⟨S.sites, M⟩ := by
    have hM : (validate s).after S.layout = M := by
      unfold Build.after
      rw [hvalid]
    exact hM ▸ (step_sane hS.sane (m := .ask (.validate s)) trivial).1
  obtain ⟨p, hp⟩ : ∃ p, L.Settled s p := settled_moves hsane hmoves
    (Nat.lt_of_lt_of_eq hs (hdevelops.length_eq hS.sane.layout).symm) ho
  refine ⟨fun queries hqueries => hp.asked fun q hq => ?_, fun t hst => ?_⟩
  · obtain ⟨t, ht, hst⟩ := hqueries q hq
    exact ⟨t, ht, hp.reaches_iff.mpr hst⟩
  · have hreaches := hp.reaches_iff.mpr hst
    obtain ⟨i, hi⟩ := hp.reaches hreaches
    refine ⟨hi.width, hi.validate, fun havoids => ?_⟩
    have hwalk := hp.walkable (List.Subset.refl _) fun u hu => havoids u (hp.reaches_iff.mp hu)
    exact ⟨fun line start e he =>
        (ends_iff.mp (hwalk.parse rfl hreaches line start)).2.of_error he hi.clear,
      fun record e he => (ends_iff.mp (hwalk.format rfl hreaches record)).2.of_error he hi.clear⟩

/-- After the schema with the reference has been validated, and one more schema has been listed,
reading the other one changes nothing. -/
theorem validated_readOnly_knotted : ∃ M, validate 1 knotted.layout = .ok () M
    ∧ let L := ([.addSchema 0 "late" .empty].foldl step ⟨knotted.sites, M⟩).layout
      L.asked [.parse 0 "abc" 0, .field 1 "nothing", .errors 1] = L
        ∧ validate 0 L = .ok () L
        ∧ ∀ line start e, (parse 0 line start).outcome L = .error e →
          e.code ∉ StatusCode.structural := by
  have hvalid := ok_of_gives (x := validate 1) (L := knotted.layout) (a := ()) (by decide +kernel)
  have hmoves : Allowed (fun T m => T.Possible m ∧ T.Quiet m)
      ⟨knotted.sites, (validate 1).after knotted.layout⟩ [.addSchema 0 "late" .empty] :=
    ⟨⟨show 0 < List.length _ by decide +kernel, trivial⟩, trivial⟩
  obtain ⟨hasked, hmet⟩ := (tidy_knotted.mono fun _ _ h => h.1.1).validated_readOnly
    (s := 1) (by decide) hvalid hmoves
  refine ⟨_, hvalid, ?_⟩
  intro L
  have hmeets : Relation.ReflTransGen L.Meets 1 0 := by
    have hfield : ((Layout.field 1 "inner").outcome L).toOption.bind Field.schema? = some 0 := by
      decide +kernel
    obtain ⟨f, hf, h0⟩ := Option.bind_eq_some_iff.mp hfield
    refine .single ⟨"inner", f, ?_, h0⟩
    cases hres : (Layout.field 1 "inner").outcome L with
    | ok g => rw [hres] at hf; rw [Option.some.inj hf]
    | error e => rw [hres] at hf; exact absurd hf nofun
  obtain ⟨-, hvalid0, hreads⟩ := hmet 0 hmeets
  have hplain : L.isPlain = true := by decide +kernel
  have hread := (hreads fun _ _ _ c hc => avoids_of_isPlain hplain hc c.options?).1
  refine ⟨hasked _ fun q hq => ?_, hvalid0, hread⟩
  simp only [List.mem_cons, List.not_mem_nil, or_false] at hq
  rcases hq with rfl | rfl | rfl
  · exact ⟨0, rfl, hmeets⟩
  · exact ⟨1, rfl, .refl⟩
  · exact ⟨1, rfl, .refl⟩

end Session

end RecordLayout
