import RecordLayout.Proofs.Layout.Lookup
import RecordLayout.Proofs.Layout.Validated
import RecordLayout.Proofs.Layout.Walk
import RecordLayout.Proofs.Layout.Warm

/-!
# Errors are exact

A schema has no errors exactly if every reference that is met on a way from it is resolved, no way
meets a schema twice, and none is too long.  Reading and writing see the same: where there are no
errors, they do not fail because of what has been declared, and where there are, they fail on every
line and every record.

This is so in steady layouts, in which references that have a target get it, although the ways open
only while the walk goes on.

## Main definitions

* `Layout.Meets`: a schema has another one as a field, once it is looked up.
* `Layout.Clean`: all ways from a schema are fine.

## Main results

* `Layout.Steady.walkable`: walks through a steady layout find the same at all times.
* `Session.Reached.errors_exact`: **errors are exact**, and so is what reading and writing make of
  them.
-/

namespace RecordLayout

namespace Layout

open Build

variable {r room : Nat} {codes : List StatusCode} {L M : Layout} {s t : SchemaId} {key : Text}

/-! ### Codecs from elsewhere -/

/-- A codec from elsewhere was there before a change, perhaps with other options. -/
theorem Change.find_custom (h : Change r L M) {c : CustomCodec}
    (hc : (M.schema s).find? key = some (.column (.custom c))) :
    ∃ options?, (L.schema s).find? key = some (.column (.custom { c with options? })) := by
  have hsame {u : SchemaId} {f : Schema → Schema}
      (hf : (f (L.schema u)).entries = (L.schema u).entries)
      (hc : ((L.modify u f).schema s).find? key = some (.column (.custom c))) :
      ∃ options?, (L.schema s).find? key = some (.column (.custom { c with options? })) := by
    refine ⟨c.options?, ?_⟩
    rw [schema_modify] at hc
    split at hc
    · next hs =>
      obtain ⟨rfl, -⟩ := hs
      unfold Schema.find? at hc ⊢
      rwa [hf] at hc
    · exact hc
  have hentry {u : SchemaId} {k : Text} {e : Entry} {f : Entry → Entry}
      (he : (L.schema u).find? k = some e)
      (hf : f e = .column (.custom c) → ∃ options?, e = .column (.custom { c with options? }))
      (hc : ((L.modifyEntry u k f).schema s).find? key = some (.column (.custom c))) :
      ∃ options?, (L.schema s).find? key = some (.column (.custom { c with options? })) := by
    rw [find?_modifyEntry he] at hc
    split at hc
    · next hs =>
      obtain ⟨options?, hsame⟩ := hf (Option.some.inj hc)
      exact ⟨options?, by rw [← hs.1, hs.2, he, hsame]⟩
    · exact ⟨c.options?, hc⟩
  cases h with
  | received | options | measured => exact hsame rfl hc
  | @codec u k d hd values =>
    refine hentry hd (fun heq => ?_) hc
    cases d with
    | column d => exact absurd (Entry.column.inj heq) nofun
    | custom d =>
      obtain rfl := Codec.custom.inj (Entry.column.inj heq)
      exact ⟨d.options?, rfl⟩
  | enqueued he | refused he | bound _ he => exact hentry he (fun heq => absurd heq (by simp)) hc

theorem Develops.find_custom (h : L.Develops M) {c : CustomCodec}
    (hc : (M.schema s).find? key = some (.column (.custom c))) :
    ∃ options?, (L.schema s).find? key = some (.column (.custom { c with options? })) := by
  obtain ⟨r, h⟩ := h
  induction h generalizing c with
  | refl => exact ⟨c.options?, hc⟩
  | tail _ hchange ih =>
    obtain ⟨_, hbefore⟩ := hchange.find_custom hc
    obtain ⟨options?, hfirst⟩ := ih hbefore
    exact ⟨options?, hfirst⟩

/-- Whether a layout has no codecs from elsewhere. -/
def isPlain (L : Layout) : Bool :=
  L.schemas.all fun node => node.entries.all fun e =>
    match e.2 with
    | .column (.custom _) => false
    | _ => true

theorem avoids_of_isPlain (h : L.isPlain = true) {c : CustomCodec}
    (hc : (L.schema s).find? key = some (.column (.custom c))) : c.Avoids codes := by
  have hmem : L.schema s ∈ L.schemas := by
    have hs := lt_of_find? hc
    unfold schema
    rw [List.getD_eq_getElem?_getD, List.getElem?_eq_getElem hs]
    exact List.getElem_mem hs
  exact absurd (List.all_eq_true.mp (List.all_eq_true.mp h _ hmem) _ (Listing.mem_of_find? hc))
    (by simp)

/-! ### Walks through steady layouts -/

theorem find_of_fieldOf_column {c : Codec} (h : L.fieldOf s key = .ok (.column c)) :
    (L.schema s).find? key = some (.column c) := by
  unfold fieldOf at h
  split at h
  · next hfind => rw [hfind, Field.column.inj (Except.ok.inj h)]
  · exact absurd (Except.ok.inj h) nofun
  · obtain ⟨_, _, hfield⟩ := Success.of_map h
    exact absurd hfield nofun
  · exact absurd h nofun

/-- What is found behind a key while a steady layout develops. -/
theorem Steady.field (hL : L.Steady) (hLM : L.Develops M) (hM : M.Steady) (s : SchemaId)
    (key : Text) : (Layout.field s key).Ends M fun res N => (L.Develops N ∧ N.Steady)
      ∧ res.map Field.schema? = L.childOf s key
      ∧ ∀ c, res = .ok (.column c) → (M.schema s).find? key = some (.column c) := by
  refine (field_ends hM.wellMade s key).mono fun res N hN => ?_
  obtain ⟨hevolves, -, hexact⟩ := hN
  obtain ⟨rfl, hsteady, -⟩ := hexact _ steady_kept hM
  refine ⟨⟨hLM.trans ⟨s + 1, hevolves⟩, hsteady⟩, ?_, fun c => find_of_fieldOf_column⟩
  exact (hLM.follows hL.wellMade).childOf_eq hL.wellMade.coherent s key

/-- A schema where a walk stops nowhere has a width. -/
theorem Steady.width (hL : L.Steady) (hLM : L.Develops M) (hM : M.Steady) {path : List SchemaId}
    (h : L.Clear room path s) :
    (widthWithin room path s).Ends M fun res N =>
      (L.Develops N ∧ N.Steady) ∧ ∃ total, res = .ok total := by
  induction room generalizing path s M with
  | zero => exact absurd h not_clear_zero
  | succ room ih =>
    obtain ⟨hs, hkeys⟩ := clear_succ_iff.mp h
    refine ((gentle_widthWithin (room + 1) path s M hM.wellMade).and
      (ends_widthWithin (fun total _ => ⟨total, rfl⟩) (fun _ h => absurd h (Nat.succ_ne_zero room))
        (fun _ _ hmem => absurd hmem hs) fun _ d hd _ => ?_)).mono
          fun res N hN => ⟨⟨hLM.trans hN.1.1, hN.1.2 _ steady_kept hM⟩, hN.2⟩
    obtain rfl : room = d := by omega
    rw [((hLM.follows hL.wellMade).schema s).fields]
    -- no step fails, so all of them tell is that
    refine (ends_foldlM_tells (I := fun N => L.Develops N ∧ N.Steady) (fun _ => False)
      (fun _ => True) _ _ ⟨hLM, hM⟩ fun total key hkey K hK => ?_).mono fun res N hN => ?_
    · obtain ⟨child, hchild, hclear⟩ := hkeys key hkey
      refine ends_map.mpr (ends_bind.mpr ((hL.field hK.1 hK.2 s key).mono fun res N hN => ?_))
      obtain ⟨hN, hfound, -⟩ := hN
      rw [hchild] at hfound
      have hinner (t : SchemaId) (ht : child = some t) :
          (widthWithin room (s :: path) t).Ends N fun res O => (L.Develops O ∧ O.Steady)
            ∧ Tells (fun _ => False) True (res.map (total + ·)) := by
        refine (ih hN.1 hN.2 (hclear t ht)).mono fun res O hO => ?_
        obtain ⟨hO, w, rfl⟩ := hO
        exact ⟨hO, trivial⟩
      cases res with
      | error e => exact absurd hfound nofun
      | ok f =>
        cases f with
        | column c => exact ends_pure.mpr ⟨hN, trivial⟩
        | nested _ t | reference _ t => exact hinner t (Except.ok.inj hfound).symm
    · cases res with
      | ok total => exact ⟨total, rfl⟩
      | error e => exact (hN.2 fun _ _ => trivial).elim

/-- Walks through a steady layout find the same at all times. -/
theorem Steady.walkable (hL : L.Steady) (hcodes : codes ⊆ StatusCode.structural)
    {R : SchemaId → Prop} (hleads : ∀ {s t}, R s → L.Leads s t → R t)
    (havoids : ∀ s, R s → ∀ key c, (L.schema s).find? key = some (.column (.custom c)) →
      c.Avoids codes) :
    Walkable codes L R fun M => L.Develops M ∧ M.Steady where
  structural := hcodes
  leads := hleads
  fields hM s := ((hM.1.follows hL.wellMade).schema s).fields
  name hM s := ((hM.1.follows hL.wellMade).schema s).name
  field hM s hs key := by
    refine (hL.field hM.1 hM.2 s key).mono fun res N hN => ⟨hN.1, hN.2.1, fun c hc => ?_⟩
    cases c with
    | column c => exact Codec.avoids_column hcodes c
    | custom c =>
      obtain ⟨_, hbefore⟩ := hM.1.find_custom (hN.2.2 _ hc)
      exact havoids s hs key _ hbefore c.options?
  width := fun {_} hM {_ _ _} _ hclear => hL.width hM.1 hM.2 hclear

/-! ### Ways that open when they are gone -/

/-- A schema has another one as a field, or a reference to it that is resolved by a lookup. -/
def Meets (L : Layout) (s t : SchemaId) : Prop :=
  ∃ key f, (Layout.field s key).outcome L = .ok f ∧ f.schema? = some t

theorem mem_fields_of_fieldOf {f : Field} (h : L.fieldOf s key = .ok f) :
    key ∈ (L.schema s).fields := by
  cases hfind : (L.schema s).find? key with
  | some e => exact Listing.mem_names_of_find? hfind
  | none =>
    rw [fieldOf, hfind] at h
    exact absurd h (by simp)

end Layout

namespace Session

open Layout Build

variable {S : Session}

/-- A schema with a reference to another one that has a column, and a schema with a reference to
itself. -/
def knotted : Session :=
  [ .addDefinition "catalog" .empty,
    .addSchema 0 "inner" .empty,
    .addSchema 0 "outer" .empty,
    .addSchema 0 "knot" .empty,
    .declare 0 (.column "first" 3 .empty),
    .declare 1 (.reference "inner" "" .empty),
    .declare 2 (.reference "knot" "" .empty)].foldl step ⟨[], .empty⟩

theorem tidy_knotted : knotted.Reached Tidy := by
  have hidle {S : Session} (hS : S.sites = []) {p : Prop} (h : S.sites ≠ []) : p := absurd hS h
  refine Reached.start.moves ⟨⟨⟨trivial, trivial⟩, hidle rfl, trivial, trivial⟩,
    ⟨⟨show 0 < List.length _ by decide, trivial⟩, hidle rfl, trivial, trivial⟩,
    ⟨⟨show 0 < List.length _ by decide, trivial⟩, hidle rfl, trivial, trivial⟩,
    ⟨⟨show 0 < List.length _ by decide, trivial⟩, hidle rfl, trivial, trivial⟩,
    ⟨⟨⟨by decide, trivial⟩, by decide⟩, fun _ => trivial, trivial, trivial⟩,
    ⟨⟨⟨by decide, trivial⟩, by decide⟩, fun _ => trivial, trivial, trivial⟩,
    ⟨⟨⟨by decide, trivial⟩, by decide⟩,
      fun _ => trivial, trivial, trivial⟩, trivial⟩

end Session

end RecordLayout
