import RecordLayout.Proofs.Layout.Growth
import RecordLayout.Proofs.Layout.Names
import RecordLayout.Proofs.Text.Naming

/-!
# Keys, groups and fillers of a schema

Fields get keys in three ways: under a name that may be declared, in a group under two such names
with a dot between them, and as fillers under their numbers.  None of them is a key of another kind.
A schema keeps the groups of its codecs beside its fields, and counts its fillers; both stay right
whatever is done.

## Main definitions

* `Schema.Chosen`: the keys of fields that are no fillers.
* `Schema.places`: the keys of a schema with the groups of their codecs.
* `Schema.Registered`: the groups of a schema are those of its fields, and its fillers are counted.
* `Session.fillersAdded`: the number of calls in a session that add a filler to a schema.

## Main results

* `Session.step_registered`, `Session.Reached.registered`: **groups and fillers are kept right**.
* `Session.step_fillers`, `Session.fillers_moves`: **every filler that is added is counted, and
  nothing else is**.
-/

namespace RecordLayout

/-- A name that has passed its check may be declared. -/
theorem declarable_of_checkName {name : Text} (h : checkName name = .ok ()) :
    name.IsDeclarable := by
  obtain ⟨hidentifier, hfree⟩ := (checkName_eq_ok_iff name).mp h
  exact ⟨hidentifier, hfree⟩

/-- The values of a listing after a change of one of them that a function does not see. -/
theorem Listing.map_modify {α β : Type} {g : α → β} {l : Listing α} {name : Text} {f : α → α}
    (h : ∀ a, l.find? name = some a → g (f a) = g a) :
    (modify l name f).map (fun e => (e.1, g e.2)) = l.map fun e => (e.1, g e.2) := by
  induction l with
  | nil => rfl
  | cons e l ih =>
    rw [modify]
    by_cases he : e.1 = name
    · rw [if_pos he, List.map_cons, List.map_cons, h e.2 (by rw [find?_cons, if_pos he])]
    · have hrest := ih fun a ha => h a (by rwa [find?_cons, if_neg he])
      rw [if_neg he, List.map_cons, List.map_cons, hrest]

namespace Schema

/-! ### Keys -/

/-- The keys of fields that are no fillers, with the groups of their codecs. -/
inductive Chosen : Text → Option Text → Prop
  /-- A name that may be declared. -/
  | own {name : Text} (hname : name.IsDeclarable) : Chosen name none
  /-- A name in a group. -/
  | member {group name : Text} (hgroup : group.IsDeclarable) (hname : name.IsDeclarable) :
    Chosen (memberKey group name) (some group)

theorem dot_mem_memberKey (group name : Text) : (0x2E : UInt8) ∈ memberKey group name := by
  apply List.mem_append_left
  apply List.mem_append_right
  decide

theorem Chosen.ne_spacerName {key : Text} {group? : Option Text} (h : Chosen key group?) (n : Nat) :
    key ≠ Text.spacerName n := by
  cases h with
  | own hname => exact hname.ne_spacerName n
  | @member group name =>
    intro hkey
    apply Text.dot_not_mem_spacerName n
    rw [← hkey]
    exact dot_mem_memberKey group name

/-- A key that is a name by itself is the key of a field without a group. -/
theorem Chosen.group_eq_none {name : Text} {group? : Option Text} (h : Chosen name group?)
    (hname : name.IsDeclarable) : group? = none := by
  cases h with
  | own => rfl
  | member => exact absurd (dot_mem_memberKey _ _) hname.dot_not_mem

variable {node : Schema} {key : Text} {entry : Entry}

theorem chosen_codecField {codec : Codec} (h : node.codecField codec = .ok (key, entry)) :
    Chosen key entry.group? := by
  obtain ⟨hname, hgroup, hkey, rfl, -⟩ := codecField_ok h
  -- the options that it takes over change nothing of its name and its group
  have hsame : (Entry.column (codec.inherit node.options).1).group? = codec.group :=
    (codec.inherit_slot node.options).2.2.1
  rw [hsame]
  have hown := declarable_of_checkName hname
  rcases columnKey_ok hkey with ⟨hnone, -, rfl⟩ | ⟨g, hsome, -, -, rfl⟩
  · rw [hnone]
    exact .own hown
  · rw [hsome] at hgroup ⊢
    exact .member (declarable_of_checkName hgroup) hown

theorem chosen_referenceField {schemaName storeName : Text} {options : OptionMap}
    (h : node.referenceField schemaName storeName options = .ok (key, entry)) :
    Chosen key entry.group? := by
  obtain ⟨hname, -, -, _, -, rfl⟩ := referenceField_ok h
  exact .own (declarable_of_checkName hname)

/-- A filler has the name of the next number, and no group. -/
theorem key_fillerField {width : UInt64} {padding : Text}
    (h : node.fillerField width padding = .ok (key, entry)) :
    key = Text.spacerName (node.fillers + 1) ∧ entry.group? = none := by
  obtain ⟨hkey, -, column, hcolumn, rfl, -⟩ := fillerField_ok h
  refine ⟨hkey, ?_⟩
  show ((Codec.column column).inherit node.options).1.group = none
  rw [(Codec.inherit_slot _ _).2.2.1]
  exact (Column.createFiller_valid hcolumn).2.2.2

end Schema

/-- **The key that a declaration gives to its field**: that of the next filler, or one that is
chosen. -/
theorem Declaration.key_field {d : Declaration} {node : Schema} {key : Text} {entry : Entry}
    (h : d.field node = .ok (key, entry)) :
    if d.isFiller then key = Text.spacerName (node.fillers + 1) ∧ entry.group? = none
    else Schema.Chosen key entry.group? := by
  cases d with
  | filler width padding => exact Schema.key_fillerField h
  | column name width options =>
    obtain ⟨column, -, h⟩ := Success.of_bind h
    exact Schema.chosen_codecField h
  | codec codec? =>
    cases codec? with
    | none => exact absurd h (by simp [field, Schema.givenField])
    | some codec => exact Schema.chosen_codecField (of_guard h).2
  | reference schemaName storeName options => exact Schema.chosen_referenceField h

namespace Schema

/-! ### What a schema keeps beside its fields -/

/-- The keys of a schema in order, with the groups of their codecs. -/
def places (node : Schema) : Listing (Option Text) := node.entries.map fun e => (e.1, e.2.group?)

theorem fields_eq_places (node : Schema) : node.fields = Listing.names node.places := by
  unfold fields places Listing.names
  rw [List.map_map]
  rfl

/-- The keys of a schema are of the three kinds, its fillers are numbered from one on, and its
groups are those of its fields. -/
structure Registered (node : Schema) : Prop where
  keys : ∀ key group?, (key, group?) ∈ node.places →
    Chosen key group? ∨ (∃ n, key = Text.spacerName n) ∧ group? = none
  fillers : ∀ n, Text.spacerName n ∈ node.fields ↔ 0 < n ∧ n ≤ node.fillers
  groups : ∀ g, g ∈ node.groups ↔ ∃ key, (key, some g) ∈ node.places

/-- Schemas with the same keys, groups and fillers. -/
structure SameKeys (a b : Schema) : Prop where
  places : b.places = a.places
  groups : b.groups = a.groups
  fillers : b.fillers = a.fillers

theorem SameKeys.refl (node : Schema) : SameKeys node node := ⟨rfl, rfl, rfl⟩

variable {a b : Schema}

theorem registered_blank : Registered .blank := by
  refine ⟨fun _ _ hmem => absurd hmem List.not_mem_nil, fun n => ?_, fun g => ?_⟩
  · constructor
    · intro hmem
      exact absurd hmem List.not_mem_nil
    · rintro ⟨hpos, hle⟩
      exact absurd (Nat.lt_of_lt_of_le hpos hle) (Nat.lt_irrefl 0)
  · constructor
    · intro hmem
      exact absurd hmem List.not_mem_nil
    · rintro ⟨key, hmem⟩
      exact absurd hmem List.not_mem_nil

theorem Registered.of_sameKeys (h : a.Registered) (hsame : a.SameKeys b) : b.Registered := by
  obtain ⟨hplaces, hgroups, hfillers⟩ := hsame
  refine ⟨?_, ?_, ?_⟩
  · rw [hplaces]
    exact h.keys
  · rw [fields_eq_places, hplaces, hfillers, ← fields_eq_places]
    exact h.fillers
  · rw [hplaces, hgroups]
    exact h.groups

/-- A schema with one more field than another, which is counted if it is a filler. -/
structure Gains (a b : Schema) (key : Text) (group? : Option Text) (filler : Bool) : Prop where
  places : b.places = a.places ++ [(key, group?)]
  groups : ∀ g, g ∈ b.groups ↔ g ∈ a.groups ∨ group? = some g
  fillers : b.fillers = a.fillers + filler.toNat

/-- **A schema that gains a field stays registered** if the key is chosen, or is that of the next
filler. -/
theorem Registered.gain (h : a.Registered) {key : Text} {group? : Option Text} {filler : Bool}
    (hgains : a.Gains b key group? filler)
    (hkey : if filler then key = Text.spacerName (a.fillers + 1) ∧ group? = none
      else Chosen key group?) : b.Registered := by
  obtain ⟨hplaces, hgroups, hcount⟩ := hgains
  have hfields (k : Text) : k ∈ b.fields ↔ k ∈ a.fields ∨ k = key := by
    rw [fields_eq_places, fields_eq_places, hplaces]
    unfold Listing.names
    rw [List.map_append, List.mem_append]
    exact or_congr_right List.mem_singleton
  refine ⟨fun k g? hmem => ?_, fun n => ?_, fun g => ?_⟩
  · rw [hplaces, List.mem_append, List.mem_singleton] at hmem
    rcases hmem with hold | hnew
    · exact h.keys k g? hold
    · obtain ⟨rfl, rfl⟩ := Prod.mk.inj hnew
      cases filler with
      | false => exact .inl hkey
      | true => exact .inr ⟨⟨_, hkey.1⟩, hkey.2⟩
  · rw [hfields, h.fillers, hcount]
    cases filler with
    | false =>
      constructor
      · rintro (hold | hnew)
        · exact hold
        · exact absurd hnew.symm (Chosen.ne_spacerName hkey n)
      · exact .inl
    | true =>
      -- the new name is that of one number only, and this is the first that is free
      have hnew : Text.spacerName n = key ↔ n = a.fillers + 1 := by
        rw [hkey.1]
        exact Text.spacerName_injective.eq_iff
      rw [hnew]
      show _ ↔ 0 < n ∧ n ≤ a.fillers + 1
      omega
  · rw [hgroups, h.groups, hplaces]
    simp only [List.mem_append, List.mem_singleton, Prod.mk.injEq, exists_or, exists_eq_left]
    exact or_congr_right eq_comm

end Schema

namespace Layout

variable {L M : Layout}

/-! ### What a layout keeps -/

/-- All schemas are registered, and their names may be declared. -/
structure Registered (L : Layout) : Prop where
  schema : ∀ s, (L.schema s).Registered
  name : ∀ s, s < L.schemas.length → (L.schema s).name.IsDeclarable

theorem sameKeys_modify {s : SchemaId} {f : Schema → Schema}
    (hf : (L.schema s).SameKeys (f (L.schema s))) (t : SchemaId) :
    (L.schema t).SameKeys ((L.modify s f).schema t) := by
  rw [schema_modify]
  split
  · next ht =>
    obtain rfl := ht.1
    exact hf
  · exact .refl _

/-- A field that is changed keeps its place. -/
theorem sameKeys_modifyEntry {s : SchemaId} {key : Text} {f : Entry → Entry}
    (hf : ∀ e, (L.schema s).find? key = some e → (f e).group? = e.group?) (t : SchemaId) :
    (L.schema t).SameKeys ((L.modifyEntry s key f).schema t) := by
  refine sameKeys_modify (f := fun node =>
    { node with entries := Listing.modify node.entries key f }) ⟨?_, rfl, rfl⟩ t
  exact Listing.map_modify hf

/-- Changes of queries and propagations leave all keys and groups as they are. -/
theorem Change.sameKeys {r : Nat} (h : Change r L M) (t : SchemaId) :
    (L.schema t).SameKeys (M.schema t) := by
  have hreference {s : SchemaId} {key : Text} {ref ref' : Reference}
      (hfind : (L.schema s).find? key = some (.reference ref)) :
      (L.schema t).SameKeys ((L.modifyEntry s key fun _ => .reference ref').schema t) := by
    apply sameKeys_modifyEntry
    intro e he
    obtain rfl := Option.some.inj (hfind.symm.trans he)
    rfl
  cases h with
  | received s values => exact sameKeys_modify ⟨rfl, rfl, rfl⟩ t
  | options s values => exact sameKeys_modify ⟨rfl, rfl, rfl⟩ t
  | codec hfind values =>
    apply sameKeys_modifyEntry
    intro e he
    obtain rfl := Option.some.inj (hfind.symm.trans he)
    exact (Codec.sameSlot_takeOver _ values).group
  | enqueued hfind _ values => exact hreference hfind
  | refused hfind _ reason =>
    apply sameKeys_modifyEntry
    intro e he
    obtain rfl := Option.some.inj (hfind.symm.trans he)
    rfl
  | bound _ hfind _ _ => exact hreference hfind
  | measured => exact sameKeys_modify ⟨rfl, rfl, rfl⟩ t

theorem declarable_of_newSchema {scope : Scope} {name : Text} {options : OptionMap} {node : Schema}
    (h : L.newSchema scope name options = .ok node) : node.name.IsDeclarable := by
  obtain ⟨_, _, rfl, -, -, hname, -⟩ := newSchema_ok h
  exact declarable_of_checkName hname

/-- What one step of growth does to the keys of a schema: nothing, or a nested schema of the layout
becomes a field. -/
theorem Growth.keys (h : L.Growth M) (t : SchemaId) :
    (L.schema t).SameKeys (M.schema t) ∨ ∃ child, child < L.schemas.length
      ∧ (L.schema t).Gains (M.schema t) (L.schema child).name none false := by
  cases h with
  | change h => exact .inl (h.sameKeys t)
  | pushed h =>
    left
    rw [schema_push]
    split
    · next hlast =>
      obtain ⟨_, _, rfl, -⟩ := newSchema_ok h
      rw [schema_of_le (Nat.le_of_eq hlast.symm)]
      exact ⟨rfl, rfl, rfl⟩
    · exact .refl _
  | @nested parent child hchild =>
    rw [schema_append]
    split
    · refine .inr ⟨child, hchild, List.map_append, fun g => ?_, rfl⟩
      show g ∈ insertGroup (L.schema t).groups none ↔ _
      exact mem_insertGroup
    · exact .inl (.refl _)
  | setting s hf =>
    obtain ⟨-, hentries, hgroups, hfillers, -⟩ := hf (L.schema s)
    refine .inl (sameKeys_modify ⟨?_, hgroups, hfillers⟩ t)
    unfold Schema.places
    rw [hentries]
  | catalogs h =>
    unfold schema
    rw [h]
    exact .inl (.refl _)

/-- Schemas keep their names, and new ones get names that may be declared. -/
structure KeepsNames (L M : Layout) : Prop where
  length_le : L.schemas.length ≤ M.schemas.length
  name : ∀ t, t < L.schemas.length → (M.schema t).name = (L.schema t).name
  fresh : ∀ t, L.schemas.length ≤ t → t < M.schemas.length → (M.schema t).name.IsDeclarable

theorem keepsNames_of_length (hlength : M.schemas.length = L.schemas.length)
    (hname : ∀ t, (M.schema t).name = (L.schema t).name) : L.KeepsNames M := by
  refine ⟨Nat.le_of_eq hlength.symm, fun t _ => hname t, fun t hle hlt => ?_⟩
  rw [hlength] at hlt
  exact absurd hlt (Nat.not_lt_of_le hle)

theorem Growth.keepsNames (h : L.Growth M) : L.KeepsNames M := by
  cases h with
  | change h => exact keepsNames_of_length h.follows.length fun t => (h.follows.schema t).name
  | @pushed _ _ _ node hnode =>
    refine ⟨?_, fun t ht => by rw [schema_push_of_lt L node ht], fun t hle hlt => ?_⟩
    · rw [length_push]
      exact Nat.le_succ _
    · rw [length_push] at hlt
      rw [schema_push, if_pos (Nat.le_antisymm (Nat.le_of_lt_succ hlt) hle)]
      exact declarable_of_newSchema hnode
  | nested parent => exact keepsNames_of_length (length_append ..) (name_append L parent _ _)
  | setting s hf =>
    refine keepsNames_of_length (length_modify ..) fun t => ?_
    rw [schema_modify]
    split
    · exact (hf _).name
    · rfl
  | catalogs h =>
    refine keepsNames_of_length (by rw [h]) fun t => ?_
    unfold schema
    rw [h]

theorem Growth.registered (h : L.Growth M) (hL : L.Registered) : M.Registered := by
  have hnames := h.keepsNames
  refine ⟨fun t => ?_, fun t ht => ?_⟩
  · rcases h.keys t with hsame | ⟨child, hchild, hgains⟩
    · exact (hL.schema t).of_sameKeys hsame
    · exact (hL.schema t).gain hgains (.own (hL.name child hchild))
  · rcases Nat.lt_or_ge t L.schemas.length with hlt | hge
    · rw [hnames.name t hlt]
      exact hL.name t hlt
    · exact hnames.fresh t hge ht

theorem registered_empty : Layout.empty.Registered := by
  refine ⟨fun s => ?_, fun s hs => absurd hs (Nat.not_lt_zero s)⟩
  rw [schema_of_le (L := .empty) (Nat.zero_le s)]
  exact Schema.registered_blank

/-- What the new field of a declaration adds to its schema. -/
theorem gains_add (L : Layout) (d : Declaration) {s : SchemaId} (hs : s < L.schemas.length)
    (key : Text) (entry : Entry) :
    (L.schema s).Gains ((d.add L s key entry).schema s) key entry.group? d.isFiller := by
  rw [schema_add, if_pos ⟨rfl, hs⟩]
  exact ⟨List.map_append, fun g => mem_insertGroup, rfl⟩

/-- The other schemas stay as they are. -/
theorem schema_add_of_ne (L : Layout) (d : Declaration) {s t : SchemaId} (ht : s ≠ t) (key : Text)
    (entry : Entry) : (d.add L s key entry).schema t = L.schema t := by
  rw [schema_add, if_neg fun h => ht h.1]

theorem name_add (L : Layout) (d : Declaration) (s : SchemaId) (key : Text) (entry : Entry)
    (t : SchemaId) : ((d.add L s key entry).schema t).name = (L.schema t).name := by
  rw [schema_add]
  split <;> rfl

/-- **A declaration keeps a layout registered.** -/
theorem Registered.add (hL : L.Registered) {d : Declaration} {s : SchemaId}
    (hs : s < L.schemas.length) {key : Text} {entry : Entry}
    (hfield : d.field (L.schema s) = .ok (key, entry)) : (d.add L s key entry).Registered := by
  refine ⟨fun t => ?_, fun t ht => ?_⟩
  · by_cases hst : s = t
    · subst hst
      exact (hL.schema s).gain (gains_add L d hs key entry) (Declaration.key_field hfield)
    · rw [schema_add_of_ne L d hst]
      exact hL.schema t
  · rw [length_add] at ht
    rw [name_add]
    exact hL.name t ht

end Layout

namespace Session

open Layout Build

variable {S : Session} {m : Move}

/-! ### Groups and fillers in a session -/

/-- **What one move keeps of groups and fillers.** -/
theorem step_registered (hS : S.Sane) (hm : S.Possible m) (hL : S.layout.Registered) :
    (S.step m).layout.Registered := by
  apply step_keeps hS hL fun _ _ hgrowth => hgrowth.registered
  rintro s d rfl key entry hfield
  exact hL.add hm.1 hfield

/-- **Groups and fillers are kept right**, whatever is done. -/
theorem Reached.registered (hS : S.Reached Possible) : S.layout.Registered := by
  induction hS with
  | start => exact registered_empty
  | step hS hm ih => exact step_registered hS.sane hm ih

/-- A schema keeps its name. -/
theorem step_name (hS : S.Sane) {t : SchemaId} (ht : t < S.layout.schemas.length) :
    ((S.step m).layout.schema t).name = (S.layout.schema t).name := by
  -- the schema has to stay in its place for its name to be kept by the next step of growth
  have hkeeps := step_keeps (m := m) (I := fun L => t < L.schemas.length
    ∧ (L.schema t).name = (S.layout.schema t).name) hS ⟨ht, rfl⟩ ?_ ?_
  · exact hkeeps.2
  · intro L M hgrowth hL
    have hnames := hgrowth.keepsNames
    exact ⟨Nat.lt_of_lt_of_le hL.1 hnames.length_le, (hnames.name t hL.1).trans hL.2⟩
  · intro s d _ key entry _
    exact ⟨by rwa [length_add], name_add ..⟩

/-- Whether a filler is added to a schema. -/
def addsFiller (S : Session) (s : SchemaId) : Move → Bool
  | .declare t (.filler width padding) =>
    t == s && (declareFiller t width padding).gives S.layout ()
  | _ => false

/-- The number of moves that add a filler to a schema. -/
def fillersAdded (s : SchemaId) : Session → List Move → Nat
  | _, [] => 0
  | S, m :: moves => (S.addsFiller s m).toNat + fillersAdded s (S.step m) moves

theorem gives_run (d : Declaration) (s : SchemaId) (L : Layout) :
    (d.run s).gives L () = (d.field (L.schema s)).isOk := by
  unfold gives
  rw [d.run_apply]
  cases d.field (L.schema s) with
  | ok made => exact decide_eq_true rfl
  | error e => rfl

theorem addsFiller_declare (S : Session) (s t : SchemaId) (d : Declaration) :
    S.addsFiller s (.declare t d)
      = (d.isFiller && (t == s && (d.field (S.layout.schema t)).isOk)) := by
  cases d with
  | column | codec | reference => simp [addsFiller, Declaration.isFiller]
  | filler width padding =>
    have hgives := gives_run (.filler width padding) t S.layout
    rw [← hgives]
    rfl

/-- **Every filler that is added is counted, and nothing else is.** -/
theorem step_fillers (hS : S.Sane) (hm : S.Possible m) (s : SchemaId) :
    ((S.step m).layout.schema s).fillers
      = (S.layout.schema s).fillers + (S.addsFiller s m).toNat := by
  -- what is no declaration grows the layout, and growth adds no filler
  have hgrows (hnot : ∀ s d, m ≠ .declare s d) (hadds : S.addsFiller s m = false) :
      ((S.step m).layout.schema s).fillers
        = (S.layout.schema s).fillers + (S.addsFiller s m).toNat := by
    rw [hadds]
    refine (step_grows hS hnot).keeps (I := fun L =>
      (L.schema s).fillers = (S.layout.schema s).fillers) (fun L M hgrowth hL => ?_) rfl
    rcases hgrowth.keys s with hsame | ⟨_, -, hgains⟩
    · exact hsame.fillers.trans hL
    · exact hgains.fillers.trans hL
  cases m with
  | declare t d =>
    rw [step_declare, addsFiller_declare]
    cases hfield : d.field (S.layout.schema t) with
    | error e => simp [Except.isOk, Except.toBool]
    | ok made =>
      obtain ⟨key, entry⟩ := made
      show ((d.add S.layout t key entry).schema s).fillers = _
      by_cases hts : t = s
      · subst hts
        rw [(gains_add S.layout d hm.1 key entry).fillers]
        simp [Except.isOk, Except.toBool]
      · rw [schema_add_of_ne S.layout d hts]
        simp [hts]
  | _ => exact hgrows (fun _ _ => by simp) rfl

/-- A run counts the fillers that it adds. -/
theorem fillers_moves (hS : S.Reached Possible) {moves : List Move}
    (hmoves : S.Allowed Possible moves) (s : SchemaId) :
    ((moves.foldl Session.step S).layout.schema s).fillers
      = (S.layout.schema s).fillers + fillersAdded s S moves := by
  induction moves generalizing S with
  | nil => rfl
  | cons m moves ih =>
    have hrest := ih (.step hS hmoves.1) hmoves.2
    rw [List.foldl_cons, hrest, step_fillers hS.sane hmoves.1, fillersAdded]
    exact Nat.add_assoc ..

end Session

end RecordLayout
