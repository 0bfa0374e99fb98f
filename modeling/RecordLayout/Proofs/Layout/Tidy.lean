import RecordLayout.Proofs.Layout.Enlarge
import RecordLayout.Proofs.Layout.Orderly

/-!
# Tidy sessions

A nested schema takes over what its parent defines when its builder begins, and becomes a field of
the parent when the builder is done.  Builders that only declare fields do not change what the
parent defines in the meantime, so the schema still supplies all of it then; sets without NaNs equal
themselves, so no schema takes one twice; and codecs that receive what schemas hand down refuse none
of what schemas take.  In such sessions all layouts are steady.

Columns receive what is handed down.  Of a codec that is made elsewhere it is a premise: its
options, if it has any, are there to receive values from the schemas around it, so a value is
refused only where schemas refuse it for their own option of that name.

## Main definitions

* `Session.Tidy`: the moves of builders that do nothing but declare, of codecs that receive what is
  handed down, and of propagations without NaNs.
* `Session.Steady`: the layout is steady, and schemas that are being built supply what their parents
  define.

## Main results

* `Session.step_steady`: what one move keeps.
* `Session.Reached.steady`: **layouts are steady**.
-/

namespace RecordLayout

open Layout Build

/-- A move that neither sets nor propagates options, and asks nothing. -/
def Move.Declares : Move → Prop
  | .setOption .. => False
  | .propagate .. => False
  | .ask _ => False
  | _ => True

/-- A move that declares no codec but one that receives what is handed down. -/
def Move.Receptive : Move → Prop
  | .declare _ d => d.Receptive
  | _ => True

/-- A move that propagates no NaN. -/
def Move.Proper : Move → Prop
  | .propagate options _ => options.Proper
  | _ => True

namespace Session

/-- The moves of builders that only declare fields of the schema they build, where all codecs
receive what is handed down and no NaN is propagated. -/
def Tidy (S : Session) (m : Move) : Prop :=
  S.Orderly m ∧ (S.sites ≠ [] → m.Declares) ∧ m.Receptive ∧ m.Proper

/-- A schema that is being built, and will become a field, supplies what its parent defines. -/
def Supplied (L : Layout) (site : Site) : Prop :=
  ∀ p, site.parent? = some p → p < L.schemas.length
    ∧ Supplies L.Joins L site.schema (L.schema p).options.defined

/-- The layout is steady, and schemas that are being built supply what their parents define. -/
structure Steady (S : Session) : Prop where
  layout : S.layout.Steady
  supplied : ∀ site ∈ S.sites, Supplied S.layout site

variable {S : Session} {L M : Layout}

/-! ### Changes of a session -/

/-- Growth that opens no way, and changes no options of the schemas that there were. -/
structure Widens (L M : Layout) : Prop where
  enlarges : L.Enlarges M
  options : ∀ s < L.schemas.length, (M.schema s).options = (L.schema s).options

theorem Widens.trans {N : Layout} (h : Widens L M) (h' : Widens M N) : Widens L N :=
  ⟨h.enlarges.trans h'.enlarges, fun s hs =>
    (h'.options s (Nat.lt_of_lt_of_le hs h.enlarges.length_le)).trans (h.options s hs)⟩

theorem Supplied.widen {site : Site} (h : Supplied L site) (hLM : Widens L M) (hL : L.Coherent)
    (hsite : site.schema < L.schemas.length) : Supplied M site := by
  intro p hp
  obtain ⟨hlt, hsupplies⟩ := h p hp
  refine ⟨Nat.lt_of_lt_of_le hlt hLM.enlarges.length_le, ?_⟩
  rw [hLM.options p hlt]
  exact hLM.enlarges.supplies hL hsite hsupplies

theorem Steady.widen (hS : S.Steady) (hsane : S.Sane) (h : Widens S.layout L) (hL : L.Sane) :
    Steady { S with layout := L } :=
  ⟨hS.layout.enlarge h.enlarges hL, fun site hsite =>
    (hS.supplied site hsite).widen h hsane.layout.wellMade.coherent (hsane.sites site hsite)⟩

/-- A session in which no builder is at work. -/
theorem Steady.of_idle (hsites : S.sites = []) (hL : L.Steady) :
    Steady { S with layout := L } :=
  ⟨hL, fun site hsite => absurd hsite (by simp [hsites])⟩

/-- A builder that begins. -/
theorem Steady.open (hS : S.Steady) (hsane : S.Sane) (h : Widens S.layout L) (hL : L.Sane)
    {site : Site} (hsite : Supplied L site) : Steady ⟨site :: S.sites, L⟩ := by
  have hwiden := hS.widen hsane h hL
  refine ⟨hwiden.layout, fun other hother => ?_⟩
  rcases List.mem_cons.mp hother with rfl | hother
  · exact hsite
  · exact hwiden.supplied other hother

theorem widens_push {scope : Scope} {name : Text} {options : OptionMap} {node : Schema}
    (h : L.newSchema scope name options = .ok node) : Widens L (L.push node) := by
  obtain ⟨_, _, rfl, -⟩ := newSchema_ok h
  exact ⟨enlarges_push rfl rfl, fun s hs => by rw [schema_push_of_lt L _ hs]⟩

theorem widens_setting (L : Layout) (s : SchemaId) {f : Schema → Schema}
    (hf : ∀ a, (f a).entries = a.entries ∧ (f a).options = a.options
      ∧ (f a).received = a.received) :
    Widens L (L.modify s f) := by
  refine ⟨enlarges_setting s hf, fun t _ => ?_⟩
  rw [schema_modify]
  split
  · exact (hf _).2.1
  · rfl

theorem widens_markBusy (L : Layout) (s : SchemaId) (busy : Bool) : Widens L (L.markBusy s busy) :=
  widens_setting L s fun _ => ⟨rfl, rfl, rfl⟩

theorem widens_of_schemas (h : M.schemas = L.schemas) : Widens L M := by
  refine ⟨enlarges_of_schemas h, fun s _ => ?_⟩
  unfold Layout.schema
  rw [h]

/-- A declaration adds a field, and opens no way. -/
theorem widens_add (hL : L.Sane) {s : SchemaId} (hs : s < L.schemas.length) {key : Text}
    {entry : Entry} (h : (L.schema s).Accepts key entry) (hreceptive : entry.Receptive)
    (d : Declaration) : Widens L (d.add L s key entry) := by
  have happend : Widens L (L.append s key entry) := by
    refine ⟨enlarges_append hL.tabled h hreceptive hs, fun t _ => ?_⟩
    rw [schema_append]
    split <;> rfl
  exact d.add_induction happend fun h => h.trans (widens_setting _ s fun _ => ⟨rfl, rfl, rfl⟩)

/-! ### Nested schemas -/

/-- A builder begins on a nested schema, which has taken over what its parent defines. -/
theorem Steady.beginNested (hS : S.Steady) (hsane : S.Sane) {parent : SchemaId} {name : Text}
    {options : OptionMap} {node : Schema}
    (hnode : S.layout.newSchema (.within parent) name options = .ok node)
    (hparent : parent < S.layout.schemas.length) :
    Steady ⟨.nested parent S.layout.schemas.length :: S.sites,
      (S.layout.push node).markBusy S.layout.schemas.length true⟩ := by
  have hbusy := widens_markBusy (S.layout.push node) S.layout.schemas.length true
  have hwidens := (widens_push hnode).trans hbusy
  have hsane' := (hsane.layout.push (show S.layout.ScopeExists (.within parent) from hparent)
    hnode).sane
  refine hS.open hsane hwidens (hsane'.markBusy _ true).sane fun p hp => ?_
  obtain rfl := Option.some.inj hp
  refine ⟨Nat.lt_of_lt_of_le hparent hwidens.enlarges.length_le, ?_⟩
  rw [hwidens.options parent hparent]
  refine hbusy.enlarges.supplies hsane'.wellMade.coherent (lt_length_push ..) ?_
  obtain ⟨_, _, hrecord, -, -, -, hignores⟩ := newSchema_ok hnode
  rw [hrecord]
  exact Supplies.push rfl (hignores _ rfl)

/-- A session without its innermost builder. -/
theorem Steady.rest (hS : S.Steady) {site : Site} {sites : List Site}
    (hsites : S.sites = site :: sites) : Steady ⟨sites, S.layout⟩ := by
  refine ⟨hS.layout, fun other hother => hS.supplied other ?_⟩
  rw [hsites]
  exact List.mem_cons_of_mem _ hother

/-- The builder of a nested schema that ends.  The schema still supplies what its parent defines. -/
theorem Steady.closeNested (hS : S.Steady) (hsane : S.Sane) {parent child : SchemaId}
    {sites : List Site} (hsites : S.sites = .nested parent child :: sites) (key : Text)
    (hclosed : ((S.layout.markBusy child false).append parent key (.nested child)).Sane) :
    Steady ⟨sites, (S.layout.markBusy child false).append parent key (.nested child)⟩ := by
  have hmem : .nested parent child ∈ S.sites := hsites ▸ List.mem_cons_self
  have hbusy := widens_markBusy S.layout child false
  have hsaneBusy := (hsane.layout.markBusy child false).sane
  have hidle := (hS.rest hsites).widen (hsane.rest hsites) hbusy hsaneBusy
  have hchild := hsane.lt_idle hsites
  -- nothing has changed what the parent defines since the builder began
  obtain ⟨hparent, hsupplies⟩ := (hS.supplied _ hmem).widen hbusy hsane.layout.wellMade.coherent
    (hsane.sites _ hmem) parent rfl
  refine ⟨hidle.layout.appendNested hparent hsupplies _ hclosed, fun other hother p hp => ?_⟩
  obtain ⟨hlt, hother'⟩ := hidle.supplied other hother p hp
  refine ⟨by rw [length_append]; exact hlt, fun key value hvalue hshared => ?_⟩
  refine covers_appendNested hsaneBusy hparent hsupplies _ hshared (hother' key value ?_ hshared)
  rw [schema_append] at hvalue
  split at hvalue <;> exact hvalue

/-! ### Moves -/

/-- **What one move keeps.** -/
theorem step_steady (hS : S.Steady) (hsane : S.Sane) {m : Move} (hm : S.Tidy m) :
    (S.step m).Steady := by
  obtain ⟨⟨hpossible, -⟩, hdeclares, hreceptive, hproper⟩ := hm
  have hsane' := (step_sane hsane hpossible).1.layout
  -- while a builder is at work, no options change
  have hidle (hnot : ¬ m.Declares) : S.sites = [] :=
    Classical.not_not.mp fun hsites => hnot (hdeclares hsites)
  have heffect := S.step_effect m
  generalize S.step m = T at heffect hsane' ⊢
  cases heffect with
  | refused => exact hS
  | created hnode => exact hS.widen hsane (widens_push hnode) hsane'
  | defined | cataloged => exact hS.widen hsane (widens_of_schemas rfl) hsane'
  | listed hopen hnode hfree =>
    exact hS.widen hsane ((widens_push hnode).trans (widens_of_schemas rfl)) hsane'
  | @declared s d key entry hfield =>
    have haccepts := Declaration.accepts hpossible.2 hfield
    have hfieldReceptive := Declaration.receptive hreceptive hfield
    exact hS.widen hsane (widens_add hsane.layout hpossible.1 haccepts hfieldReceptive d) hsane'
  | set htable =>
    exact Steady.of_idle (hidle id) (hS.layout.enlarge (enlarges_setOption _ htable) hsane')
  | conditioned s condition? =>
    exact hS.widen hsane (widens_setting _ s fun _ => ⟨rfl, rfl, rfl⟩) hsane'
  | propagated options s =>
    exact Steady.of_idle (hidle id)
      (ends_iff.mp (propagate_steady hS.layout hproper.equal_self hpossible))
  | asked q =>
    exact Steady.of_idle (hidle id)
      ((ends_iff.mp (q.gentle S.layout hsane.layout.wellMade)).2 _ steady_kept hS.layout)
  | begunNested hopen hnode hkey => exact hS.beginNested hsane hnode hpossible
  | begunListed hopen hnode hfree =>
    exact hS.open hsane ((widens_push hnode).trans (widens_markBusy _ _ true)) hsane'
      fun p hp => absurd hp (by simp [Site.parent?])
  | @begunSetup s hidle =>
    exact hS.open hsane (widens_markBusy _ s true) hsane' fun p hp =>
      absurd hp (by simp [Site.parent?])
  | @closed site sites succeeded hsites hnothing =>
    exact (hS.rest hsites).widen (hsane.rest hsites) (widens_markBusy _ site.schema false) hsane'
  | closedNested hsites => exact hS.closeNested hsane hsites _ hsane'
  | @closedListed c s sites hsites =>
    exact (hS.rest hsites).widen (hsane.rest hsites)
      ((widens_markBusy _ s false).trans (widens_of_schemas rfl)) hsane'

theorem steady_start : (⟨[], .empty⟩ : Session).Steady := by
  refine ⟨⟨wellMade_empty, tabled_empty, every_empty _, fun s key ref href => ?_, fun s m hm => ?_⟩,
    fun _ h => absurd h (by simp)⟩
  · exact absurd (every_empty (fun _ => False) s key _ href) id
  · rw [schema_of_le (L := .empty) (Nat.zero_le s)] at hm
    exact absurd hm (by simp [Schema.blank])

/-- **Layouts are steady**, if builders only declare fields of the schema they build, all codecs
receive what is handed down and no NaN is propagated. -/
theorem Reached.steady (hS : S.Reached Tidy) : S.Steady := by
  induction hS with
  | start => exact steady_start
  | step hS hm ih => exact step_steady ih (hS.mono fun _ _ h => h.1.1).sane hm

/-! ### A codec that is made elsewhere -/

/-- Options of a codec that is made elsewhere: an alignment as schemas have it, and a mark that only
such codecs have, which can be anything. -/
def stampOptions : OptionSchema where
  serial := firstFreeSerial
  owner := "stamp"
  specs := [alignSpec none, { name := "mark", inheritable := true }]

/-- A codec of four characters that writes on which side its value would stand. -/
def stamp : CustomCodec where
  name := "stamp"
  width := 4
  group := none
  isFiller := false
  options? := some ⟨stampOptions, .empty⟩
  readWith _ text := .ok (.text text)
  writeWith options? _ :=
    if options?.any fun t => (t.get OptionName.align).equal (.text "left") then .ok "<<<<"
    else .ok ">>>>"

end Session

end RecordLayout
