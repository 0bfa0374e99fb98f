import RecordLayout.Proofs.Layout.Names

/-!
# Orderly sessions

A nested schema becomes a field when its builder is done, and its name is not checked again then; so
a builder at work inside could take the name away.  Builders that only declare fields of the schema
they build cannot, and all fields stand under their own names.

## Main definitions

* `Session.Orderly`: the moves of builders that only declare fields of the schema they build.
* `Layout.Awaits`: the name of a schema that is being built is still free in its parent.
* `Session.Named`: all fields stand under their names, and those to come will.

## Main results

* `Session.step_named`: what one move keeps.
* `Session.Reached.named`: **fields stand under their own names, all different**.
* `Session.Reached.settled`: what a validated schema of an orderly session is.
-/

namespace RecordLayout

open Layout Build

namespace Site

/-- The schema that the one being built becomes a field of. -/
def parent? : Site → Option SchemaId
  | nested parent _ => some parent
  | _ => none

/-- A site at which a schema is built, or nested in. -/
def Touches (site : Site) (s : SchemaId) : Prop := site.schema = s ∨ site.parent? = some s

end Site

/-- The name of a schema that is being built is still free in its parent. -/
def Layout.Awaits (L : Layout) (site : Site) : Prop :=
  ∀ p, site.parent? = some p → p < L.schemas.length ∧ p ≠ site.schema
    ∧ (L.schema p).Free (L.schema site.schema).name

namespace Session

/-- The moves of builders that only declare fields of the schema they build.  Where no builder is at
work all schemas may get fields; and no schema is set up by a builder at work inside it. -/
def Orderly (S : Session) (m : Move) : Prop :=
  S.Possible m ∧ match m with
    | .declare s _ => ∀ site ∈ S.sites.head?, site.schema = s
    | .beginNested s _ _ => ∀ site ∈ S.sites.head?, site.schema = s
    | .beginSetup s => (S.layout.schema s).busy = false → ∀ site ∈ S.sites, site.parent? ≠ some s
    | _ => True

/-- All fields stand under their names, the schemas that are being built will, and no builder
touches a schema that another one inside it is at work for. -/
structure Named (S : Session) : Prop where
  layout : S.layout.Named
  awaits : ∀ site ∈ S.sites, S.layout.Awaits site
  apart : S.sites.Pairwise fun above below => ∀ p, below.parent? = some p → ¬ above.Touches p

variable {S : Session}

/-! ### Changes of a session -/

theorem Named.keep (hS : S.Named) (hsane : S.Sane) {L : Layout} (h : S.layout.Keeps L) :
    Named { S with layout := L } := by
  refine ⟨h.named hS.layout, fun site hsite p hp => ?_, hS.apart⟩
  obtain ⟨hlt, hne, hfree⟩ := hS.awaits site hsite p hp
  refine ⟨Nat.lt_of_lt_of_le hlt h.length_le, hne, ?_⟩
  rw [h.name _ (hsane.sites site hsite)]
  exact h.free p _ hlt hfree

/-- No schema waits to become a field of the one that the innermost builder works on. -/
theorem Named.untouched (hS : S.Named) {s : SchemaId}
    (hs : ∀ site ∈ S.sites.head?, site.schema = s) : ∀ site ∈ S.sites, site.parent? ≠ some s := by
  intro site hsite hparent
  have hawaits := hS.awaits site hsite s hparent
  have hapart := hS.apart
  cases hsites : S.sites with
  | nil =>
    rw [hsites] at hsite
    exact absurd hsite (by simp)
  | cons top below =>
    rw [hsites] at hs hsite hapart
    have htop : top.schema = s := hs top rfl
    rcases List.mem_cons.mp hsite with rfl | hbelow
    · exact hawaits.2.1 htop.symm
    · exact (List.pairwise_cons.mp hapart).1 site hbelow s hparent (.inl htop)

/-- A new field of a schema that no other waits to become a field of. -/
theorem Named.append (hS : S.Named) {s : SchemaId} {key : Text} {entry : Entry}
    (hs : ∀ site ∈ S.sites, site.parent? ≠ some s)
    (hadmits : (S.layout.schema s).Admits key entry) :
    Named { S with layout := S.layout.append s key entry } := by
  refine ⟨hS.layout.append hadmits, fun site hsite p hp => ?_, hS.apart⟩
  obtain ⟨hlt, hne, hfree⟩ := hS.awaits site hsite p hp
  refine ⟨?_, hne, ?_⟩
  · rw [length_append]
    exact hlt
  · rw [name_append]
    refine free_append (fun hps => hs site hsite ?_) hfree
    rw [hp, hps]

/-- A builder that begins. -/
theorem Named.open (hS : S.Named) (hsane : S.Sane) {L : Layout} (h : S.layout.Keeps L) {site : Site}
    (hsite : L.Awaits site)
    (hapart : ∀ below ∈ S.sites, ∀ p, below.parent? = some p → ¬ site.Touches p) :
    Named ⟨site :: S.sites, L⟩ := by
  have hkeep := hS.keep hsane h
  refine ⟨hkeep.layout, fun other hother => ?_, List.pairwise_cons.mpr ⟨hapart, hS.apart⟩⟩
  rcases List.mem_cons.mp hother with rfl | hother
  · exact hsite
  · exact hkeep.awaits other hother

/-- A session without its innermost builder. -/
theorem Named.rest (hS : S.Named) {site : Site} {sites : List Site}
    (hsites : S.sites = site :: sites) : Named ⟨sites, S.layout⟩ := by
  have hawaits := hS.awaits
  have hapart := hS.apart
  rw [hsites] at hawaits hapart
  exact ⟨hS.layout, fun other hother => hawaits other (List.mem_cons_of_mem _ hother),
    (List.pairwise_cons.mp hapart).2⟩

/-- The builder of a nested schema that ends.  The name of the schema is still free. -/
theorem Named.closeNested (hS : S.Named) (hsane : S.Sane) {parent child : SchemaId}
    {sites : List Site} (hsites : S.sites = .nested parent child :: sites) :
    Named ⟨sites, (S.layout.markBusy child false).append parent
      ((S.layout.markBusy child false).schema child).name (.nested child)⟩ := by
  have hmem : .nested parent child ∈ S.sites := hsites ▸ List.mem_cons_self
  have hbusy := keeps_markBusy S.layout child false
  -- the key was free when the builder began, and no builder below could have used it since
  obtain ⟨hlt, -, hfree⟩ := hS.awaits _ hmem parent rfl
  have hadmits := (hbusy.free parent _ hlt hfree).admits_nested child
  change ((S.layout.markBusy child false).schema parent).Admits (S.layout.schema child).name _
    at hadmits
  rw [← hbusy.name child (hsane.sites _ hmem)] at hadmits
  have hidle := (hS.rest hsites).keep (hsane.rest hsites) hbusy
  have hapart := hS.apart
  rw [hsites] at hapart
  refine hidle.append (fun other hother hp => ?_) hadmits
  exact (List.pairwise_cons.mp hapart).1 other hother parent hp (.inr rfl)

/-! ### Moves -/

/-- A declaration in a schema that no other waits to become a field of. -/
theorem Named.add (hS : S.Named) (hsane : S.Sane) {s : SchemaId}
    (hs : ∀ site ∈ S.sites, site.parent? ≠ some s) {key : Text} {entry : Entry}
    (h : (S.layout.schema s).Accepts key entry) (d : Declaration) :
    Named { S with layout := d.add S.layout s key entry } := by
  refine d.add_induction (P := fun L => Named { S with layout := L }) (hS.append hs h.admits)
    fun happend => ?_
  have hsane' : Sane { S with layout := S.layout.append s key entry } := by
    obtain ⟨hwithin, htabled, -⟩ := h.entry S.layout.schemas.length
    refine ⟨hsane.layout.append_sane s key hwithin htabled, fun site hsite => ?_⟩
    exact Nat.lt_of_lt_of_eq (hsane.sites site hsite) (length_append ..).symm
  exact happend.keep hsane' (keeps_modify _ s (fun _ => rfl) (fun _ => rfl) fun _ => rfl)

theorem keeps_newSchema {L : Layout} {scope : Scope} {name : Text} {options : OptionMap}
    {node : Schema} (h : L.newSchema scope name options = .ok node) : L.Keeps (L.push node) := by
  obtain ⟨_, _, rfl, -⟩ := newSchema_ok h
  exact keeps_push L rfl

theorem not_touches_new (hS : S.Named) {site : Site} (hsite : site.schema = S.layout.schemas.length)
    (hparent : ∀ below ∈ S.sites, site.parent? = none ∨ below.parent? ≠ site.parent?) :
    ∀ below ∈ S.sites, ∀ p, below.parent? = some p → ¬ site.Touches p := by
  rintro below hbelow p hp (hschema | htouch)
  · have hlt := (hS.awaits below hbelow p hp).1
    rw [← hschema, hsite] at hlt
    exact absurd hlt (Nat.lt_irrefl _)
  · rcases hparent below hbelow with hnone | hne
    · exact absurd (hnone.symm.trans htouch) (by simp)
    · exact hne (hp.trans htouch.symm)

/-- A builder begins on a nested schema, under a name that no other will take. -/
theorem Named.beginNested (hS : S.Named) (hsane : S.Sane) {parent : SchemaId} {name : Text}
    {options : OptionMap} {node : Schema}
    (hnode : S.layout.newSchema (.within parent) name options = .ok node)
    (hkey : (S.layout.schema parent).checkNewKey node.name = .ok ())
    (hparent : parent < S.layout.schemas.length)
    (hfree : ∀ site ∈ S.sites, site.parent? ≠ some parent) :
    Named ⟨.nested parent S.layout.schemas.length :: S.sites,
      (S.layout.push node).markBusy S.layout.schemas.length true⟩ := by
  have hbusy := keeps_markBusy (S.layout.push node) S.layout.schemas.length true
  have hkeeps := (keeps_newSchema hnode).trans hbusy
  -- what the opening has checked of the key is what the site awaits
  refine hS.open hsane hkeeps (fun p hp => ?_)
    (not_touches_new hS rfl fun below hbelow => .inr (hfree below hbelow))
  obtain rfl := Option.some.inj hp
  refine ⟨Nat.lt_of_lt_of_le hparent hkeeps.length_le, Nat.ne_of_lt hparent, ?_⟩
  have hname : ((S.layout.push node).schema S.layout.schemas.length).name = node.name := by
    rw [schema_push, if_pos rfl]
  show (Layout.schema _ _).Free (Layout.schema _ S.layout.schemas.length).name
  rw [hbusy.name _ (lt_length_push ..), hname]
  exact hkeeps.free _ _ hparent (Schema.free_of_checkNewKey hkey)

/-- **What one move keeps.** -/
theorem step_named (hS : S.Named) (hsane : S.Sane) {m : Move} (hm : S.Orderly m) :
    (S.step m).Named := by
  obtain ⟨hpossible, hm⟩ := hm
  have hkeep {L : Layout} (h : S.layout.Keeps L) := hS.keep hsane h
  have heffect := S.step_effect m
  generalize S.step m = T at heffect ⊢
  cases heffect with
  | refused => exact hS
  | created hnode => exact hkeep (keeps_newSchema hnode)
  | defined | cataloged => exact hkeep (keeps_of_schemas rfl)
  | listed hopen hnode hfree => exact hkeep ((keeps_newSchema hnode).trans (keeps_of_schemas rfl))
  | @declared s d key entry hfield =>
    exact hS.add hsane (hS.untouched hm) (Declaration.accepts hpossible.2 hfield) d
  | set | conditioned =>
    exact hkeep (keeps_modify _ _ (fun _ => rfl) (fun _ => rfl) fun _ => rfl)
  | propagated options s =>
    exact hkeep ((develops_propagate options s S.layout).keeps hsane.layout.wellMade)
  | asked q =>
    have hmade := hsane.layout.wellMade
    exact hkeep ((q.develops hmade).keeps hmade)
  | begunNested hopen hnode hkey =>
    exact hS.beginNested hsane hnode hkey hpossible (hS.untouched hm)
  | begunListed hopen hnode hfree =>
    exact hS.open hsane ((keeps_newSchema hnode).trans (keeps_markBusy _ _ true))
      (fun p hp => absurd hp (by simp [Site.parent?])) (not_touches_new hS rfl fun _ _ => .inl rfl)
  | @begunSetup s hidle =>
    -- a builder is not begun for a schema that another site is about to give a field
    refine hS.open hsane (keeps_markBusy _ s true) (fun p hp => absurd hp (by simp [Site.parent?]))
      ?_
    rintro below hbelow p hp (rfl | htouch)
    · exact hm hidle below hbelow hp
    · exact absurd htouch (by simp [Site.parent?])
  | @closed site sites succeeded hsites hnothing =>
    exact (hS.rest hsites).keep (hsane.rest hsites) (keeps_markBusy _ site.schema false)
  | closedNested hsites => exact hS.closeNested hsane hsites
  | @closedListed c s sites hsites =>
    exact (hS.rest hsites).keep (hsane.rest hsites)
      ((keeps_markBusy _ s false).trans (keeps_of_schemas rfl))

theorem named_start : (⟨[], .empty⟩ : Session).Named := by
  refine ⟨fun s => ?_, fun _ h => absurd h (by simp), List.Pairwise.nil⟩
  rw [schema_of_le (L := .empty) (Nat.zero_le s)]
  exact Schema.named_of_no_entries rfl

/-- **Fields stand under their own names, all different**, if builders only declare fields of the
schema they build. -/
theorem Reached.named (hS : S.Reached Orderly) : S.Named := by
  induction hS with
  | start => exact named_start
  | step hS hm ih => exact step_named ih (hS.mono fun _ _ h => h.1).sane hm

/-- **What a validated schema of an orderly session is**: it is settled, now and as the layout goes
on, its columns have valid options, and no place is used twice. -/
theorem Reached.settled (hS : S.Reached Orderly) {s : SchemaId} (hs : s < S.layout.schemas.length)
    {M : Layout} (hvalid : validate s S.layout = .ok () M) {N : Layout} (hMN : M.Develops N) :
    ∃ o, N.Settled s o ∧ (∀ c : Column, .column c ∈ o.codecs → c.Settled)
      ∧ Label.Distinct o.labels ∧ o.WellNamed := by
  have hsane := (hS.mono fun _ _ h => h.1).sane.layout
  obtain ⟨hLM, p, hp⟩ := validate_ok hsane.wellMade hs hvalid
  obtain ⟨o, ho, -⟩ := hp.develop hMN
  have hLN := hLM.trans hMN
  have hnamed := (hLN.keeps hsane.wellMade).named hS.named.layout
  exact ⟨o, ho, UnfoldsTo.codecs_settled (hLN.sane hsane).tabled ho.unfolds,
    ho.unfolds.distinct hnamed, UnfoldsTo.wellNamed hnamed ho.unfolds⟩

end Session

end RecordLayout
