import RecordLayout.Layout.Configure
import RecordLayout.Proofs.Layout.Grow
import RecordLayout.Proofs.Layout.Measure

/-!
# Sessions

A layout comes about in a session: a sequence of declarations, settings, propagations and queries,
in any order.  A builder may do any of these too, and builders may be at work inside one another; so
a session keeps the schemas that are being built, and a builder is a part of it between a beginning
and an end.

## Main definitions

* `Declaration`, `Query`, `Move`: what can be declared, asked and done.
* `Declaration.field`, `Declaration.add`: the field that is made of a schema, and the layout with
  it.
* `Site`: a schema that is being built, and what becomes of it in the end.
* `Session`, `Session.step`: a layout with its sites, and what a move does to them.
* `Session.Refuses`, `Session.Effect`: the moves that fail, and what becomes of a session in a move.
* `Session.Possible`: the moves that name only what there is.
* `Session.Reached`: the sessions that come about by moves that a rule allows.
* `Session.Allowed`: moves that a rule allows one after the other.
* `Session.building`: a builder at work, from its beginning to its end.

## Main results

* `Declaration.run_apply`: **a declaration adds the field that is made, or changes nothing**.
* `Session.step_effect`: **what a move does**, with all that has been checked before.
* `Session.after_setup`, `Session.after_declareNested`, `Session.after_declareSchema`: **a builder
  is a part of a session**.
-/

namespace RecordLayout

/-- A field that is to be declared. -/
inductive Declaration
  | column (name : Text) (width : UInt64) (options : OptionMap)
  | codec (codec? : Option Codec)
  | filler (width : UInt64) (padding : Text)
  | reference (schemaName storeName : Text) (options : OptionMap)

/-- What is done to declare a field. -/
def Declaration.run (s : SchemaId) : Declaration → Build Unit
  | .column name width options => Layout.declareColumn s name width options
  | .codec codec? => Layout.declareCodec s codec?
  | .filler width padding => Layout.declareFiller s width padding
  | .reference schemaName storeName options =>
    Layout.declareReference s schemaName storeName options

/-- A codec that is to be declared is one that there can be. -/
def Declaration.Made : Declaration → Prop
  | .codec codec? => ∀ c ∈ codec?, c.Made
  | _ => True

/-- A codec that is to be declared receives what schemas hand down. -/
def Declaration.Receptive : Declaration → Prop
  | .codec codec? => ∀ c ∈ codec?, c.Receptive
  | _ => True

namespace Declaration

/-- The field that is made of a schema, with its key. -/
def field : Declaration → Schema → Except Error (Text × Entry)
  | .column name width options, node => node.columnField name width options
  | .codec codec?, node => node.givenField codec?
  | .filler width padding, node => node.fillerField width padding
  | .reference schemaName storeName options, node =>
    node.referenceField schemaName storeName options

/-- A filler is to be declared. -/
def isFiller : Declaration → Bool
  | .filler .. => true
  | _ => false

/-- The layout with the field that has been made; fillers are counted. -/
def add (d : Declaration) (L : Layout) (s : SchemaId) (key : Text) (entry : Entry) : Layout :=
  if d.isFiller then
    (L.append s key entry).modify s fun node => { node with fillers := node.fillers + 1 }
  else L.append s key entry

/-- A declaration makes a field of the schema as it is and adds it, or it changes nothing. -/
theorem run_apply (d : Declaration) (s : SchemaId) (L : Layout) :
    d.run s L = match d.field (L.schema s) with
      | .ok (key, entry) => .ok () (d.add L s key entry)
      | .error e => .error e L := by
  cases d with
  | column | codec | reference => rfl
  | filler width padding =>
    show EStateM.bind (Layout.declare s fun node => node.fillerField width padding) _ L = _
    unfold EStateM.bind Layout.declare field
    dsimp only
    cases (L.schema s).fillerField width padding with
    | error e => rfl
    | ok made => rfl

/-- What holds with a new field, and still does when it is counted as a filler, holds after a
declaration. -/
theorem add_induction {P : Layout → Prop} (d : Declaration) {L : Layout} {s : SchemaId} {key : Text}
    {entry : Entry} (happend : P (L.append s key entry))
    (hcount : P (L.append s key entry) →
      P ((L.append s key entry).modify s fun node => { node with fillers := node.fillers + 1 })) :
    P (d.add L s key entry) := by
  unfold add
  split
  · exact hcount happend
  · exact happend

/-- What a schema makes of a declaration it accepts. -/
theorem accepts {d : Declaration} (hd : d.Made) {node : Schema} {key : Text} {entry : Entry}
    (h : d.field node = .ok (key, entry)) : node.Accepts key entry := by
  cases d with
  | column => exact Schema.accepts_columnField h
  | codec => exact Schema.accepts_givenField hd h
  | filler => exact Schema.accepts_fillerField h
  | reference => exact Schema.accepts_referenceField h

/-- A field receives what schemas hand down, if the codec does that was given. -/
theorem receptive {d : Declaration} (hd : d.Receptive) {node : Schema} {key : Text} {entry : Entry}
    (h : d.field node = .ok (key, entry)) : entry.Receptive := by
  have hcodec {c : Codec} (hc : c.Receptive) (hmade : node.codecField c = .ok (key, entry)) :
      entry.Receptive := by
    obtain ⟨-, -, -, rfl, -⟩ := Schema.codecField_ok hmade
    exact hc.inherit node.options
  cases d with
  | column name width options =>
    obtain ⟨column, hcolumn, hfield⟩ := Success.of_bind h
    exact hcodec (Codec.receptive_of_column (.create hcolumn)) hfield
  | codec codec? =>
    cases codec? with
    | none => exact absurd h nofun
    | some c => exact hcodec (hd c rfl) (of_guard h).2
  | filler width padding =>
    obtain ⟨-, -, column, hcolumn, rfl, -⟩ := Schema.fillerField_ok h
    exact (Codec.receptive_of_column (.createFiller hcolumn)).inherit node.options
  | reference schemaName storeName options =>
    obtain ⟨-, -, -, passed, -, rfl⟩ := Schema.referenceField_ok h
    trivial

end Declaration

namespace Layout

@[simp] theorem length_add (L : Layout) (d : Declaration) (s : SchemaId) (key : Text)
    (entry : Entry) : (d.add L s key entry).schemas.length = L.schemas.length := by
  unfold Declaration.add
  split
  · rw [length_modify, length_append]
  · rw [length_append]

@[simp] theorem catalogs_add (L : Layout) (d : Declaration) (s : SchemaId) (key : Text)
    (entry : Entry) : (d.add L s key entry).catalogs = L.catalogs := by
  unfold Declaration.add
  split <;> rfl

end Layout

/-- What can be asked of a layout. -/
inductive Query
  | width (s : SchemaId)
  | matchesLine (s : SchemaId) (line : Text)
  | parse (s : SchemaId) (line : Text) (start : UInt64)
  | format (s : SchemaId) (record : Record)
  | errors (s : SchemaId)
  | validate (s : SchemaId)
  | field (s : SchemaId) (key : Text)
  | visibleSchema (s : SchemaId) (name : Text)
  | definitionErrors (c : CatalogId)
  | validateDefinition (c : CatalogId)
  | schemaOfLine (c : CatalogId) (line : Text)
  | recordOfLine (c : CatalogId) (line : Text)

/-- What is done to answer a query. -/
def Query.run : Query → Build Unit
  | .width s => discard (Layout.width s)
  | .matchesLine s line => discard (Layout.matchesLine s line)
  | .parse s line start => discard (Layout.parse s line start)
  | .format s record => discard (Layout.format s record)
  | .errors s => discard (Layout.errors s)
  | .validate s => Layout.validate s
  | .field s key => discard (Layout.field s key)
  | .visibleSchema s name => discard (Layout.visibleSchema s name)
  | .definitionErrors c => discard (Layout.definitionErrors c)
  | .validateDefinition c => Layout.validateDefinition c
  | .schemaOfLine c line => discard (Layout.schemaOfLine c line)
  | .recordOfLine c line => discard (Layout.recordOfLine c line)

/-- What is pervasive holds of every query. -/
theorem Query.pervaded {P : ∀ {α : Type}, Build α → Prop} (h : Layout.Pervasive P) (q : Query) :
    P q.run := by
  cases q with
  | width s => exact h.map (h.width s) _
  | matchesLine s line => exact h.map (h.matchesLine s line) _
  | parse s line start => exact h.map (h.parse s line start) _
  | format s record => exact h.map (h.format s record) _
  | errors s => exact h.map (h.errors s) _
  | validate s => exact h.validate s
  | field s key => exact h.map (h.field s key) _
  | visibleSchema s name => exact h.map (h.visibleSchema s name) _
  | definitionErrors c => exact h.map (h.definitionErrors c) _
  | validateDefinition c => exact h.validateDefinition c
  | schemaOfLine c line => exact h.map (h.schemaOfLine c line) _
  | recordOfLine c line => exact h.map (h.recordOfLine c line) _

/-- A schema that is being built. -/
inductive Site
  /-- It becomes a field of its parent. -/
  | nested (parent child : SchemaId)
  /-- It is listed in a catalog. -/
  | listed (catalog : CatalogId) (schema : SchemaId)
  /-- It is set up once more. -/
  | setup (schema : SchemaId)
deriving DecidableEq

namespace Site

/-- The schema that is being built. -/
def schema : Site → SchemaId
  | nested _ child => child
  | listed _ s => s
  | setup s => s

/-- The layout after a builder has succeeded or failed. -/
def close (L : Layout) (succeeded : Bool) : Site → Layout
  | nested parent child =>
    let M := L.markBusy child false
    if succeeded then M.append parent (M.schema child).name (.nested child) else M
  | listed c s =>
    let M := L.markBusy s false
    if succeeded then M.enlist c s else M
  | setup s => L.markBusy s false

end Site

/-- What can be done in a session. -/
inductive Move
  | createSchema (scope : Scope) (name : Text) (options : OptionMap)
  | addDefinition (name : Text) (options : OptionMap)
  | addCatalog (name : Text) (options? : Option OptionTable) (listing : Listing (Option SchemaId))
  | addSchema (c : CatalogId) (name : Text) (options : OptionMap)
  | declare (s : SchemaId) (d : Declaration)
  | setOption (s : SchemaId) (name : Text) (value : Value)
  | setCondition (s : SchemaId) (condition? : Option (Text → Bool))
  | propagate (options : OptionMap) (s : SchemaId)
  | ask (q : Query)
  | beginNested (parent : SchemaId) (name : Text) (options : OptionMap)
  | beginListed (c : CatalogId) (name : Text) (options : OptionMap)
  | beginSetup (s : SchemaId)
  | finish (succeeded : Bool)

/-- A layout, and the schemas that are being built, from the innermost outwards. -/
structure Session where
  /-- The schemas that are being built. -/
  sites : List Site
  /-- The layout. -/
  layout : Layout

namespace Session

open Layout Build

/-- The session after a computation on its layout. -/
def run {α : Type} (S : Session) (x : Build α) : Session := { S with layout := x.after S.layout }

/-- The session in which a builder begins to work on the schema that `x` adds, if it does. -/
def begin (S : Session) (site : SchemaId → Site) (x : Build SchemaId) : Session :=
  match x S.layout with
  | .ok s L => ⟨site s :: S.sites, L.markBusy s true⟩
  | .error _ L => { S with layout := L }

/-- The session after a move. -/
def step (S : Session) : Move → Session
  | .createSchema scope name options => S.run (Layout.createSchema scope name options)
  | .addDefinition name options => S.run (Layout.addDefinition name options)
  | .addCatalog name options? listing => S.run (Layout.addCatalog name options? listing)
  | .addSchema c name options =>
    match openSchema c name options S.layout with
    | .ok s L => { S with layout := L.enlist c s }
    | .error _ L => { S with layout := L }
  | .declare s d => S.run (d.run s)
  | .setOption s name value => S.run (Layout.setOption s name value)
  | .setCondition s condition? => S.run (Layout.setCondition s condition?)
  | .propagate options s => S.run (Layout.propagate options s)
  | .ask q => S.run q.run
  | .beginNested parent name options => S.begin (.nested parent) (openNested parent name options)
  | .beginListed c name options => S.begin (.listed c) (openSchema c name options)
  | .beginSetup s =>
    if (S.layout.schema s).busy then S else ⟨.setup s :: S.sites, S.layout.markBusy s true⟩
  | .finish succeeded =>
    match S.sites with
    | [] => S
    | site :: sites => ⟨sites, site.close S.layout succeeded⟩

/-- A move that names only schemas, catalogs and codecs that there are. -/
def Possible (S : Session) : Move → Prop
  | .createSchema scope _ _ => ScopeExists S.layout scope
  | .addDefinition _ _ => True
  | .addCatalog _ _ listing => ∀ t, some t ∈ listing.map (·.2) → t < S.layout.schemas.length
  | .addSchema c _ _ => c < S.layout.catalogs.length
  | .declare s d => s < S.layout.schemas.length ∧ d.Made
  | .setOption s _ _ => s < S.layout.schemas.length
  | .setCondition s _ => s < S.layout.schemas.length
  | .propagate _ s => s < S.layout.schemas.length
  | .ask _ => True
  | .beginNested parent _ _ => parent < S.layout.schemas.length
  | .beginListed c _ _ => c < S.layout.catalogs.length
  | .beginSetup s => s < S.layout.schemas.length
  | .finish _ => True

/-- The sessions that come about by moves that a rule allows. -/
inductive Reached (rule : Session → Move → Prop) : Session → Prop
  | start : Reached rule ⟨[], .empty⟩
  | step {S : Session} (hS : Reached rule S) {m : Move} (hm : rule S m) : Reached rule (S.step m)

theorem Reached.mono {rule rule' : Session → Move → Prop} (h : ∀ S m, rule S m → rule' S m)
    {S : Session} (hS : S.Reached rule) : S.Reached rule' := by
  induction hS with
  | start => exact .start
  | step _ hm ih => exact .step ih (h _ _ hm)

/-- Moves that a rule allows one after the other. -/
def Allowed (rule : Session → Move → Prop) : Session → List Move → Prop
  | _, [] => True
  | S, m :: moves => rule S m ∧ Allowed rule (S.step m) moves

theorem Allowed.mono {rule rule' : Session → Move → Prop} (h : ∀ S m, rule S m → rule' S m)
    {S : Session} {moves : List Move} (hmoves : S.Allowed rule moves) : S.Allowed rule' moves := by
  induction moves generalizing S with
  | nil => trivial
  | cons m moves ih => exact ⟨h S m hmoves.1, ih hmoves.2⟩

theorem Reached.moves {rule : Session → Move → Prop} {S : Session} (hS : S.Reached rule)
    {moves : List Move} (h : S.Allowed rule moves) :
    (moves.foldl Session.step S).Reached rule := by
  induction moves generalizing S with
  | nil => exact hS
  | cons m moves ih => exact ih (.step hS h.1) h.2

/-! ### What a move does -/

/-- The moves that fail: what they would add or set is refused, a builder is at work on the schema
already, or there is none to finish. -/
def Refuses (S : Session) : Move → Prop
  | .createSchema scope name options => ∃ e, S.layout.newSchema scope name options = .error e
  | .addDefinition name options => ∃ e, newDefinition name options = .error e
  | .addSchema c name options | .beginListed c name options =>
    ∃ e, openSchema c name options S.layout = .error e S.layout
  | .declare s d => ∃ e, d.field (S.layout.schema s) = .error e
  | .setOption s name value => ∃ e, (S.layout.schema s).options.set name value = .error e
  | .beginNested parent name options =>
    ∃ e, openNested parent name options S.layout = .error e S.layout
  | .beginSetup s => (S.layout.schema s).busy = true
  | .finish _ => S.sites = []
  | .addCatalog .. | .setCondition .. | .propagate .. | .ask _ => False

/-- What becomes of a session in a move, told by the primitive changes of the layout and by what has
been checked before them. -/
inductive Effect (S : Session) : Move → Session → Prop
  /-- A move that fails changes nothing. -/
  | refused {m : Move} (h : S.Refuses m) : Effect S m S
  | created {scope : Scope} {name : Text} {options : OptionMap} {node : Schema}
    (hnode : S.layout.newSchema scope name options = .ok node) :
    Effect S (.createSchema scope name options) { S with layout := S.layout.push node }
  | defined {name : Text} {options : OptionMap} {definition : Catalog}
    (hnew : newDefinition name options = .ok definition) :
    Effect S (.addDefinition name options) { S with layout := S.layout.pushCatalog definition }
  | cataloged (name : Text) (options? : Option OptionTable) (listing : Listing (Option SchemaId)) :
    Effect S (.addCatalog name options? listing)
      { S with layout := S.layout.pushCatalog { name, options?, listing, isDefinition := false } }
  | listed {c : CatalogId} {name : Text} {options : OptionMap} {node : Schema}
    (hopen : openSchema c name options S.layout = .ok S.layout.schemas.length (S.layout.push node))
    (hnode : S.layout.newSchema (.under c) name options = .ok node)
    (hfree : (S.layout.catalog c).find? node.name = none) :
    Effect S (.addSchema c name options)
      { S with layout := (S.layout.push node).enlist c S.layout.schemas.length }
  | declared {s : SchemaId} {d : Declaration} {key : Text} {entry : Entry}
    (hfield : d.field (S.layout.schema s) = .ok (key, entry)) :
    Effect S (.declare s d) { S with layout := d.add S.layout s key entry }
  | set {s : SchemaId} {name : Text} {value : Value} {table : OptionTable}
    (htable : (S.layout.schema s).options.set name value = .ok table) :
    Effect S (.setOption s name value)
      { S with layout := S.layout.modify s fun node => { node with options := table } }
  | conditioned (s : SchemaId) (condition? : Option (Text → Bool)) :
    Effect S (.setCondition s condition?)
      { S with layout := S.layout.modify s fun node => { node with condition? } }
  | propagated (options : OptionMap) (s : SchemaId) :
    Effect S (.propagate options s) (S.run (Layout.propagate options s))
  | asked (q : Query) : Effect S (.ask q) (S.run q.run)
  | begunNested {parent : SchemaId} {name : Text} {options : OptionMap} {node : Schema}
    (hopen : openNested parent name options S.layout
      = .ok S.layout.schemas.length (S.layout.push node))
    (hnode : S.layout.newSchema (.within parent) name options = .ok node)
    (hkey : (S.layout.schema parent).checkNewKey node.name = .ok ()) :
    Effect S (.beginNested parent name options) ⟨.nested parent S.layout.schemas.length :: S.sites,
      (S.layout.push node).markBusy S.layout.schemas.length true⟩
  | begunListed {c : CatalogId} {name : Text} {options : OptionMap} {node : Schema}
    (hopen : openSchema c name options S.layout = .ok S.layout.schemas.length (S.layout.push node))
    (hnode : S.layout.newSchema (.under c) name options = .ok node)
    (hfree : (S.layout.catalog c).find? node.name = none) :
    Effect S (.beginListed c name options) ⟨.listed c S.layout.schemas.length :: S.sites,
      (S.layout.push node).markBusy S.layout.schemas.length true⟩
  | begunSetup {s : SchemaId} (hidle : (S.layout.schema s).busy = false) :
    Effect S (.beginSetup s) ⟨.setup s :: S.sites, S.layout.markBusy s true⟩
  /-- A builder ends, and nothing becomes of its schema. -/
  | closed {site : Site} {sites : List Site} {succeeded : Bool} (hsites : S.sites = site :: sites)
    (hnothing : succeeded = true → ∃ s, site = .setup s) :
    Effect S (.finish succeeded) ⟨sites, S.layout.markBusy site.schema false⟩
  | closedNested {parent child : SchemaId} {sites : List Site}
    (hsites : S.sites = .nested parent child :: sites) :
    Effect S (.finish true) ⟨sites, (S.layout.markBusy child false).append parent
      ((S.layout.markBusy child false).schema child).name (.nested child)⟩
  | closedListed {c : CatalogId} {s : SchemaId} {sites : List Site}
    (hsites : S.sites = .listed c s :: sites) :
    Effect S (.finish true) ⟨sites, (S.layout.markBusy s false).enlist c s⟩

/-- A builder that ends. -/
theorem effect_finish {S : Session} {site : Site} {sites : List Site}
    (hsites : S.sites = site :: sites) (succeeded : Bool) :
    S.Effect (.finish succeeded) ⟨sites, site.close S.layout succeeded⟩ := by
  cases succeeded with
  | false =>
    have hclosed : site.close S.layout false = S.layout.markBusy site.schema false := by
      cases site <;> rfl
    rw [hclosed]
    exact .closed hsites (by simp)
  | true =>
    cases site with
    | nested parent child => exact .closedNested hsites
    | listed c s => exact .closedListed hsites
    | setup s => exact .closed hsites fun _ => ⟨s, rfl⟩

/-- **What a move does.**  It fails and changes nothing, or it does what it is for. -/
theorem step_effect (S : Session) (m : Move) : S.Effect m (S.step m) := by
  cases m with
  | createSchema scope name options =>
    show S.Effect _ { S with layout := (createSchema scope name options).after S.layout }
    unfold Build.after createSchema
    cases hnode : S.layout.newSchema scope name options with
    | error e => exact .refused ⟨e, hnode⟩
    | ok node => exact .created hnode
  | addDefinition name options =>
    show S.Effect _ { S with layout := (addDefinition name options).after S.layout }
    unfold Build.after addDefinition
    cases hnew : newDefinition name options with
    | error e => exact .refused ⟨e, hnew⟩
    | ok definition => exact .defined hnew
  | addCatalog name options? listing => exact .cataloged name options? listing
  | addSchema c name options =>
    unfold step
    dsimp only
    cases hopen : openSchema c name options S.layout with
    | error e L =>
      obtain rfl := openSchema_error hopen
      exact .refused ⟨e, hopen⟩
    | ok s L =>
      obtain ⟨node, hnode, hfree, rfl, rfl⟩ := openSchema_ok hopen
      exact .listed hopen hnode hfree
  | declare s d =>
    show S.Effect _ { S with layout := (d.run s).after S.layout }
    unfold Build.after
    rw [d.run_apply]
    cases hfield : d.field (S.layout.schema s) with
    | error e => exact .refused ⟨e, hfield⟩
    | ok made => exact .declared hfield
  | setOption s name value =>
    show S.Effect _ { S with layout := (Layout.setOption s name value).after S.layout }
    unfold Build.after Layout.setOption
    cases htable : (S.layout.schema s).options.set name value with
    | error e => exact .refused ⟨e, htable⟩
    | ok table => exact .set htable
  | setCondition s condition? => exact .conditioned s condition?
  | propagate options s => exact .propagated options s
  | ask q => exact .asked q
  | beginNested parent name options =>
    unfold step Session.begin
    dsimp only
    cases hopen : openNested parent name options S.layout with
    | error e L =>
      obtain rfl := openNested_error hopen
      exact .refused ⟨e, hopen⟩
    | ok child L =>
      obtain ⟨node, hnode, hkey, -, rfl, rfl⟩ := openNested_ok hopen
      exact .begunNested hopen hnode hkey
  | beginListed c name options =>
    unfold step Session.begin
    dsimp only
    cases hopen : openSchema c name options S.layout with
    | error e L =>
      obtain rfl := openSchema_error hopen
      exact .refused ⟨e, hopen⟩
    | ok s L =>
      obtain ⟨node, hnode, hfree, rfl, rfl⟩ := openSchema_ok hopen
      exact .begunListed hopen hnode hfree
  | beginSetup s =>
    unfold step
    dsimp only
    cases hbusy : (S.layout.schema s).busy with
    | true => exact .refused hbusy
    | false => exact .begunSetup hbusy
  | finish succeeded =>
    unfold step
    dsimp only
    cases hsites : S.sites with
    | nil => exact .refused hsites
    | cons site sites => exact effect_finish hsites succeeded

/-! ### Builders -/

section Builders

variable {ρ α : Type}

/-- The layout after a computation with notes. -/
def layoutAfter (x : BuildWith ρ α) (L : Layout) (notes : ρ) : Layout :=
  match x (L, notes) with
  | .ok _ (M, _) => M
  | .error _ (M, _) => M

/-- Whether a computation with notes succeeds. -/
def succeeds (x : BuildWith ρ α) (L : Layout) (notes : ρ) : Bool :=
  match x (L, notes) with
  | .ok _ _ => true
  | .error _ _ => false

theorem bind_apply {σ β : Type} (x : EStateM Error σ α) (f : α → EStateM Error σ β) (state : σ) :
    (x >>= f) state = match x state with
      | .ok a state => f a state
      | .error e state => .error e state := by
  show EStateM.bind x f state = _
  unfold EStateM.bind
  cases x state <;> rfl

/-- To set a schema up is to begin, to let the builder work, and to finish. -/
theorem after_setup (s : SchemaId) (build : Builder ρ) (L : Layout) (notes : ρ)
    (h : (L.schema s).busy = false) :
    layoutAfter (setup s (some build)) L notes =
      (Site.setup s).close (layoutAfter (build s) (L.markBusy s true) notes)
        (succeeds (build s) (L.markBusy s true) notes) := by
  unfold layoutAfter setup
  simp only [h, Bool.false_eq_true, if_false]
  cases build s (L.markBusy s true, notes) <;> rfl

theorem setup_of_idle (s : SchemaId) (build : Builder ρ) (L : Layout) (notes : ρ)
    (h : (L.schema s).busy = false) :
    setup s (some build) (L, notes) = match build s (L.markBusy s true, notes) with
      | .ok _ (M, notes) => .ok () (M.markBusy s false, notes)
      | .error e (M, notes) => .error e (M.markBusy s false, notes) := by
  rcases hbuild : build s (L.markBusy s true, notes) with ⟨_, _, _⟩ | ⟨_, _, _⟩ <;>
    simp [setup, h, hbuild]

/-- A builder at work on the schema that `x` adds, from its beginning to its end. -/
def building (site : SchemaId → Site) (x : Build SchemaId) (build : Builder ρ) :
    BuildWith ρ SchemaId := fun (L, notes) =>
  match x L with
  | .ok s M =>
    match build s (M.markBusy s true, notes) with
    | .ok _ (N, notes) => .ok s ((site s).close N true, notes)
    | .error e (N, notes) => .error e ((site s).close N false, notes)
  | .error e M => .error e (M, notes)

theorem layoutAfter_building (site : SchemaId → Site) (x : Build SchemaId) (build : Builder ρ)
    (L : Layout) (notes : ρ) :
    layoutAfter (building site x build) L notes = match x L with
      | .ok s M => (site s).close (layoutAfter (build s) (M.markBusy s true) notes)
          (succeeds (build s) (M.markBusy s true) notes)
      | .error _ M => M := by
  unfold layoutAfter succeeds building
  dsimp only
  cases x L with
  | error e M => rfl
  | ok s M =>
    dsimp only
    cases build s (M.markBusy s true, notes) <;> rfl

/-- A schema that has just been added is not being built. -/
theorem idle_push {L : Layout} {scope : Scope} {name : Text} {options : OptionMap} {node : Schema}
    (h : L.newSchema scope name options = .ok node) :
    ((L.push node).schema L.schemas.length).busy = false := by
  obtain ⟨_, _, rfl, -⟩ := newSchema_ok h
  rw [schema_push, if_pos rfl]
  rfl

/-- A nested schema is declared by a builder at work. -/
theorem declareNested_some (parent : SchemaId) (name : Text) (options : OptionMap)
    (build : Builder ρ) : declareNested parent name options (some build)
      = building (.nested parent) (openNested parent name options) build := by
  funext ⟨L, notes⟩
  have hsteps : declareNested parent name options (some build) (L, notes) =
      (keepNotes (openNested parent name options) >>= fun child =>
        setup child (some build) >>= fun _ => do
          modifyThe (Layout × ρ) fun p =>
            (p.1.append parent (p.1.schema child).name (.nested child), p.2)
          return child) (L, notes) := rfl
  rw [hsteps]
  unfold building
  dsimp only
  cases hopen : openNested parent name options L with
  | error e M => simp only [bind_apply, keepNotes, hopen]
  | ok child M =>
    obtain ⟨node, hnode, -, -, rfl, rfl⟩ := openNested_ok hopen
    simp only [bind_apply, keepNotes, hopen, setup_of_idle _ build _ notes (idle_push hnode)]
    cases build _ ((L.push node).markBusy _ true, notes) <;> rfl

/-- A schema of a definition is declared by a builder at work. -/
theorem declareSchema_some (c : CatalogId) (name : Text) (options : OptionMap)
    (build : Builder ρ) : declareSchema c name options (some build)
      = building (.listed c) (openSchema c name options) build := by
  funext ⟨L, notes⟩
  have hsteps : declareSchema c name options (some build) (L, notes) =
      (keepNotes (openSchema c name options) >>= fun s =>
        setup s (some build) >>= fun _ => do
          modifyThe (Layout × ρ) fun p => (p.1.enlist c s, p.2)
          return s) (L, notes) := rfl
  rw [hsteps]
  unfold building
  dsimp only
  cases hopen : openSchema c name options L with
  | error e M => simp only [bind_apply, keepNotes, hopen]
  | ok s M =>
    obtain ⟨node, hnode, -, rfl, rfl⟩ := openSchema_ok hopen
    simp only [bind_apply, keepNotes, hopen, setup_of_idle _ build _ notes (idle_push hnode)]
    cases build _ ((L.push node).markBusy _ true, notes) <;> rfl

/-- To declare a nested schema is to begin, to let the builder work, and to finish. -/
theorem after_declareNested (parent : SchemaId) (name : Text) (options : OptionMap)
    (build : Builder ρ) (L : Layout) (notes : ρ) :
    layoutAfter (declareNested parent name options (some build)) L notes =
      match openNested parent name options L with
      | .ok child M => (Site.nested parent child).close
          (layoutAfter (build child) (M.markBusy child true) notes)
          (succeeds (build child) (M.markBusy child true) notes)
      | .error _ M => M := by
  rw [declareNested_some, layoutAfter_building]

/-- To declare a schema in a definition is to begin, to let the builder work, and to finish. -/
theorem after_declareSchema (c : CatalogId) (name : Text) (options : OptionMap)
    (build : Builder ρ) (L : Layout) (notes : ρ) :
    layoutAfter (declareSchema c name options (some build)) L notes =
      match openSchema c name options L with
      | .ok s M => (Site.listed c s).close
          (layoutAfter (build s) (M.markBusy s true) notes)
          (succeeds (build s) (M.markBusy s true) notes)
      | .error _ M => M := by
  rw [declareSchema_some, layoutAfter_building]

end Builders

end Session

end RecordLayout
