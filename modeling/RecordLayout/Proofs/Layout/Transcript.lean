import RecordLayout.Proofs.Layout.Cold
import RecordLayout.Proofs.Layout.Gather
import RecordLayout.Proofs.Layout.Validated

/-!
# Reading and writing by outline

The outline of a schema is all that reading and writing depend on.  What it reads from a line and
writes for a record can be said without the layout, and in a layout in which the schema is settled
reading and writing do just that, and change nothing.

## Main definitions

* `Codec.label?`, `Outline.labels`, `Outline.codecs`: the places and the codecs of an outline.
* `Outline.itemsBy`, `Outline.items`: what an outline reads from slots, and from a line.
* `Outline.write`: what an outline writes for a record.
* `Text.wordWindow`: the slot at a position that is kept in a 64-bit word.

## Main results

* `Outline.labels_of_itemsBy`: what is read goes to the places of the outline.
* `Layout.Settled.reports_parse_word`: **reading gathers the items of the outline**, or fails as the
  outline does; `Layout.Settled.reports_parse` where all positions fit a word.
* `Layout.Settled.reports_format_word`: **writing writes the outline**, or fails as the outline
  does; `Layout.Settled.reports_format` where the width fits a word.
-/

namespace RecordLayout

open Layout

/-! ### Outlines that are read and written -/

namespace Codec

/-- Where the value of a codec goes in a record; a filler has none. -/
def label? (c : Codec) : Option Label :=
  if c.isFiller then none
  else some (match c.group with
    | some group => .member group c.name
    | none => .field c.name)

/-- A value of a codec with its place. -/
def item (c : Codec) (value : Value) : Item :=
  match c.group with
  | some group => .member group c.name value
  | none => .field c.name value

theorem label?_eq {c : Codec} (h : c.isFiller = false) (value : Value) :
    c.label? = some (c.item value).label := by
  unfold label? item
  rw [h]
  cases c.group <;> rfl

theorem putColumn_eq (c : Codec) (value : Value) (r : Reading) :
    r.putColumn c value = r.add (c.item value) := by
  unfold Reading.putColumn item
  cases c.group <;> rfl

end Codec

namespace Outline

/-- The places of the values in a record, in order. -/
def labels : Outline → List Label
  | done => []
  | column c rest => c.label?.toList ++ rest.labels
  | branch key _ _ _ rest => .field key :: rest.labels

/-- The codecs in order, inside and out. -/
def codecs : Outline → List Codec
  | done => []
  | column c rest => c :: rest.codecs
  | branch _ _ _ inner rest => inner.codecs ++ rest.codecs

/-- The values that are read from slots, from a position counted in characters; `slot` gives the
slot of some width at a position. -/
def itemsBy (slot : Nat → Nat → Text) : Outline → Nat → Except Error (List Item)
  | done, _ => .ok []
  | column c rest, start =>
    if c.isFiller then rest.itemsBy slot (start + c.width.toNat)
    else do
      let value ← c.parse (slot start c.width.toNat)
      let more ← rest.itemsBy slot (start + c.width.toNat)
      return c.item value :: more
  | branch key _ _ inner rest, start => do
    let inside ← inner.itemsBy slot start
    let more ← rest.itemsBy slot (start + inner.width)
    return .field key (.record (gather inside)) :: more

/-- The values that are read from a line, from a position counted in characters. -/
def items (line : Text) : Outline → Nat → Except Error (List Item) := itemsBy line.window

theorem items_done (line : Text) (start : Nat) : done.items line start = .ok [] := rfl

theorem items_column (line : Text) (c : Codec) (rest : Outline) (start : Nat) :
    (column c rest).items line start =
      if c.isFiller then rest.items line (start + c.width.toNat)
      else do
        let value ← c.parse (line.window start c.width.toNat)
        let more ← rest.items line (start + c.width.toNat)
        return c.item value :: more := rfl

theorem items_branch (line : Text) (key : Text) (t : SchemaId) (inside : Text)
    (inner rest : Outline) (start : Nat) :
    (branch key t inside inner rest).items line start = (do
      let inside ← inner.items line start
      let more ← rest.items line (start + inner.width)
      return .field key (.record (gather inside)) :: more) := rfl

/-- What is read goes to the places of the outline. -/
theorem labels_of_itemsBy {o : Outline} {slot : Nat → Nat → Text} {start : Nat} {items : List Item}
    (h : o.itemsBy slot start = .ok items) : items.map Item.label = o.labels := by
  induction o generalizing start items with
  | done => rw [← Except.ok.inj h]; rfl
  | column c rest ih =>
    rw [itemsBy] at h
    rw [labels]
    cases hfiller : c.isFiller with
    | true =>
      rw [hfiller, if_pos rfl] at h
      rw [Codec.label?, if_pos hfiller]
      exact ih h
    | false =>
      rw [hfiller, if_neg Bool.false_ne_true] at h
      obtain ⟨value, -, h⟩ := Success.of_bind h
      obtain ⟨more, hmore, h⟩ := Success.of_bind h
      obtain rfl := Except.ok.inj h
      rw [Codec.label?_eq hfiller value, List.map_cons, ih hmore]
      rfl
  | branch key t inside inner rest ihinner ihrest =>
    rw [itemsBy] at h
    obtain ⟨within, -, h⟩ := Success.of_bind h
    obtain ⟨more, hmore, h⟩ := Success.of_bind h
    obtain rfl := Except.ok.inj h
    rw [List.map_cons, ihrest hmore]
    rfl

/-- The text that is written for a record of a schema of some name. -/
def write : Outline → Text → Record → Except Error Text
  | done, _, _ => .ok []
  | column c rest, name, record => do
    let value ← columnValue name record c
    let slot ← c.format value
    let more ← rest.write name record
    return slot ++ more
  | branch key _ inside inner rest, name, record => do
    let r ← nestedRecord name record key
    let slot ← inner.write inside r
    let more ← rest.write name record
    return slot ++ more

end Outline

/-! ### Cursors -/

/-- The slot of some width at a position that is kept in a 64-bit word. -/
def Text.wordWindow (line : Text) (start width : Nat) : Text :=
  line.window (start % 2 ^ 64) width

/-- **Positions that fit a word are read as they are.** -/
theorem Outline.itemsBy_wordWindow {o : Outline} {line : Text} {start : Nat}
    (hfits : start + o.width < 2 ^ 64) : o.itemsBy line.wordWindow start = o.items line start := by
  induction o generalizing start with
  | done => rfl
  | column c rest ih =>
    rw [width] at hfits
    have hslot : line.wordWindow start c.width.toNat = line.window start c.width.toNat := by
      rw [Text.wordWindow, Nat.mod_eq_of_lt (by omega)]
    rw [items_column, itemsBy, hslot, ih (by omega)]
  | branch key t inside inner rest ihinner ihrest =>
    rw [width] at hfits
    rw [items_branch, itemsBy, ihinner (by omega), ihrest (by omega)]

namespace Reading

theorem add_skip (r : Reading) (width : UInt64) (item : Item) :
    (r.skip width).add item = (r.add item).skip width := by
  cases item with
  | field key value => rfl
  | member group name value =>
    show (r.skip width).putInGroup group name value = (r.putInGroup group name value).skip width
    have hgroups : (r.skip width).groups = r.groups := rfl
    unfold putInGroup
    rw [hgroups]
    cases Listing.find? r.groups group <;> rfl

theorem addAll_skip (r : Reading) (width : UInt64) (items : List Item) :
    items.foldl add (r.skip width) = (items.foldl add r).skip width := by
  induction items generalizing r with
  | nil => rfl
  | cons item items ih => rw [List.foldl_cons, add_skip, ih]; rfl

theorem cursor_add (r : Reading) (item : Item) : (r.add item).cursor = r.cursor := by
  cases item with
  | field key value => rfl
  | member group name value =>
    show (r.putInGroup group name value).cursor = r.cursor
    unfold putInGroup
    cases Listing.find? r.groups group <;> rfl

theorem skip_skip (r : Reading) (v w : UInt64) : (r.skip v).skip w = r.skip (v + w) := by
  unfold skip
  rw [UInt64.add_assoc]

/-- To read an item, to go on, and then to read more is to read all of it and go on by both. -/
theorem read_after {α : Type} (x : Except Error α) (item : α → Item)
    (more : Except Error (List Item)) (r : Reading) (v w : UInt64) :
    ((x.map fun a => (r.add (item a)).skip v) >>= fun r =>
        more.map fun items => (items.foldl add r).skip w)
      = (x >>= fun a => more >>= fun items => .ok (item a :: items)).map fun items =>
        (items.foldl add r).skip (v + w) := by
  cases x with
  | error e => rfl
  | ok a =>
    cases more with
    | error e => rfl
    | ok items =>
      show Except.ok ((items.foldl add ((r.add (item a)).skip v)).skip w)
        = Except.ok ((items.foldl add (r.add (item a))).skip (v + w))
      rw [addAll_skip, skip_skip]

theorem finish_skip (r : Reading) (width : UInt64) : (r.skip width).finish = r.finish := rfl

theorem finish_addAll (cursor : UInt64) (items : List Item) :
    (items.foldl add (start cursor)).finish = gather items := by
  have hstart : start cursor = (start 0).skip cursor := by
    unfold start skip
    rw [UInt64.zero_add]
  rw [hstart, addAll_skip, finish_skip]
  rfl

end Reading

/-! ### Computations that change nothing -/

namespace Build

variable {α β : Type}

/-- A computation gives a result and changes nothing. -/
def Yields (x : Build α) (L : Layout) (a : α) : Prop := x L = .ok a L

theorem yields_pure (a : α) (L : Layout) : Yields (pure a) L a := rfl

theorem yields_schema (s : SchemaId) (L : Layout) : Yields (Build.schema s) L (L.schema s) := rfl

theorem Yields.bind {x : Build α} {L : Layout} {a : α} (hx : Yields x L a) {f : α → Build β} {b : β}
    (hf : Yields (f a) L b) : Yields (x >>= f) L b := by
  unfold Yields at hx
  show EStateM.bind x f L = .ok b L
  unfold EStateM.bind
  rw [hx]
  exact hf

theorem Yields.map {x : Build α} {L : Layout} {a : α} (hx : Yields x L a) (f : α → β) :
    Yields (f <$> x) L (f a) := by
  unfold Yields at hx
  show EStateM.map f x L = .ok (f a) L
  unfold EStateM.map
  rw [hx]

/-- A computation reports what is known without it, a result or an error, and changes nothing. -/
def Reports (x : Build α) (L : Layout) (r : Except Error α) : Prop := x L = Build.ofExcept r L

theorem reports_ofExcept (r : Except Error α) (L : Layout) : Reports (Build.ofExcept r) L r := rfl

theorem Reports.outcome {x : Build α} {L : Layout} {r : Except Error α} (h : Reports x L r) :
    x.outcome L = r := by
  unfold Build.outcome
  rw [h]
  cases r <;> rfl

theorem Reports.bind_of_ok {x : Build α} {L : Layout} {r : Except Error α} (hx : Reports x L r)
    {f : α → Build β} {g : α → Except Error β} (hf : ∀ a, r = .ok a → Reports (f a) L (g a)) :
    Reports (x >>= f) L (r >>= g) := by
  unfold Reports at hx ⊢
  show EStateM.bind x f L = _
  unfold EStateM.bind
  rw [hx]
  cases r with
  | error e => rfl
  | ok a => exact hf a rfl

theorem Reports.bind {x : Build α} {L : Layout} {r : Except Error α} (hx : Reports x L r)
    {f : α → Build β} {g : α → Except Error β} (hf : ∀ a, Reports (f a) L (g a)) :
    Reports (x >>= f) L (r >>= g) :=
  hx.bind_of_ok fun a _ => hf a

theorem Reports.map {x : Build α} {L : Layout} {r : Except Error α} (hx : Reports x L r)
    (f : α → β) : Reports (f <$> x) L (r.map f) := by
  unfold Reports at hx ⊢
  show EStateM.map f x L = _
  unfold EStateM.map
  rw [hx]
  cases r <;> rfl

/-- What comes after a computation that changes nothing. -/
theorem Yields.then_reports {x : Build α} {L : Layout} {a : α} (hx : Yields x L a) {f : α → Build β}
    {r : Except Error β} (hf : Reports (f a) L r) : Reports (x >>= f) L r := by
  unfold Yields at hx
  unfold Reports at hf ⊢
  show EStateM.bind x f L = _
  unfold EStateM.bind
  rw [hx]
  exact hf

end Build

namespace Outline

/-- To write a slot after what has been written, and then more, is to write both after it. -/
theorem write_after (x more : Except Error Text) (done : Text) :
    (x.map (done ++ ·) >>= fun line => more.map (line ++ ·))
      = (x >>= fun slot => more >>= fun rest => .ok (slot ++ rest)).map (done ++ ·) := by
  cases x with
  | error e => rfl
  | ok slot =>
    cases more with
    | error e => rfl
    | ok rest => exact congrArg Except.ok (List.append_assoc ..)

theorem write_column (c : Codec) (rest : Outline) (name : Text) (record : Record) :
    (column c rest).write name record = (columnValue name record c >>= c.format) >>= fun slot =>
      rest.write name record >>= fun more => .ok (slot ++ more) := by
  rw [write]
  cases columnValue name record c <;> rfl

theorem write_branch (key : Text) (t : SchemaId) (inside : Text) (inner rest : Outline)
    (name : Text) (record : Record) :
    (branch key t inside inner rest).write name record
      = (nestedRecord name record key >>= inner.write inside) >>= fun slot =>
        rest.write name record >>= fun more => .ok (slot ++ more) := by
  rw [write]
  cases nestedRecord name record key <;> rfl

theorem write_column_ok {c : Codec} {rest : Outline} {name : Text} {record : Record} {x : Value}
    {slot line : Text} (hvalue : columnValue name record c = .ok x) (hslot : c.format x = .ok slot)
    (hline : rest.write name record = .ok line) :
    (column c rest).write name record = .ok (slot ++ line) := by
  rw [write_column, hvalue, hline]
  show (c.format x >>= fun slot => Except.ok (slot ++ line)) = _
  rw [hslot]
  rfl

theorem write_branch_ok {key : Text} {t : SchemaId} {inside : Text} {inner rest : Outline}
    {name : Text} {record i : Record} {slot line : Text}
    (hrecord : nestedRecord name record key = .ok i) (hslot : inner.write inside i = .ok slot)
    (hline : rest.write name record = .ok line) :
    (branch key t inside inner rest).write name record = .ok (slot ++ line) := by
  rw [write_branch, hrecord, hline]
  show (inner.write inside i >>= fun slot => Except.ok (slot ++ line)) = _
  rw [hslot]
  rfl

end Outline

theorem Layout.nestedRecord_of_find {name key : Text} {record i : Record}
    (h : record.find? key = some (.record i)) : nestedRecord name record key = .ok i := by
  unfold nestedRecord
  rw [h]

namespace Layout

open Build

variable {L : Layout} {s : SchemaId}

/-! ### Writing -/

theorem formatField_column {key : Text} {c : Codec} (h : L.known? s key = some (.column c))
    (descend : SchemaId → Record → Build Text) (record : Record) :
    Reports (formatField descend record s key) L
      (columnValue (L.schema s).name record c >>= c.format) := by
  refine Yields.then_reports (field_of_known h) ((yields_schema s L).then_reports ?_)
  exact (reports_ofExcept _ L).bind fun value => reports_ofExcept (c.format value) L

theorem formatField_inner {key : Text} {f : Field} {t : SchemaId} (h : L.known? s key = some f)
    (ht : f.schema? = some t) {descend : SchemaId → Record → Build Text}
    {written : Record → Except Error Text} (hinner : ∀ r, Reports (descend t r) L (written r))
    (record : Record) :
    Reports (formatField descend record s key) L
      (nestedRecord (L.schema s).name record f.key >>= written) := by
  have hbody : Reports (do
      let node ← Build.schema s
      let inner ← Build.ofExcept (nestedRecord node.name record f.key)
      descend t inner) L (nestedRecord (L.schema s).name record f.key >>= written) :=
    (yields_schema s L).then_reports ((reports_ofExcept _ L).bind hinner)
  -- a nested schema and the target of a reference are written alike
  refine Yields.then_reports (field_of_known h) ?_
  cases f with
  | column c => exact absurd ht (by simp [Field.schema?])
  | nested key u =>
    obtain rfl : u = t := Option.some.inj ht
    exact hbody
  | reference key u =>
    obtain rfl : u = t := Option.some.inj ht
    exact hbody

/-- Some fields of a schema are written as their outline says, or refused as it says. -/
theorem UnfoldsTo.writes {keys : List Text} {o : Outline} (ho : L.UnfoldsTo s keys o)
    (hkeys : keys ⊆ (L.schema s).fields) {height : Nat} (hheight : o.height ≤ height)
    (descend : SchemaId → Record → Build Text)
    (hdescend : ∀ t i, L.Leads s t → L.Unfolds t i → i.height < height → ∀ r,
      Reports (descend t r) L (i.write (L.schema t).name r)) (record : Record) (done : Text) :
    Reports (keys.foldlM (fun line key => (line ++ ·) <$> formatField descend record s key) done) L
      ((o.write (L.schema s).name record).map (done ++ ·)) := by
  -- along the outline of these fields only; what is inside a field is the business of `hdescend`
  induction ho generalizing done with
  | nil s => exact congrArg (EStateM.Result.ok · L) (List.append_nil done).symm
  | @column s key keys c rest h _ ih =>
    rw [List.foldlM_cons, Outline.write_column, ← Outline.write_after]
    have hfield := formatField_column h descend record
    exact (hfield.map (done ++ ·)).bind
      (ih (fun k hk => hkeys (List.mem_cons_of_mem _ hk)) hheight hdescend)
  | @branch s t key keys f inner rest h ht hinner _ _ ih =>
    rw [List.foldlM_cons, Outline.write_branch, ← Outline.write_after]
    obtain ⟨hinnerHeight, hrestHeight⟩ := Nat.max_le.mp hheight
    have hleads : L.Leads s t := ⟨key, hkeys List.mem_cons_self, f, fieldOf_of_known h, ht⟩
    have hfield := formatField_inner h ht (hdescend t inner hleads hinner hinnerHeight) record
    exact (hfield.map (done ++ ·)).bind
      (ih (fun k hk => hkeys (List.mem_cons_of_mem _ hk)) hrestHeight hdescend)

/-- A schema is written as its outline says, from wherever the walk comes. -/
theorem Unfolds.writes {room : Nat} {path : List SchemaId} {o : Outline} (ho : L.Unfolds s o)
    (hheight : o.height < room) (hpath : ∀ p ∈ path, Relation.TransGen L.Leads p s)
    (record : Record) :
    Reports (formatWithin room path s record) L (o.write (L.schema s).name record) := by
  induction room generalizing path s o record with
  | zero => exact absurd hheight (Nat.not_lt_zero _)
  | succ room ih =>
    have hs : s ∉ path := fun hs => ho.not_leads_self (hpath s hs)
    have hfold := UnfoldsTo.writes ho (List.Subset.refl _) (Nat.le_of_lt_succ hheight)
      (formatWithin room (s :: path))
      (fun t i hst hi hlt r => ih hi hlt (path_cons hpath hst) r) record []
    have hwhole : (o.write (L.schema s).name record).map ([] ++ ·)
        = o.write (L.schema s).name record := by
      cases o.write (L.schema s).name record <;> rfl
    rw [hwhole] at hfold
    exact (formatWithin_succ ..).trans ((if_neg hs).trans hfold)

/-! ### Reading -/

section Fields

variable {key : Text} {descend : SchemaId → UInt64 → Build Record}
  {measure : SchemaId → Build UInt64} {line : Text} {reading : Reading}

theorem parseField_filler {c : Codec} (h : L.known? s key = some (.column c))
    (hfiller : c.isFiller = true) :
    Yields (parseField descend measure line s reading key) L (reading.skip c.width) := by
  refine Yields.bind (field_of_known h) ?_
  dsimp only
  rw [hfiller, if_pos rfl]
  exact yields_pure _ L

theorem parseField_column {c : Codec} (h : L.known? s key = some (.column c))
    (hfiller : c.isFiller = false) :
    Reports (parseField descend measure line s reading key) L
      ((c.parse (slotAt line reading.cursor c.width)).map fun value =>
        (reading.add (c.item value)).skip c.width) := by
  refine Yields.then_reports (field_of_known h) ?_
  dsimp only
  rw [hfiller, if_neg Bool.false_ne_true]
  simp only [Codec.putColumn_eq]
  exact (reports_ofExcept _ L).map _

theorem parseField_inner {f : Field} {t : SchemaId} (h : L.known? s key = some f)
    (ht : f.schema? = some t) {inside : Except Error (List Item)} {width : UInt64}
    (hinner : Reports (descend t reading.cursor) L (inside.map gather))
    (hwidth : Yields (measure t) L width) :
    Reports (parseField descend measure line s reading key) L
      (inside.map fun items =>
        (reading.add (.field f.key (.record (gather items)))).skip width) := by
  have hbody : Reports (do
      let record ← descend t reading.cursor
      let width ← measure t
      return (reading.put f.key (.record record)).skip width) L
        (inside.map fun items => (reading.put f.key (.record (gather items))).skip width) := by
    cases inside with
    | error e => exact hinner.bind_of_ok (g := fun _ => .error e) fun _ h => absurd h nofun
    | ok items => exact Yields.then_reports hinner (hwidth.then_reports (yields_pure _ L))
  refine Yields.then_reports (field_of_known h) ?_
  cases f with
  | column c => exact absurd ht (by simp [Field.schema?])
  | nested key u =>
    obtain rfl : u = t := Option.some.inj ht
    exact hbody
  | reference key u =>
    obtain rfl : u = t := Option.some.inj ht
    exact hbody

/-- A field is read, and then the rest from where it ends. -/
theorem reports_after {α : Type} {x : Build Reading} {value : Except Error α}
    {item : α → Item} {v w : UInt64}
    (hx : Reports x L (value.map fun a => (reading.add (item a)).skip v))
    {f : Reading → Build Reading} {more : Except Error (List Item)}
    (hf : ∀ r : Reading, r.cursor = reading.cursor + v →
      Reports (f r) L (more.map fun items => (items.foldl Reading.add r).skip w)) :
    Reports (x >>= f) L ((value >>= fun a => more >>= fun items => .ok (item a :: items)).map
      fun items => (items.foldl Reading.add reading).skip (v + w)) := by
  rw [← Reading.read_after]
  refine hx.bind_of_ok fun r hr => hf r ?_
  -- what is kept of a field does not move the cursor
  obtain ⟨a, -, rfl⟩ := Success.of_map hr
  exact congrArg (· + v) (Reading.cursor_add reading (item a))

end Fields

/-- Some fields of a schema are read as their outline says, or refused as it says.  The cursor is a
word, so positions are taken modulo `2 ^ 64`. -/
theorem UnfoldsTo.parses {keys : List Text} {o : Outline} (ho : L.UnfoldsTo s keys o)
    (hkeys : keys ⊆ (L.schema s).fields) {height : Nat} (hheight : o.height ≤ height)
    (htrusts : ∀ t ∈ o.schemas, L.Trusts t) {line : Text}
    (descend : SchemaId → UInt64 → Build Record) (measure : SchemaId → Build UInt64)
    (hdescend : ∀ t i, L.Leads s t → L.Unfolds t i → i.height < height →
      (∀ u ∈ i.schemas, L.Trusts u) → ∀ start : Nat,
      Reports (descend t (.ofNat start)) L ((i.itemsBy line.wordWindow start).map gather))
    (hmeasure : ∀ t i, L.Unfolds t i → L.Trusts t → Yields (measure t) L (UInt64.ofNat i.width))
    (reading : Reading) {start : Nat} (hstart : reading.cursor = UInt64.ofNat start) :
    Reports (keys.foldlM (parseField descend measure line s) reading) L
      ((o.itemsBy line.wordWindow start).map fun items =>
        (items.foldl Reading.add reading).skip (UInt64.ofNat o.width)) := by
  induction ho generalizing reading start with
  | nil s =>
    have hsame : reading.skip (UInt64.ofNat 0) = reading := by
      unfold Reading.skip
      rw [show UInt64.ofNat 0 = 0 from rfl, UInt64.add_zero]
    show Yields (pure reading) L (reading.skip (UInt64.ofNat 0))
    rw [hsame]
    exact yields_pure reading L
  | @column s key keys c rest h _ ih =>
    have hslot : slotAt line reading.cursor c.width = line.wordWindow start c.width.toNat := by
      rw [slotAt, hstart, UInt64.toNat_ofNat']
      rfl
    have hcursor : reading.cursor + c.width = UInt64.ofNat (start + c.width.toNat) := by
      rw [hstart, UInt64.ofNat_add, UInt64.ofNat_toNat]
    have hrest (r : Reading) (hr : r.cursor = reading.cursor + c.width) :=
      ih (fun k hk => hkeys (List.mem_cons_of_mem _ hk)) hheight htrusts hdescend r
        (hr.trans hcursor)
    rw [List.foldlM_cons, Outline.itemsBy, Outline.width, UInt64.ofNat_add, UInt64.ofNat_toNat]
    cases hfiller : c.isFiller with
    | true =>
      have hmore := hrest (reading.skip c.width) rfl
      simp only [Reading.addAll_skip, Reading.skip_skip] at hmore
      exact (parseField_filler h hfiller).then_reports hmore
    | false =>
      have hfield : Reports (parseField descend measure line s reading key) L _ :=
        parseField_column h hfiller
      rw [hslot] at hfield
      exact reports_after hfield hrest
  | @branch s t key keys f inner rest h ht hinner _ _ ih =>
    obtain ⟨hinnerHeight, hrestHeight⟩ := Nat.max_le.mp hheight
    have hleads : L.Leads s t := ⟨key, hkeys List.mem_cons_self, f, fieldOf_of_known h, ht⟩
    -- the record inside is gathered anew, so only its width matters to the reading outside
    have hrecord := hdescend t inner hleads hinner hinnerHeight
      (fun u hu => htrusts u (List.mem_cons_of_mem _ (List.mem_append_left _ hu))) start
    rw [← hstart] at hrecord
    have hfield : Reports (parseField descend measure line s reading key) L _ :=
      parseField_inner h ht hrecord (hmeasure t inner hinner (htrusts t List.mem_cons_self))
    have hcursor : reading.cursor + UInt64.ofNat inner.width
        = UInt64.ofNat (start + inner.width) := by
      rw [hstart, UInt64.ofNat_add]
    rw [List.foldlM_cons, Outline.itemsBy, Outline.width, UInt64.ofNat_add]
    exact reports_after hfield fun r hr =>
      ih (fun k hk => hkeys (List.mem_cons_of_mem _ hk)) hrestHeight
        (fun u hu => htrusts u (List.mem_cons_of_mem _ (List.mem_append_right _ hu))) hdescend r
        (hr.trans hcursor)

/-- The width of a schema that is trusted is that of its outline. -/
theorem Unfolds.measures (hL : L.Measured) {t : SchemaId} {i : Outline} (hi : L.Unfolds t i)
    (ht : L.Trusts t) (room : Nat) (path : List SchemaId) :
    Yields (widthWithin room path t) L (UInt64.ofNat i.width) := by
  obtain ⟨total, htotal⟩ := Option.isSome_iff_exists.mp ht
  obtain ⟨o, ho, rfl, -⟩ := hL.unfolds htotal
  unfold Yields widthWithin
  simp only [htotal, UnfoldsTo.unique ho hi]

/-- A schema is read as its outline says, or the line is refused as it says, from wherever the walk
comes. -/
theorem Unfolds.parses {room : Nat} {path : List SchemaId} {o : Outline} (hL : L.Measured)
    (ho : L.Unfolds s o) (hheight : o.height < room)
    (hpath : ∀ p ∈ path, Relation.TransGen L.Leads p s) (htrusts : ∀ t ∈ o.schemas, L.Trusts t)
    (line : Text) (start : Nat) :
    Reports (parseWithin line room path s (.ofNat start)) L
      ((o.itemsBy line.wordWindow start).map gather) := by
  induction room generalizing path s o start with
  | zero => exact absurd hheight (Nat.not_lt_zero _)
  | succ room ih =>
    have hs : s ∉ path := fun hs => ho.not_leads_self (hpath s hs)
    have hfold := UnfoldsTo.parses ho (List.Subset.refl _) (Nat.le_of_lt_succ hheight) htrusts
      (parseWithin line room (s :: path)) (widthWithin room (s :: path))
      (fun t i hst hi hlt hi' start => ih hi hlt (path_cons hpath hst) hi' start)
      (fun t i hi ht => hi.measures hL ht room (s :: path))
      (Reading.start (.ofNat start)) rfl
    have hall := hfold.map Reading.finish
    have hgather : ((o.itemsBy line.wordWindow start).map fun items =>
        (items.foldl Reading.add (Reading.start (.ofNat start))).skip (UInt64.ofNat o.width)).map
          Reading.finish = (o.itemsBy line.wordWindow start).map gather := by
      cases o.itemsBy line.wordWindow start with
      | error e => rfl
      | ok items => exact congrArg Except.ok (Reading.finish_addAll _ items)
    exact (parseWithin_succ ..).trans ((if_neg hs).trans (hall.trans (by rw [← hgather])))

/-! ### Validated schemas -/

namespace Settled

variable {o : Outline}

/-- The width is that of the outline, as a word holds it. -/
theorem yields_width (h : L.Settled s o) : Yields (width s) L (UInt64.ofNat o.width) :=
  h.unfolds.measures h.wellMade.measured (Option.isSome_iff_exists.mpr ⟨_, h.trusted⟩) maxDepth []

/-- **Writing writes the outline**, and then compares what it has written with the width, as a word
holds it. -/
theorem reports_format_word (h : L.Settled s o) (record : Record) :
    Reports (format s record) L (o.write (L.schema s).name record >>= fun line =>
      if line.width = o.width % 2 ^ 64 then .ok line
      else .error (.wrongWidth (L.schema s).name line.width (UInt64.ofNat o.width))) := by
  have hline := h.unfolds.writes h.height_lt (fun p (hp : p ∈ []) => absurd hp (by simp)) record
  refine hline.bind fun line => h.yields_width.then_reports ?_
  rw [show (UInt64.ofNat o.width).toNat = o.width % 2 ^ 64 from UInt64.toNat_ofNat']
  split
  · exact yields_pure line L
  · exact (yields_schema s L).then_reports rfl

/-- What is written has the width of the outline, where that fits a word. -/
theorem reports_format (h : L.Settled s o) (hlt : o.width < 2 ^ 64) (record : Record) :
    Reports (format s record) L (o.write (L.schema s).name record >>= fun line =>
      if line.width = o.width then .ok line
      else .error (.wrongWidth (L.schema s).name line.width (UInt64.ofNat o.width))) := by
  have hreports := h.reports_format_word record
  rwa [Nat.mod_eq_of_lt hlt] at hreports

/-- What is as wide as the outline is written. -/
theorem format_eq (h : L.Settled s o) (hlt : o.width < 2 ^ 64) {record : Record} {line : Text}
    (hwrite : o.write (L.schema s).name record = .ok line) (hwidth : line.width = o.width) :
    format s record L = .ok line L := by
  have hreports := h.reports_format hlt record
  unfold Reports at hreports
  rw [hreports, hwrite]
  show Build.ofExcept (if line.width = o.width then _ else _) L = _
  rw [if_pos hwidth]
  rfl

/-- **Reading gathers the items of the outline**, from any position, or fails as the outline does;
positions are taken modulo `2 ^ 64`. -/
theorem reports_parse_word (h : L.Settled s o) (line : Text) (start : UInt64) :
    Reports (parse s line start) L ((o.itemsBy line.wordWindow start.toNat).map gather) := by
  have hreports := h.unfolds.parses h.wellMade.measured h.height_lt
    (fun _ (hp : _ ∈ []) => absurd hp (by simp)) h.trusts line start.toNat
  rwa [UInt64.ofNat_toNat] at hreports

/-- Positions are as they are, where all of them fit a word. -/
theorem reports_parse (h : L.Settled s o) (line : Text) {start : UInt64}
    (hfits : start.toNat + o.width < 2 ^ 64) :
    Reports (parse s line start) L ((o.items line start.toNat).map gather) := by
  rw [← Outline.itemsBy_wordWindow hfits]
  exact h.reports_parse_word line start

/-- What can be read of an outline is read. -/
theorem parse_eq (h : L.Settled s o) (hlt : o.width < 2 ^ 64) {line : Text} {items : List Item}
    (hitems : o.items line 0 = .ok items) : parse s line 0 L = .ok (gather items) L := by
  have hzero : (0 : UInt64).toNat = 0 := rfl
  have hreports := h.reports_parse line (show (0 : UInt64).toNat + o.width < 2 ^ 64 by omega)
  rw [hzero, hitems] at hreports
  exact hreports

end Settled

end Layout

end RecordLayout
