import RecordLayout.Proofs.Layout.Follow

/-!
# Outlines

The outline of a schema is what is left of it when its nested schemas and the targets of its
references are written out in their places.  A schema has an outline when all these targets have
been found and none of the schemas is inside itself.

## Main definitions

* `Outline`: a tree of codecs, where each node holds a field and the fields after it.
* `Outline.width`, `Outline.schemas`, `Outline.size`, `Outline.height`.
* `Layout.UnfoldsTo`, `Layout.Unfolds`: some fields, or all, of a schema have an outline.

## Main results

* `Layout.UnfoldsTo.unique`: there is one outline at most.
* `Layout.UnfoldsTo.transfer`: an outline goes on with the layout.
* `Layout.UnfoldsTo.inner`: what is inside has a smaller outline, so that nothing is inside itself.
-/

namespace RecordLayout

/-- The fields of a schema in order, with the fields of the schemas inside it. -/
inductive Outline
  /-- No more fields. -/
  | done
  /-- A leaf, and the fields after it. -/
  | column (codec : Codec) (rest : Outline)
  /-- The fields of a schema that stands under a key, and the fields after it. -/
  | branch (key : Text) (schema : SchemaId) (name : Text) (inner rest : Outline)

namespace Outline

/-- The sum of the widths of all codecs, as a number. -/
def width : Outline → Nat
  | done => 0
  | column codec rest => codec.width.toNat + rest.width
  | branch _ _ _ inner rest => inner.width + rest.width

/-- The schemas inside. -/
def schemas : Outline → List SchemaId
  | done => []
  | column _ rest => rest.schemas
  | branch _ t _ inner rest => t :: (inner.schemas ++ rest.schemas)

/-- The number of fields, inside and out. -/
def size : Outline → Nat
  | done => 0
  | column _ rest => rest.size + 1
  | branch _ _ _ inner rest => inner.size + rest.size + 1

/-- The greatest number of schemas that are inside one another. -/
def height : Outline → Nat
  | done => 0
  | column _ rest => rest.height
  | branch _ _ _ inner rest => max (inner.height + 1) rest.height

/-- Outlines whose codecs differ in how they read and write at most. -/
inductive Follows : Outline → Outline → Prop
  | done : Follows done done
  | column {c d : Codec} {o p : Outline} (h : c.SameSlot d) (hrest : Follows o p) :
      Follows (column c o) (column d p)
  | branch (key : Text) (t : SchemaId) (name : Text) {i j o p : Outline} (hinner : Follows i j)
      (hrest : Follows o p) : Follows (branch key t name i o) (branch key t name j p)

namespace Follows

variable {o p : Outline}

theorem width_eq (h : o.Follows p) : p.width = o.width := by
  induction h with
  | done => rfl
  | column h _ ih => rw [width, width, h.width, ih]
  | branch _ _ _ _ _ ihinner ihrest => rw [width, width, ihinner, ihrest]

theorem schemas_eq (h : o.Follows p) : p.schemas = o.schemas := by
  induction h with
  | done => rfl
  | column _ _ ih => exact ih
  | branch _ _ _ _ _ ihinner ihrest => rw [schemas, schemas, ihinner, ihrest]

theorem height_eq (h : o.Follows p) : p.height = o.height := by
  induction h with
  | done => rfl
  | column _ _ ih => exact ih
  | branch _ _ _ _ _ ihinner ihrest => rw [height, height, ihinner, ihrest]

end Follows

end Outline

namespace Layout

/-- The fields of some keys of a schema, written out. -/
inductive UnfoldsTo (L : Layout) : SchemaId → List Text → Outline → Prop
  | nil (s : SchemaId) : UnfoldsTo L s [] .done
  | column {s : SchemaId} {key : Text} {keys : List Text} {c : Codec} {rest : Outline}
      (h : L.known? s key = some (.column c)) (hrest : UnfoldsTo L s keys rest) :
      UnfoldsTo L s (key :: keys) (.column c rest)
  | branch {s t : SchemaId} {key : Text} {keys : List Text} {f : Field} {inner rest : Outline}
      (h : L.known? s key = some f) (ht : f.schema? = some t)
      (hinner : UnfoldsTo L t (L.schema t).fields inner) (hrest : UnfoldsTo L s keys rest) :
      UnfoldsTo L s (key :: keys) (.branch f.key t (L.schema t).name inner rest)

/-- All fields of a schema, written out. -/
def Unfolds (L : Layout) (s : SchemaId) (o : Outline) : Prop :=
  L.UnfoldsTo s (L.schema s).fields o

namespace UnfoldsTo

variable {L M : Layout} {s : SchemaId} {keys : List Text} {o p : Outline}

/-- There is one outline at most. -/
theorem unique (ho : L.UnfoldsTo s keys o) (hp : L.UnfoldsTo s keys p) : o = p := by
  induction ho generalizing p with
  | nil => cases hp; rfl
  | column h _ ih =>
    cases hp with
    | column h' hrest =>
      obtain rfl := Field.column.inj (Option.some.inj (h.symm.trans h'))
      rw [ih hrest]
    | branch h' ht =>
      rw [← Option.some.inj (h.symm.trans h')] at ht
      exact absurd ht (by simp [Field.schema?])
  | branch h ht _ _ ihinner ihrest =>
    cases hp with
    | column h' =>
      rw [Option.some.inj (h.symm.trans h')] at ht
      exact absurd ht (by simp [Field.schema?])
    | branch h' ht' hinner hrest =>
      obtain rfl := Option.some.inj (h.symm.trans h')
      obtain rfl := Option.some.inj (ht.symm.trans ht')
      rw [ihinner hinner, ihrest hrest]

/-- An outline goes on with the schemas that it is made of. -/
theorem transfer {P : SchemaId → Prop} (ho : L.UnfoldsTo s keys o) (hs : P s)
    (hschemas : ∀ t ∈ o.schemas, P t)
    (hname : ∀ t, P t → (M.schema t).name = (L.schema t).name)
    (hfields : ∀ t, P t → (M.schema t).fields = (L.schema t).fields)
    (hknown : ∀ t, P t → ∀ key f, L.known? t key = some f →
      ∃ g, M.known? t key = some g ∧ f.Follows g) :
    ∃ p, M.UnfoldsTo s keys p ∧ o.Follows p := by
  induction ho with
  | nil s => exact ⟨.done, .nil s, .done⟩
  | column h _ ih =>
    obtain ⟨g, hg, hfollows⟩ := hknown _ hs _ _ h
    obtain ⟨p, hp, hop⟩ := ih hs hschemas
    cases hfollows with
    | column hcd => exact ⟨_, .column hg hp, .column hcd hop⟩
  | @branch s t key keys f inner rest h ht _ _ ihinner ihrest =>
    obtain ⟨g, hg, hfollows⟩ := hknown _ hs _ _ h
    have hPt : P t := hschemas t List.mem_cons_self
    obtain ⟨q, hq, hiq⟩ := ihinner hPt fun u hu =>
      hschemas u (List.mem_cons_of_mem _ (List.mem_append_left _ hu))
    obtain ⟨p, hp, hop⟩ := ihrest hs fun u hu =>
      hschemas u (List.mem_cons_of_mem _ (List.mem_append_right _ hu))
    refine ⟨.branch g.key t (M.schema t).name q p, ?_, ?_⟩
    · exact .branch hg (hfollows.schema.trans ht) (hfields t hPt ▸ hq) hp
    · rw [hfollows.key, hname t hPt]
      exact .branch f.key t _ hiq hop

/-- An outline goes on with the layout. -/
theorem follow {r : Nat} (ho : L.UnfoldsTo s keys o) (h : L.Follows r M) :
    ∃ p, M.UnfoldsTo s keys p ∧ o.Follows p :=
  ho.transfer (P := fun _ => True) trivial (fun _ _ => trivial) (fun t _ => (h.schema t).name)
    (fun t _ => (h.schema t).fields) fun _ _ _ _ hf => h.known hf

/-- The schemas inside are schemas of the layout. -/
theorem schemas_lt (hL : L.Coherent) (ho : L.UnfoldsTo s keys o) :
    ∀ t ∈ o.schemas, t < L.schemas.length := by
  induction ho with
  | nil => intro t ht; simp [Outline.schemas] at ht
  | column _ _ ih => exact ih
  | @branch s u key keys f inner rest h hu _ _ ihinner ihrest =>
    intro t ht
    rcases List.mem_cons.mp ht with rfl | ht
    · exact hL.known_lt h hu
    · rcases List.mem_append.mp ht with ht | ht
      · exact ihinner t ht
      · exact ihrest t ht

/-- Every key has its field, found already. -/
theorem known (ho : L.UnfoldsTo s keys o) {key : Text} (hkey : key ∈ keys) :
    ∃ f, L.known? s key = some f := by
  induction ho with
  | nil => simp at hkey
  | column h _ ih | branch h _ _ _ _ ih =>
    rcases List.mem_cons.mp hkey with rfl | hkey
    · exact ⟨_, h⟩
    · exact ih hkey

/-- What stands under a key has an outline that is inside. -/
theorem inner (ho : L.UnfoldsTo s keys o) {key : Text} (hkey : key ∈ keys) {f : Field}
    (hf : L.known? s key = some f) {t : SchemaId} (ht : f.schema? = some t) :
    ∃ i, L.Unfolds t i ∧ i.size < o.size ∧ i.height < o.height ∧ t ∈ o.schemas
      ∧ i.schemas ⊆ o.schemas := by
  induction ho with
  | nil => simp at hkey
  | column h _ ih =>
    rcases List.mem_cons.mp hkey with rfl | hkey
    · rw [Option.some.inj (hf.symm.trans h)] at ht
      exact absurd ht (by simp [Field.schema?])
    · obtain ⟨i, hi, hsize, hheight, hmem, hsub⟩ := ih hkey hf
      exact ⟨i, hi, Nat.lt_succ_of_lt hsize, hheight, hmem, hsub⟩
  | @branch s u key' keys g inner rest h hu hinner _ _ ihrest =>
    rcases List.mem_cons.mp hkey with rfl | hkey
    · obtain rfl := Option.some.inj (hf.symm.trans h)
      obtain rfl := Option.some.inj (ht.symm.trans hu)
      refine ⟨inner, hinner, ?_, ?_, List.mem_cons_self, fun v hv => ?_⟩
      · show inner.size < inner.size + rest.size + 1
        omega
      · exact Nat.lt_of_lt_of_le (Nat.lt_succ_self _) (Nat.le_max_left _ _)
      · exact List.mem_cons_of_mem _ (List.mem_append_left _ hv)
    · obtain ⟨i, hi, hsize, hheight, hmem, hsub⟩ := ihrest hkey hf
      refine ⟨i, hi, ?_, Nat.lt_of_lt_of_le hheight (Nat.le_max_right _ _), ?_, fun v hv => ?_⟩
      · show i.size < inner.size + rest.size + 1
        omega
      · exact List.mem_cons_of_mem _ (List.mem_append_right _ hmem)
      · exact List.mem_cons_of_mem _ (List.mem_append_right _ (hsub hv))

end UnfoldsTo

end Layout

end RecordLayout
