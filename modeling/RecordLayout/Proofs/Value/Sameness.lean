import Mathlib.Data.List.Induction
import Mathlib.Data.List.Perm.Subperm
import RecordLayout.Proofs.Layout.Gather
import RecordLayout.Proofs.Options.Sound

/-!
# Equality of records is that of maps

Equality of records compares how many keys there are, and looks up every key of the one in the
other.  That is equality of maps only because a record that is built up by setting keys has every
key once: then as many keys, each of them found, are all the keys there are.  So the order in which
keys were set does not count, whether in a record or in one inside it.

## Main definitions

* `Value.Built`: a value whose records are built up by setting keys, at any depth.
* `Value.Same`: what it is for values to be equal, with records as maps.
* `Value.HasNaN`: a value with a NaN in it, at any depth.
* `Value.Reordered`: a value whose keys are in another order, at any depth.

## Main results

* `Record.keys_ofList`: the keys of a record, in the order in which they were first set.
* `Record.find?_ofList`: a key has the value that was set last.
* `Value.Built.equal_iff_same`: **built values are equal exactly if they are the same**.
* `Value.equality`: **what equality of built values is**.
-/

namespace RecordLayout

/-! ### Records that are built up -/

namespace Record

variable {pairs : List (Text × Value)}

theorem ofList_append (pairs : List (Text × Value)) (e : Text × Value) :
    ofList (pairs ++ [e]) = (ofList pairs).set e.1 e.2 := List.foldl_concat ..

/-- **The keys of a record**, in the order in which they were first set. -/
theorem keys_ofList (pairs : List (Text × Value)) :
    (ofList pairs).keys = (pairs.map (·.1)).eraseDups := by
  induction pairs using List.reverseRecOn with
  | nil => rfl
  | append_singleton pairs e ih =>
    rw [ofList_append, List.map_append, List.eraseDups_append, ← ih]
    refine (Listing.names_set _ e.1 e.2).trans ?_
    -- the key is there exactly if it was set before
    have hmem : e.1 ∈ Listing.names (ofList pairs) ↔ e.1 ∈ pairs.map (·.1) := by
      rw [show Listing.names (ofList pairs) = _ from ih, List.mem_eraseDups]
    rw [List.map_singleton]
    by_cases h : e.1 ∈ pairs.map (·.1)
    · have hnone : [e.1].removeAll (pairs.map (·.1)) = [] := by simp [List.removeAll, h]
      rw [if_pos (hmem.mpr h), hnone, List.eraseDups_nil, List.append_nil]
      rfl
    · have hall : [e.1].removeAll (pairs.map (·.1)) = [e.1] := by simp [List.removeAll, h]
      rw [if_neg (mt hmem.mp h), hall, List.eraseDups_cons]
      rfl

/-- A record that is built up has every key once. -/
theorem nodup_keys_ofList (pairs : List (Text × Value)) : (ofList pairs).keys.Nodup := by
  induction pairs using List.reverseRecOn with
  | nil => exact List.nodup_nil
  | append_singleton pairs e ih =>
    rw [ofList_append]
    exact Listing.nodup_names_set ih _ _

/-- **A key has the value that was set last.** -/
theorem find?_ofList (pairs : List (Text × Value)) (key : Text) :
    (ofList pairs).find? key = Listing.find? pairs.reverse key := by
  induction pairs using List.reverseRecOn with
  | nil => rfl
  | append_singleton pairs e ih =>
    rw [ofList_append, List.reverse_append, List.reverse_singleton, List.singleton_append,
      Listing.find?_cons, ← ih]
    refine (Listing.find?_set _ e.1 key e.2).trans ?_
    simp only [eq_comm, find?]

theorem mem_of_find?_ofList {key : Text} {v : Value} (h : (ofList pairs).find? key = some v) :
    (key, v) ∈ pairs := by
  rw [find?_ofList] at h
  exact List.mem_reverse.mp (Listing.mem_of_find? h)

/-- **Records with as many keys, every one of them found in the other, have the same keys.** -/
theorem mem_keys_iff_of_within {r o : Record} (hr : r.keys.Nodup) (hlength : r.length = o.length)
    (hwithin : Value.within r o = true) (key : Text) : key ∈ r.keys ↔ key ∈ o.keys := by
  have hsubset : r.keys ⊆ o.keys := by
    intro key hkey
    obtain ⟨e, he, rfl⟩ := List.mem_map.mp hkey
    obtain ⟨w, hw, -⟩ := Value.within_iff.mp hwithin e he
    exact Listing.mem_names_of_find? hw
  have hcount : o.keys.length ≤ r.keys.length := by
    unfold keys Listing.names
    rw [List.length_map, List.length_map]
    exact Nat.le_of_eq hlength.symm
  exact ((List.subperm_of_subset hr hsubset).perm_of_length_le hcount).mem_iff

/-- **Records that have every key once are equal exactly if they have the same keys with equal
values.** -/
theorem equal_iff {r o : Record} (hr : r.keys.Nodup) (ho : o.keys.Nodup) : r.equal o = true ↔
    (∀ key, key ∈ r.keys ↔ key ∈ o.keys)
      ∧ ∀ key v w, r.find? key = some v → o.find? key = some w → v.equal w = true := by
  constructor
  · intro h
    rw [equal, Value.equal, Bool.and_eq_true] at h
    obtain ⟨hlength, hwithin⟩ := h
    refine ⟨mem_keys_iff_of_within hr (beq_iff_eq.mp hlength) hwithin, fun key v w hv hw => ?_⟩
    obtain ⟨w', hw', hequal⟩ := Value.within_iff.mp hwithin (key, v) (Listing.mem_of_find? hv)
    obtain rfl := Option.some.inj (hw.symm.trans hw')
    exact hequal
  · rintro ⟨hkeys, hvalues⟩
    refine equal_of_find? hr ho hkeys fun key v hv => ?_
    obtain ⟨w, hw⟩ := Listing.mem_names_iff.mp ((hkeys key).mp (Listing.mem_names_of_find? hv))
    exact ⟨w, hw, hvalues key v w hv hw⟩

end Record

namespace Value

variable {v w x : Value}

/-- A value whose records are built up by setting keys, at any depth. -/
inductive Built : Value → Prop
  | null : Built .null
  | bool (b : Bool) : Built (.bool b)
  | int (i : Int64) : Built (.int i)
  | float (x : Binary64) : Built (.float x)
  | text (t : Text) : Built (.text t)
  | record {pairs : List (Text × Value)} (h : ∀ e ∈ pairs, Built e.2) :
    Built (.record (Record.ofList pairs))

namespace Built

theorem nodup {r : Record} (h : Built (.record r)) : r.keys.Nodup := by
  cases h with
  | record => exact Record.nodup_keys_ofList _

theorem of_find? {r : Record} (h : Built (.record r)) {key : Text} (hv : r.find? key = some v) :
    v.Built := by
  cases h with
  | record h => exact h _ (Record.mem_of_find?_ofList hv)

end Built

/-! ### What equality is -/

/-- What it is for values to be equal: they are of one kind and have the same content, where numbers
are compared by value and records are the same if they have the same keys, with the same values. -/
inductive Same : Value → Value → Prop
  | null : Same .null .null
  | bool (b : Bool) : Same (.bool b) (.bool b)
  | int (i : Int64) : Same (.int i) (.int i)
  | float {x y : Binary64} (h : x.equal y = true) : Same (.float x) (.float y)
  | text (t : Text) : Same (.text t) (.text t)
  | record {r o : Record} (hkeys : ∀ key, key ∈ r.keys ↔ key ∈ o.keys)
    (hvalues : ∀ key v w, r.find? key = some v → o.find? key = some w → Same v w) :
    Same (.record r) (.record o)

namespace Same

theorem symm (h : Same v w) : Same w v := by
  induction h with
  | null => exact .null
  | bool b => exact .bool b
  | int i => exact .int i
  | float h => exact .float (Binary64.equal_comm _ _ ▸ h)
  | text t => exact .text t
  | record hkeys _ ih =>
    exact .record (fun key => (hkeys key).symm) fun key v w hv hw => ih key w v hw hv

theorem trans (h : Same v w) (k : Same w x) : Same v x := by
  induction h generalizing x with
  | null | bool | int | text => exact k
  | float h =>
    cases k with
    | float k => exact .float (Binary64.equal_trans h k)
  | @record r o hkeys _ ih =>
    cases k with
    | record kkeys kvalues =>
      refine .record (fun key => (hkeys key).trans (kkeys key)) fun key v x hv hx => ?_
      -- the record between them has the key too
      obtain ⟨w, hw⟩ := Listing.mem_names_iff.mp ((hkeys key).mp (Listing.mem_names_of_find? hv))
      exact ih key v w hv hw (kvalues key w x hw hx)

end Same

namespace Built

theorem same_of_equal (hv : v.Built) (hw : w.Built) (h : v.equal w = true) : v.Same w := by
  induction hv generalizing w with
  | null =>
    cases hw <;> simp only [equal, Bool.false_eq_true] at h
    exact .null
  | bool b =>
    cases hw <;> simp only [equal, beq_iff_eq, Bool.false_eq_true] at h
    exact h ▸ .bool b
  | int i =>
    cases hw <;> simp only [equal, beq_iff_eq, Bool.false_eq_true] at h
    exact h ▸ .int i
  | float x =>
    cases hw <;> simp only [equal, Bool.false_eq_true] at h
    exact .float h
  | text t =>
    cases hw <;> simp only [equal, beq_iff_eq, Bool.false_eq_true] at h
    exact h ▸ .text t
  | @record pairs hpairs ih =>
    cases hw with
    | null | bool | int | float | text => simp [equal] at h
    | record hw =>
      obtain ⟨hkeys, hvalues⟩ := (Record.equal_iff (Record.nodup_keys_ofList _)
        (Record.nodup_keys_ofList _)).mp h
      exact .record hkeys fun key v w hv hw' => ih _ (Record.mem_of_find?_ofList hv)
        (hw _ (Record.mem_of_find?_ofList hw')) (hvalues key v w hv hw')

theorem equal_of_same (hv : v.Built) (hw : w.Built) (h : v.Same w) : v.equal w = true := by
  induction h with
  | null | bool | int | text => simp [equal]
  | float h => simpa [equal] using h
  | record hkeys _ ih =>
    exact (Record.equal_iff hv.nodup hw.nodup).mpr ⟨hkeys, fun key v w hv' hw' =>
      ih key v w hv' hw' (hv.of_find? hv') (hw.of_find? hw')⟩

/-- **Built values are equal exactly if they are the same.** -/
theorem equal_iff_same (hv : v.Built) (hw : w.Built) : v.equal w = true ↔ v.Same w :=
  ⟨hv.same_of_equal hw, hv.equal_of_same hw⟩

theorem equal_comm (hv : v.Built) (hw : w.Built) : v.equal w = w.equal v := by
  rw [Bool.eq_iff_iff, hv.equal_iff_same hw, hw.equal_iff_same hv]
  exact ⟨Same.symm, Same.symm⟩

theorem equal_trans (hv : v.Built) (hw : w.Built) (hx : x.Built) (h : v.equal w = true)
    (k : w.equal x = true) : v.equal x = true :=
  hv.equal_of_same hx ((hv.same_of_equal hw h).trans (hw.same_of_equal hx k))

end Built

/-! ### Values that equal themselves -/

/-- A value with a NaN in it, at any depth. -/
inductive HasNaN : Value → Prop
  | float {x : Binary64} (h : x.isNaN = true) : HasNaN (.float x)
  | field {r : Record} {e : Text × Value} (he : e ∈ r) (h : HasNaN e.2) : HasNaN (.record r)

theorem not_hasNaN_ofList {pairs : List (Text × Value)} (h : ∀ e ∈ pairs, ¬ HasNaN e.2) :
    ¬ HasNaN (record (Record.ofList pairs)) := by
  rintro ⟨⟩
  next e hnan he =>
    have hfind := Listing.find?_eq_some_of_mem (Record.nodup_keys_ofList pairs) he
    exact h e (Record.mem_of_find?_ofList hfind) hnan

namespace Built

/-- A built value without a NaN in it has every key once at any depth. -/
theorem proper (hv : v.Built) (h : ¬ v.HasNaN) : v.Proper := by
  induction hv with
  | null => exact .null
  | bool b => exact .bool b
  | int i => exact .int i
  | text t => exact .text t
  | float x => exact .float (Bool.eq_false_iff.mpr fun hx => h (.float hx))
  | @record pairs _ ih =>
    have hnodup := Record.nodup_keys_ofList pairs
    refine .record hnodup fun e he => ?_
    have hmem := Record.mem_of_find?_ofList (Listing.find?_eq_some_of_mem hnodup he)
    exact ih e hmem fun hnan => h (.field he hnan)

/-- A built value with a NaN in it does not equal itself. -/
theorem not_equal_self (hv : v.Built) (h : v.HasNaN) : v.equal v = false := by
  induction h with
  | float h => rw [equal, Binary64.equal_self, h, Bool.not_true]
  | @field r e he _ ih =>
    have hfind := Listing.find?_eq_some_of_mem hv.nodup he
    refine Bool.eq_false_iff.mpr fun h => ?_
    have hself := ((Record.equal_iff hv.nodup hv.nodup).mp h).2 e.1 e.2 e.2 hfind hfind
    rw [ih (hv.of_find? hfind)] at hself
    exact Bool.false_ne_true hself

/-- **A built value equals itself exactly if there is no NaN in it.** -/
theorem equal_self_iff (hv : v.Built) : v.equal v = true ↔ ¬ v.HasNaN := by
  refine ⟨fun h hnan => ?_, fun h => (hv.proper h).equal_self⟩
  rw [hv.not_equal_self hnan] at h
  exact Bool.false_ne_true h

end Built

/-! ### Keys in another order -/

/-- A value whose keys are in another order, at any depth. -/
inductive Reordered : Value → Value → Prop
  | refl (v : Value) : Reordered v v
  | record {r o : Record} (hkeys : r.keys.Perm o.keys)
    (hvalues : ∀ key v w, r.find? key = some v → o.find? key = some w → Reordered v w) :
    Reordered (.record r) (.record o)

/-- What a value is the same as does not depend on the order of its keys. -/
theorem Reordered.same_iff (h : v.Reordered w) (x : Value) : v.Same x ↔ w.Same x := by
  induction h generalizing x with
  | refl => exact Iff.rfl
  | @record r o hkeys _ ih =>
    have hmem (key : Text) : key ∈ r.keys ↔ key ∈ o.keys := hkeys.mem_iff
    constructor
    · rintro ⟨⟩
      next p hp hvalues =>
        refine .record (fun key => (hmem key).symm.trans (hp key)) fun key w u hw hu => ?_
        obtain ⟨v, hv⟩ := Listing.mem_names_iff.mp ((hmem key).mpr (Listing.mem_names_of_find? hw))
        exact (ih key v w hv hw u).mp (hvalues key v u hv hu)
    · rintro ⟨⟩
      next p hp hvalues =>
        refine .record (fun key => (hmem key).trans (hp key)) fun key v u hv hu => ?_
        obtain ⟨w, hw⟩ := Listing.mem_names_iff.mp ((hmem key).mp (Listing.mem_names_of_find? hv))
        exact (ih key v w hv hw u).mpr (hvalues key w u hw hu)

/-- Records in which the same keys were set, in any order, to values whose keys are in any order. -/
theorem reordered_ofList {pairs more : List (Text × Value)}
    (hkeys : ∀ key, key ∈ pairs.map (·.1) ↔ key ∈ more.map (·.1))
    (hvalues : ∀ key v w, Listing.find? pairs.reverse key = some v →
      Listing.find? more.reverse key = some w → v.Reordered w) :
    (record (Record.ofList pairs)).Reordered (record (Record.ofList more)) := by
  have hperm : (Record.ofList pairs).keys.Perm (Record.ofList more).keys := by
    refine (List.perm_ext_iff_of_nodup (Record.nodup_keys_ofList _)
      (Record.nodup_keys_ofList _)).mpr fun key => ?_
    rw [Record.keys_ofList, Record.keys_ofList, List.mem_eraseDups, List.mem_eraseDups, hkeys]
  refine .record hperm fun key v w hv hw => ?_
  rw [Record.find?_ofList] at hv hw
  exact hvalues key v w hv hw

/-- **What a built value equals does not depend on the order of its keys**, at any depth. -/
theorem Built.equal_reordered (hv : v.Built) (hw : w.Built) (hx : x.Built) (h : v.Reordered w) :
    v.equal x = w.equal x := by
  rw [Bool.eq_iff_iff, hv.equal_iff_same hx, hw.equal_iff_same hx]
  exact h.same_iff x

/-- **What equality of built values is**, for records that are built up by setting keys one after
the other, and records inside them that are built up like that:

* A record has the keys that were set, once each, in the order in which they were first set, and
  each has the value that was set last.
* Records are equal exactly if they have the same keys with equal values, so values are equal
  exactly if they are the same.
* Equality is symmetric and transitive, and a value equals itself exactly if there is no NaN in it.
* Records in which the same was set in another order, at any depth, equal the same values. -/
theorem equality :
    (∀ pairs : List (Text × Value), (Record.ofList pairs).keys.Nodup
      ∧ (Record.ofList pairs).keys = (pairs.map (·.1)).eraseDups
      ∧ ∀ key, (Record.ofList pairs).find? key = Listing.find? pairs.reverse key)
    ∧ (∀ r o : Record, (record r).Built → (record o).Built →
      (r.equal o = true ↔ (∀ key, key ∈ r.keys ↔ key ∈ o.keys)
        ∧ ∀ key v w, r.find? key = some v → o.find? key = some w → v.equal w = true))
    ∧ (∀ v w : Value, v.Built → w.Built →
      (v.equal w = true ↔ v.Same w) ∧ v.equal w = w.equal v)
    ∧ (∀ v w x : Value, v.Built → w.Built → x.Built → v.equal w = true → w.equal x = true →
      v.equal x = true)
    ∧ (∀ v : Value, v.Built → (v.equal v = true ↔ ¬ v.HasNaN))
    ∧ (∀ pairs more : List (Text × Value),
      (∀ key, key ∈ pairs.map (·.1) ↔ key ∈ more.map (·.1)) →
      (∀ key v w, Listing.find? pairs.reverse key = some v →
        Listing.find? more.reverse key = some w → v.Reordered w) →
      (record (Record.ofList pairs)).Reordered (record (Record.ofList more)))
    ∧ ∀ v w x : Value, v.Built → w.Built → x.Built → v.Reordered w →
      v.equal x = w.equal x ∧ x.equal v = x.equal w := by
  refine ⟨fun pairs => ⟨Record.nodup_keys_ofList pairs, Record.keys_ofList pairs,
      Record.find?_ofList pairs⟩,
    fun r o hr ho => Record.equal_iff hr.nodup ho.nodup,
    fun v w hv hw => ⟨hv.equal_iff_same hw, hv.equal_comm hw⟩,
    fun v w x => Built.equal_trans, fun v => Built.equal_self_iff, fun _ _ => reordered_ofList,
    fun v w x hv hw hx h => ?_⟩
  have hequal := hv.equal_reordered hw hx h
  exact ⟨hequal, by rw [hx.equal_comm hv, hx.equal_comm hw, hequal]⟩

/-- The settings of a point. -/
def point : List (Text × Value) := [("x", .int 1), ("y", .float Binary64.zero)]

/-- The settings of a record, where a key is set again to a point. -/
def placed : List (Text × Value) :=
  [("at", .null), ("size", .int 3), ("at", .record (Record.ofList point))]

/-- Settings that come to the same, in another order. -/
def placedBack : List (Text × Value) :=
  [("size", .int 3), ("at", .record (Record.ofList point.reverse))]

theorem built_point : (record (Record.ofList point)).Built := by
  refine .record (List.forall_mem_cons.mpr ⟨.int 1, List.forall_mem_singleton.mpr (.float _)⟩)

theorem built_placed : (record (Record.ofList placed)).Built :=
  .record (List.forall_mem_cons.mpr ⟨.null, List.forall_mem_cons.mpr ⟨.int 3,
    List.forall_mem_singleton.mpr built_point⟩⟩)

theorem built_placedBack : (record (Record.ofList placedBack)).Built := by
  have hpoint : (record (Record.ofList point.reverse)).Built :=
    .record (List.forall_mem_cons.mpr ⟨.float _, List.forall_mem_singleton.mpr (.int 1)⟩)
  exact .record (List.forall_mem_cons.mpr ⟨.int 3, List.forall_mem_singleton.mpr hpoint⟩)

theorem not_hasNaN_placedBack : ¬ (record (Record.ofList placedBack)).HasNaN := by
  have hzero : ¬ HasNaN (.float Binary64.zero) := fun | .float h => absurd h (by decide)
  have hpoint : ¬ (record (Record.ofList point.reverse)).HasNaN :=
    not_hasNaN_ofList (List.forall_mem_cons.mpr ⟨hzero, List.forall_mem_singleton.mpr nofun⟩)
  exact not_hasNaN_ofList (List.forall_mem_cons.mpr ⟨nofun, List.forall_mem_singleton.mpr hpoint⟩)

/-- Records that were set up in different orders are equal. -/
theorem equality_placed :
    (Record.ofList placed).keys = ["at", "size"]
    ∧ (Record.ofList placed).find? "at" = some (.record (Record.ofList point))
    ∧ (record (Record.ofList placed)).Built ∧ (record (Record.ofList placedBack)).Built
    ∧ (record (Record.ofList placed)).Reordered (record (Record.ofList placedBack))
    ∧ (record (Record.ofList placed)).equal (record (Record.ofList placedBack)) = true := by
  obtain ⟨hset, -, -, -, hself, hreordered, hequal⟩ := equality
  obtain ⟨-, hkeys, hfind⟩ := hset placed
  have hpoint : (record (Record.ofList point)).Reordered
      (record (Record.ofList point.reverse)) := by
    refine hreordered _ _ (fun key => by rw [List.map_reverse, List.mem_reverse])
      fun key v w hv hw => ?_
    rcases List.mem_pair.mp (Listing.mem_of_find? hv) with he | he <;> cases he <;>
      exact Option.some.inj hw ▸ .refl _
  have hplaced : (record (Record.ofList placed)).Reordered (record (Record.ofList placedBack)) := by
    refine hreordered _ _ (fun key => by simp [placed, placedBack, or_comm]) fun key v w hv hw => ?_
    rcases List.mem_pair.mp (Listing.mem_of_find? hw) with he | he <;> cases he
    · exact Option.some.inj hv ▸ hpoint
    · exact Option.some.inj hv ▸ .refl _
  refine ⟨hkeys, hfind "at", built_placed, built_placedBack, hplaced, ?_⟩
  rw [(hequal _ _ _ built_placed built_placedBack built_placedBack hplaced).1]
  exact (hself _ built_placedBack).mpr not_hasNaN_placedBack

end Value

end RecordLayout
