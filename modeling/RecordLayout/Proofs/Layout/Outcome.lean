import RecordLayout.Layout.Basic

/-!
# How computations on a layout end

A computation ends with a result or an error, and with a layout in either case.  What holds of the
end of a sequence of computations follows from what holds of the end of each.

## Main definitions

* `Build.Ends`: what holds of the result and the layout in which a computation ends.
* `Build.outcome`, `Build.after`: the result and the layout themselves.
* `Build.gives`, `Build.failsWith`: tests of the result, and of the code of the error.
* `Build.attempted`: what an attempt at a computation gives.

## Main results

* `Build.ends_bind`, `Build.ends_map`, `Build.ends_attempt`: the end of a composed computation.
* `Build.ends_forM_results`, `Build.forM_congr`: steps over a list.
* `Build.ends_iff`: what holds of the end holds of the outcome and the layout after.
-/

namespace RecordLayout

namespace Build

variable {α β : Type}

/-- What holds of the result and the layout in which a computation ends. -/
def Ends (x : Build α) (L : Layout) (Q : Except Error α → Layout → Prop) : Prop :=
  match x L with
  | .ok a M => Q (.ok a) M
  | .error e M => Q (.error e) M

/-- The result of a computation, or its error. -/
def outcome (x : Build α) (L : Layout) : Except Error α :=
  match x L with
  | .ok a _ => .ok a
  | .error e _ => .error e

/-- The layout after a computation. -/
def after (x : Build α) (L : Layout) : Layout :=
  match x L with
  | .ok _ M => M
  | .error _ M => M

theorem ends_iff {x : Build α} {L : Layout} {Q : Except Error α → Layout → Prop} :
    x.Ends L Q ↔ Q (x.outcome L) (x.after L) := by
  unfold Ends outcome after
  cases x L <;> exact Iff.rfl

theorem Ends.mono {x : Build α} {L : Layout} {Q R : Except Error α → Layout → Prop}
    (h : x.Ends L Q) (hQR : ∀ r M, Q r M → R r M) : x.Ends L R :=
  ends_iff.mpr (hQR _ _ (ends_iff.mp h))

theorem Ends.and {x : Build α} {L : Layout} {Q R : Except Error α → Layout → Prop}
    (hQ : x.Ends L Q) (hR : x.Ends L R) : x.Ends L fun r M => Q r M ∧ R r M :=
  ends_iff.mpr ⟨ends_iff.mp hQ, ends_iff.mp hR⟩

theorem Ends.of_eq {x y : Build α} {L : Layout} {Q : Except Error α → Layout → Prop}
    (h : x L = y L) (hy : y.Ends L Q) : x.Ends L Q := by
  unfold Ends at hy ⊢
  rw [h]
  exact hy

/-- A computation that gives a result ends with it. -/
theorem Ends.of_ok {x : Build α} {L M : Layout} {a : α} {Q : Except Error α → Layout → Prop}
    (h : x.Ends L Q) (hx : x L = .ok a M) : Q (.ok a) M := by
  unfold Ends at h
  rw [hx] at h
  exact h

theorem outcome_eq_ok_iff {x : Build α} {L : Layout} {a : α} :
    x.outcome L = .ok a ↔ x L = .ok a (x.after L) := by
  unfold outcome after
  cases x L <;> simp

theorem outcome_eq_error_iff {x : Build α} {L : Layout} {e : Error} :
    x.outcome L = .error e ↔ x L = .error e (x.after L) := by
  unfold outcome after
  cases x L <;> simp

theorem outcome_of_ok {x : Build α} {L M : Layout} {a : α} (h : x L = .ok a M) :
    x.outcome L = .ok a := by
  unfold outcome
  rw [h]

theorem outcome_of_error {x : Build α} {L M : Layout} {e : Error} (h : x L = .error e M) :
    x.outcome L = .error e := by
  unfold outcome
  rw [h]

/-- Whether a computation gives a result. -/
def gives [DecidableEq α] (x : Build α) (L : Layout) (a : α) : Bool :=
  match x L with
  | .ok b _ => b = a
  | .error _ _ => false

theorem ok_of_gives [DecidableEq α] {x : Build α} {L : Layout} {a : α} (h : x.gives L a = true) :
    x L = .ok a (x.after L) := by
  unfold gives at h
  unfold after
  cases hx : x L with
  | ok b M =>
    rw [hx] at h
    simpa using h
  | error e M =>
    rw [hx] at h
    exact absurd h (by simp)

/-- Whether a computation fails, with an error of a code. -/
def failsWith (x : Build α) (L : Layout) (code : StatusCode) : Bool :=
  match x L with
  | .ok _ _ => false
  | .error e _ => e.code = code

theorem error_of_failsWith {x : Build α} {L : Layout} {code : StatusCode}
    (h : x.failsWith L code = true) : ∃ e, x.outcome L = .error e ∧ e.code = code := by
  unfold failsWith at h
  split at h
  · exact absurd h (by simp)
  · next e M hx => exact ⟨e, outcome_of_error hx, of_decide_eq_true h⟩

/-- A computation that fails ends with its error. -/
theorem Ends.of_error {x : Build α} {L M : Layout} {e : Error} {Q : Except Error α → Layout → Prop}
    (h : x.Ends L Q) (hx : x L = .error e M) : Q (.error e) M := by
  unfold Ends at h
  rw [hx] at h
  exact h

/-! ### Composed computations -/

@[simp] theorem ends_pure {a : α} {L : Layout} {Q : Except Error α → Layout → Prop} :
    (pure a : Build α).Ends L Q ↔ Q (.ok a) L := Iff.rfl

@[simp] theorem ends_throw {e : Error} {L : Layout} {Q : Except Error α → Layout → Prop} :
    (throw e : Build α).Ends L Q ↔ Q (.error e) L := Iff.rfl

theorem ends_bind {x : Build α} {f : α → Build β} {L : Layout}
    {Q : Except Error β → Layout → Prop} :
    (x >>= f).Ends L Q ↔ x.Ends L fun r M =>
      match r with
      | .ok a => (f a).Ends M Q
      | .error e => Q (.error e) M := by
  show Ends (EStateM.bind x f) L Q ↔ _
  unfold Ends EStateM.bind
  cases x L <;> exact Iff.rfl

theorem after_map (f : α → β) (x : Build α) (L : Layout) : (f <$> x).after L = x.after L := by
  show after (EStateM.map f x) L = _
  unfold after EStateM.map
  cases x L <;> rfl

theorem ends_map {x : Build α} {f : α → β} {L : Layout} {Q : Except Error β → Layout → Prop} :
    (f <$> x).Ends L Q ↔ x.Ends L fun r M => Q (r.map f) M := by
  show Ends (EStateM.map f x) L Q ↔ _
  unfold Ends EStateM.map
  cases x L <;> exact Iff.rfl

/-- What an attempt at a computation of some result gives. -/
def attempted (r : Except Error α) : Except Error (Except Error α) :=
  match r with
  | .ok a => .ok (.ok a)
  | .error e => if e.isEndless then .error e else .ok (.error e)

@[simp] theorem attempted_ok (a : α) : attempted (.ok a) = .ok (.ok a) := rfl

theorem attempted_of_endless {e : Error} (h : e.isEndless = true) :
    attempted (.error e : Except Error α) = .error e := if_pos h

theorem attempted_of_not_endless {e : Error} (h : e.isEndless = false) :
    attempted (.error e : Except Error α) = .ok (.error e) := if_neg (by simp [h])

/-- An attempt that gives anything gives the result itself. -/
theorem eq_of_attempted {r found : Except Error α} (h : attempted r = .ok found) : found = r := by
  unfold attempted at h
  split at h
  · exact (Except.ok.inj h).symm
  · split at h
    · exact absurd h (by simp)
    · exact (Except.ok.inj h).symm

theorem ends_attempt {x : Build α} {L : Layout}
    {Q : Except Error (Except Error α) → Layout → Prop} :
    (attempt x).Ends L Q ↔ x.Ends L fun r M => Q (attempted r) M := by
  unfold Ends attempt
  cases x L with
  | ok a M => exact Iff.rfl
  | error e M =>
    by_cases h : e.isEndless
    · simp only [if_pos h, attempted_of_endless h]
    · simp only [if_neg h, attempted_of_not_endless (eq_false_of_ne_true h)]

@[simp] theorem ends_ofExcept {r : Except Error α} {L : Layout}
    {Q : Except Error α → Layout → Prop} : (ofExcept r).Ends L Q ↔ Q r L := by
  cases r <;> exact Iff.rfl

@[simp] theorem ends_schema {s : SchemaId} {L : Layout} {Q : Except Error Schema → Layout → Prop} :
    (schema s).Ends L Q ↔ Q (.ok (L.schema s)) L := Iff.rfl

/-- Two continuations do the same if they do the same with every result. -/
theorem bind_congr {x : Build α} {f g : α → Build β} {L : Layout}
    (h : x.Ends L fun r M => ∀ a, r = .ok a → f a M = g a M) : (x >>= f) L = (x >>= g) L := by
  show EStateM.bind x f L = EStateM.bind x g L
  unfold Ends at h
  unfold EStateM.bind
  cases hx : x L with
  | error e M => rfl
  | ok a M =>
    rw [hx] at h
    exact h a rfl

/-! ### Steps over a list -/

/-- What every step over a list keeps, and what all results have in common, holds after all of
them. -/
theorem ends_forM_results {f : α → Build Unit} {I : Layout → Prop} {P : Except Error Unit → Prop}
    (hdone : P (.ok ())) (l : List α) {L : Layout} (hL : I L)
    (hstep : ∀ a ∈ l, ∀ M, I M → (f a).Ends M fun r N => P r ∧ I N) :
    (l.forM f).Ends L fun r M => P r ∧ I M := by
  induction l generalizing L with
  | nil => exact ⟨hdone, hL⟩
  | cons a l ih =>
    show (f a >>= fun _ => l.forM f).Ends L _
    refine ends_bind.mpr ((hstep a List.mem_cons_self L hL).mono fun r M hM => ?_)
    cases r with
    | error e => exact hM
    | ok _ => exact ih hM.2 fun b hb => hstep b (List.mem_cons_of_mem a hb)

/-- What every step over a list keeps holds after all of them. -/
theorem ends_forM {f : α → Build Unit} {I : Layout → Prop} (l : List α) {L : Layout} (hL : I L)
    (hstep : ∀ a ∈ l, ∀ M, I M → (f a).Ends M fun _ M => I M) :
    (l.forM f).Ends L fun _ M => I M := by
  refine (ends_forM_results (P := fun _ => True) trivial l hL fun a ha M hM => ?_).mono
    fun _ _ h => h.2
  exact (hstep a ha M hM).mono fun _ _ h => ⟨trivial, h⟩

/-- If every step succeeds and keeps something, so do all of them. -/
theorem ends_forM_ok {f : α → Build Unit} {I : Layout → Prop} (l : List α) {L : Layout} (hL : I L)
    (hstep : ∀ a ∈ l, ∀ M, I M → (f a).Ends M fun r N => r = .ok () ∧ I N) :
    (l.forM f).Ends L fun r M => r = .ok () ∧ I M :=
  ends_forM_results (P := fun r => r = .ok ()) rfl l hL hstep

/-- Steps that do the same as others, wherever something holds that they keep, do the same one after
the other. -/
theorem forM_congr {f g : α → Build Unit} {I : Layout → Prop} (l : List α) {L : Layout} (hL : I L)
    (hstep : ∀ a ∈ l, ∀ M, I M → f a M = g a M ∧ (f a).Ends M fun _ N => I N) :
    l.forM f L = l.forM g L := by
  induction l generalizing L with
  | nil => rfl
  | cons a l ih =>
    obtain ⟨hsame, hkeeps⟩ := hstep a List.mem_cons_self L hL
    have hrest := bind_congr (f := fun _ => l.forM f) (g := fun _ => l.forM g)
      (hkeeps.mono fun _ M hM _ _ => ih hM fun b hb => hstep b (List.mem_cons_of_mem a hb))
    show (f a >>= fun _ => l.forM f) L = (g a >>= fun _ => l.forM g) L
    rw [hrest]
    show EStateM.bind _ _ L = EStateM.bind _ _ L
    unfold EStateM.bind
    rw [hsame]

/-- If every step succeeds, keeps something, and does something for its element that the others
leave done, then all of it is done in the end. -/
theorem ends_forM_each {f : α → Build Unit} {I : Layout → Prop} {P : α → Layout → Prop}
    (l : List α) {L : Layout} (hL : I L)
    (hstep : ∀ a ∈ l, ∀ M, I M →
      (f a).Ends M fun r N => r = .ok () ∧ I N ∧ P a N ∧ ∀ b, P b M → P b N) :
    (l.forM f).Ends L fun r M =>
      r = .ok () ∧ I M ∧ (∀ a ∈ l, P a M) ∧ ∀ b, P b L → P b M := by
  induction l generalizing L with
  | nil => exact ⟨rfl, hL, fun a ha => absurd ha List.not_mem_nil, fun _ hb => hb⟩
  | cons a l ih =>
    show (f a >>= fun _ => l.forM f).Ends L _
    refine ends_bind.mpr ((hstep a List.mem_cons_self L hL).mono fun r M hM => ?_)
    obtain ⟨rfl, hIM, hdone, hkeep⟩ := hM
    refine (ih hIM fun b hb => hstep b (List.mem_cons_of_mem a hb)).mono fun r N hN => ?_
    obtain ⟨rfl, hIN, hall, hkeep'⟩ := hN
    refine ⟨rfl, hIN, fun b hb => ?_, fun b hb => hkeep' b (hkeep b hb)⟩
    rcases List.mem_cons.mp hb with rfl | hb
    · exact hkeep' b hdone
    · exact hall b hb

end Build

end RecordLayout
