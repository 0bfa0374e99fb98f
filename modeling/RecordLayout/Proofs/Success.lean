import RecordLayout.Error

/-!
# From success back to its steps

A sequence of steps that may fail gives a result only if each of them does.

## Main results

* `Success.of_bind`, `Success.of_map`: the steps behind a result.
* `Success.or_of_bind_error`, `Success.exists_of_foldlM_error`: the step behind a failure.
* `Success.foldlM_keeps`, `Success.foldlM_reaches`: what a fold that succeeds keeps, and what its
  steps bring about.
* `Success.foldlM_succeeds`: a fold whose steps succeed succeeds.
-/

namespace RecordLayout

namespace Success

variable {ε δ α β : Type}

theorem of_bind {x : Except ε α} {f : α → Except ε β} {b : β} (h : (x >>= f) = .ok b) :
    ∃ a, x = .ok a ∧ f a = .ok b := by
  cases x with
  | error e => exact absurd h (by simp [bind, Except.bind])
  | ok a => exact ⟨a, rfl, h⟩

/-- A sequence of two steps fails when one of them does. -/
theorem or_of_bind_error {x : Except ε α} {f : α → Except ε β} {e : ε} (h : (x >>= f) = .error e) :
    x = .error e ∨ ∃ a, x = .ok a ∧ f a = .error e := by
  cases x with
  | error e' => exact .inl (congrArg Except.error (Except.error.inj h))
  | ok a => exact .inr ⟨a, rfl, h⟩

theorem of_map {x : Except ε α} {f : α → β} {b : β} (h : x.map f = .ok b) :
    ∃ a, x = .ok a ∧ f a = b := by
  cases x with
  | error e => exact absurd h (by simp [Except.map])
  | ok a => exact ⟨a, rfl, Except.ok.inj h⟩

/-- Two steps whose images are the same both succeed or both fail. -/
theorem of_map_eq {γ : Type} {x : Except ε α} {y : Except ε γ} {f : α → β} {g : γ → β}
    (h : x.map f = y.map g) :
    (∃ a c, x = .ok a ∧ y = .ok c ∧ f a = g c) ∨ ∃ e, x = .error e ∧ y = .error e := by
  cases x with
  | ok a =>
    cases y with
    | ok c => exact .inl ⟨a, c, rfl, rfl, Except.ok.inj h⟩
    | error e => exact absurd h nofun
  | error e =>
    cases y with
    | ok c => exact absurd h nofun
    | error e' => exact .inr ⟨e, rfl, congrArg Except.error (Except.error.inj h).symm⟩

/-- A fold fails when one of its steps does. -/
theorem exists_of_foldlM_error {f : β → α → Except ε β} {l : List α} {b : β} {e : ε}
    (h : l.foldlM f b = .error e) : ∃ a ∈ l, ∃ c, f c a = .error e := by
  induction l generalizing b with
  | nil => exact absurd h (by simp [pure, Except.pure])
  | cons a l ih =>
    rw [List.foldlM_cons] at h
    rcases or_of_bind_error h with hfirst | ⟨c, -, hrest⟩
    · exact ⟨a, List.mem_cons_self, b, hfirst⟩
    · obtain ⟨a', ha', hstep⟩ := ih hrest
      exact ⟨a', List.mem_cons_of_mem a ha', hstep⟩

/-- What each step of a fold keeps holds of the result. -/
theorem foldlM_keeps {I : β → Prop} {f : β → α → Except ε β} {l : List α}
    (hstep : ∀ a ∈ l, ∀ b b', I b → f b a = .ok b' → I b') {b b' : β} (hb : I b)
    (h : l.foldlM f b = .ok b') : I b' := by
  induction l generalizing b with
  | nil => exact Except.ok.inj h ▸ hb
  | cons a l ih =>
    rw [List.foldlM_cons] at h
    obtain ⟨c, hc, hrest⟩ := of_bind h
    exact ih (fun a' ha' => hstep a' (List.mem_cons_of_mem a ha'))
      (hstep a List.mem_cons_self b c hb hc) hrest

/-- What a step of a fold brings about, and later steps keep, holds of the result. -/
theorem foldlM_reaches {P : β → Prop} {f : β → α → Except ε β} {l : List α} {a : α} (ha : a ∈ l)
    (hreach : ∀ b b', f b a = .ok b' → P b')
    (hkeep : ∀ a' ∈ l, ∀ b b', P b → f b a' = .ok b' → P b') {b b' : β}
    (h : l.foldlM f b = .ok b') : P b' := by
  induction l generalizing b with
  | nil => simp at ha
  | cons c l ih =>
    rw [List.foldlM_cons] at h
    obtain ⟨d, hd, hrest⟩ := of_bind h
    have hkeep' : ∀ a' ∈ l, ∀ b b', P b → f b a' = .ok b' → P b' :=
      fun a' ha' => hkeep a' (List.mem_cons_of_mem c ha')
    rcases List.mem_cons.mp ha with rfl | ha
    · exact foldlM_keeps (I := P) hkeep' (hreach b d hd) hrest
    · exact ih ha hkeep' hrest

/-- A fold succeeds if each of its steps does, wherever the steps before it lead. -/
theorem foldlM_succeeds {I : β → Prop} {f : β → α → Except ε β} {l : List α}
    (hstep : ∀ a ∈ l, ∀ b, I b → ∃ b', f b a = .ok b' ∧ I b') {b : β} (hb : I b) :
    ∃ b', l.foldlM f b = .ok b' ∧ I b' := by
  induction l generalizing b with
  | nil => exact ⟨b, rfl, hb⟩
  | cons a l ih =>
    obtain ⟨c, hc, hI⟩ := hstep a List.mem_cons_self b hb
    obtain ⟨d, hd, hI'⟩ := ih (fun a' ha' => hstep a' (List.mem_cons_of_mem a ha')) hI
    refine ⟨d, ?_, hI'⟩
    rw [List.foldlM_cons, hc]
    exact hd

end Success

end RecordLayout
