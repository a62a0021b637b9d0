import Mathlib

/-!
# Computations with a state that survives errors

Go methods that update their receiver and return an `error` keep every update made before
the error was returned. Their model is a computation of `ExceptT ε (StateM σ)`, which
fails without rolling the state back. This file gives such a computation its meaning as
a function from a start state to an outcome and a final state (`ExceptState.run`), the
equations that evaluate it step by step, and the rule that carries an invariant of the
state through a sequence of steps (`ExceptState.Keeps`).
-/

namespace ExceptState

variable {σ ε α β : Type}

/-- Running `m` from the state `s`: its outcome and the final state, which is kept when `m`
fails. -/
def run (m : ExceptT ε (StateM σ) α) (s : σ) : Except ε α × σ := m.run.run s

/-! ### Evaluation -/

@[simp] theorem run_pure (a : α) (s : σ) : run (pure a : ExceptT ε (StateM σ) α) s = (.ok a, s) :=
  rfl

@[simp] theorem run_throw (e : ε) (s : σ) :
    run (throw e : ExceptT ε (StateM σ) α) s = (.error e, s) := rfl

@[simp] theorem run_get (s : σ) : run (get : ExceptT ε (StateM σ) σ) s = (.ok s, s) := rfl

@[simp] theorem run_set (s' s : σ) : run (set s' : ExceptT ε (StateM σ) PUnit) s = (.ok ⟨⟩, s') :=
  rfl

@[simp] theorem run_modify (f : σ → σ) (s : σ) :
    run (modify f : ExceptT ε (StateM σ) PUnit) s = (.ok ⟨⟩, f s) := rfl

/-- A sequence continues from the state its first step ends in, or stops at its error. -/
theorem run_bind (m : ExceptT ε (StateM σ) α) (f : α → ExceptT ε (StateM σ) β) (s : σ) :
    run (m >>= f) s = match run m s with
      | (.ok a, s') => run (f a) s'
      | (.error e, s') => (.error e, s') := by
  simp only [run]
  show (ExceptT.run (m >>= f)).run s = _
  rw [ExceptT.run_bind]
  simp only [StateT.run_bind]
  rcases (ExceptT.run m).run s with ⟨_ | _, _⟩ <;> simp <;> rfl

@[simp] theorem run_map (f : α → β) (m : ExceptT ε (StateM σ) α) (s : σ) :
    run (f <$> m) s = match run m s with
      | (.ok a, s') => (.ok (f a), s')
      | (.error e, s') => (.error e, s') := by
  rw [← bind_pure_comp, run_bind]
  rcases run m s with ⟨_ | _, _⟩ <;> rfl

theorem run_bind_ok {m : ExceptT ε (StateM σ) α} {s s' : σ} {a : α} (h : run m s = (.ok a, s'))
    (f : α → ExceptT ε (StateM σ) β) : run (m >>= f) s = run (f a) s' := by
  rw [run_bind, h]

theorem run_bind_error {m : ExceptT ε (StateM σ) α} {s s' : σ} {e : ε}
    (h : run m s = (.error e, s')) (f : α → ExceptT ε (StateM σ) β) :
    run (m >>= f) s = (.error e, s') := by
  rw [run_bind, h]

/-- A handler runs from the state its computation failed in. -/
theorem run_tryCatch (m : ExceptT ε (StateM σ) α) (h : ε → ExceptT ε (StateM σ) α) (s : σ) :
    run (tryCatch m h) s = match run m s with
      | (.ok a, s') => (.ok a, s')
      | (.error e, s') => run (h e) s' := by
  simp only [run]
  show (ExceptT.tryCatch m h).run.run s = _
  simp only [ExceptT.tryCatch, ExceptT.run_mk, StateT.run_bind]
  have hrun : StateT.run (m : StateM σ (Except ε α)) s = StateT.run m.run s := rfl
  rw [hrun]
  rcases (ExceptT.run m).run s with ⟨_ | _, _⟩ <;> rfl

@[simp] theorem run_ite (c : Prop) [Decidable c] (a b : ExceptT ε (StateM σ) α) (s : σ) :
    run (if c then a else b) s = if c then run a s else run b s := by
  split <;> rfl

/-! ### Errors as values -/

/-- Go's `v, err := f()`: run `m` and return its outcome, error included, as a value. -/
def attempt (m : ExceptT ε (StateM σ) α) : ExceptT ε (StateM σ) (Except ε α) :=
  tryCatch (Except.ok <$> m) fun e => pure (.error e)

@[simp] theorem run_attempt (m : ExceptT ε (StateM σ) α) (s : σ) :
    run (attempt m) s = (.ok (run m s).1, (run m s).2) := by
  rw [attempt, run_tryCatch]
  rw [run_map]
  rcases run m s with ⟨_ | _, _⟩ <;> rfl

/-! ### Invariants -/

/-- The computation `m` keeps the invariant `I`: from a state where `I` holds, it ends in
one where `I` holds, whether it succeeds or fails. -/
def Keeps (I : σ → Prop) (m : ExceptT ε (StateM σ) α) : Prop :=
  ∀ s, I s → I (run m s).2

variable {I : σ → Prop}

theorem keeps_pure (a : α) : Keeps I (pure a : ExceptT ε (StateM σ) α) := fun _ h => h

theorem keeps_throw (e : ε) : Keeps I (throw e : ExceptT ε (StateM σ) α) := fun _ h => h

theorem keeps_get : Keeps I (get : ExceptT ε (StateM σ) σ) := fun _ h => h

theorem keeps_modify {f : σ → σ} (hf : ∀ s, I s → I (f s)) :
    Keeps I (modify f : ExceptT ε (StateM σ) PUnit) := hf

theorem keeps_bind {m : ExceptT ε (StateM σ) α} {f : α → ExceptT ε (StateM σ) β}
    (hm : Keeps I m) (hf : ∀ a, Keeps I (f a)) : Keeps I (m >>= f) := by
  intro s hs
  rw [run_bind]
  rcases hrun : run m s with ⟨_ | a, s'⟩
  · have := hm s hs
    rwa [hrun] at this
  · have := hm s hs
    rw [hrun] at this
    exact hf a s' this

theorem keeps_tryCatch {m : ExceptT ε (StateM σ) α} {h : ε → ExceptT ε (StateM σ) α}
    (hm : Keeps I m) (hh : ∀ e, Keeps I (h e)) : Keeps I (tryCatch m h) := by
  intro s hs
  rw [run_tryCatch]
  rcases hrun : run m s with ⟨_ | a, s'⟩
  · have := hm s hs
    rw [hrun] at this
    exact hh _ s' this
  · have := hm s hs
    rwa [hrun] at this

theorem keeps_attempt {m : ExceptT ε (StateM σ) α} (hm : Keeps I m) : Keeps I (attempt m) := by
  intro s hs
  rw [run_attempt]
  exact hm s hs

theorem keeps_ite {c : Prop} [Decidable c] {a b : ExceptT ε (StateM σ) α} (ha : c → Keeps I a)
    (hb : ¬c → Keeps I b) : Keeps I (if c then a else b) := by
  split
  · exact ha ‹c›
  · exact hb ‹¬c›

/-- The rule for a computation that starts by reading the state: what follows may assume
the invariant of the state it read. -/
theorem keeps_get_bind {f : σ → ExceptT ε (StateM σ) α} (hf : ∀ s, I s → Keeps I (f s)) :
    Keeps I (get >>= f) := by
  intro s hs
  rw [run_bind, run_get]
  exact hf s hs s hs

/-! ### The errors a computation raises -/

/-- Every error `m` raises satisfies `P`, from whatever state it starts. -/
def Raises (P : ε → Prop) (m : ExceptT ε (StateM σ) α) : Prop :=
  ∀ s e, (run m s).1 = .error e → P e

variable {P : ε → Prop}

theorem raises_pure (a : α) : Raises P (pure a : ExceptT ε (StateM σ) α) := by
  intro s e h
  cases h

theorem raises_throw {e : ε} (he : P e) : Raises P (throw e : ExceptT ε (StateM σ) α) := by
  intro s e' h
  cases h
  exact he

theorem raises_get : Raises P (get : ExceptT ε (StateM σ) σ) := by
  intro s e h
  cases h

theorem raises_set (s' : σ) : Raises P (set s' : ExceptT ε (StateM σ) PUnit) := by
  intro s e h
  cases h

theorem raises_modify (f : σ → σ) : Raises P (modify f : ExceptT ε (StateM σ) PUnit) := by
  intro s e h
  cases h

theorem raises_bind {m : ExceptT ε (StateM σ) α} {f : α → ExceptT ε (StateM σ) β}
    (hm : Raises P m) (hf : ∀ a, Raises P (f a)) : Raises P (m >>= f) := by
  intro s e h
  rw [run_bind] at h
  rcases hrun : run m s with ⟨_ | a, s'⟩ <;> rw [hrun] at h
  · have := hm s _ (by rw [hrun])
    cases h
    exact this
  · exact hf a s' e h

/-- `attempt` never fails: the error is its value. -/
theorem raises_attempt (m : ExceptT ε (StateM σ) α) : Raises P (attempt m) := by
  intro s e h
  rw [run_attempt] at h
  cases h

theorem raises_ite {c : Prop} [Decidable c] {a b : ExceptT ε (StateM σ) α} (ha : c → Raises P a)
    (hb : ¬c → Raises P b) : Raises P (if c then a else b) := by
  split
  · exact ha ‹c›
  · exact hb ‹¬c›

end ExceptState
