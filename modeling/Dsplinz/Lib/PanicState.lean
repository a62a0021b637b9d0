import Mathlib

/-!
# Computations with errors and panics

Go code reports most failures as an `error` value and keeps whatever it changed before;
an index out of range, however, panics, and a panic aborts the whole computation. Such
code is modelled in `ExceptT ε (StateT σ (Except π))`: an error of type `ε` is raised with
its state kept, and a panic of type `π` leaves no state at all. This file gives

* `PanicState.run`, the meaning of such a computation from a start state, and the
  equations that evaluate it (`run_bind` and the `@[simp]` lemmas), so that proofs about
  a computation never unfold the monad;
* `PanicState.observe`, Go's `v, err := f()`, which turns an error into a value.
-/

namespace PanicState

variable {σ ε π α β : Type}

/-- A computation over a state `σ` that fails with an error `ε` keeping its state, or
panics with `π`, which keeps nothing. -/
abbrev M (σ ε π α : Type) := ExceptT ε (StateT σ (Except π)) α

/-- Running `m` from the state `s`: a panic, or an outcome and the state it ends in. -/
def run (m : M σ ε π α) (s : σ) : Except π (Except ε α × σ) := m.run.run s

/-- A panic, which aborts the computation. -/
def abort (p : π) : M σ ε π α := ExceptT.lift (StateT.lift (Except.error p))

/-- A computation of the base monad, which may panic. -/
def liftPanic (x : Except π α) : M σ ε π α := ExceptT.lift (StateT.lift x)

/-- A computation that fails with an error, which keeps the state. -/
def ofExcept (x : Except ε α) : M σ ε π α :=
  match x with
  | .error e => throw e
  | .ok a => pure a

/-- Go's `v, err := f()`: the outcome of `m`, its error included, as a value. -/
def observe (m : M σ ε π α) : M σ ε π (Except ε α) :=
  tryCatch (Except.ok <$> m) fun e => pure (.error e)

/-! ### Evaluation -/

@[simp] theorem run_pure (a : α) (s : σ) : run (pure a : M σ ε π α) s = .ok (.ok a, s) := rfl

@[simp] theorem run_throw (e : ε) (s : σ) : run (throw e : M σ ε π α) s = .ok (.error e, s) :=
  rfl

@[simp] theorem run_get (s : σ) : run (get : M σ ε π σ) s = .ok (.ok s, s) := rfl

@[simp] theorem run_set (s' s : σ) : run (set s' : M σ ε π PUnit) s = .ok (.ok ⟨⟩, s') := rfl

@[simp] theorem run_modify (f : σ → σ) (s : σ) :
    run (modify f : M σ ε π PUnit) s = .ok (.ok ⟨⟩, f s) := rfl

@[simp] theorem run_modifyGet (f : σ → α × σ) (s : σ) :
    run (modifyGet f : M σ ε π α) s = .ok (.ok (f s).1, (f s).2) := rfl

@[simp] theorem run_abort (p : π) (s : σ) : run (abort p : M σ ε π α) s = .error p := rfl

@[simp] theorem run_liftPanic (x : Except π α) (s : σ) :
    run (liftPanic x : M σ ε π α) s = match x with
      | .error p => .error p
      | .ok a => .ok (.ok a, s) := by
  cases x <;> rfl

@[simp] theorem run_ofExcept (x : Except ε α) (s : σ) :
    run (ofExcept x : M σ ε π α) s = .ok (x, s) := by
  cases x <;> rfl

/-- A sequence continues from the state its first step ends in, stops at its error, and
is aborted by its panic. -/
theorem run_bind (m : M σ ε π α) (f : α → M σ ε π β) (s : σ) :
    run (m >>= f) s = match run m s with
      | .error p => .error p
      | .ok (.ok a, s') => run (f a) s'
      | .ok (.error e, s') => .ok (.error e, s') := by
  simp only [run, ExceptT.run_bind, StateT.run_bind]
  rcases h : (ExceptT.run m).run s with p | ⟨_ | a, s'⟩ <;> rfl

@[simp] theorem run_map (f : α → β) (m : M σ ε π α) (s : σ) :
    run (f <$> m) s = match run m s with
      | .error p => .error p
      | .ok (.ok a, s') => .ok (.ok (f a), s')
      | .ok (.error e, s') => .ok (.error e, s') := by
  rw [← bind_pure_comp, run_bind]
  rcases run m s with p | ⟨_ | a, s'⟩ <;> rfl

theorem run_bind_ok {m : M σ ε π α} {s s' : σ} {a : α} (h : run m s = .ok (.ok a, s'))
    (f : α → M σ ε π β) : run (m >>= f) s = run (f a) s' := by
  rw [run_bind, h]

theorem run_bind_error {m : M σ ε π α} {s s' : σ} {e : ε} (h : run m s = .ok (.error e, s'))
    (f : α → M σ ε π β) : run (m >>= f) s = .ok (.error e, s') := by
  rw [run_bind, h]

@[simp] theorem run_ite (c : Prop) [Decidable c] (a b : M σ ε π α) (s : σ) :
    run (if c then a else b) s = if c then run a s else run b s := by
  split <;> rfl

/-- A handler runs from the state its computation failed in; a panic is not caught. -/
theorem run_tryCatch (m : M σ ε π α) (h : ε → M σ ε π α) (s : σ) :
    run (tryCatch m h) s = match run m s with
      | .error p => .error p
      | .ok (.ok a, s') => .ok (.ok a, s')
      | .ok (.error e, s') => run (h e) s' := by
  simp only [run]
  show (ExceptT.tryCatch m h).run.run s = _
  simp only [ExceptT.tryCatch, ExceptT.run_mk, StateT.run_bind]
  have hrun : StateT.run (m : StateT σ (Except π) (Except ε α)) s = StateT.run m.run s := rfl
  rw [hrun]
  rcases (ExceptT.run m).run s with p | ⟨_ | _, _⟩ <;> rfl

@[simp] theorem run_observe (m : M σ ε π α) (s : σ) :
    run (observe m) s = match run m s with
      | .error p => .error p
      | .ok (r, s') => .ok (.ok r, s') := by
  rw [observe, run_tryCatch, run_map]
  rcases run m s with p | ⟨_ | _, _⟩ <;> rfl

end PanicState
