import Mathlib

/-!
# Computations that may panic: what they return

A computation in `ExceptT ε Option` returns a value, fails with an error of type `ε`, or
panics (`none`). `Returns m Q` says that `m` does not panic and that every value it returns
satisfies `Q`; an error is an answer, not a failure of `Returns`. It is the weakest
precondition of such a computation for the property code that reads untrusted input must
have: whatever the input, it answers, and what it answers is bounded by `Q`.

The `@[simp]` equations compute `Returns` through `pure`, `throw`, `>>=` and `<$>`, and
`Returns.of_lift_none` says that a panic does not return; so a proof about a computation
follows its code and never unfolds the monad. `Returns.run_ne_none` reads the absence of a
panic back.
-/

section

variable {ε α β : Type}

/-- `m` does not panic, and every value it returns satisfies `Q`. -/
def Returns (m : ExceptT ε Option α) (Q : α → Prop) : Prop :=
  ∃ r, m.run = some r ∧ ∀ a, r = .ok a → Q a

namespace Returns

variable {m : ExceptT ε Option α} {P Q : α → Prop}

theorem run_ne_none (h : Returns m Q) : m.run ≠ none := by
  obtain ⟨r, hr, -⟩ := h
  rw [hr]
  exact Option.some_ne_none r

theorem mono (h : Returns m P) (hPQ : ∀ a, P a → Q a) : Returns m Q := by
  obtain ⟨r, hr, hP⟩ := h
  exact ⟨r, hr, fun a ha => hPQ a (hP a ha)⟩

/-- The value a computation returns, when it returns one and `Returns` holds of it. -/
theorem of_run_eq (h : Returns m Q) {a : α} (ha : m.run = some (.ok a)) : Q a := by
  obtain ⟨r, hr, hQ⟩ := h
  rw [ha, Option.some_inj] at hr
  exact hQ a hr.symm

@[simp] theorem pure_iff (a : α) : Returns (pure a : ExceptT ε Option α) Q ↔ Q a := by
  simp [Returns, ExceptT.run_pure]

@[simp] theorem of_throw (e : ε) : Returns (throw e : ExceptT ε Option α) Q :=
  ⟨.error e, rfl, fun _ h => nomatch h⟩

/-- A panic does not return. -/
@[simp] theorem of_lift_none : ¬Returns (ExceptT.lift none : ExceptT ε Option α) Q := by
  simp [Returns, ExceptT.run_lift]

@[simp] theorem ite_iff {c : Prop} [Decidable c] (x y : ExceptT ε Option α) :
    Returns (if c then x else y) Q ↔ (c → Returns x Q) ∧ (¬c → Returns y Q) := by
  by_cases hc : c
  · simp [hc]
  · simp [hc]

@[simp] theorem bind_iff (f : α → ExceptT ε Option β) {Q : β → Prop} :
    Returns (m >>= f) Q ↔ Returns m fun a => Returns (f a) Q := by
  unfold Returns
  rw [ExceptT.run_bind]
  rcases m.run with _ | (e | a)
  · simp
  · simp
  · simp

/-- Two continuations that agree on every value `m` may return make the same computation. -/
theorem bind_congr (h : Returns m P) {f g : α → ExceptT ε Option β} (hfg : ∀ a, P a → f a = g a) :
    m >>= f = m >>= g := by
  obtain ⟨r, hr, hP⟩ := h
  apply ExceptT.ext
  rw [ExceptT.run_bind, ExceptT.run_bind, hr]
  rcases r with e | a
  · rfl
  · exact congrArg ExceptT.run (hfg a (hP a rfl))

@[simp] theorem map_iff (f : α → β) {Q : β → Prop} :
    Returns (f <$> m) Q ↔ Returns m fun a => Q (f a) := by
  rw [map_eq_pure_bind, bind_iff]
  simp only [pure_iff]

end Returns

end
