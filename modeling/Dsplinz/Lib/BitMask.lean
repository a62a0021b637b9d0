import Mathlib

/-!
# Bit masks as sets

A number is a set of bit positions; `x` is contained in `bin` when `bin &&& x = x`, the
test a Bloom filter makes of a key's bits. The lemmas are those an accumulation by `|||`
needs: what has been or-ed in stays (`BitMask.and_eq_of_or_left`,
`BitMask.and_eq_of_or_right`), and what is or-ed in last is there
(`BitMask.or_and_self`). Over a whole fold: a fold whose steps keep a mask keeps it from
its start (`BitMask.foldl_and_eq_of_start`) and from the step that sets it
(`BitMask.foldl_and_eq_of_mem`), and a fold whose steps stay below `2 ^ n` ends below it
(`BitMask.foldl_lt_two_pow`). A fold that sets one bit per step sets exactly those
(`BitMask.testBit_foldl_or_shiftLeft`).
-/

namespace BitMask

variable {bin x a b : Nat}

/-- `x ⊆ bin` is a statement about each bit. -/
theorem and_eq_right_iff : bin &&& x = x ↔ ∀ i, x.testBit i = true → bin.testBit i = true := by
  constructor
  · intro h i hx
    have hbit := congrArg (Nat.testBit · i) h
    simp only [Nat.testBit_and, hx, Bool.and_true] at hbit
    exact hbit
  · intro h
    apply Nat.eq_of_testBit_eq
    intro i
    rw [Nat.testBit_and]
    cases hx : x.testBit i with
    | false => exact Bool.and_false _
    | true => rw [h i hx, Bool.true_and]

theorem or_and_self (a b : Nat) : (a ||| b) &&& b = b :=
  and_eq_right_iff.mpr fun i hb => by rw [Nat.testBit_or, hb, Bool.or_true]

theorem and_eq_of_or_left (h : a &&& x = x) (b : Nat) : (a ||| b) &&& x = x :=
  and_eq_right_iff.mpr fun i hx => by rw [Nat.testBit_or, and_eq_right_iff.mp h i hx, Bool.true_or]

theorem and_eq_of_or_right (h : b &&& x = x) (a : Nat) : (a ||| b) &&& x = x :=
  and_eq_right_iff.mpr fun i hx => by rw [Nat.testBit_or, and_eq_right_iff.mp h i hx, Bool.or_true]

/-! ### Folds -/

section Folds

variable {α : Type} (g : Nat → α → Nat)

theorem foldl_and_eq_of_start (hg : ∀ acc y, acc &&& x = x → g acc y &&& x = x) :
    ∀ (ys : List α) (init : Nat), init &&& x = x → ys.foldl g init &&& x = x
  | [], _, h => h
  | y :: ys, init, h => foldl_and_eq_of_start hg ys (g init y) (hg init y h)

theorem foldl_and_eq_of_mem (hg : ∀ acc y, acc &&& x = x → g acc y &&& x = x) {y : α}
    (hset : ∀ acc, g acc y &&& x = x) :
    ∀ (ys : List α) (init : Nat), y ∈ ys → ys.foldl g init &&& x = x
  | _ :: ys, init, .head _ => foldl_and_eq_of_start g hg ys _ (hset init)
  | _ :: ys, _, .tail _ hy => foldl_and_eq_of_mem hg hset ys _ hy

theorem foldl_lt_two_pow {n : Nat} (hg : ∀ acc y, acc < 2 ^ n → g acc y < 2 ^ n) :
    ∀ (ys : List α) (init : Nat), init < 2 ^ n → ys.foldl g init < 2 ^ n
  | [], _, h => h
  | y :: ys, init, h => foldl_lt_two_pow hg ys (g init y) (hg init y h)

end Folds

/-- The bits a fold sets one at a time, `r ||| 1 <<< f y`: those of the start and the
`f y`. -/
theorem testBit_foldl_or_shiftLeft {α : Type} (f : α → Nat) (n : Nat) :
    ∀ (ys : List α) (init : Nat),
      (ys.foldl (fun r y => r ||| 1 <<< f y) init).testBit n = (init.testBit n || ys.any (f · == n))
  | [], init => by simp
  | y :: ys, init => by
    rw [List.foldl_cons, testBit_foldl_or_shiftLeft f n ys, Nat.testBit_or, Nat.one_shiftLeft,
      Nat.testBit_two_pow, List.any_cons, Bool.or_assoc]
    rw [beq_eq_decide]

end BitMask
