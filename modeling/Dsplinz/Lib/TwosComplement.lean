import Mathlib

/-!
# Two's complement on unbounded integers

A library that computes on words with unbounded integers (Go's `math/big`) builds them
with bit masks, truncated division and sign tests. On integers those are:

* a mask of `k` ones keeps the residue modulo `2 ^ k` (`TwosComplement.land_mask`);
  setting every bit from `k` up gives that residue minus `2 ^ k`
  (`TwosComplement.lor_lnot_mask`);
* the bit at `k` is what the residue modulo `2 ^ (k + 1)` adds to the one modulo `2 ^ k`
  (`TwosComplement.emod_two_pow_succ`);
* truncated division and remainder are those of the absolute values, with a sign put
  back (`TwosComplement.tdiv_eq_abs`, `TwosComplement.tmod_eq_abs`).
-/

namespace TwosComplement

/-! ### Masks -/

/-- The bits of `2 ^ k - 1` that `m` lacks: the complement of the `k` low bits of `m`. -/
theorem ldiff_two_pow_sub_one (k m : Nat) :
    Nat.ldiff (2 ^ k - 1) m = 2 ^ k - 1 - m % 2 ^ k := by
  induction k generalizing m with
  | zero => simp [Nat.ldiff]
  | succ k ih =>
    have hpow : 1 ≤ 2 ^ k := Nat.one_le_two_pow
    have hmask : 2 ^ (k + 1) - 1 = Nat.bit true (2 ^ k - 1) := by
      rw [Nat.bit_val, Nat.pow_succ]
      simp only [Bool.toNat_true]
      omega
    -- peel the lowest bit off both the mask and `m`
    have hm : Nat.ldiff (Nat.bit true (2 ^ k - 1)) m =
        Nat.bit (!m.bodd) (Nat.ldiff (2 ^ k - 1) m.div2) := by
      conv_lhs => rw [← Nat.bit_bodd_div2 m]
      rw [Nat.ldiff_bit, Bool.true_and]
    have hmod : m % 2 ^ (k + 1) = m % 2 + 2 * (m / 2 % 2 ^ k) := by
      rw [Nat.pow_succ, Nat.mul_comm _ 2, Nat.mod_mul]
    have hlt : m / 2 % 2 ^ k < 2 ^ k := Nat.mod_lt _ (by omega)
    rw [hmask, hm, ih, Nat.bit_val, ← hmask, hmod, Nat.div2_val, Nat.mod_two_of_bodd,
      Nat.pow_succ]
    cases m.bodd <;> simp <;> omega

/-- The mask of `k` ones, as the natural number it is. -/
theorem mask_eq_natCast (k : Nat) : (2 : Int) ^ k - 1 = ((2 ^ k - 1 : Nat) : Int) := by
  have : 1 ≤ 2 ^ k := Nat.one_le_two_pow
  push_cast [this]
  rfl

/-- `x AND (2^k - 1)` of a non-negative `x` is its residue modulo `2 ^ k`. -/
theorem land_mask {x : Int} (hx : 0 ≤ x) (k : Nat) : Int.land x (2 ^ k - 1) = x % 2 ^ k := by
  lift x to Nat using hx
  rw [mask_eq_natCast]
  show ((x &&& (2 ^ k - 1) : Nat) : Int) = _
  rw [Nat.and_two_pow_sub_one_eq_mod]
  push_cast
  rfl

/-- `x OR NOT (2^k - 1)` of a non-negative `x`: its `k` low bits below ones from `k` up, the
residue modulo `2 ^ k` minus `2 ^ k`. -/
theorem lor_lnot_mask {x : Int} (hx : 0 ≤ x) (k : Nat) :
    Int.lor x (Int.lnot (2 ^ k - 1)) = x % 2 ^ k - 2 ^ k := by
  lift x to Nat using hx
  rw [mask_eq_natCast]
  show Int.negSucc (Nat.ldiff (2 ^ k - 1) x) = _
  have hmod : x % 2 ^ k < 2 ^ k := Nat.mod_lt _ (Nat.two_pow_pos k)
  rw [ldiff_two_pow_sub_one, Int.negSucc_eq,
    show (x : Int) % 2 ^ k = ((x % 2 ^ k : Nat) : Int) by push_cast; rfl,
    show (2 : Int) ^ k = ((2 ^ k : Nat) : Int) by push_cast; rfl]
  omega

/-- The bit at `k` of a non-negative `x` is what its residue modulo `2 ^ (k + 1)` adds to
the one modulo `2 ^ k`. -/
theorem emod_two_pow_succ {x : Int} (hx : 0 ≤ x) (k : Nat) :
    x % 2 ^ (k + 1) = x % 2 ^ k + if x.testBit k then 2 ^ k else 0 := by
  lift x to Nat using hx
  show _ = _ + if x.testBit k then _ else _
  have hmod : x % 2 ^ (k + 1) = x % 2 ^ k + 2 ^ k * (x / 2 ^ k % 2) := Nat.mod_pow_succ
  rw [Nat.testBit_eq_decide_div_mod_eq]
  rcases Nat.mod_two_eq_zero_or_one (x / 2 ^ k) with h | h <;> simp [h] at hmod ⊢ <;>
    exact_mod_cast hmod

/-! ### Truncated division -/

/-- Truncated division divides the absolute values, and negates when the signs differ. -/
theorem tdiv_eq_abs (x y : Int) :
    Int.tdiv x y = if x.sign = y.sign then |x| / |y| else -(|x| / |y|) := by
  rcases lt_trichotomy x 0 with hx | rfl | hx <;> rcases lt_trichotomy y 0 with hy | rfl | hy
  · -- both negative: the quotient of the negations
    rw [Int.sign_eq_neg_one_of_neg hx, Int.sign_eq_neg_one_of_neg hy, if_pos rfl,
      abs_of_neg hx, abs_of_neg hy, ← Int.tdiv_eq_ediv_of_nonneg (by omega), Int.tdiv_neg,
      Int.neg_tdiv, neg_neg]
  · simp
  · rw [Int.sign_eq_neg_one_of_neg hx, Int.sign_eq_one_of_pos hy, if_neg (by decide),
      abs_of_neg hx, abs_of_pos hy, ← Int.tdiv_eq_ediv_of_nonneg (by omega), Int.neg_tdiv,
      neg_neg]
  · simp
  · simp
  · simp
  · rw [Int.sign_eq_one_of_pos hx, Int.sign_eq_neg_one_of_neg hy, if_neg (by decide),
      abs_of_pos hx, abs_of_neg hy, ← Int.tdiv_eq_ediv_of_nonneg (by omega), Int.tdiv_neg,
      neg_neg]
  · simp
  · rw [Int.sign_eq_one_of_pos hx, Int.sign_eq_one_of_pos hy, if_pos rfl, abs_of_pos hx,
      abs_of_pos hy, Int.tdiv_eq_ediv_of_nonneg (by omega)]

/-- The truncated remainder is the remainder of the absolute values, with the sign of the
dividend. -/
theorem tmod_eq_abs (x y : Int) :
    Int.tmod x y = if x < 0 then -(|x| % |y|) else |x| % |y| := by
  rcases lt_or_ge x 0 with hx | hx
  · rw [if_pos hx, abs_of_neg hx, Int.emod_abs, ← Int.tmod_eq_emod_of_nonneg (by omega),
      Int.neg_tmod, neg_neg]
  · rw [if_neg (by omega), abs_of_nonneg hx, Int.emod_abs, Int.tmod_eq_emod_of_nonneg hx]

end TwosComplement
