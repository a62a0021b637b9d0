import Dsplinz.Lib.TwosComplement
import Dsplinz.Vm.Instructions

/-!
# The arithmetic instructions meet the EVM's word semantics

The EVM computes on words, the integers of `[0, 2 ^ 256)`, and defines each instruction
by what it does to them (`Vm.Ref`): sums and products are taken modulo `2 ^ 256`, a zero
divisor gives `0`, the signed instructions read a word as a two's-complement number,
and so on. The instructions of `Vm.Instructions` do not compute so: they work on
unbounded integers with Go's `math/big` and cut the result back to a word, in place, by
masks and sign tests. This file shows that they agree with the reference on every word:

* `Vm.arith_opcodes_reference`: the arithmetic, signed, modular, exponent,
  sign-extension, signed comparison and byte instructions, each in the sense of
  `Vm.Computes2` or `Vm.Computes3` (the operands on top of the stack are replaced by the
  reference's result, with nothing else changed);
* `Vm.computes_opSHL`, `Vm.computes_opSHR`: the logical shifts;
* `Vm.computes_opSAR`: the arithmetic shift agrees except at one point. For a shift of
  256 or more, `opSAR` keeps `0` only for a value whose sign is positive, so that the
  word `0` becomes `2 ^ 256 - 1` where the reference gives `0`
  (`Vm.opSAR_zero_diverges`).

The proofs evaluate the instruction with the stack lemmas `Vm.run_pop` and the like, and
reduce the result with facts about `math.U256`, `math.S256` and `math.Exp`
(`Vm.exp_eq`) and about two's complement (`TwosComplement`).
-/

namespace Vm

open Common Math PanicState

variable {σ : Type}

/-! ### Stack steps -/

@[simp] theorem run_pop (m : Machine σ) :
    run pop m = match m.stack with
      | [] => .error .stackIndex
      | x :: rest => .ok (.ok x, { m with stack := rest }) := by
  unfold pop
  rcases h : m.stack with _ | ⟨x, rest⟩ <;> simp [run_bind, h]

@[simp] theorem run_peek (m : Machine σ) :
    run peek m = match m.stack with
      | [] => .error .stackIndex
      | x :: _ => .ok (.ok x, m) := by
  unfold peek
  rcases h : m.stack with _ | ⟨x, rest⟩ <;> simp [run_bind, h]

@[simp] theorem run_setTop (v : Int) (m : Machine σ) :
    run (setTop v) m = .ok (.ok ⟨⟩, { m with stack := v :: m.stack.tail }) := rfl

@[simp] theorem run_push (v : Int) (m : Machine σ) :
    run (push v) m = .ok (.ok ⟨⟩, { m with stack := v :: m.stack }) := rfl

/-! ### Words -/

/-- A word: an integer in `[0, 2 ^ 256)`. -/
def IsWord (x : Int) : Prop := 0 ≤ x ∧ x < 2 ^ 256

theorem u256_eq_self {x : Int} (hx : IsWord x) : u256 x = x := u256_of_word hx.1 hx.2

theorem s256_eq_zero_iff {x : Int} (hx : IsWord x) : s256 x = 0 ↔ x = 0 := by
  obtain ⟨h0, h1⟩ := hx
  unfold s256
  split <;> omega

theorem s256_neg_iff {x : Int} (hx : IsWord x) : s256 x < 0 ↔ tt255 ≤ x := by
  obtain ⟨h0, h1⟩ := hx
  unfold s256 tt255
  split <;> omega

/-! ### The reference semantics -/

namespace Ref

/-- `ADD`. -/
def add (a b : Int) : Int := (a + b) % 2 ^ 256

/-- `SUB`: the first operand minus the second. -/
def sub (a b : Int) : Int := (a - b) % 2 ^ 256

/-- `MUL`. -/
def mul (a b : Int) : Int := (a * b) % 2 ^ 256

/-- `DIV`: the quotient rounded down, and `0` for a zero divisor. -/
def div (a b : Int) : Int := if b = 0 then 0 else a / b

/-- `MOD`: the remainder, and `0` for a zero divisor. -/
def mod (a b : Int) : Int := if b = 0 then 0 else a % b

/-- `SDIV`: the truncating quotient of the signed readings, and `0` for a zero divisor. -/
def sdiv (a b : Int) : Int := if b = 0 then 0 else Int.tdiv (s256 a) (s256 b) % 2 ^ 256

/-- `SMOD`: the truncating remainder of the signed readings, which has the sign of the
dividend, and `0` for a zero divisor. -/
def smod (a b : Int) : Int := if b = 0 then 0 else Int.tmod (s256 a) (s256 b) % 2 ^ 256

/-- `ADDMOD`: the sum modulo `c`, over unbounded integers. -/
def addmod (a b c : Int) : Int := if c = 0 then 0 else (a + b) % c

/-- `MULMOD`: the product modulo `c`, over unbounded integers. -/
def mulmod (a b c : Int) : Int := if c = 0 then 0 else (a * b) % c

/-- `EXP`. -/
def exp (a b : Int) : Int := a ^ b.toNat % 2 ^ 256

/-- The two's-complement reading of the `t` low bits of `x`. -/
def lowSigned (t : Nat) (x : Int) : Int :=
  if x % 2 ^ t < 2 ^ (t - 1) then x % 2 ^ t else x % 2 ^ t - 2 ^ t

/-- `SIGNEXTEND(b, x)`: the word whose bits from `8 b + 7` up all equal that bit of `x`,
for `b < 31`; otherwise `x`. -/
def signextend (b x : Int) : Int :=
  if b < 31 then lowSigned (8 * b.toNat + 8) x % 2 ^ 256 else x

/-- `SLT`. -/
def slt (a b : Int) : Int := if s256 a < s256 b then 1 else 0

/-- `SGT`. -/
def sgt (a b : Int) : Int := if s256 a > s256 b then 1 else 0

/-- `BYTE(i, x)`: byte `i` of the 32 bytes of `x`, from the most significant, or `0`. -/
def byte (i x : Int) : Int := if i < 32 then x / 2 ^ (8 * (31 - i.toNat)) % 256 else 0

/-- `SHL(s, v)`. -/
def shl (s v : Int) : Int := v * 2 ^ s.toNat % 2 ^ 256

/-- `SHR(s, v)`. -/
def shr (s v : Int) : Int := v / 2 ^ s.toNat

/-- `SAR(s, v)`: the signed reading of `v` divided by `2 ^ s` and rounded down; from a
shift of 256 on, that is `0` or `-1`. -/
def sar (s v : Int) : Int := s256 v / 2 ^ (min s 256).toNat % 2 ^ 256

end Ref

/-- `op` replaces the two words on top of the stack by `f a b`, returns no output, and
changes nothing else. -/
def Computes2 (op : OpM σ (List UInt8)) (f : Int → Int → Int) : Prop :=
  ∀ (m : Machine σ) (a b : Int) (rest : List Int), IsWord a → IsWord b →
    m.stack = a :: b :: rest → run op m = .ok (.ok [], { m with stack := f a b :: rest })

/-- `op` replaces the three words on top of the stack by `f a b c`, returns no output, and
changes nothing else. -/
def Computes3 (op : OpM σ (List UInt8)) (f : Int → Int → Int → Int) : Prop :=
  ∀ (m : Machine σ) (a b c : Int) (rest : List Int), IsWord a → IsWord b → IsWord c →
    m.stack = a :: b :: c :: rest → run op m = .ok (.ok [], { m with stack := f a b c :: rest })

/-! ### Arithmetic -/

theorem computes_opAdd : Computes2 (opAdd : OpM σ _) Ref.add := by
  intro m a b rest _ _ hs
  simp [opAdd, run_bind, hs, Ref.add, u256]

theorem computes_opSub : Computes2 (opSub : OpM σ _) Ref.sub := by
  intro m a b rest _ _ hs
  simp [opSub, run_bind, hs, Ref.sub, u256]

theorem computes_opMul : Computes2 (opMul : OpM σ _) Ref.mul := by
  intro m a b rest _ _ hs
  simp [opMul, run_bind, hs, Ref.mul, u256]

theorem computes_opDiv : Computes2 (opDiv : OpM σ _) Ref.div := by
  intro m a b rest ha hb hs
  -- the quotient of two words is a word, which `U256` leaves as it is
  have hq : IsWord (a / b) := ⟨Int.ediv_nonneg ha.1 hb.1, lt_of_le_of_lt (Int.ediv_le_self _ ha.1) ha.2⟩
  by_cases h0 : b = 0
  · simp [opDiv, run_bind, hs, Ref.div, h0]
  · simp [opDiv, run_bind, hs, Ref.div, h0, u256_eq_self hq]

theorem computes_opMod : Computes2 (opMod : OpM σ _) Ref.mod := by
  intro m a b rest ha hb hs
  by_cases h0 : b = 0
  · simp [opMod, run_bind, hs, Ref.mod, h0]
  · have hr : IsWord (a % b) :=
      ⟨Int.emod_nonneg _ h0, lt_trans (Int.emod_lt_of_pos _ (by have := hb.1; omega)) hb.2⟩
    simp [opMod, run_bind, hs, Ref.mod, h0, u256_eq_self hr]

theorem computes_opSdiv : Computes2 (opSdiv : OpM σ _) Ref.sdiv := by
  intro m a b rest ha hb hs
  simp only [opSdiv, Ref.sdiv, run_bind, run_pop, hs]
  by_cases hb0 : b = 0
  · simp [hb0, s256]
  · have hy : s256 b ≠ 0 := fun h => hb0 ((s256_eq_zero_iff hb).mp h)
    -- `Div` of the absolute values with the sign put back is the truncating quotient
    rw [if_neg hb0, TwosComplement.tdiv_eq_abs]
    by_cases hx : s256 a = 0
    · simp [hx]
    · simp only [Int.sign_eq_zero_iff_zero, hy, hx, or_self, if_false]
      split_ifs <;> simp_all [u256]

theorem computes_opSmod : Computes2 (opSmod : OpM σ _) Ref.smod := by
  intro m a b rest ha hb hs
  simp only [opSmod, Ref.smod, run_bind, run_pop, hs]
  by_cases hb0 : b = 0
  · simp [hb0, s256]
  · have hy : s256 b ≠ 0 := fun h => hb0 ((s256_eq_zero_iff hb).mp h)
    rw [if_neg hb0, TwosComplement.tmod_eq_abs]
    simp only [Int.sign_eq_zero_iff_zero, hy, if_false, Int.sign_neg_iff]
    split_ifs <;> simp [u256]

theorem computes_opAddmod : Computes3 (opAddmod : OpM σ _) Ref.addmod := by
  intro m a b c rest ha hb hc hs
  by_cases h0 : c = 0
  · simp [opAddmod, run_bind, hs, Ref.addmod, h0]
  · have hpos : 0 < c := by have := hc.1; omega
    have hr : IsWord ((a + b) % c) := ⟨Int.emod_nonneg _ h0, lt_trans (Int.emod_lt_of_pos _ hpos) hc.2⟩
    simp [opAddmod, run_bind, hs, Ref.addmod, h0, hpos, u256_eq_self hr]

theorem computes_opMulmod : Computes3 (opMulmod : OpM σ _) Ref.mulmod := by
  intro m a b c rest ha hb hc hs
  by_cases h0 : c = 0
  · simp [opMulmod, run_bind, hs, Ref.mulmod, h0]
  · have hpos : 0 < c := by have := hc.1; omega
    have hr : IsWord ((a * b) % c) := ⟨Int.emod_nonneg _ h0, lt_trans (Int.emod_lt_of_pos _ hpos) hc.2⟩
    simp [opMulmod, run_bind, hs, Ref.mulmod, h0, hpos, u256_eq_self hr]

/-! ### `math.Exp` -/

/-- One word of `math.Exp`: `i` steps of square-and-multiply take in the `i` low bits of
`word`, and leave the base raised to `2 ^ i`. -/
theorem expWord_modEq (i : Nat) : ∀ (result base : Int) (word : Nat),
    (expWord result base word i).1 ≡ result * base ^ (word % 2 ^ i) [ZMOD 2 ^ 256] ∧
      (expWord result base word i).2 ≡ base ^ 2 ^ i [ZMOD 2 ^ 256] := by
  induction i with
  | zero =>
    intro r b w
    simp only [expWord, pow_zero, Nat.mod_one, mul_one, pow_one]
    exact ⟨Int.ModEq.refl _, Int.ModEq.refl _⟩
  | succ i ih =>
    intro r b w
    -- the first step multiplies in the low bit and squares the base
    have hr : (if w % 2 = 1 then u256 (r * b) else r) ≡ r * b ^ (w % 2) [ZMOD 2 ^ 256] := by
      rcases Nat.mod_two_eq_zero_or_one w with h | h
      · simp only [h, zero_ne_one, if_false, pow_zero, mul_one]
        exact Int.ModEq.refl _
      · simp only [h, if_true, pow_one]
        exact Int.mod_modEq _ _
    have hb : u256 (b * b) ≡ b ^ 2 [ZMOD 2 ^ 256] := by
      rw [sq]
      exact Int.mod_modEq _ _
    have hbits : w % 2 ^ (i + 1) = w % 2 + 2 * (w / 2 % 2 ^ i) := by
      rw [Nat.pow_succ, Nat.mul_comm _ 2, Nat.mod_mul]
    obtain ⟨h1, h2⟩ := ih (if w % 2 = 1 then u256 (r * b) else r) (u256 (b * b)) (w / 2)
    constructor
    · calc (expWord r b w (i + 1)).1
          ≡ (if w % 2 = 1 then u256 (r * b) else r) * u256 (b * b) ^ (w / 2 % 2 ^ i)
            [ZMOD 2 ^ 256] := h1
        _ ≡ r * b ^ (w % 2) * (b ^ 2) ^ (w / 2 % 2 ^ i) [ZMOD 2 ^ 256] := hr.mul (hb.pow _)
        _ = r * b ^ (w % 2 ^ (i + 1)) := by rw [hbits, pow_add, pow_mul, mul_assoc]
    · calc (expWord r b w (i + 1)).2 ≡ u256 (b * b) ^ 2 ^ i [ZMOD 2 ^ 256] := h2
        _ ≡ (b ^ 2) ^ 2 ^ i [ZMOD 2 ^ 256] := hb.pow _
        _ = b ^ 2 ^ (i + 1) := by rw [← pow_mul, Nat.pow_succ, Nat.mul_comm]

/-- The words of the exponent, least significant first, each taken in by one `expWord`. -/
theorem expWords_modEq (words : List Nat) (hw : ∀ w ∈ words, w < 2 ^ 64) :
    ∀ acc : Int × Int,
      (words.foldl (fun (acc : Int × Int) word => expWord acc.1 acc.2 word 64) acc).1 ≡
        acc.1 * acc.2 ^ Nat.ofDigits (2 ^ 64) words [ZMOD 2 ^ 256] := by
  induction words with
  | nil =>
    intro acc
    simp only [List.foldl_nil, Nat.ofDigits_nil, pow_zero, mul_one]
    exact Int.ModEq.refl _
  | cons w ws ih =>
    intro acc
    obtain ⟨h1, h2⟩ := expWord_modEq 64 acc.1 acc.2 w
    have hlt : w % 2 ^ 64 = w := Nat.mod_eq_of_lt (hw w List.mem_cons_self)
    rw [hlt] at h1
    calc (ws.foldl (fun (acc : Int × Int) word => expWord acc.1 acc.2 word 64)
          (expWord acc.1 acc.2 w 64)).1
        ≡ (expWord acc.1 acc.2 w 64).1 * (expWord acc.1 acc.2 w 64).2 ^ Nat.ofDigits (2 ^ 64) ws
          [ZMOD 2 ^ 256] := ih (fun v hv => hw v (List.mem_cons_of_mem _ hv)) _
      _ ≡ acc.1 * acc.2 ^ w * (acc.2 ^ 2 ^ 64) ^ Nat.ofDigits (2 ^ 64) ws [ZMOD 2 ^ 256] :=
          h1.mul (h2.pow _)
      _ = acc.1 * acc.2 ^ Nat.ofDigits (2 ^ 64) (w :: ws) := by
          rw [Nat.ofDigits_cons, pow_add, pow_mul, mul_assoc]

/-- `math.Exp(base, exponent)` is `base ^ |exponent|` modulo `2 ^ 256`. -/
theorem exp_eq (base exponent : Int) :
    exp base exponent = base ^ exponent.natAbs % 2 ^ 256 := by
  have h := expWords_modEq (Nat.digits (2 ^ 64) exponent.natAbs)
    (fun w hw => Nat.digits_lt_base (by norm_num) hw) (1, base)
  rw [Nat.ofDigits_digits, one_mul] at h
  obtain ⟨h0, hlt⟩ := exp_word base exponent
  calc exp base exponent = exp base exponent % 2 ^ 256 := (Int.emod_eq_of_lt h0 hlt).symm
    _ = base ^ exponent.natAbs % 2 ^ 256 := h

theorem computes_opExp : Computes2 (opExp : OpM σ _) Ref.exp := by
  intro m a b rest _ hb hs
  have hn : b.natAbs = b.toNat := by have := hb.1; omega
  simp [opExp, run_bind, hs, Ref.exp, exp_eq, hn]

/-! ### Sign extension -/

/-- The two branches of `opSignExtend` read the `k + 1` low bits of `x` as a signed number:
below ones when bit `k` is set, the bits alone otherwise. -/
theorem signExtend_eq_lowSigned {x : Int} (hx : 0 ≤ x) (k : Nat) :
    (if x.testBit k then Int.lor x (Int.lnot (2 ^ k - 1)) else Int.land x (2 ^ k - 1)) =
      Ref.lowSigned (k + 1) x := by
  have hmod : 0 ≤ x % 2 ^ k ∧ x % 2 ^ k < 2 ^ k :=
    ⟨Int.emod_nonneg _ (by positivity), Int.emod_lt_of_pos _ (by positivity)⟩
  have hpow : (2 : Int) ^ (k + 1) = 2 * 2 ^ k := by rw [pow_succ, mul_comm]
  rw [TwosComplement.lor_lnot_mask hx, TwosComplement.land_mask hx, Ref.lowSigned,
    TwosComplement.emod_two_pow_succ hx, Nat.add_sub_cancel, hpow]
  split <;> split <;> omega

theorem computes_opSignExtend : Computes2 (opSignExtend : OpM σ _) Ref.signextend := by
  intro m b x rest hb hx hs
  by_cases h31 : b < 31
  · -- the index of the sign bit, `8 b + 7`, does not overflow its `uint64`
    have hbit : (GoBig.uint64 b * 8 + 7).toNat = 8 * b.toNat + 7 := by
      have hb64 := GoBig.toNat_uint64 hb.1 (by omega : b < 2 ^ 64)
      simp only [UInt64.toNat_add, UInt64.toNat_mul, hb64, UInt64.reduceToNat]
      omega
    have hv := signExtend_eq_lowSigned hx.1 (8 * b.toNat + 7)
    simp only [opSignExtend, run_bind, run_pop, hs, if_pos h31, hbit]
    split <;> simp_all [Ref.signextend, u256]
  · simp [opSignExtend, run_bind, hs, h31, Ref.signextend]

/-! ### Signed comparison -/

theorem computes_opSlt : Computes2 (opSlt : OpM σ _) Ref.slt := by
  intro m a b rest ha hb hs
  obtain ⟨ha0, ha1⟩ := ha
  obtain ⟨hb0, hb1⟩ := hb
  simp only [opSlt, Ref.slt, run_bind, run_pop, run_peek, hs, s256, tt255]
  split_ifs <;> first | rfl | (exfalso; omega)

theorem computes_opSgt : Computes2 (opSgt : OpM σ _) Ref.sgt := by
  intro m a b rest ha hb hs
  obtain ⟨ha0, ha1⟩ := ha
  obtain ⟨hb0, hb1⟩ := hb
  simp only [opSgt, Ref.sgt, run_bind, run_pop, run_peek, hs, s256, tt255]
  split_ifs <;> first | rfl | (exfalso; omega)

/-! ### Bytes -/

/-- `bigEndianByteAt(x, n)` is byte `n` of `|x|`, counted from the least significant: the
byte `n % 8` of the 64-bit word `n / 8`. -/
theorem toNat_bigEndianByteAt (x : Int) (n : Nat) :
    (bigEndianByteAt x n).toNat = x.natAbs / 2 ^ (8 * n) % 256 := by
  have hsplit : 2 ^ (8 * n) = (2 ^ 64) ^ (n / 8) * 2 ^ (8 * (n % 8)) := by
    rw [← pow_mul, ← pow_add]
    congr 1
    omega
  unfold bigEndianByteAt
  dsimp only
  split
  · rename_i hlen
    -- past the last word the number has no bits left
    have hlt : x.natAbs < 2 ^ (8 * n) := calc
      x.natAbs < (2 ^ 64) ^ (Nat.digits (2 ^ 64) x.natAbs).length :=
          Nat.lt_base_pow_length_digits (by norm_num)
      _ ≤ (2 ^ 64) ^ (n / 8) := Nat.pow_le_pow_right (by norm_num) hlen
      _ ≤ 2 ^ (8 * n) := by
          rw [hsplit]
          exact Nat.le_mul_of_pos_right _ (by positivity)
    simp [Nat.div_eq_of_lt hlt]
  · rename_i hlen
    have hword : (Nat.digits (2 ^ 64) x.natAbs)[n / 8] =
        x.natAbs / (2 ^ 64) ^ (n / 8) % 2 ^ 64 := by
      rw [← List.getD_eq_getElem _ 0, Nat.getD_digits _ _ (by norm_num)]
    -- the byte `n % 8` of a 64-bit word: its 64-bit residue does not matter
    have hr : 8 * (n % 8) + 8 ≤ 64 := by omega
    have hcut : 2 ^ 64 = 2 ^ (8 * (n % 8)) * 2 ^ (64 - 8 * (n % 8)) := by
      rw [← pow_add]
      congr 1
      omega
    have h256 : 256 ∣ 2 ^ (64 - 8 * (n % 8)) :=
      (pow_dvd_pow 2 (by omega : 8 ≤ 64 - 8 * (n % 8)))
    have hbyte (y : Nat) :
        y % 2 ^ 64 / 2 ^ (8 * (n % 8)) % 256 = y / 2 ^ (8 * (n % 8)) % 256 := by
      rw [hcut, Nat.mod_mul_right_div_self, Nat.mod_mod_of_dvd _ h256]
    rw [BigEndian.toNat_ofNat_byte, hword, Nat.shiftRight_eq_div_pow, hbyte,
      Nat.div_div_eq_div_mul, ← hsplit]

theorem computes_opByte : Computes2 (opByte : OpM σ _) Ref.byte := by
  intro m i x rest hi hx hs
  by_cases h32 : i < 32
  · -- `int(th.Int64())` keeps the index, and `Byte` reads byte `31 - i` from the low end
    have hidx : (GoBig.int64 i).toInt = i := GoBig.toInt_int64 hi.1 (by omega)
    have hbyte : ((byte x 32 i).toNat : Int) = x / 2 ^ (8 * (31 - i.toNat)) % 256 := by
      have hpos : (32 - 1 - i).toNat = 31 - i.toNat := by have := hi.1; omega
      have hx' : x = (x.natAbs : Int) := by have := hx.1; omega
      rw [byte, if_neg (by omega), hpos, toNat_bigEndianByteAt]
      conv_rhs => rw [hx']
      push_cast
      rfl
    simp [opByte, run_bind, hs, h32, hidx, hbyte, Ref.byte]
  · simp [opByte, run_bind, hs, h32, Ref.byte]

/-! ### Shifts -/

theorem computes_opSHL : Computes2 (opSHL : OpM σ _) Ref.shl := by
  intro m s v rest hs hv hst
  by_cases h256 : 256 ≤ s
  · -- a shift of 256 or more leaves no bit of the value in the word
    have hzero : v * 2 ^ s.toNat % 2 ^ 256 = 0 := by
      apply Int.emod_eq_zero_of_dvd
      exact Dvd.dvd.mul_left (pow_dvd_pow 2 (by omega)) v
    simp only [opSHL, run_bind, run_pop, run_peek, hst, u256_eq_self hs, if_pos h256,
      run_setTop, run_pure, Ref.shl, hzero]
    rfl
  · have hn : (GoBig.uint64 s).toNat = s.toNat := GoBig.toNat_uint64 hs.1 (by omega)
    simp only [opSHL, run_bind, run_pop, run_peek, hst, u256_eq_self hs, u256_eq_self hv,
      if_neg h256, hn, run_setTop, run_pure, Ref.shl]
    rfl

theorem computes_opSHR : Computes2 (opSHR : OpM σ _) Ref.shr := by
  intro m s v rest hs hv hst
  have hq (n : Nat) : IsWord (v / 2 ^ n) :=
    ⟨Int.ediv_nonneg hv.1 (by positivity),
      lt_of_le_of_lt (Int.ediv_le_self _ hv.1) hv.2⟩
  by_cases h256 : 256 ≤ s
  · -- a word shifted right by 256 or more is gone
    have hzero : v / 2 ^ s.toNat = 0 := by
      apply Int.ediv_eq_zero_of_lt hv.1
      calc v < 2 ^ 256 := hv.2
        _ ≤ 2 ^ s.toNat := pow_le_pow_right₀ (by norm_num) (by omega)
    simp only [opSHR, run_bind, run_pop, run_peek, hst, u256_eq_self hs, if_pos h256,
      run_setTop, run_pure, Ref.shr, hzero]
    rfl
  · have hn : (GoBig.uint64 s).toNat = s.toNat := GoBig.toNat_uint64 hs.1 (by omega)
    simp only [opSHR, run_bind, run_pop, run_peek, hst, u256_eq_self hs, u256_eq_self hv,
      if_neg h256, hn, run_setTop, run_pure, Ref.shr, Int.shiftRight_eq_div_pow, Nat.cast_pow,
      Nat.cast_ofNat, u256_eq_self (hq _)]
    rfl

/-- What `opSAR` leaves: for a shift of 256 or more, `0` or all ones by the sign test;
otherwise the signed reading shifted, cut to a word. -/
theorem run_opSAR (m : Machine σ) {s v : Int} {rest : List Int} (hs : IsWord s)
    (hst : m.stack = s :: v :: rest) :
    run (opSAR : OpM σ _) m = .ok (.ok [], { m with stack :=
      (if 256 ≤ s then (if 0 < (s256 v).sign then 0 else 2 ^ 256 - 1)
        else s256 v / 2 ^ s.toNat % 2 ^ 256) :: rest }) := by
  by_cases h256 : 256 ≤ s
  · by_cases hsg : 0 < (s256 v).sign
    · simp only [opSAR, run_bind, run_pop, hst, u256_eq_self hs, if_pos h256, if_pos hsg,
        run_push, run_pure]
      rfl
    · simp only [opSAR, run_bind, run_pop, hst, u256_eq_self hs, if_pos h256, if_neg hsg,
        run_push, run_pure]
      rfl
  · have hn : (GoBig.uint64 s).toNat = s.toNat := GoBig.toNat_uint64 hs.1 (by omega)
    simp only [opSAR, run_bind, run_pop, hst, u256_eq_self hs, if_neg h256, hn, run_push,
      run_pure, Int.shiftRight_eq_div_pow, Nat.cast_pow, Nat.cast_ofNat]
    rfl

/-- `opSAR` gives the reference everywhere but at the word `0` shifted by 256 or more,
where it gives `2 ^ 256 - 1`. -/
theorem computes_opSAR :
    Computes2 (opSAR : OpM σ _) fun s v => if 256 ≤ s ∧ v = 0 then 2 ^ 256 - 1 else Ref.sar s v := by
  intro m s v rest hs hv hst
  rw [run_opSAR m hs hst]
  obtain ⟨hv0, hv1⟩ := hv
  -- the two results agree as numbers
  congr 4
  dsimp only
  by_cases h256 : 256 ≤ s
  · have hmin : (min s 256).toNat = 256 := by omega
    rw [if_pos h256, Ref.sar, hmin]
    simp only [Int.sign_pos_iff]
    -- `Sign() > 0` keeps `0` for positive values only; `0` itself goes to all ones
    by_cases hz : v = 0
    · simp [hz, h256, s256]
    · rw [if_neg (fun h : 256 ≤ s ∧ v = 0 => hz h.2)]
      unfold s256
      split_ifs <;> omega
  · have hmin : (min s 256).toNat = s.toNat := by omega
    rw [if_neg h256, if_neg (fun h : 256 ≤ s ∧ v = 0 => h256 h.1), Ref.sar, hmin]

/-! ### The instructions against the reference -/

/-- Every arithmetic, modular, exponent, sign-extension, signed comparison and byte
instruction computes the reference on all words; and `SDIV(-2^255, -1)` is `2 ^ 255`. -/
theorem arith_opcodes_reference :
    Computes2 (opAdd : OpM σ _) Ref.add ∧ Computes2 (opSub : OpM σ _) Ref.sub ∧
      Computes2 (opMul : OpM σ _) Ref.mul ∧ Computes2 (opDiv : OpM σ _) Ref.div ∧
      Computes2 (opMod : OpM σ _) Ref.mod ∧ Computes2 (opSdiv : OpM σ _) Ref.sdiv ∧
      Computes2 (opSmod : OpM σ _) Ref.smod ∧ Computes3 (opAddmod : OpM σ _) Ref.addmod ∧
      Computes3 (opMulmod : OpM σ _) Ref.mulmod ∧ Computes2 (opExp : OpM σ _) Ref.exp ∧
      Computes2 (opSignExtend : OpM σ _) Ref.signextend ∧
      Computes2 (opSlt : OpM σ _) Ref.slt ∧ Computes2 (opSgt : OpM σ _) Ref.sgt ∧
      Computes2 (opByte : OpM σ _) Ref.byte ∧ Ref.sdiv (2 ^ 255) (2 ^ 256 - 1) = 2 ^ 255 :=
  ⟨computes_opAdd, computes_opSub, computes_opMul, computes_opDiv, computes_opMod,
    computes_opSdiv, computes_opSmod, computes_opAddmod, computes_opMulmod, computes_opExp,
    computes_opSignExtend, computes_opSlt, computes_opSgt, computes_opByte, by decide⟩

/-- The arithmetic shift of the word `0` by 256 or more leaves all ones on the stack, where
the reference gives `0`: the large-shift branch of `opSAR` keeps `0` only when
`value.Sign() > 0`. -/
theorem opSAR_zero_diverges (m : Machine σ) (s : Int) (rest : List Int) (hs : IsWord s)
    (h256 : 256 ≤ s) (hst : m.stack = s :: 0 :: rest) :
    run (opSAR : OpM σ _) m = .ok (.ok [], { m with stack := (2 ^ 256 - 1) :: rest }) ∧
      Ref.sar s 0 = 0 := by
  constructor
  · have hword : IsWord 0 := ⟨le_refl _, by norm_num⟩
    simpa [h256] using computes_opSAR m s 0 rest hs hword hst
  · simp [Ref.sar, s256]

namespace SarOfZero

/-- A machine with `256` over `0` on its stack. -/
def machine : Machine Unit where
  stateDB := ()
  depth := 0
  callGasTemp := 0
  readOnly := false
  returnData := []
  contract := Contract.new 0 0 0 0
  mem := Memory.empty
  stack := [256, 0]
  pc := 0

end SarOfZero

theorem opSAR_zero_diverges_at_256 :
    IsWord 256 ∧ (256 : Int) ≤ 256 ∧
      run (opSAR : OpM Unit _) SarOfZero.machine =
        .ok (.ok [], { SarOfZero.machine with stack := [2 ^ 256 - 1] }) ∧ Ref.sar 256 0 = 0 :=
  ⟨⟨by norm_num, by norm_num⟩, le_refl _,
    opSAR_zero_diverges SarOfZero.machine 256 [] ⟨by norm_num, by norm_num⟩ (le_refl _) rfl⟩

end Vm
