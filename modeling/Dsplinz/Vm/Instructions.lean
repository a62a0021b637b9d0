import Dsplinz.Vm.Machine

/-!
# The arithmetic, comparison, bitwise and shift instructions

The instructions of lines 40 to 371 of `core/vm/instructions.go`, from `opAdd` to `opSAR`.
Each takes its operands from the stack as `*big.Int`s and leaves its result there, either
pushed or written in place into the item it peeked at (`Vm.setTop`). A `big.Int` is an
`Int`, and its methods are Lean's operations on `Int`:

* `Div` and `Mod` are Euclidean, like `/` and `%` on `Int`;
* `Lsh(x, n)` is `x * 2 ^ n`, and `Rsh(x, n)` is `x >>> n`, which rounds towards `-∞`;
* `And`, `Or`, `Xor`, `Not` and `Bit` work on the infinite two's-complement form, like
  `Int.land`, `Int.lor`, `Int.xor`, `Int.lnot` and `Int.testBit`;
* `Sign` is `Int.sign`, and `Abs` is `|·|`.

Every instruction returns `nil, nil`: no output bytes and no error.
-/

namespace Vm

open Common Math PanicState

variable {σ : Type}

/-- `tt255`: `2 ^ 255`, the least word whose top bit is set. -/
def tt255 : Int := 2 ^ 255

/-! ### Arithmetic -/

/-- `opAdd`. -/
def opAdd : OpM σ (List UInt8) := do
  let x ← pop
  let y ← peek
  setTop (u256 (x + y))
  pure []

/-- `opSub`. -/
def opSub : OpM σ (List UInt8) := do
  let x ← pop
  let y ← peek
  setTop (u256 (x - y))
  pure []

/-- `opMul`. -/
def opMul : OpM σ (List UInt8) := do
  let x ← pop
  let y ← pop
  push (u256 (x * y))
  pure []

/-- `opDiv`. -/
def opDiv : OpM σ (List UInt8) := do
  let x ← pop
  let y ← peek
  if y.sign ≠ 0 then setTop (u256 (x / y)) else setTop 0
  pure []

/-- `opSdiv`: the quotient of the absolute values, negated when the signs differ. -/
def opSdiv : OpM σ (List UInt8) := do
  let x := s256 (← pop)
  let y := s256 (← pop)
  if y.sign = 0 ∨ x.sign = 0 then push 0
  else if x.sign ≠ y.sign then push (u256 (-(|x| / |y|)))
  else push (u256 (|x| / |y|))
  pure []

/-- `opMod`. -/
def opMod : OpM σ (List UInt8) := do
  let x ← pop
  let y ← pop
  if y.sign = 0 then push 0 else push (u256 (x % y))
  pure []

/-- `opSmod`: the remainder of the absolute values, with the sign of the dividend. -/
def opSmod : OpM σ (List UInt8) := do
  let x := s256 (← pop)
  let y := s256 (← pop)
  if y.sign = 0 then push 0
  else if x.sign < 0 then push (u256 (-(|x| % |y|)))
  else push (u256 (|x| % |y|))
  pure []

/-- `opExp`. -/
def opExp : OpM σ (List UInt8) := do
  let base ← pop
  let exponent ← pop
  push (exp base exponent)
  pure []

/-- `opSignExtend`: below a byte index of 31 the bits from `back * 8 + 7` up are set to that
bit; otherwise the value is left on the stack as it is. -/
def opSignExtend : OpM σ (List UInt8) := do
  let back ← pop
  if back < 31 then
    let bit := (GoBig.uint64 back * 8 + 7).toNat
    let num ← pop
    -- `mask := back.Lsh(common.Big1, bit); mask.Sub(mask, common.Big1)`
    let mask : Int := 2 ^ bit - 1
    if num.testBit bit then push (u256 (Int.lor num (Int.lnot mask)))
    else push (u256 (Int.land num mask))
  pure []

/-! ### Comparison and bitwise logic -/

/-- `opNot`. -/
def opNot : OpM σ (List UInt8) := do
  let x ← peek
  setTop (u256 (Int.lnot x))
  pure []

/-- `opLt`. -/
def opLt : OpM σ (List UInt8) := do
  let x ← pop
  let y ← peek
  if x < y then setTop 1 else setTop 0
  pure []

/-- `opGt`. -/
def opGt : OpM σ (List UInt8) := do
  let x ← pop
  let y ← peek
  if x > y then setTop 1 else setTop 0
  pure []

/-- `opSlt`: a word with its top bit set is below one without; otherwise the words compare
as numbers. -/
def opSlt : OpM σ (List UInt8) := do
  let x ← pop
  let y ← peek
  if x ≥ tt255 ∧ y < tt255 then setTop 1
  else if x < tt255 ∧ y ≥ tt255 then setTop 0
  else if x < y then setTop 1 else setTop 0
  pure []

/-- `opSgt`. -/
def opSgt : OpM σ (List UInt8) := do
  let x ← pop
  let y ← peek
  if x ≥ tt255 ∧ y < tt255 then setTop 0
  else if x < tt255 ∧ y ≥ tt255 then setTop 1
  else if x > y then setTop 1 else setTop 0
  pure []

/-- `opEq`. -/
def opEq : OpM σ (List UInt8) := do
  let x ← pop
  let y ← peek
  if x = y then setTop 1 else setTop 0
  pure []

/-- `opIszero`. -/
def opIszero : OpM σ (List UInt8) := do
  let x ← peek
  if x.sign > 0 then setTop 0 else setTop 1
  pure []

/-- `opAnd`. -/
def opAnd : OpM σ (List UInt8) := do
  let x ← pop
  let y ← pop
  push (Int.land x y)
  pure []

/-- `opOr`. -/
def opOr : OpM σ (List UInt8) := do
  let x ← pop
  let y ← peek
  setTop (Int.lor x y)
  pure []

/-- `opXor`. -/
def opXor : OpM σ (List UInt8) := do
  let x ← pop
  let y ← peek
  setTop (Int.xor x y)
  pure []

/-- `opByte`: byte `th` of the 32-byte big-endian form, or `0` from index 32 on. -/
def opByte : OpM σ (List UInt8) := do
  let th ← pop
  let val ← peek
  if th < 32 then setTop (byte val 32 (GoBig.int64 th).toInt).toNat else setTop 0
  pure []

/-- `opAddmod`: the sum is taken modulo `z` before it is cut to a word. -/
def opAddmod : OpM σ (List UInt8) := do
  let x ← pop
  let y ← pop
  let z ← pop
  if z > 0 then push (u256 ((x + y) % z)) else push 0
  pure []

/-- `opMulmod`. -/
def opMulmod : OpM σ (List UInt8) := do
  let x ← pop
  let y ← pop
  let z ← pop
  if z > 0 then push (u256 ((x * y) % z)) else push 0
  pure []

/-! ### Shifts -/

/-- `opSHL`: the value is cut to a word in place before it is shifted. -/
def opSHL : OpM σ (List UInt8) := do
  let shift := u256 (← pop)
  let value := u256 (← peek)
  if shift ≥ 256 then setTop 0
  else
    let n := (GoBig.uint64 shift).toNat
    setTop (u256 (value * 2 ^ n))
  pure []

/-- `opSHR`. -/
def opSHR : OpM σ (List UInt8) := do
  let shift := u256 (← pop)
  let value := u256 (← peek)
  if shift ≥ 256 then setTop 0
  else
    let n := (GoBig.uint64 shift).toNat
    setTop (u256 (value >>> n))
  pure []

/-- `opSAR`: the value is read as a signed word; a shift of 256 or more leaves `0` for a
positive value and `-1` otherwise. -/
def opSAR : OpM σ (List UInt8) := do
  let shift := u256 (← pop)
  let value := s256 (← pop)
  if shift ≥ 256 then
    if value.sign > 0 then push (u256 0) else push (u256 (-1))
  else
    let n := (GoBig.uint64 shift).toNat
    push (u256 (value >>> n))
  pure []

end Vm
