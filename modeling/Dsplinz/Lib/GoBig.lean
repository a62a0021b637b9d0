import Dsplinz.Lib.BigEndian

/-!
# Go's arbitrary-precision integers

A Go `*big.Int` holds an integer of any size and sign; it is modelled as an `Int`. This
file gives the conversions between such an integer and the fixed-width and byte-string
forms Go code takes from it, as the methods of `math/big` compute them:

* `GoBig.bitLen` – `x.BitLen()`, the length of `|x|` in bits;
* `GoBig.uint64`, `GoBig.int64` – `x.Uint64()` and `x.Int64()`, which keep the low 64
  bits of `|x|` (and put the sign back, for `Int64`);
* `GoBig.setBytes`, `GoBig.bytes` – `z.SetBytes(b)` and `x.Bytes()`, big endian;
* `GoBig.setString` – `z.SetString(s, base)` for a base from `2` to `36`: a sign, then digits
  of either case up to the end of the string.

The lemmas say when a conversion is exact: a number of at most `n` bits is below `2 ^ n`
(`GoBig.bitLen_le_iff`), and a number that fits is converted unchanged.
-/

namespace GoBig

/-- `x.BitLen()`: the number of bits of `|x|`, `0` for `0`. -/
def bitLen (x : Int) : Nat := x.natAbs.size

/-- `x.Uint64()`: the low 64 bits of `|x|`. -/
def uint64 (x : Int) : UInt64 := UInt64.ofNat x.natAbs

/-- `x.Int64()`: the low 64 bits of `|x|` as an `int64`, negated when `x` is negative. -/
def int64 (x : Int) : Int64 :=
  if x < 0 then -Int64.ofNat x.natAbs else Int64.ofNat x.natAbs

/-- `new(big.Int).SetBytes(b)`: the unsigned big-endian number `b` denotes. -/
def setBytes (b : List UInt8) : Int := BigEndian.value b

/-- `x.Bytes()`: the shortest big-endian bytes of `|x|`, empty for `0`. -/
def bytes (x : Int) : List UInt8 :=
  if x.natAbs = 0 then [] else BigEndian.lowBytes x.natAbs (BigEndian.byteLen x.natAbs)

/-- The value of a rune as a digit of `SetString`: `0`–`9`, then `a`–`z` and `A`–`Z` from
`10`, and `MaxBase + 1` for a rune that is no digit. -/
def digitVal (c : Char) : Nat :=
  if '0' ≤ c ∧ c ≤ '9' then c.toNat - '0'.toNat
  else if 'a' ≤ c ∧ c ≤ 'z' then c.toNat - 'a'.toNat + 10
  else if 'A' ≤ c ∧ c ≤ 'Z' then c.toNat - 'A'.toNat + 10
  else 63

/-- The loop of `nat.scan` after `acc`: the digits of `base`, to the end of the string. -/
def scanDigits (base : Nat) : List Char → Nat → Option Nat
  | [], acc => some acc
  | c :: cs, acc => if digitVal c < base then scanDigits base cs (acc * base + digitVal c) else none

/-- `new(big.Int).SetString(s, base)`, `none` for `ok == false`: an optional sign, then at
least one digit, and nothing after the digits. -/
def setString (s : List Char) (base : Nat) : Option Int :=
  let (neg, digits) : Bool × List Char := match s with
    | '+' :: ds => (false, ds)
    | '-' :: ds => (true, ds)
    | ds => (false, ds)
  if digits = [] then none
  else (scanDigits base digits 0).map fun n => if neg then -(n : Int) else n

theorem bitLen_le_iff {x : Int} {n : Nat} : bitLen x ≤ n ↔ x.natAbs < 2 ^ n := Nat.size_le

/-- A nonnegative number below `2 ^ 64` converts to the same `uint64`. -/
theorem toNat_uint64 {x : Int} (h0 : 0 ≤ x) (h : x < 2 ^ 64) : (uint64 x).toNat = x.toNat := by
  have hx : x.natAbs < 2 ^ 64 := by omega
  simp only [uint64, UInt64.toNat_ofNat', Nat.mod_eq_of_lt hx]
  omega

theorem toNat_uint64_lt (x : Int) : (uint64 x).toNat < 2 ^ 64 := (uint64 x).toNat_lt

/-- A nonnegative number below `2 ^ 63` converts to the same `int64`. -/
theorem toInt_int64 {x : Int} (h0 : 0 ≤ x) (h : x < 2 ^ 63) : (int64 x).toInt = x := by
  have hx : x.natAbs < 2 ^ 63 := by omega
  rw [int64, if_neg (by omega), Int64.toInt_ofNat_of_lt hx]
  omega

/-- Go's conversion `int64(u)` of a `uint64`: the value below `2 ^ 63`, and `u - 2 ^ 64` from
there on. -/
theorem toInt_toInt64_eq (x : UInt64) :
    x.toInt64.toInt = if x.toNat < 2 ^ 63 then (x.toNat : Int) else x.toNat - 2 ^ 64 := by
  rw [Int64.toInt, UInt64.toInt64, BitVec.toInt_eq_toNat_cond]
  have hbv : x.toBitVec.toNat = x.toNat := rfl
  show (if 2 * x.toBitVec.toNat < 2 ^ 64 then (x.toBitVec.toNat : Int)
    else (x.toBitVec.toNat : Int) - 2 ^ 64) = _
  rw [hbv]
  split <;> split <;> omega

/-- Go's conversion `int(u)` of a `uint64` below `2 ^ 63` keeps its value. -/
theorem toInt_toInt64 {x : UInt64} (h : x.toNat < 2 ^ 63) : x.toInt64.toInt = x.toNat := by
  rw [toInt_toInt64_eq, if_pos h]

/-- `x.Bytes()` behind zeros that fill `k` bytes is the big-endian `k`-byte form of `|x|`. -/
theorem replicate_append_bytes {x : Int} {k : Nat} (h : (bytes x).length ≤ k) :
    List.replicate (k - (bytes x).length) 0 ++ bytes x = BigEndian.lowBytes x.natAbs k := by
  unfold bytes at h ⊢
  split
  · rename_i h0
    have := BigEndian.lowBytes_add_of_lt (show x.natAbs < 256 ^ 0 by simp [h0]) k
    rw [Nat.zero_add] at this
    rw [this, h0]
    simp
  · rename_i h0
    rw [if_neg h0] at h
    rw [BigEndian.length_lowBytes] at h ⊢
    have := BigEndian.lowBytes_add_of_lt (BigEndian.lt_pow_byteLen x.natAbs) (k - BigEndian.byteLen x.natAbs)
    rw [Nat.add_sub_cancel' h] at this
    rw [this]

theorem setBytes_nonneg (b : List UInt8) : 0 ≤ setBytes b := Int.natCast_nonneg _

@[simp] theorem setBytes_singleton (b : UInt8) : setBytes [b] = b.toNat := by
  simp [setBytes, BigEndian.value_cons]

theorem setBytes_lt (b : List UInt8) : setBytes b < 2 ^ (8 * b.length) := by
  have h := BigEndian.value_lt b
  rw [pow_mul] at *
  simp only [setBytes]
  exact_mod_cast h

end GoBig
