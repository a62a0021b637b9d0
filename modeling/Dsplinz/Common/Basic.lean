import Dsplinz.Lib.GoBig

/-!
# Addresses, hashes and 256-bit arithmetic

What the EVM takes from the `common` package: the 20-byte `Address` and the 32-byte `Hash`,
each modelled by the big-endian number its bytes denote, with the conversions from a
`*big.Int`, and the helpers of `common/math` that the instructions use to keep words to
256 bits (`U256`, `S256`, `Exp`, `Byte`, `PaddedBigBytes`) and to add and multiply `uint64`s
with an overflow flag (`SafeAdd`, `SafeMul`).

The lemmas are the ranges of these helpers: `Common.Math.u256_lt`, `Common.Math.exp_lt`
and the like, which say that each result is a 256-bit word, and the lengths of the byte
strings they produce.
-/

namespace Common

/-- `common.Address`: 20 bytes, as the number they denote. -/
abbrev Address := Fin (2 ^ 160)

/-- `common.Hash`: 32 bytes, as the number they denote. -/
abbrev Hash := Fin (2 ^ 256)

/-- What an `Address` literal needs, stated once so that no definition carries its own
proof of it. -/
instance (priority := high) address_neZero : NeZero (2 ^ 160 : Nat) := ⟨by positivity⟩

/-- What a `Hash` literal needs. -/
instance (priority := high) hash_neZero : NeZero (2 ^ 256 : Nat) := ⟨by positivity⟩

/-- `common.RightPadBytes(slice, l)`: `slice` followed by zeros up to length `l`. -/
def rightPadBytes (slice : List UInt8) (l : Int) : List UInt8 :=
  if l ≤ slice.length then slice else slice ++ List.replicate (l.toNat - slice.length) 0

theorem length_rightPadBytes {slice : List UInt8} {l : Nat} (h : slice.length ≤ l) :
    (rightPadBytes slice l).length = l := by
  unfold rightPadBytes
  split
  · omega
  · simp only [List.length_append, List.length_replicate, Int.toNat_natCast]
    omega

namespace Math

/-- `math.MaxUint64`. -/
def maxUint64 : UInt64 := 0xFFFFFFFFFFFFFFFF

/-- `math.U256(x)`: `x & (2^256 - 1)`, the residue of `x` modulo `2 ^ 256`. -/
def u256 (x : Int) : Int := x % 2 ^ 256

/-- `math.S256(x)`: a word read as a two's-complement number. -/
def s256 (x : Int) : Int := if x < 2 ^ 255 then x else x - 2 ^ 256

/-- One 64-bit word of the exponent in `math.Exp`: square-and-multiply over its bits, both
the result and the running power cut to 256 bits at every step. -/
def expWord (result base : Int) (word : Nat) : Nat → Int × Int
  | 0 => (result, base)
  | i + 1 =>
    let result := if word % 2 = 1 then u256 (result * base) else result
    expWord result (u256 (base * base)) (word / 2) i

/-- `math.Exp(base, exponent)`, over the 64-bit words of `|exponent|` (`exponent.Bits()`). -/
def exp (base exponent : Int) : Int :=
  ((Nat.digits (2 ^ 64) exponent.natAbs).foldl
    (fun (acc : Int × Int) word => expWord acc.1 acc.2 word 64) (1, base)).1

/-- `bigEndianByteAt(bigint, n)`: byte `n` of `|bigint|` counted from the least significant,
read from its 64-bit words. -/
def bigEndianByteAt (bigint : Int) (n : Nat) : UInt8 :=
  let words := Nat.digits (2 ^ 64) bigint.natAbs
  if h : words.length ≤ n / 8 then 0
  else UInt8.ofNat (words[n / 8] >>> (8 * (n % 8)))

/-- `math.Byte(bigint, padlength, n)`: byte `n` of the `padlength`-byte big-endian form. -/
def byte (bigint : Int) (padlength n : Int) : UInt8 :=
  if padlength ≤ n then 0 else bigEndianByteAt bigint (padlength - 1 - n).toNat

/-- `math.ReadBits(bigint, buf)` into a buffer of `n` bytes: the `n` low-order bytes of
`|bigint|`, big endian. -/
def readBits (bigint : Int) (n : Nat) : List UInt8 := BigEndian.lowBytes bigint.natAbs n

/-- `math.PaddedBigBytes(bigint, n)`. -/
def paddedBigBytes (bigint : Int) (n : Nat) : List UInt8 :=
  if n ≤ GoBig.bitLen bigint / 8 then GoBig.bytes bigint else readBits bigint n

/-- `math.ParseBig256(s)`, `none` for `ok == false`, which `MustParseBig256` turns into a
panic: hex behind `0x` or `0X`, decimal otherwise, `0` for the empty string, and at most
256 bits. -/
def parseBig256 (s : List Char) : Option Int :=
  if s = [] then some 0
  else
    let bigint := if s.take 2 = ['0', 'x'] ∨ s.take 2 = ['0', 'X'] then GoBig.setString (s.drop 2) 16
      else GoBig.setString s 10
    bigint.bind fun x => if GoBig.bitLen x > 256 then none else some x

/-- `math.BigMax(x, y)`. -/
def bigMax (x y : Int) : Int := if x < y then y else x

/-- `math.BigMin(x, y)`. -/
def bigMin (x y : Int) : Int := if y < x then y else x

/-- `math.SafeMul(x, y)`: the wrapped product, and whether it overflowed. -/
def safeMul (x y : UInt64) : UInt64 × Bool :=
  if x = 0 ∨ y = 0 then (0, false) else (x * y, y > maxUint64 / x)

/-! ### Words -/

theorem u256_nonneg (x : Int) : 0 ≤ u256 x := Int.emod_nonneg _ (by positivity)

theorem u256_lt (x : Int) : u256 x < 2 ^ 256 := Int.emod_lt_of_pos _ (by positivity)

theorem u256_of_word {x : Int} (h0 : 0 ≤ x) (h : x < 2 ^ 256) : u256 x = x :=
  Int.emod_eq_of_lt h0 h

theorem expWord_fst_lt (word : Nat) :
    ∀ (i : Nat) {result : Int} (base : Int), 0 ≤ result → result < 2 ^ 256 →
      0 ≤ (expWord result base word i).1 ∧ (expWord result base word i).1 < 2 ^ 256 := by
  intro i
  induction i generalizing word with
  | zero => exact fun _ h0 h => ⟨h0, h⟩
  | succ i ih =>
    intro result base h0 h
    apply ih
    · split
      · exact u256_nonneg _
      · exact h0
    · split
      · exact u256_lt _
      · exact h

/-- The result of `Exp` is a word: it starts at `1` and every product is cut to 256 bits. -/
theorem exp_word (base exponent : Int) : 0 ≤ exp base exponent ∧ exp base exponent < 2 ^ 256 := by
  unfold exp
  generalize Nat.digits (2 ^ 64) exponent.natAbs = words
  suffices ∀ (acc : Int × Int), 0 ≤ acc.1 → acc.1 < 2 ^ 256 →
      0 ≤ (words.foldl (fun (acc : Int × Int) word => expWord acc.1 acc.2 word 64) acc).1 ∧
      (words.foldl (fun (acc : Int × Int) word => expWord acc.1 acc.2 word 64) acc).1 < 2 ^ 256 from
    this (1, base) (by norm_num) (by norm_num)
  induction words with
  | nil => exact fun acc h0 h => ⟨h0, h⟩
  | cons w ws ih =>
    intro acc h0 h
    obtain ⟨h0', h'⟩ := expWord_fst_lt w 64 acc.2 h0 h
    exact ih _ h0' h'

/-- A word written as 32 bytes takes exactly 32. -/
theorem length_paddedBigBytes {x : Int} (h0 : 0 ≤ x) (h : x < 2 ^ 256) :
    (paddedBigBytes x 32).length = 32 := by
  unfold paddedBigBytes
  split
  · rename_i hbig
    have hbits : GoBig.bitLen x ≤ 256 := GoBig.bitLen_le_iff.mpr (by omega)
    have hlen : x.natAbs ≠ 0 := by
      intro hz
      simp [GoBig.bitLen, hz] at hbig
    have hpos : 2 ^ 255 ≤ x.natAbs := by
      have := Nat.lt_size.mp (show 255 < x.natAbs.size by
        simp only [GoBig.bitLen] at hbig hbits
        omega)
      exact this
    have hbl : BigEndian.byteLen x.natAbs = 32 := by
      apply BigEndian.byteLen_eq (by norm_num)
      · right
        norm_num
        omega
      · omega
    simp [GoBig.bytes, hlen, hbl]
  · simp [readBits]

end Math

end Common
