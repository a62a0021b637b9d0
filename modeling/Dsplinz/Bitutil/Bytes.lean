import Dsplinz.Lib.ByteBitmap

/-!
# Byte-wise operations on bit vectors

`common/bitutil/bitutil.go`: `ANDBytes(dst, a, b)` and `ORBytes(dst, a, b)` write
`a[i] & b[i]` (or `|`) into `dst[i]` for the first `n = min(len(a), len(b))` bytes and return
`n`; `TestBytes(p)` says whether some byte of `p` is set. Each dispatches on
`supportsUnaligned` to a version that works a machine word at a time or to the byte loop
(`safeANDBytes`, `safeORBytes`, `safeTestBytes`). The model is the byte loop; the word
versions compute the same bytes through unaligned loads, which are not modelled, and
`XORBytes` is used by nothing modelled.

The bloom-bits matcher only ever combines a vector into itself (`dst = a`), which cannot
write past `dst` (`Bitutil.safeANDBytes_self`). Read as bitmaps (`ByteBitmap.bitAt`), the
two operations are and and or on every bit of vectors of one length
(`Bitutil.bitAt_safeANDBytes_self`, `Bitutil.bitAt_safeORBytes_self`), and `safeTestBytes`
finds a set bit (`Bitutil.safeTestBytes_iff`).
-/

namespace Bitutil

open ByteBitmap

/-- The loop of `safeANDBytes` and `safeORBytes`: `dst[i] = a[i] op b[i]` for `i < n`, and
`n`. A `dst` shorter than `n` is written past its end, which panics (`none`). -/
def safeBytesOp (op : UInt8 → UInt8 → UInt8) (dst a b : List UInt8) : Option (List UInt8 × Nat) :=
  let n := min a.length b.length
  if dst.length < n then none else some (List.zipWith op a b ++ dst.drop n, n)

/-- `safeANDBytes(dst, a, b)`. -/
def safeANDBytes (dst a b : List UInt8) : Option (List UInt8 × Nat) := safeBytesOp (· &&& ·) dst a b

/-- `safeORBytes(dst, a, b)`. -/
def safeORBytes (dst a b : List UInt8) : Option (List UInt8 × Nat) := safeBytesOp (· ||| ·) dst a b

/-- `safeTestBytes(p)`: whether some byte is not zero. -/
def safeTestBytes (p : List UInt8) : Bool := p.any (· != 0)

/-! ### Combining a vector into itself -/

/-- With `dst = a` nothing is written past `dst`; the bytes of `a` past `b` stay. -/
theorem safeBytesOp_self (op : UInt8 → UInt8 → UInt8) (a b : List UInt8) :
    safeBytesOp op a a b =
      some (List.zipWith op a b ++ a.drop (min a.length b.length), min a.length b.length) :=
  if_neg (Nat.not_lt.mpr (Nat.min_le_left _ _))

theorem safeANDBytes_self (a b : List UInt8) :
    safeANDBytes a a b =
      some (List.zipWith (· &&& ·) a b ++ a.drop (min a.length b.length), min a.length b.length) :=
  safeBytesOp_self _ a b

theorem safeORBytes_self (a b : List UInt8) :
    safeORBytes a a b =
      some (List.zipWith (· ||| ·) a b ++ a.drop (min a.length b.length), min a.length b.length) :=
  safeBytesOp_self _ a b

theorem isSome_safeANDBytes_self (a b : List UInt8) : (safeANDBytes a a b).isSome := by
  rw [safeANDBytes_self]
  rfl

theorem isSome_safeORBytes_self (a b : List UInt8) : (safeORBytes a a b).isSome := by
  rw [safeORBytes_self]
  rfl

section Bits

variable {a b : List UInt8} (hab : a.length = b.length)
include hab

/-- Vectors of one length combined by `op` byte by byte. -/
theorem safeBytesOp_self_of_length_eq (op : UInt8 → UInt8 → UInt8) :
    safeBytesOp op a a b = some (List.zipWith op a b, a.length) := by
  rw [safeBytesOp_self, hab, Nat.min_self, ← hab, List.drop_length, List.append_nil]

theorem bitAt_safeANDBytes_self (p : Nat) :
    bitAt ((safeANDBytes a a b).get (isSome_safeANDBytes_self a b)).1 p = (bitAt a p && bitAt b p) := by
  simp only [safeANDBytes, safeBytesOp_self_of_length_eq hab, Option.get_some]
  exact bitAt_zipWith_and a b p

theorem bitAt_safeORBytes_self (p : Nat) :
    bitAt ((safeORBytes a a b).get (isSome_safeORBytes_self a b)).1 p = (bitAt a p || bitAt b p) := by
  simp only [safeORBytes, safeBytesOp_self_of_length_eq hab, Option.get_some]
  exact bitAt_zipWith_or hab p

theorem length_safeANDBytes_self :
    ((safeANDBytes a a b).get (isSome_safeANDBytes_self a b)).1.length = a.length := by
  simp only [safeANDBytes, safeBytesOp_self_of_length_eq hab, Option.get_some, List.length_zipWith,
    hab, Nat.min_self]

theorem length_safeORBytes_self :
    ((safeORBytes a a b).get (isSome_safeORBytes_self a b)).1.length = a.length := by
  simp only [safeORBytes, safeBytesOp_self_of_length_eq hab, Option.get_some, List.length_zipWith,
    hab, Nat.min_self]

end Bits

/-- **`safeTestBytes` finds a set bit.** -/
theorem safeTestBytes_iff (p : List UInt8) : safeTestBytes p = true ↔ ∃ j, bitAt p j = true := by
  rw [exists_bitAt_iff, safeTestBytes, List.any_eq_true]
  simp only [bne_iff_ne, ne_eq]

end Bitutil
