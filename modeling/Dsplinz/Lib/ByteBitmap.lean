import Mathlib

/-!
# Bitmaps stored in bytes, most significant bit first

Bit `p` of a bitmap lives in byte `p / 8`, at bit `7 - p % 8` of that byte, so that the
bits read left to right in the order of the positions they stand for. A bitmap is
changed one byte at a time by or-ing a mask into it (`ByteBitmap.orAt`, which fails on
a byte index out of range, as an indexed store does). This file gives

* `ByteBitmap.bitAt_orAt` – what or-ing a mask into a byte does to every bit;
* the three masks a byte-wise writer uses: one bit (`bitMask`), the bits from a place
  to the end of the byte (`tailMask`), and those before it (`headMask`), each with the
  set of places it covers (`testBit_bitMask`, `testBit_tailMask`, `testBit_headMask`);
* `ByteBitmap.and_bitMask_eq_zero` – the test of one bit by masking;
* `ByteBitmap.bitAt_zipWith_and`, `ByteBitmap.bitAt_zipWith_or` – and-ing or or-ing two
  bitmaps byte by byte does so to every bit, and `ByteBitmap.exists_bitAt_iff` – a bitmap has
  a set bit exactly when it has a nonzero byte.
-/

namespace ByteBitmap

/-- Bit `p` of the bitmap; bits past its end are clear. -/
def bitAt (bits : List UInt8) (p : Nat) : Bool :=
  (bits.getD (p / 8) 0).toNat.testBit (7 - p % 8)

/-- The store `bits[i] |= m`, or `none` when `i` is out of range. -/
def orAt (bits : List UInt8) (i : Nat) (m : UInt8) : Option (List UInt8) :=
  if i < bits.length then some (bits.modify i (· ||| m)) else none

/-- The mask of the bit at place `j` of a byte, counted from its top. -/
def bitMask (j : Nat) : UInt8 := 0x80 >>> j.toUInt8

/-- The mask of the places `r` to `7` of a byte. -/
def tailMask (r : Nat) : UInt8 := 0xFF >>> r.toUInt8

/-- The mask of the places `0` to `r - 1` of a byte. -/
def headMask (r : Nat) : UInt8 := ~~~(0xFF >>> r.toUInt8)

/-! ### Masks -/

theorem testBit_bitMask {j k : Nat} (hj : j < 8) (hk : k < 8) :
    (bitMask j).toNat.testBit (7 - k) = decide (j = k) := by
  have h : ∀ j k : Fin 8, (bitMask j).toNat.testBit (7 - k) = decide (j = k) := by decide
  simpa using h ⟨j, hj⟩ ⟨k, hk⟩

theorem testBit_tailMask {r k : Nat} (hr : r < 8) (hk : k < 8) :
    (tailMask r).toNat.testBit (7 - k) = decide (r ≤ k) := by
  have h : ∀ r k : Fin 8, (tailMask r).toNat.testBit (7 - k) = decide (r ≤ k) := by decide
  simpa using h ⟨r, hr⟩ ⟨k, hk⟩

theorem testBit_headMask {r k : Nat} (hr : r < 8) (hk : k < 8) :
    (headMask r).toNat.testBit (7 - k) = decide (k < r) := by
  have h : ∀ r k : Fin 8, (headMask r).toNat.testBit (7 - k) = decide (k < r) := by decide
  simpa using h ⟨r, hr⟩ ⟨k, hk⟩

/-- The mask `1 << (7 - j)` a writer builds by shifting up is the mask of place `j`. -/
theorem one_shiftLeft_eq_bitMask {j : Nat} (hj : j < 8) :
    (1 : UInt8) <<< (7 - j).toUInt8 = bitMask j := by
  have h : ∀ j : Fin 8, (1 : UInt8) <<< (7 - j.val).toUInt8 = bitMask j := by decide
  exact h ⟨j, hj⟩

/-- Masking with the bit of place `j` tests that bit. -/
theorem and_bitMask_eq_zero (x : UInt8) {j : Nat} (hj : j < 8) :
    (x &&& bitMask j == 0) = !x.toNat.testBit (7 - j) := by
  have hmask : (bitMask j).toNat = 2 ^ (7 - j) := by
    have h : ∀ j : Fin 8, (bitMask j).toNat = 2 ^ (7 - j.val) := by decide
    exact h ⟨j, hj⟩
  have hand : (x &&& bitMask j).toNat = 2 ^ (7 - j) * (x.toNat.testBit (7 - j)).toNat := by
    rw [UInt8.toNat_and, hmask, Nat.land_comm, Nat.two_pow_and]
  cases hb : x.toNat.testBit (7 - j) with
  | false =>
    have : x &&& bitMask j = 0 := UInt8.toNat_inj.mp (by simp [hand, hb])
    simp [this]
  | true =>
    have : x &&& bitMask j ≠ 0 := fun h0 => by
      have := congrArg UInt8.toNat h0
      simp [hand, hb] at this
    simp [this]

theorem and_bitMask_ne_zero_iff (x : UInt8) {j : Nat} (hj : j < 8) :
    x &&& bitMask j ≠ 0 ↔ x.toNat.testBit (7 - j) = true := by
  rw [ne_eq, ← beq_iff_eq, and_bitMask_eq_zero x hj]
  simp

/-! ### Stores -/

theorem orAt_of_lt {bits : List UInt8} {i : Nat} (h : i < bits.length) (m : UInt8) :
    orAt bits i m = some (bits.modify i (· ||| m)) := if_pos h

theorem orAt_eq_none {bits : List UInt8} {i : Nat} (h : bits.length ≤ i) (m : UInt8) :
    orAt bits i m = none := if_neg (Nat.not_lt.mpr h)

theorem length_orAt {bits bits' : List UInt8} {i : Nat} {m : UInt8}
    (h : orAt bits i m = some bits') : bits'.length = bits.length := by
  unfold orAt at h
  split at h
  · cases h
    exact List.length_modify _ _ _
  · cases h

/-- **Or-ing a mask into byte `i`** sets the bits of that byte the mask covers and
leaves every other bit as it was. -/
theorem bitAt_orAt {bits bits' : List UInt8} {i : Nat} {m : UInt8}
    (h : orAt bits i m = some bits') (p : Nat) :
    bitAt bits' p = (bitAt bits p || (decide (p / 8 = i) && m.toNat.testBit (7 - p % 8))) := by
  unfold orAt at h
  split at h
  · cases h
    simp only [bitAt, List.getD_eq_getElem?_getD, List.getElem?_modify]
    by_cases hi : i = p / 8
    · have hp : p / 8 < bits.length := hi ▸ ‹i < bits.length›
      rw [List.getElem?_eq_getElem hp]
      simp [hi, UInt8.toNat_or, Nat.testBit_or]
    · have hne : ¬ p / 8 = i := fun h' => hi h'.symm
      cases bits[p / 8]? <;> simp [hi, hne]
  · cases h

/-- Or-ing a mask into a byte in range, as a plain update of the list. -/
theorem bitAt_modify_or {bits : List UInt8} {i : Nat} (h : i < bits.length) (m : UInt8)
    (p : Nat) :
    bitAt (bits.modify i (· ||| m)) p =
      (bitAt bits p || (decide (p / 8 = i) && m.toNat.testBit (7 - p % 8))) :=
  bitAt_orAt (orAt_of_lt h m) p

/-! ### Reading whole bitmaps -/

theorem bitAt_replicate_zero (n p : Nat) : bitAt (List.replicate n 0) p = false := by
  simp [bitAt, List.getD_eq_getElem?_getD, List.getElem?_replicate]
  split <;> simp

theorem bitAt_of_length_le {bits : List UInt8} {p : Nat} (h : 8 * bits.length ≤ p) :
    bitAt bits p = false := by
  have hp : bits.length ≤ p / 8 := by omega
  simp [bitAt, List.getD_eq_getElem?_getD, List.getElem?_eq_none hp]

/-- Bit `8 * k + r` of a bitmap is bit `7 - r` of its byte `k`. -/
theorem bitAt_byte {bits : List UInt8} {k r : Nat} (hk : k < bits.length) (hr : r < 8) :
    bitAt bits (8 * k + r) = bits[k].toNat.testBit (7 - r) := by
  have hdiv : (8 * k + r) / 8 = k := by omega
  have hmod : (8 * k + r) % 8 = r := by omega
  simp [bitAt, hdiv, hmod, List.getD_eq_getElem?_getD, List.getElem?_eq_getElem hk]

/-- A bit read through the byte that holds it. -/
theorem bitAt_of_getElem? {bits : List UInt8} {p : Nat} {x : UInt8} (h : bits[p / 8]? = some x) :
    bitAt bits p = x.toNat.testBit (7 - p % 8) := by
  rw [bitAt, List.getD_eq_getElem?_getD, h, Option.getD_some]

/-- **Two bitmaps of one length with the same bits are equal.** -/
theorem eq_of_bitAt_eq {bits bits' : List UInt8} (hlen : bits.length = bits'.length)
    (h : ∀ p, bitAt bits p = bitAt bits' p) : bits = bits' := by
  apply List.ext_getElem hlen
  intro k hk hk'
  apply UInt8.toNat_inj.mp
  apply Nat.eq_of_testBit_eq
  intro b
  by_cases hb : b < 8
  · have hbit := h (8 * k + (7 - b))
    rw [bitAt_byte hk (by omega), bitAt_byte hk' (by omega)] at hbit
    rwa [show 7 - (7 - b) = b by omega] at hbit
  · have hx : bits[k].toNat < 2 ^ b :=
      lt_of_lt_of_le bits[k].toNat_lt (Nat.pow_le_pow_right (by omega) (by omega))
    have hy : bits'[k].toNat < 2 ^ b :=
      lt_of_lt_of_le bits'[k].toNat_lt (Nat.pow_le_pow_right (by omega) (by omega))
    rw [Nat.testBit_lt_two_pow hx, Nat.testBit_lt_two_pow hy]

/-! ### Bytes combined one by one -/

theorem bitAt_zipWith_and (a b : List UInt8) (p : Nat) :
    bitAt (List.zipWith (· &&& ·) a b) p = (bitAt a p && bitAt b p) := by
  simp only [bitAt, List.getD_eq_getElem?_getD, List.getElem?_zipWith]
  cases a[p / 8]? <;> cases b[p / 8]? <;> simp [UInt8.toNat_and, Nat.testBit_and]

theorem bitAt_zipWith_or {a b : List UInt8} (hab : a.length = b.length) (p : Nat) :
    bitAt (List.zipWith (· ||| ·) a b) p = (bitAt a p || bitAt b p) := by
  simp only [bitAt, List.getD_eq_getElem?_getD, List.getElem?_zipWith]
  -- the two bytes are both there or both past the end
  by_cases hp : p / 8 < a.length
  · rw [List.getElem?_eq_getElem hp, List.getElem?_eq_getElem (hab ▸ hp)]
    simp [UInt8.toNat_or, Nat.testBit_or]
  · rw [List.getElem?_eq_none (by omega), List.getElem?_eq_none (by omega)]
    simp

theorem bitAt_replicate_ff (n p : Nat) : bitAt (List.replicate n 0xFF) p = decide (p < 8 * n) := by
  simp only [bitAt, List.getD_eq_getElem?_getD, List.getElem?_replicate]
  by_cases hp : p / 8 < n
  · have hbit : ∀ r : Fin 8, (0xFF : UInt8).toNat.testBit (7 - r.val) = true := by decide
    rw [if_pos hp, Option.getD_some, hbit ⟨p % 8, Nat.mod_lt _ (by decide)⟩]
    exact (decide_eq_true (by omega)).symm
  · rw [if_neg hp]
    simp only [Option.getD_none, UInt8.toNat_zero, Nat.zero_testBit, Bool.false_eq, decide_eq_false_iff_not]
    omega

/-- **A bitmap has a set bit exactly when it has a nonzero byte.** -/
theorem exists_bitAt_iff (bits : List UInt8) : (∃ p, bitAt bits p = true) ↔ ∃ b ∈ bits, b ≠ 0 := by
  constructor
  · rintro ⟨p, hp⟩
    have hk : p / 8 < bits.length := by
      by_contra hk
      rw [bitAt_of_length_le (by omega)] at hp
      exact Bool.false_ne_true hp
    refine ⟨bits[p / 8], List.getElem_mem hk, fun h0 => ?_⟩
    simp [bitAt, List.getD_eq_getElem?_getD, List.getElem?_eq_getElem hk, h0] at hp
  · rintro ⟨b, hb, hb0⟩
    obtain ⟨k, hk, rfl⟩ := List.getElem_of_mem hb
    -- a nonzero byte has a set bit, below the eighth
    obtain ⟨r, hr⟩ := Nat.exists_testBit_of_ne_zero (fun h => hb0 (UInt8.toNat_inj.mp h))
    have hr8 : r < 8 := by
      by_contra hr8
      rw [Nat.testBit_lt_two_pow (lt_of_lt_of_le bits[k].toNat_lt
        (Nat.pow_le_pow_right (by omega) (by omega)))] at hr
      exact Bool.false_ne_true hr
    refine ⟨8 * k + (7 - r), ?_⟩
    rw [bitAt_byte hk (by omega), show 7 - (7 - r) = r by omega, hr]

end ByteBitmap
