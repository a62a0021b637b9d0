import Mathlib

/-!
# Big-endian byte strings

A natural number written as a string of bytes, most significant first. Two
operations carry everything: `BigEndian.lowBytes n k` writes the `k` low-order
bytes of `n`, and `BigEndian.value` reads a byte string back as a number. Their
round trip in one direction is reduction modulo `256 ^ k`
(`BigEndian.value_lowBytes`), in the other it is exact
(`BigEndian.lowBytes_value`).

The third notion is the **shortest** representation. `BigEndian.byteLen n` is the
least `k ≥ 1` with `n < 256 ^ k`, and the strings of that length are exactly the
ones whose first byte is not zero (`BigEndian.byteLen_value`). That is the whole
content of a canonical size field: an encoder writes `byteLen n` bytes, and a
decoder that rejects a leading zero byte accepts nothing else.
-/

namespace BigEndian

/-! ### Reading and writing -/

/-- The `k` low-order bytes of `n`, most significant first. -/
def lowBytes (n k : Nat) : List UInt8 :=
  (List.range k).reverse.map fun j => UInt8.ofNat (n / 256 ^ j)

/-- The number a big-endian byte string denotes. -/
def value (bs : List UInt8) : Nat :=
  bs.foldl (fun acc b => acc * 256 + b.toNat) 0

/-- A byte written from a number is its residue modulo `256`. -/
theorem toNat_ofNat_byte (n : Nat) : (UInt8.ofNat n).toNat = n % 256 := by
  rw [UInt8.toNat_ofNat']

@[simp] theorem length_lowBytes (n k : Nat) : (lowBytes n k).length = k := by
  simp [lowBytes]

theorem lowBytes_succ (n k : Nat) :
    lowBytes n (k + 1) = UInt8.ofNat (n / 256 ^ k) :: lowBytes n k := by
  simp [lowBytes, List.range_succ]

@[simp] theorem lowBytes_zero (n : Nat) : lowBytes n 0 = [] := rfl

theorem value_foldl (bs : List UInt8) (a : Nat) :
    bs.foldl (fun acc b => acc * 256 + b.toNat) a = a * 256 ^ bs.length + value bs := by
  induction bs generalizing a with
  | nil => simp [value]
  | cons b bs ih =>
    simp only [List.foldl_cons, value, List.length_cons]
    rw [ih, ih (0 * 256 + b.toNat), value, pow_succ]
    ring

@[simp] theorem value_nil : value [] = 0 := rfl

theorem value_cons (b : UInt8) (bs : List UInt8) :
    value (b :: bs) = b.toNat * 256 ^ bs.length + value bs := by
  rw [value, List.foldl_cons, value_foldl]
  simp

theorem value_append (bs cs : List UInt8) :
    value (bs ++ cs) = value bs * 256 ^ cs.length + value cs := by
  rw [value, List.foldl_append, value_foldl]
  rfl

/-- A number below `256 ^ k`, written on more than `k` bytes, is written with leading zeros. -/
theorem lowBytes_add_of_lt {n k : Nat} (h : n < 256 ^ k) (j : Nat) :
    lowBytes n (k + j) = List.replicate j 0 ++ lowBytes n k := by
  induction j with
  | zero => rfl
  | succ j ih =>
    have hlt : n < 256 ^ (k + j) :=
      Nat.lt_of_lt_of_le h (Nat.pow_le_pow_right (by norm_num) (Nat.le_add_right k j))
    rw [← Nat.add_assoc, lowBytes_succ, ih, Nat.div_eq_of_lt hlt, List.replicate_succ]
    rfl

/-- A byte string of length `k` denotes a number below `256 ^ k`. -/
theorem value_lt (bs : List UInt8) : value bs < 256 ^ bs.length := by
  induction bs with
  | nil => simp
  | cons b bs ih =>
    rw [value_cons, List.length_cons, pow_succ]
    have hb : b.toNat < 256 := b.toNat_lt
    have hb' : b.toNat ≤ 255 := by omega
    calc b.toNat * 256 ^ bs.length + value bs
        < b.toNat * 256 ^ bs.length + 256 ^ bs.length := by omega
      _ ≤ 255 * 256 ^ bs.length + 256 ^ bs.length := by
          have := Nat.mul_le_mul_right (256 ^ bs.length) hb'
          omega
      _ = 256 ^ bs.length * 256 := by ring

/-- **Writing then reading** keeps the number modulo the room it was given. -/
theorem value_lowBytes (n k : Nat) : value (lowBytes n k) = n % 256 ^ k := by
  induction k with
  | zero => simp [Nat.mod_one]
  | succ k ih =>
    rw [lowBytes_succ, value_cons, length_lowBytes, ih, toNat_ofNat_byte, Nat.mod_pow_succ]
    ring

/-- Only the residue modulo `256 ^ k` is written. -/
theorem lowBytes_mod (n k : Nat) : lowBytes (n % 256 ^ k) k = lowBytes n k := by
  simp only [lowBytes, List.map_inj_left, List.mem_reverse, List.mem_range]
  intro j hj
  apply UInt8.toNat_inj.mp
  simp only [toNat_ofNat_byte]
  -- the byte at place `j` only sees the residue modulo `256 ^ (j + 1)`, which divides `256 ^ k`
  have hdvd : 256 ^ j * 256 ∣ 256 ^ k := by
    rw [← pow_succ]
    exact pow_dvd_pow 256 (by omega)
  rw [← Nat.mod_mul_right_div_self, ← Nat.mod_mul_right_div_self n, Nat.mod_mod_of_dvd _ hdvd]

/-- **Reading then writing** is exact at the string's own length. -/
theorem lowBytes_value (bs : List UInt8) : lowBytes (value bs) bs.length = bs := by
  induction bs with
  | nil => rfl
  | cons b bs ih =>
    have hlt := value_lt bs
    have hpos : 0 < 256 ^ bs.length := by positivity
    have hdiv : value (b :: bs) / 256 ^ bs.length = b.toNat := by
      rw [value_cons, Nat.add_comm, Nat.add_mul_div_right _ _ hpos, Nat.div_eq_of_lt hlt]
      simp
    have hmod : value (b :: bs) % 256 ^ bs.length = value bs := by
      rw [value_cons, Nat.mul_add_mod_self_right, Nat.mod_eq_of_lt hlt]
    rw [List.length_cons, lowBytes_succ, hdiv, ← lowBytes_mod, hmod, ih]
    simp

/-- Least significant first, the low `j` bytes of `n` start its low `k`. -/
theorem take_reverse_lowBytes (n : Nat) {j k : Nat} (h : j ≤ k) :
    (lowBytes n k).reverse.take j = (lowBytes n j).reverse := by
  simp only [lowBytes, List.map_reverse, List.reverse_reverse, ← List.map_take, List.take_range,
    Nat.min_eq_left h]

/-! ### Comparing and combining strings -/

/-- Of two strings of one length, the one with the smaller first byte is the smaller. -/
theorem value_cons_lt_of_lt {x y : UInt8} {xs ys : List UInt8} (hlen : xs.length = ys.length)
    (h : x < y) : value (x :: xs) < value (y :: ys) := by
  rw [value_cons, value_cons, ← hlen]
  have hxs := value_lt xs
  have hxy : x.toNat + 1 ≤ y.toNat := UInt8.lt_iff_toNat_lt.mp h
  calc x.toNat * 256 ^ xs.length + value xs < (x.toNat + 1) * 256 ^ xs.length := by
        rw [Nat.add_mul]
        omega
    _ ≤ y.toNat * 256 ^ xs.length := Nat.mul_le_mul_right _ hxy
    _ ≤ y.toNat * 256 ^ xs.length + value ys := Nat.le_add_right _ _

/-- Past a common first byte, two strings of one length compare as their tails. -/
theorem value_cons_lt_cons_iff (x : UInt8) {xs ys : List UInt8} (hlen : xs.length = ys.length) :
    value (x :: xs) < value (x :: ys) ↔ value xs < value ys := by
  rw [value_cons, value_cons, hlen]
  omega

theorem value_cons_inj (x : UInt8) {xs ys : List UInt8} (hlen : xs.length = ys.length) :
    value (x :: xs) = value (x :: ys) ↔ value xs = value ys := by
  rw [value_cons, value_cons, hlen]
  omega

/-- The bytes of `a xor b` are the bytes of `a` xor those of `b`. -/
theorem lowBytes_xor (a b k : Nat) :
    lowBytes (a ^^^ b) k = List.zipWith (· ^^^ ·) (lowBytes a k) (lowBytes b k) := by
  rw [lowBytes, lowBytes, lowBytes, List.zipWith_map, List.zipWith_self]
  refine List.map_congr_left fun j _ => UInt8.toNat_inj.mp ?_
  -- byte `j` is bits `8 j` to `8 j + 7`, which the xor leaves in place
  rw [UInt8.toNat_xor, toNat_ofNat_byte, toNat_ofNat_byte, toNat_ofNat_byte,
    show 256 ^ j = 2 ^ (8 * j) by rw [Nat.pow_mul], Nat.xor_div_two_pow,
    show (256 : Nat) = 2 ^ 8 by norm_num, Nat.xor_mod_two_pow]

/-! ### The shortest representation -/

/-- The number of bytes of the shortest big-endian representation of `n`, at least one. -/
def byteLen (n : Nat) : Nat :=
  if n < 256 then 1 else byteLen (n / 256) + 1
termination_by n
decreasing_by omega

theorem byteLen_of_lt {n : Nat} (h : n < 256) : byteLen n = 1 := by
  rw [byteLen, if_pos h]

theorem byteLen_of_le {n : Nat} (h : 256 ≤ n) : byteLen n = byteLen (n / 256) + 1 := by
  rw [byteLen, if_neg (by omega)]

theorem one_le_byteLen (n : Nat) : 1 ≤ byteLen n := by
  rcases Nat.lt_or_ge n 256 with h | h
  · rw [byteLen_of_lt h]
  · rw [byteLen_of_le h]
    omega

/-- The shortest representation has room for the number. -/
theorem lt_pow_byteLen (n : Nat) : n < 256 ^ byteLen n := by
  induction n using Nat.strong_induction_on with
  | _ n ih =>
    rcases Nat.lt_or_ge n 256 with h | h
    · rw [byteLen_of_lt h]
      simpa using h
    · rw [byteLen_of_le h, pow_succ]
      have := ih (n / 256) (by omega)
      omega

/-- The shortest representation has no room to spare: one byte fewer is too few. -/
theorem pow_byteLen_le {n : Nat} (h : 256 ≤ n) : 256 ^ (byteLen n - 1) ≤ n := by
  induction n using Nat.strong_induction_on with
  | _ n ih =>
    rw [byteLen_of_le h, Nat.add_sub_cancel]
    rcases Nat.lt_or_ge (n / 256) 256 with h' | h'
    · rw [byteLen_of_lt h']
      simpa using h
    · have := ih (n / 256) (by omega) h'
      have hk := one_le_byteLen (n / 256)
      obtain ⟨k, hk'⟩ : ∃ k, byteLen (n / 256) = k + 1 := ⟨_, (Nat.sub_add_cancel hk).symm⟩
      rw [hk', pow_succ]
      rw [hk', Nat.add_sub_cancel] at this
      omega

/-- Any room that fits the number is at least the shortest representation. -/
theorem byteLen_le {n k : Nat} (hk : 1 ≤ k) (h : n < 256 ^ k) : byteLen n ≤ k := by
  rcases Nat.lt_or_ge n 256 with hn | hn
  · rw [byteLen_of_lt hn]
    exact hk
  · by_contra hlt
    have hle := pow_byteLen_le hn
    have : 256 ^ k ≤ 256 ^ (byteLen n - 1) := Nat.pow_le_pow_right (by norm_num) (by omega)
    omega

/-- The shortest representation is pinned down by the two powers around the number. -/
theorem byteLen_mono {m n : Nat} (h : m ≤ n) : byteLen m ≤ byteLen n :=
  byteLen_le (one_le_byteLen n) (lt_of_le_of_lt h (lt_pow_byteLen n))

theorem byteLen_eq {n k : Nat} (hk : 1 ≤ k) (hlo : k = 1 ∨ 256 ^ (k - 1) ≤ n)
    (hhi : n < 256 ^ k) : byteLen n = k := by
  apply le_antisymm (byteLen_le hk hhi)
  rcases hlo with rfl | hlo
  · exact one_le_byteLen n
  · by_contra hlt
    have : n < 256 ^ (k - 1) :=
      lt_of_lt_of_le (lt_pow_byteLen n) (Nat.pow_le_pow_right (by norm_num) (by omega))
    omega

/-- **A string without a leading zero is a shortest representation.** -/
theorem byteLen_value {b : UInt8} {bs : List UInt8} (hb : b ≠ 0) :
    byteLen (value (b :: bs)) = bs.length + 1 := by
  have hlt := value_lt (b :: bs)
  have hb1 : 1 ≤ b.toNat := by
    rcases Nat.eq_zero_or_pos b.toNat with h | h
    · exact absurd (UInt8.toNat_inj.mp (by simpa using h)) hb
    · exact h
  have hge : 256 ^ bs.length ≤ value (b :: bs) := by
    rw [value_cons]
    have := Nat.mul_le_mul_right (256 ^ bs.length) hb1
    omega
  apply le_antisymm (byteLen_le (by omega) (by simpa using hlt))
  by_contra hcon
  have hsmall : value (b :: bs) < 256 ^ bs.length :=
    lt_of_lt_of_le (lt_pow_byteLen _) (Nat.pow_le_pow_right (by norm_num) (by omega))
  omega

/-- **The shortest representation of a number past one byte starts with a nonzero byte.** -/
theorem head_lowBytes_byteLen {n : Nat} (h : 256 ≤ n) :
    ∃ b bs, lowBytes n (byteLen n) = b :: bs ∧ b ≠ 0 := by
  obtain ⟨k, hk⟩ : ∃ k, byteLen n = k + 1 := ⟨_, (Nat.sub_add_cancel (one_le_byteLen n)).symm⟩
  refine ⟨_, _, by rw [hk, lowBytes_succ], ?_⟩
  have hge := pow_byteLen_le h
  have hlt := lt_pow_byteLen n
  rw [hk, Nat.add_sub_cancel] at hge
  rw [hk, pow_succ] at hlt
  intro h0
  have h1 := congrArg UInt8.toNat h0
  rw [toNat_ofNat_byte, UInt8.toNat_zero] at h1
  have hpos : 0 < 256 ^ k := by positivity
  have hq : n / 256 ^ k < 256 := (Nat.div_lt_iff_lt_mul hpos).mpr (by rw [Nat.mul_comm]; exact hlt)
  have hq1 : 1 ≤ n / 256 ^ k := (Nat.le_div_iff_mul_le hpos).mpr (by rw [Nat.one_mul]; exact hge)
  omega

/-! ### Bits -/

/-- Bit `r` of the byte `m` places before the end of the `k` low-order bytes of `n` is bit
`8 * m + r` of `n`. -/
theorem testBit_getD_lowBytes (n : Nat) {k m r : Nat} (hm : m < k) (hr : r < 8) :
    ((lowBytes n k).getD (k - 1 - m) 0).toNat.testBit r = n.testBit (8 * m + r) := by
  have hidx : k - 1 - m < (List.range k).reverse.length := by simp; omega
  have hbyte : (lowBytes n k).getD (k - 1 - m) 0 = UInt8.ofNat (n / 256 ^ m) := by
    rw [lowBytes, List.getD_eq_getElem?_getD, List.getElem?_map, List.getElem?_eq_getElem hidx,
      List.getElem_reverse, List.getElem_range]
    simp only [Option.map_some, Option.getD_some, List.length_range]
    congr 3
    omega
  have hpow : 256 ^ m = 2 ^ (8 * m) := by rw [pow_mul]; norm_num
  rw [hbyte, toNat_ofNat_byte, show (256 : Nat) = 2 ^ 8 from rfl, Nat.testBit_mod_two_pow,
    ← show (256 : Nat) = 2 ^ 8 from rfl, hpow, Nat.testBit_div_two_pow, decide_eq_true hr,
    Bool.true_and, Nat.add_comm]

end BigEndian
