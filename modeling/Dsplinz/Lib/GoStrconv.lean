import Mathlib

/-!
# Unsigned integers in a base, as `strconv` writes and reads them

Two functions of Go's `strconv`, on byte strings:

* `GoStrconv.formatBits` – the digits of an unsigned integer, the least significant first
  into a buffer filled from its end, so most significant first in the result; lowercase
  letters from `10` on, and no leading zero;
* `GoStrconv.parseUint` – `ParseUint(s, base, 64)`, which reads the digits of either case
  back, checking each product and sum against `2 ^ 64 - 1` before it is made.

Both are proved against Mathlib's `Nat.digits` and `Nat.ofDigits`: `formatBits` writes the
digits of `u` (`GoStrconv.formatBitsLoop_eq_digits`), and `parseUint` reads a digit string
whose value fits in 64 bits as that value (`GoStrconv.parseUintLoop_digits`). In base `16`
the digits written are `GoStrconv.hexDigits`, whose properties the readers of hex quantities
use.
-/

namespace GoStrconv

/-- A character of a Go string literal, as its byte. -/
def charByte (c : Char) : UInt8 := UInt8.ofNat c.toNat

/-- `digits[d]`, where `digits = "0123456789abcdefghijklmnopqrstuvwxyz"`. -/
def digitByte (d : Nat) : UInt8 :=
  if d < 10 then charByte '0' + UInt8.ofNat d else charByte 'a' + UInt8.ofNat (d - 10)

/-- The loop of `formatBits` for `2 ≤ base ≤ 36`: `digits[u % base]`, then `u /= base`, while
`u ≥ base`, then `digits[u]`. The branch for a power-of-two base computes `u % base` and
`u / base` with a mask and a shift. Each round divides `u` by `base`, so `u` rounds of fuel
are enough. -/
def formatBitsLoop (base : Nat) : (fuel u : Nat) → List UInt8
  | 0, u => [digitByte u]
  | fuel + 1, u =>
    if u < base then [digitByte u] else digitByte (u % base) :: formatBitsLoop base fuel (u / base)

/-- `formatBits(nil, u, base, false, true)`: the digits of `u`, most significant first. -/
def formatBits (u base : Nat) : List UInt8 := (formatBitsLoop base u u).reverse

/-- `strconv.AppendUint(dst, i, base)`. -/
def appendUint (dst : List UInt8) (i : UInt64) (base : Nat) : List UInt8 :=
  dst ++ formatBits i.toNat base

/-- The error of a `*NumError`: `ErrSyntax` or `ErrRange`. -/
inductive NumErr where
  | errSyntax
  | errRange
  deriving DecidableEq, Repr

/-- `math.MaxUint64`, which is also `maxVal` of `ParseUint` at `bitSize = 64`. -/
def maxUint64 : UInt64 := 0xFFFFFFFFFFFFFFFF

/-- The value `ParseUint` gives a byte: `0`–`9`, and letters of either case from `10` on;
`none` for any other byte. -/
def digitValue (c : UInt8) : Option UInt8 :=
  if charByte '0' ≤ c ∧ c ≤ charByte '9' then some (c - charByte '0')
  else if charByte 'a' ≤ c ∧ c ≤ charByte 'z' then some (c - charByte 'a' + 10)
  else if charByte 'A' ≤ c ∧ c ≤ charByte 'Z' then some (c - charByte 'A' + 10)
  else none

/-- The loop of `ParseUint` over the bytes of `s`, `n` the value read so far. -/
def parseUintLoop (base : Nat) (cutoff maxVal : UInt64) :
    List UInt8 → UInt64 → Except NumErr UInt64
  | [], n => .ok n
  | c :: cs, n =>
    match digitValue c with
    | none => .error .errSyntax
    | some d =>
      if d.toNat ≥ base then .error .errSyntax
      -- n*base overflows
      else if n ≥ cutoff then .error .errRange
      else
        let n' := n * UInt64.ofNat base
        let n1 := n' + d.toUInt64
        -- n+d overflows
        if n1 < n' ∨ n1 > maxVal then .error .errRange
        else parseUintLoop base cutoff maxVal cs n1

/-- `strconv.ParseUint(s, base, 64)` for `2 ≤ base ≤ 36`. The value it returns beside an
error is left out. -/
def parseUint (s : List UInt8) (base : Nat) : Except NumErr UInt64 :=
  if s = [] then .error .errSyntax
  else parseUintLoop base (maxUint64 / UInt64.ofNat base + 1) maxUint64 s 0

/-- `strconv.ParseInt(s, 10, 64)`, and so `strconv.Atoi(s)` on a 64-bit platform, whose
fast path for short strings returns the same: a sign is picked off, the digits go to
`ParseUint`, and the value must fit an `int64`. -/
def atoi (s : List UInt8) : Except NumErr Int :=
  match s with
  | [] => .error .errSyntax
  | c :: cs =>
    -- pick off leading sign
    let (neg, digits) :=
      if c = charByte '+' then (false, cs) else if c = charByte '-' then (true, cs) else (false, c :: cs)
    match parseUint digits 10 with
    | .error .errSyntax => .error .errSyntax
    | r =>
      -- on `ErrRange`, `ParseUint` returns `maxUint64`, which fails the range check below
      let un := match r with
        | .ok u => u.toNat
        | .error _ => maxUint64.toNat
      if neg then (if un > 2 ^ 63 then .error .errRange else .ok (-(un : Int)))
      else if un ≥ 2 ^ 63 then .error .errRange else .ok un

example : atoi [0x33, 0x33] = .ok 33 := by decide

/-! ### Writing -/

section Format

variable {base : Nat}

/-- Zero is written as the one digit `0`. -/
theorem formatBitsLoop_zero (hb : 0 < base) (fuel : Nat) :
    formatBitsLoop base fuel 0 = [digitByte 0] := by
  cases fuel with
  | zero => rfl
  | succ fuel => rw [formatBitsLoop, if_pos hb]

/-- **`formatBits` writes the digits of `u`**, least significant first before the reversal,
given as many rounds as `u`. -/
theorem formatBitsLoop_eq_digits (hb : 1 < base) :
    ∀ (fuel u : Nat), 0 < u → u ≤ fuel →
      formatBitsLoop base fuel u = (Nat.digits base u).map digitByte
  | 0, u, hu, hfuel => absurd hfuel (by omega)
  | fuel + 1, u, hu, hfuel => by
    rw [formatBitsLoop]
    by_cases hlt : u < base
    · -- one digit left
      rw [if_pos hlt, Nat.digits_of_lt base u (by omega) hlt, List.map_singleton]
    · -- the last digit, then the digits of `u / base`
      have hq : 0 < u / base := Nat.div_pos (by omega) (by omega)
      have hq' : u / base ≤ fuel := by
        have := Nat.div_lt_self hu hb
        omega
      rw [if_neg hlt, Nat.digits_def' hb hu, List.map_cons,
        formatBitsLoop_eq_digits hb fuel (u / base) hq hq']

theorem formatBits_eq_digits (hb : 1 < base) {u : Nat} (hu : 0 < u) :
    formatBits u base = ((Nat.digits base u).map digitByte).reverse := by
  rw [formatBits, formatBitsLoop_eq_digits hb u u hu (Nat.le_refl u)]

end Format

/-! ### Reading -/

/-- Each of the thirty-six digits reads back as its value. -/
theorem digitValue_digitByte : ∀ d < 36, digitValue (digitByte d) = some (UInt8.ofNat d) := by
  decide

/-- One round of `ParseUint` in base `16` on a digit whose value, appended to `n`, stays
below `2 ^ 64`: no overflow is found, and `n` becomes `16 * n + d`. -/
theorem parseUintLoop_cons {d : Nat} (hd : d < 16) {n : UInt64} (cs : List UInt8)
    (hfit : n.toNat * 16 + d < 2 ^ 64) :
    parseUintLoop 16 (maxUint64 / UInt64.ofNat 16 + 1) maxUint64 (digitByte d :: cs) n =
      parseUintLoop 16 (maxUint64 / UInt64.ofNat 16 + 1) maxUint64 cs
        (UInt64.ofNat (n.toNat * 16 + d)) := by
  have hdig : (UInt8.ofNat d).toNat = d := by
    rw [UInt8.toNat_ofNat']
    omega
  -- the cutoff is `2 ^ 60`, and the product and the sum are exact
  have hcut : ¬(maxUint64 / UInt64.ofNat 16 + 1 ≤ n) := by
    rw [UInt64.le_iff_toNat_le]
    have hc : (maxUint64 / UInt64.ofNat 16 + 1).toNat = 2 ^ 60 := rfl
    omega
  have hmul : (n * UInt64.ofNat 16).toNat = n.toNat * 16 := by
    rw [UInt64.toNat_mul, UInt64.toNat_ofNat']
    omega
  have hadd : (n * UInt64.ofNat 16 + (UInt8.ofNat d).toUInt64).toNat = n.toNat * 16 + d := by
    rw [UInt64.toNat_add, hmul, UInt8.toNat_toUInt64, hdig]
    omega
  rw [parseUintLoop, digitValue_digitByte d (by omega)]
  dsimp only
  rw [if_neg (by omega), if_neg hcut, if_neg]
  · congr 1
    apply UInt64.toNat_inj.mp
    rw [hadd, UInt64.toNat_ofNat']
    omega
  · rw [gt_iff_lt, UInt64.lt_iff_toNat_lt, UInt64.lt_iff_toNat_lt, hadd, hmul]
    have hmax : maxUint64.toNat = 2 ^ 64 - 1 := rfl
    omega

/-- Reading one digit `d` after `n`, ahead of the digits `ds`: `n` followed by `d :: ds` is
worth `n * 16 + d` followed by `ds`, which is at least `n * 16 + d`. -/
theorem horner_cons (n d : Nat) (ds : List Nat) :
    n * 16 ^ (d :: ds).length + Nat.ofDigits 16 (d :: ds).reverse =
        (n * 16 + d) * 16 ^ ds.length + Nat.ofDigits 16 ds.reverse ∧
      n * 16 + d ≤ (n * 16 + d) * 16 ^ ds.length + Nat.ofDigits 16 ds.reverse := by
  refine ⟨?_, ?_⟩
  · rw [List.length_cons, Nat.ofDigits_reverse_cons, pow_succ]
    ring
  · have hpow : 0 < 16 ^ ds.length := Nat.pow_pos (by norm_num)
    have := Nat.le_mul_of_pos_right (n * 16 + d) hpow
    omega

/-- **`ParseUint` in base `16` reads a digit string** whose value, appended to `n`, fits in
64 bits, as that value. -/
theorem parseUintLoop_digits :
    ∀ (ds : List Nat) (n : UInt64), (∀ d ∈ ds, d < 16) →
      n.toNat * 16 ^ ds.length + Nat.ofDigits 16 ds.reverse < 2 ^ 64 →
      parseUintLoop 16 (maxUint64 / UInt64.ofNat 16 + 1) maxUint64 (ds.map digitByte) n =
        .ok (UInt64.ofNat (n.toNat * 16 ^ ds.length + Nat.ofDigits 16 ds.reverse))
  | [], n, _, _ => by simp [parseUintLoop]
  | d :: ds, n, hds, hfit => by
    have hd := hds d List.mem_cons_self
    obtain ⟨hval, hle⟩ := horner_cons n.toNat d ds
    -- `n` then `d` is worth no more than the whole string
    have hstep : n.toNat * 16 + d < 2 ^ 64 := by omega
    have hn1 : (UInt64.ofNat (n.toNat * 16 + d)).toNat = n.toNat * 16 + d := by
      rw [UInt64.toNat_ofNat']
      omega
    rw [List.map_cons, parseUintLoop_cons hd _ hstep,
      parseUintLoop_digits ds _ (fun e he => hds e (List.mem_cons_of_mem d he))
        (by rw [hn1]; omega), hn1, hval]

/-! ### Base `16` -/

/-- The digits of `u` in base `16`, most significant first: those of `Nat.digits` reversed, and
the one digit `0` for zero. -/
def hexDigits (u : Nat) : List Nat := if u = 0 then [0] else (Nat.digits 16 u).reverse

/-- The digits `formatBits` writes in base `16`. -/
theorem formatBits_sixteen (u : Nat) : formatBits u 16 = (hexDigits u).map digitByte := by
  unfold hexDigits
  by_cases hu : u = 0
  · subst hu
    rw [if_pos rfl, formatBits, formatBitsLoop_zero (by norm_num)]
    rfl
  · rw [if_neg hu, formatBits_eq_digits (by norm_num) (Nat.pos_of_ne_zero hu), List.map_reverse]

theorem hexDigits_lt {u : Nat} : ∀ d ∈ hexDigits u, d < 16 := by
  intro d hd
  unfold hexDigits at hd
  split at hd
  · simp only [List.mem_singleton] at hd
    omega
  · exact Nat.digits_lt_base (by norm_num) (List.mem_reverse.mp hd)

theorem ofDigits_hexDigits (u : Nat) : Nat.ofDigits 16 (hexDigits u).reverse = u := by
  unfold hexDigits
  split
  · rename_i h0
    rw [h0]
    rfl
  · rw [List.reverse_reverse, Nat.ofDigits_digits]

theorem hexDigits_ne_nil (u : Nat) : hexDigits u ≠ [] := by
  unfold hexDigits
  split
  · simp
  · rename_i h0
    simpa [Nat.digits_eq_nil_iff_eq_zero] using h0

/-- No leading zero: the first digit of a string of more than one is the last of `Nat.digits`,
which is not `0`. -/
theorem hexDigits_head {u : Nat} (h : 1 < (hexDigits u).length) : (hexDigits u).head? ≠ some 0 := by
  unfold hexDigits at h ⊢
  by_cases h0 : u = 0
  · simp [h0] at h
  · rw [if_neg h0]
    have hne : Nat.digits 16 u ≠ [] := by simpa [Nat.digits_eq_nil_iff_eq_zero] using h0
    rw [List.head?_reverse, List.getLast?_eq_some_getLast hne, ne_eq, Option.some_inj]
    exact Nat.getLast_digit_ne_zero 16 h0

/-- A number below `16 ^ k` has at most `k` digits, `0` included when `0 < k`. -/
theorem hexDigits_length_le {u k : Nat} (hk : 0 < k) (hu : u < 16 ^ k) :
    (hexDigits u).length ≤ k := by
  unfold hexDigits
  split
  · exact hk
  · rw [List.length_reverse]
    exact (Nat.digits_length_le_iff (by norm_num) u).mpr hu

/-- **`ParseUint` reads back what `AppendUint` writes**, in base `16`. -/
theorem parseUint_formatBits (m : UInt64) : parseUint (formatBits m.toNat 16) 16 = .ok m := by
  have hds := formatBits_sixteen m.toNat
  have hval := ofDigits_hexDigits m.toNat
  have hne : formatBits m.toNat 16 ≠ [] := by
    rw [hds]
    simpa using hexDigits_ne_nil m.toNat
  rw [parseUint, if_neg hne, hds,
    parseUintLoop_digits _ 0 (fun d hd => hexDigits_lt d hd) (by simpa [hval] using m.toNat_lt)]
  simp [hval]

end GoStrconv
