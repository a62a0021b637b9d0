import Dsplinz.Rlp.RoundTrip

/-!
# Integers in RLP

RLP has no integer type: a non-negative integer is the string of its big-endian bytes
with no leading zero, so that zero is the empty string (`Rlp.encodeNat`). Its encoding as
an item is then one byte for `1` to `127`, `0x80` for zero, and a short string header
before the bytes otherwise. The writers of `rlp/encode.go` produce exactly that, and the
readers of `rlp/decode.go` accept exactly that:

* `Rlp.contents_writeUint` and `Rlp.contents_writeBigInt`: `writeUint` and `writeBigInt`
  write `encodeNat`;
* `Rlp.Stream.run_uint`: `Stream.uint maxbits` reads back every `n < 2 ^ maxbits` from its
  encoding, and `Rlp.Stream.uint_ok`: whatever it returns was read from such an
  encoding, for the widths `maxbits` of Go's unsigned integer types;
* `Rlp.run_decodeBigInt` and `Rlp.decodeBigInt_ok`: the same for `decodeBigInt` and the
  non-negative integers, which rejects every string with a leading zero byte.
-/

namespace Rlp

open BigEndian ExceptState Rlp.Stream Encbuf

/-! ### The canonical encoding of an integer -/

/-- The encoding of a non-negative integer: the string of its big-endian bytes without
leading zeros. -/
def encodeNat (n : Nat) : List UInt8 := (Item.bytes (bigBytes n)).encode

@[simp] theorem bigBytes_zero : bigBytes 0 = [] := rfl

theorem bigBytes_of_pos {n : Nat} (hn : n ≠ 0) : bigBytes n = lowBytes n (byteLen n) := by
  rw [bigBytes, if_neg hn]

theorem value_bigBytes (n : Nat) : value (bigBytes n) = n := by
  by_cases hn : n = 0
  · rw [hn, bigBytes_zero, value_nil]
  · rw [bigBytes_of_pos hn, value_lowBytes, Nat.mod_eq_of_lt (lt_pow_byteLen n)]

theorem length_bigBytes {n : Nat} (hn : n ≠ 0) : (bigBytes n).length = byteLen n := by
  rw [bigBytes_of_pos hn, length_lowBytes]

/-- **The bytes of an integer have no leading zero.** -/
theorem head_bigBytes (n : Nat) : (bigBytes n).head? ≠ some 0 := by
  by_cases hn : n = 0
  · simp [hn]
  rw [bigBytes_of_pos hn]
  rcases Nat.lt_or_ge n 256 with hsmall | hbig
  · -- a single byte, which is `n` itself
    rw [byteLen_of_lt hsmall, lowBytes_succ, lowBytes_zero, List.head?_cons, ne_eq,
      Option.some.injEq]
    intro h0
    have h1 := congrArg UInt8.toNat h0
    rw [toNat_ofNat_byte, Nat.pow_zero, Nat.div_one, Nat.mod_eq_of_lt hsmall] at h1
    exact hn h1
  · obtain ⟨b, bs, hlow, hb⟩ := head_lowBytes_byteLen hbig
    rw [hlow, List.head?_cons, ne_eq, Option.some.injEq]
    exact hb

/-- **A string with no leading zero is the bytes of its value.** -/
theorem bigBytes_value {b : List UInt8} (hb : b.head? ≠ some 0) : bigBytes (value b) = b := by
  cases b with
  | nil => rfl
  | cons c cs =>
    have hc : c ≠ 0 := fun h => hb (by rw [h]; rfl)
    have hlen : byteLen (value (c :: cs)) = cs.length + 1 := byteLen_value hc
    -- a nonzero first byte makes the value at least `256 ^ cs.length`
    have hpos : value (c :: cs) ≠ 0 := by
      have hc1 : 1 ≤ c.toNat :=
        Nat.one_le_iff_ne_zero.mpr fun h => hc (UInt8.toNat_inj.mp (by simpa using h))
      have hpow : 1 ≤ 256 ^ cs.length := Nat.one_le_pow _ _ (by norm_num)
      have := Nat.mul_le_mul hc1 hpow
      rw [value_cons]
      omega
    rw [bigBytes_of_pos hpos, hlen, ← List.length_cons, lowBytes_value]

/-- Zero is the empty string, `0x80`. -/
theorem encodeNat_zero : encodeNat 0 = tagBytes .string 0 0 := by
  rfl

/-- An integer from `1` to `127` is its own byte. -/
theorem encodeNat_of_lt {n : Nat} (hn : n ≠ 0) (h128 : n < 128) :
    encodeNat n = tagBytes .byte 0 (UInt8.ofNat n) := by
  have hlow : bigBytes n = [UInt8.ofNat n] := by
    rw [bigBytes_of_pos hn, byteLen_of_lt (by omega), lowBytes_succ, lowBytes_zero,
      Nat.pow_zero, Nat.div_one]
  have hbyte : UInt8.ofNat n < 0x80 := by
    rw [UInt8.lt_iff_toNat_lt, toNat_ofNat_byte, Nat.mod_eq_of_lt (by omega)]
    simpa using h128
  rw [encodeNat, encode_bytes, hlow, if_pos ⟨rfl, hbyte⟩]
  rfl

/-- An integer from `128` on is its bytes after a string header. -/
theorem encodeNat_of_ge {n : Nat} (h128 : 128 ≤ n) :
    encodeNat n = tagBytes .string (byteLen n) 0 ++ lowBytes n (byteLen n) := by
  have hn : n ≠ 0 := by omega
  have hsingle : ¬ ((bigBytes n).length = 1 ∧ (bigBytes n).headD 0 < 0x80) := by
    rintro ⟨h1, hlt⟩
    rw [length_bigBytes hn] at h1
    rw [bigBytes_of_pos hn, h1, lowBytes_succ, lowBytes_zero, Nat.pow_zero, Nat.div_one,
      List.headD_cons, UInt8.lt_iff_toNat_lt, toNat_ofNat_byte] at hlt
    have hsmall : n < 256 := by
      have := lt_pow_byteLen n
      rwa [h1, Nat.pow_one] at this
    rw [Nat.mod_eq_of_lt hsmall] at hlt
    simp only [UInt8.reduceToNat] at hlt
    omega
  rw [encodeNat, encode_bytes, if_neg hsingle, length_bigBytes hn, bigBytes_of_pos hn]
  rfl

/-- An integer below `2 ^ 64` takes at most nine bytes. -/
theorem length_encodeNat_le {n : Nat} (h : n < 2 ^ 64) : (encodeNat n).length ≤ 9 := by
  rcases Nat.lt_or_ge n 128 with h128 | h128
  · by_cases h0 : n = 0
    · subst h0
      rw [encodeNat_zero]
      decide
    · rw [encodeNat_of_lt h0 h128]
      simp [tagBytes]
  · -- a header byte, then at most eight bytes
    have hlen : byteLen n ≤ 8 := byteLen_le (by norm_num) (lt_of_lt_of_eq h (by norm_num))
    rw [encodeNat_of_ge h128, List.length_append, length_lowBytes]
    simp only [tagBytes, length_header, headerLen, if_pos (by omega : byteLen n < 56)]
    omega

/-! ### Writing integers -/

/-- **`writeUint` writes the encoding of its integer.** -/
theorem contents_writeUint (i : UInt64) : (writeUint reset i).contents = encodeNat i.toNat := by
  unfold writeUint
  split_ifs with h0 h128
  · rw [contents_append_reset, h0]
    rfl
  · have hpos : i.toNat ≠ 0 := fun h => h0 (UInt64.toNat_inj.mp h)
    have hlt : i.toNat < 128 := UInt64.lt_iff_toNat_lt.mp h128
    rw [contents_append_reset, encodeNat_of_lt hpos hlt, toUInt8_eq]
    rfl
  · have hge : 128 ≤ i.toNat := by
      have := UInt64.le_iff_toNat_le.mp (UInt64.not_lt.mp h128)
      simpa using this
    have h8 : byteLen i.toNat ≤ 8 := byteLen_le_eight i.toNat_lt
    rw [contents_append_reset, encodeNat_of_ge hge, length_putint, intsize_eq, putint_eq]
    simp only [tagBytes, header, if_pos (by omega : byteLen i.toNat < 56)]
    rfl

/-- An unsigned integer is written as the string item of its big-endian bytes. -/
theorem writesAs_uint (i : UInt64) : WritesAs (.uint i) (.bytes (bigBytes i.toNat)) := by
  obtain ⟨b, hb⟩ : ∃ b, writeUint reset i = reset.append b := by
    unfold writeUint
    split_ifs <;> exact ⟨_, rfl⟩
  have hc := contents_writeUint i
  rw [hb, contents_append_reset] at hc
  apply writesAs_of_append
  rw [← encodeNat, ← hc, ← hb]
  rfl

/-- **`writeBigInt` writes the encoding of a non-negative integer**, whose encoding fits a
`uint64`. -/
theorem contents_writeBigInt {x : Int} (hx : 0 ≤ x) (hlen : (encodeNat x.toNat).length < 2 ^ 64) :
    ∃ w, writeBigInt reset x = .ok w ∧ w.contents = encodeNat x.toNat := by
  unfold writeBigInt
  rw [if_neg (by omega)]
  split_ifs with h0
  · refine ⟨_, rfl, ?_⟩
    rw [contents_append_reset, h0]
    rfl
  · have hblen : (bigBytes x.toNat).length < 2 ^ 64 := by
      rw [encodeNat, encode_bytes] at hlen
      split_ifs at hlen
      · exact hlen
      · rw [List.length_append] at hlen
        omega
    exact ⟨_, rfl, contents_encodeString hblen⟩

/-! ### Reading integers with `Stream.uint` -/

namespace Stream

/-- A width of whole bytes: `2 ^ maxbits` is `256` to the number of its bytes. -/
theorem two_pow_width {maxbits : Nat} (hdvd : 8 ∣ maxbits) : 2 ^ maxbits = 256 ^ (maxbits / 8) := by
  obtain ⟨q, rfl⟩ := hdvd
  rw [Nat.mul_div_cancel_left q (by norm_num), Nat.pow_mul]

/-- A size no larger than the bytes of the width passes the overflow check of `uint`. -/
theorem not_size_gt_width {maxbits L : Nat} (hL : L ≤ maxbits / 8) (hhi : maxbits ≤ 64) :
    ¬ UInt64.ofNat L > UInt64.ofNat (maxbits / 8) := by
  have hL8 : L < 2 ^ 64 := lt_of_le_of_lt (show L ≤ 8 by omega) (by decide)
  have hq8 : maxbits / 8 < 2 ^ 64 := lt_of_le_of_lt (show maxbits / 8 ≤ 8 by omega) (by decide)
  rw [gt_iff_lt, UInt64.lt_iff_toNat_lt, UInt64.toNat_ofNat_of_lt' hL8, UInt64.toNat_ofNat_of_lt' hq8]
  omega

/-- `uint` reads zero from the empty string. -/
theorem run_uint_zero {maxbits : Nat} {s : Stream} {rest : List UInt8}
    (hk : s.kind = none) (hin : s.input = encodeNat 0 ++ rest) (hfit : Fits s (encodeNat 0).length) :
    ∃ s', run (uint maxbits) s = (.ok 0, s') ∧ Moved s s' (encodeNat 0) ∧ s'.kind = none := by
  rw [encodeNat_zero] at hin hfit ⊢
  obtain ⟨s₁, hK, hm, -, -, -, -⟩ :=
    run_Kind_value (k := .string) (n := 0) hk (by simp) (by norm_num) hin (by rwa [Nat.add_zero])
  refine ⟨{ s₁ with kind := none }, ?_, hm.congr rfl rfl rfl rfl, rfl⟩
  rw [uint, run_bind_ok hK]
  simp [run_readUint_zero, run_bind]

/-- `uint` reads an integer from `1` to `127` from its own byte. -/
theorem run_uint_byte {maxbits : Nat} {s : Stream} {n : Nat} {rest : List UInt8} (h0 : n ≠ 0)
    (h128 : n < 128) (hk : s.kind = none) (hin : s.input = encodeNat n ++ rest)
    (hfit : Fits s (encodeNat n).length) :
    ∃ s', run (uint maxbits) s = (.ok (UInt64.ofNat n), s') ∧ Moved s s' (encodeNat n) ∧
      s'.kind = none := by
  have hbyte : (UInt8.ofNat n).toNat = n := by
    rw [toNat_ofNat_byte, Nat.mod_eq_of_lt (by omega)]
  have hb : UInt8.ofNat n < 0x80 := by
    rw [UInt8.lt_iff_toNat_lt, hbyte]
    simpa using h128
  have hne : UInt8.ofNat n ≠ 0 := fun h => h0 (by rw [← hbyte, h]; rfl)
  have hval : (UInt8.ofNat n).toUInt64 = UInt64.ofNat n := by
    apply UInt64.toNat_inj.mp
    rw [UInt8.toNat_toUInt64, hbyte, UInt64.toNat_ofNat_of_lt' (lt_trans h128 (by decide))]
  rw [encodeNat_of_lt h0 h128] at hin hfit ⊢
  obtain ⟨s₁, hK, hm, -, -, -, hbv⟩ :=
    run_Kind_value (k := .byte) (n := 0) hk (fun _ => ⟨hb, rfl⟩) (by decide) hin
      (by rwa [Nat.add_zero])
  refine ⟨{ s₁ with kind := none }, ?_, hm.congr rfl rfl rfl rfl, rfl⟩
  rw [uint, run_bind_ok hK]
  simp [hbv rfl, hne, hval, rearm, run_bind]

/-- `uint` reads an integer from `128` on from its bytes after a string header, when they
are no more than the bytes of the width. -/
theorem run_uint_string {maxbits : Nat} {s : Stream} {n : Nat} {rest : List UInt8}
    (hhi : maxbits ≤ 64) (h128 : 128 ≤ n) (hwidth : byteLen n ≤ maxbits / 8)
    (hk : s.kind = none) (hin : s.input = encodeNat n ++ rest)
    (hfit : Fits s (encodeNat n).length) :
    ∃ s', run (uint maxbits) s = (.ok (UInt64.ofNat n), s') ∧ Moved s s' (encodeNat n) ∧
      s'.kind = none := by
  have h8 : byteLen n ≤ 8 := by omega
  have hn : n < 2 ^ 64 :=
    calc n < 256 ^ byteLen n := lt_pow_byteLen n
      _ ≤ 256 ^ 8 := Nat.pow_le_pow_right (by norm_num) h8
      _ = 2 ^ 64 := by norm_num
  have hL : byteLen n < 2 ^ 64 := lt_of_le_of_lt h8 (by decide)
  rw [encodeNat_of_ge h128] at hin hfit ⊢
  have hin' : s.input = tagBytes .string (byteLen n) 0 ++ (lowBytes n (byteLen n) ++ rest) := by
    rw [hin, List.append_assoc]
  have hfit' : Fits s ((tagBytes .string (byteLen n) 0).length + byteLen n) := by
    rwa [List.length_append, length_lowBytes] at hfit
  obtain ⟨s₁, hK, hm, -, -, -, -⟩ := run_Kind_value (k := .string) hk (by simp) hL hin' hfit'
  -- the bytes follow the header, and `readUint` reads them
  have hin₁ : s₁.input = lowBytes n (byteLen n) ++ rest := by
    rw [hm.input] at hin'
    exact List.append_cancel_left hin'
  obtain ⟨s₂, hread, hm₂, hk₂⟩ := run_readUint_size hn hin₁ (hm.fits_rest hfit')
  have hsize : (UInt64.ofNat (byteLen n)).toUInt8 = UInt8.ofNat (byteLen n) := by
    rw [toUInt8_eq, UInt64.toNat_ofNat_of_lt' hL]
  have hcanon : ¬ (UInt64.ofNat (byteLen n) > 0 ∧ UInt64.ofNat n < 128) := by
    rintro ⟨-, hlt⟩
    rw [UInt64.lt_iff_toNat_lt, UInt64.toNat_ofNat_of_lt' hn] at hlt
    simp only [UInt64.reduceToNat] at hlt
    omega
  refine ⟨s₂, ?_, hm.trans hm₂, hk₂⟩
  rw [uint, run_bind_ok hK]
  dsimp only
  rw [if_neg (not_size_gt_width hwidth hhi), hsize, run_bind, run_attempt, hread]
  simp [hcanon]

/-- **`uint` reads back every integer below `2 ^ maxbits` from its encoding**, for a width
of one to eight whole bytes. -/
theorem run_uint {maxbits : Nat} {s : Stream} {n : Nat} {rest : List UInt8} (hlo : 8 ≤ maxbits)
    (hhi : maxbits ≤ 64) (hdvd : 8 ∣ maxbits) (hn : n < 2 ^ maxbits) (hk : s.kind = none)
    (hin : s.input = encodeNat n ++ rest) (hfit : Fits s (encodeNat n).length) :
    ∃ s', run (uint maxbits) s = (.ok (UInt64.ofNat n), s') ∧ Moved s s' (encodeNat n) ∧
      s'.kind = none := by
  rcases Nat.lt_or_ge n 128 with h128 | h128
  · by_cases h0 : n = 0
    · subst h0
      exact run_uint_zero hk hin hfit
    · exact run_uint_byte h0 h128 hk hin hfit
  · -- the bytes of `n` fit the width
    have hwidth : byteLen n ≤ maxbits / 8 :=
      byteLen_le (by omega) (lt_of_lt_of_eq hn (two_pow_width hdvd))
    exact run_uint_string hhi h128 hwidth hk hin hfit

/-- **What `uint` returns was read from its encoding**, and is below `2 ^ maxbits`, for a
width of one to eight whole bytes: `uint` rejects every other input. -/
theorem uint_ok {maxbits : Nat} {s s' : Stream} {v : UInt64} (hlo : 8 ≤ maxbits)
    (hhi : maxbits ≤ 64) (hdvd : 8 ∣ maxbits) (hk : s.kind = none) (htop : TopOk s)
    (h : run (uint maxbits) s = (.ok v, s')) :
    v.toNat < 2 ^ maxbits ∧ Moved s s' (encodeNat v.toNat) := by
  have hwidth : 2 ^ maxbits = 256 ^ (maxbits / 8) := two_pow_width hdvd
  rw [uint, run_bind] at h
  rcases hK : run Stream.Kind s with ⟨_ | ⟨k, size⟩, s₁⟩ <;> rw [hK] at h
  · cases h
  obtain ⟨hmK, -, -, -, -, hbyte⟩ := Kind_fresh_moved hk htop hK
  dsimp only at h
  cases k with
  | list => simp at h
  | byte =>
    -- a single byte, which must not be zero
    obtain ⟨hb, rfl⟩ := hbyte rfl
    by_cases hz : s₁.byteval = 0
    · simp [run_bind, hz] at h
    simp [run_bind, hz, rearm] at h
    obtain ⟨rfl, rfl⟩ := h
    have hlt : s₁.byteval.toNat < 128 := by simpa [UInt8.lt_iff_toNat_lt] using hb
    have hne : s₁.byteval.toNat ≠ 0 := fun h0 => hz (UInt8.toNat_inj.mp (by simpa using h0))
    have h128 : 128 ≤ 2 ^ maxbits :=
      calc 128 ≤ 2 ^ 8 := by decide
        _ ≤ 2 ^ maxbits := Nat.pow_le_pow_right (by norm_num) hlo
    rw [UInt8.toNat_toUInt64, encodeNat_of_lt hne hlt, UInt8.ofNat_toNat]
    exact ⟨by omega, hmK.congr rfl rfl rfl rfl⟩
  | string =>
    by_cases hover : size > UInt64.ofNat (maxbits / 8)
    · simp [hover] at h
    rw [if_neg hover, run_bind, run_attempt] at h
    rcases hru : run (readUint size.toUInt8) s₁ with ⟨_ | w, s₂⟩ <;> rw [hru] at h
    · -- an error of `readUint` is passed on
      dsimp only at h
      split at h
      · simp at h
      · simp at h
      · rename_i heq
        cases heq
    by_cases hcanon : size > 0 ∧ w < 128
    · simp [hcanon] at h
    simp [hcanon] at h
    obtain ⟨rfl, rfl⟩ := h
    have hq : size.toNat ≤ maxbits / 8 := by
      have hq8 : maxbits / 8 < 2 ^ 64 := lt_of_le_of_lt (show maxbits / 8 ≤ 8 by omega) (by decide)
      rw [gt_iff_lt, UInt64.lt_iff_toNat_lt, UInt64.toNat_ofNat_of_lt' hq8] at hover
      omega
    by_cases h0 : size = 0
    · -- the empty string: zero
      subst h0
      rw [show (0 : UInt64).toUInt8 = 0 from rfl, run_readUint_zero] at hru
      simp only [Prod.mk.injEq, Except.ok.injEq] at hru
      obtain ⟨rfl, rfl⟩ := hru
      refine ⟨Nat.two_pow_pos _, ?_⟩
      rw [UInt64.toNat_zero, encodeNat_zero]
      exact hmK.congr rfl rfl rfl rfl
    · -- one to eight bytes, the first of them not zero
      have hsize : size.toUInt8.toNat = size.toNat := by
        rw [UInt64.toNat_toUInt8, Nat.mod_eq_of_lt (by omega)]
      have h8 : size.toUInt8 ≤ 8 := by
        rw [UInt8.le_iff_toNat_le, hsize]
        simp only [UInt8.reduceToNat]
        omega
      have hne : size.toUInt8 ≠ 0 := by
        intro hz
        have := congrArg UInt8.toNat hz
        rw [hsize, UInt8.toNat_zero] at this
        exact h0 (UInt64.toNat_inj.mp this)
      obtain ⟨hm₂, hlen⟩ := readUint_ok h8 hmK.topOk hru hne
      have hge : 128 ≤ w.toNat := by
        have hpos : size > 0 := by
          rw [gt_iff_lt, UInt64.lt_iff_toNat_lt]
          have : size.toNat ≠ 0 := fun hz => h0 (UInt64.toNat_inj.mp hz)
          simp only [UInt64.reduceToNat]
          omega
        have : ¬ w < 128 := fun hw => hcanon ⟨hpos, hw⟩
        rw [UInt64.lt_iff_toNat_lt] at this
        simpa using this
      have htag : tagBytes .string (byteLen w.toNat) 0 = tagBytes .string size.toNat s₁.byteval := by
        rw [hlen, hsize]
        rfl
      refine ⟨?_, ?_⟩
      · -- no more bytes than the width has
        calc w.toNat < 256 ^ byteLen w.toNat := lt_pow_byteLen _
          _ = 256 ^ size.toNat := by rw [hlen, hsize]
          _ ≤ 256 ^ (maxbits / 8) := Nat.pow_le_pow_right (by norm_num) hq
          _ = 2 ^ maxbits := hwidth.symm
      · rw [encodeNat_of_ge hge, htag]
        exact hmK.trans hm₂

/-- `uint` succeeds exactly on the encodings of the integers below `2 ^ maxbits` that fit
the stream. -/
theorem uint_succeeds_iff {maxbits : Nat} {s : Stream} (hlo : 8 ≤ maxbits) (hhi : maxbits ≤ 64)
    (hdvd : 8 ∣ maxbits) (hk : s.kind = none) (htop : TopOk s) :
    (∃ v s', run (uint maxbits) s = (.ok v, s')) ↔
      ∃ n < 2 ^ maxbits, ∃ rest, s.input = encodeNat n ++ rest ∧ Fits s (encodeNat n).length := by
  constructor
  · rintro ⟨v, s', h⟩
    obtain ⟨hlt, hm⟩ := uint_ok hlo hhi hdvd hk htop h
    exact ⟨v.toNat, hlt, s'.input, hm.input, hm.fits⟩
  · rintro ⟨n, hn, rest, hin, hfit⟩
    obtain ⟨s', h, -, -⟩ := run_uint hlo hhi hdvd hn hk hin hfit
    exact ⟨_, s', h⟩

end Stream

/-! ### Reading big integers with `decodeBigInt` -/

/-- **`decodeBigInt` reads back every non-negative integer from its encoding**, from a
stream with nothing cached where the encoding fits. -/
theorem run_decodeBigInt {s : Stream} {x : Int} {rest : List UInt8} (hx : 0 ≤ x)
    (hlen : (encodeNat x.toNat).length < 2 ^ 64) (hk : s.kind = none)
    (hin : s.input = encodeNat x.toNat ++ rest) (hfit : Fits s (encodeNat x.toNat).length) :
    ∃ s', run decodeBigInt s = (.ok x, s') ∧ Moved s s' (encodeNat x.toNat) := by
  obtain ⟨s', hbytes, hm, -⟩ := run_bytes_encode hlen hk hin hfit
  -- the bytes of an integer pass the leading-zero check
  have hlead : ¬ ((bigBytes x.toNat).length > 0 ∧ (bigBytes x.toNat).headD 0 = 0) := by
    rintro ⟨hpos, h0⟩
    obtain ⟨c, cs, hc⟩ := List.exists_cons_of_length_pos hpos
    apply head_bigBytes x.toNat
    rw [hc] at h0 ⊢
    rw [List.headD_cons] at h0
    rw [h0]
    rfl
  refine ⟨s', ?_, hm⟩
  rw [decodeBigInt, run_bind_ok hbytes, if_neg hlead, run_pure, value_bigBytes,
    Int.toNat_of_nonneg hx]

/-- **What `decodeBigInt` accepts is a string with no leading zero byte**, read from its
encoding; it returns the string's value, of which the string is the bytes. -/
theorem decodeBigInt_ok {s s' : Stream} {v : Int} (hk : s.kind = none) (htop : TopOk s)
    (h : run decodeBigInt s = (.ok v, s')) :
    ∃ b, b.head? ≠ some 0 ∧ Moved s s' (Item.bytes b).encode ∧ v = value b ∧
      b = bigBytes v.toNat := by
  rw [decodeBigInt, run_bind] at h
  rcases hb : run bytes s with ⟨_ | b, s₁⟩ <;> rw [hb] at h
  · cases h
  by_cases hlead : b.length > 0 ∧ b.headD 0 = 0
  · simp only [run_bind, if_pos hlead, run_throw] at h
    cases h
  simp only [if_neg hlead, run_pure, Prod.mk.injEq, Except.ok.injEq] at h
  obtain ⟨rfl, rfl⟩ := h
  -- a string that passes the check has no leading zero
  have hhead : b.head? ≠ some 0 := by
    cases b with
    | nil => simp
    | cons c cs =>
      intro hc
      exact hlead ⟨by simp, by simpa using hc⟩
  refine ⟨b, hhead, (bytes_ok hk htop hb).1, rfl, ?_⟩
  rw [Int.toNat_natCast, bigBytes_value hhead]

/-! ### The integer codec -/

/-- **The integer codec reads back what it writes, and nothing else.** `Uint` (`uint 64`)
reads back what `writeUint` writes; `uint maxbits` succeeds exactly on the encodings of the
integers below `2 ^ maxbits`, and returns them; `decodeBigInt` reads back what `writeBigInt`
writes of a non-negative integer, and accepts only strings with no leading zero byte. -/
theorem integer_codec_exact :
    (∀ (i : UInt64) (s : Stream) (rest : List UInt8), s.kind = none →
      s.input = (writeUint reset i).contents ++ rest → Fits s (writeUint reset i).contents.length →
      ∃ s', run (Stream.uint 64) s = (.ok i, s') ∧ Moved s s' (writeUint reset i).contents) ∧
    (∀ maxbits ∈ [8, 16, 32, 64], ∀ s : Stream, s.kind = none → TopOk s →
      ((∃ v s', run (Stream.uint maxbits) s = (.ok v, s')) ↔
        ∃ n < 2 ^ maxbits, ∃ rest, s.input = encodeNat n ++ rest ∧ Fits s (encodeNat n).length) ∧
      ∀ (n : Nat) (rest : List UInt8), n < 2 ^ maxbits → s.input = encodeNat n ++ rest →
        Fits s (encodeNat n).length →
        ∃ s', run (Stream.uint maxbits) s = (.ok (UInt64.ofNat n), s') ∧
          Moved s s' (encodeNat n)) ∧
    (∀ x : Int, 0 ≤ x → (encodeNat x.toNat).length < 2 ^ 64 →
      ∃ w, writeBigInt reset x = .ok w ∧ ∀ (s : Stream) (rest : List UInt8), s.kind = none →
        s.input = w.contents ++ rest → Fits s w.contents.length →
        ∃ s', run decodeBigInt s = (.ok x, s') ∧ Moved s s' w.contents) ∧
    (∀ (s s' : Stream) (v : Int), s.kind = none → TopOk s → run decodeBigInt s = (.ok v, s') →
      ∃ b, b.head? ≠ some 0 ∧ Moved s s' (Item.bytes b).encode ∧ v = value b) := by
  refine ⟨?_, ?_, ?_, ?_⟩
  · -- `Uint` on what `writeUint` wrote
    intro i s rest hk hin hfit
    rw [contents_writeUint] at hin hfit ⊢
    obtain ⟨s', h, hm, -⟩ := run_uint (by decide) le_rfl (by decide) i.toNat_lt hk hin hfit
    rw [UInt64.ofNat_toNat] at h
    exact ⟨s', h, hm⟩
  · -- the widths of Go's unsigned integer types are whole bytes, one to eight
    intro maxbits hmem s hk htop
    have hw : 8 ≤ maxbits ∧ maxbits ≤ 64 ∧ 8 ∣ maxbits := by
      simp only [List.mem_cons, List.not_mem_nil, or_false] at hmem
      rcases hmem with rfl | rfl | rfl | rfl <;> decide
    obtain ⟨hlo, hhi, hdvd⟩ := hw
    exact ⟨uint_succeeds_iff hlo hhi hdvd hk htop,
      fun n rest hn hin hfit => (run_uint hlo hhi hdvd hn hk hin hfit).imp fun _ h => ⟨h.1, h.2.1⟩⟩
  · -- `decodeBigInt` on what `writeBigInt` wrote
    intro x hx hlen
    obtain ⟨w, hw, hcont⟩ := contents_writeBigInt hx hlen
    refine ⟨w, hw, fun s rest hk hin hfit => ?_⟩
    rw [hcont] at hin hfit ⊢
    exact run_decodeBigInt hx hlen hk hin hfit
  · intro s s' v hk htop h
    obtain ⟨b, hhead, hm, hv, -⟩ := decodeBigInt_ok hk htop h
    exact ⟨b, hhead, hm, hv⟩

/-- `Uint` reads `1024` back from the three bytes `writeUint` writes for it. -/
theorem integer_codec_exact_at_1024 :
    ∃ s', run (Stream.uint 64) (newStream [0x82, 0x04, 0x00] true 0) = (.ok 1024, s') ∧
      Moved (newStream [0x82, 0x04, 0x00] true 0) s' (writeUint reset 1024).contents :=
  integer_codec_exact.1 1024 _ [] rfl (by decide)
    ⟨fun _ htos => by simp [newStream] at htos, fun _ => by decide⟩

end Rlp
