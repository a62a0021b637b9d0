import Dsplinz.Rlp.Raw
import Dsplinz.Rlp.Integers
import Dsplinz.Rlp.RoundTrip

/-!
# `Split` agrees with the stream

The header grammar of `rlp/raw.go` (`Rlp.readKind`, `Rlp.readSize`) and that of the
stream (`Stream.Kind`) are two programs; this file shows that they cut a slice at the same
place. Both are related to one description of an encoded value, `Rlp.Framed`: a canonical
header `Rlp.Stream.tagBytes` of a kind and a size, then that many bytes of contents.

| reader | on a framed value | what it accepted is framed |
|---|---|---|
| `readKind`, `Split` | `Rlp.readKind_framed`, `Rlp.split_framed` | `Rlp.readKind_ok`, `Rlp.split_ok` |
| `Stream.Kind` | `Rlp.Stream.run_Kind_value` | `Rlp.Stream.Kind_top_ok` |
| `Stream.Raw` | `Rlp.Stream.run_raw_framed` | |
| `CountValues` | `Rlp.countValuesLoop_items` | `Rlp.countValuesLoop_ok` |

The only difference in what they accept is the string of one byte below `0x80`, which
`Split` rejects and `Kind` reads (`Bytes` rejects it later): `Rlp.split_ok_iff_Kind`. Over a
stream limited to the slice, `Raw` returns what `Split` cut off (`Rlp.run_raw_of_split`), and
`CountValues` counts the values `Split` takes whole (`Rlp.countValues_iff`).
-/

namespace Rlp

open BigEndian ExceptState GoSlice

/-! ### Size fields -/

/-- What `readSize` accepts: a size of at least 56 in its shortest big-endian form, of
`slen` bytes. -/
theorem readSize_ok {b : List UInt8} {slen : UInt8} {s : UInt64} (h : readSize b slen = .ok s) :
    ¬ s.toNat < 56 ∧ byteLen s.toNat = slen.toNat ∧
      b = lowBytes s.toNat slen.toNat ++ b.drop slen.toNat := by
  unfold readSize at h
  by_cases hlen : slen.toNat > b.length
  · rw [if_pos hlen] at h
    cases h
  rw [if_neg hlen] at h
  by_cases hr : 1 ≤ slen ∧ slen ≤ 8
  swap
  · -- no size is read, and zero is rejected
    simp [hr] at h
  simp only [if_pos hr] at h
  by_cases hc : UInt64.ofNat (value (b.take slen.toNat)) < 56 ∨ b.headD 0 = 0
  · rw [if_pos hc] at h
    cases h
  rw [if_neg hc] at h
  cases h
  have hr8 : 1 ≤ slen.toNat ∧ slen.toNat ≤ 8 := by
    rw [UInt8.le_iff_toNat_le, UInt8.le_iff_toNat_le] at hr
    simpa using hr
  -- the bytes read, the first of them not zero
  obtain ⟨c, cs, htake⟩ : ∃ c cs, b.take slen.toNat = c :: cs := by
    cases hb : b.take slen.toNat with
    | nil =>
      have := congrArg List.length hb
      rw [List.length_take, List.length_nil] at this
      omega
    | cons c cs => exact ⟨c, cs, rfl⟩
  have hsplit : b = c :: cs ++ b.drop slen.toNat := by
    rw [← htake, List.take_append_drop]
  have hlen' : cs.length + 1 = slen.toNat := by
    have := congrArg List.length htake
    rw [List.length_take, Nat.min_eq_left (by omega)] at this
    simpa using this.symm
  have hc0 : c ≠ 0 := by
    intro h0
    apply hc
    right
    rw [hsplit, List.cons_append, List.headD_cons, h0]
  have hfits : value (c :: cs) < 2 ^ 64 :=
    calc value (c :: cs) < 256 ^ (c :: cs).length := value_lt _
      _ ≤ 256 ^ 8 := Nat.pow_le_pow_right (by norm_num) (by simp; omega)
      _ = 2 ^ 64 := by norm_num
  have hval : (UInt64.ofNat (value (c :: cs))).toNat = value (c :: cs) :=
    UInt64.toNat_ofNat_of_lt' hfits
  rw [htake, hval]
  refine ⟨?_, ?_, ?_⟩
  · intro hlt
    apply hc
    left
    rw [htake, UInt64.lt_iff_toNat_lt, hval]
    simpa using hlt
  · rw [byteLen_value hc0, hlen']
  · have hlow : lowBytes (value (c :: cs)) slen.toNat = c :: cs := by
      rw [← hlen', ← List.length_cons, lowBytes_value]
    rw [hlow, ← htake, List.take_append_drop]

/-- `readSize` reads a size of at least 56 in its shortest big-endian form. -/
theorem readSize_lowBytes {n : Nat} (rest : List UInt8) (hlo : 56 ≤ n) (hn : n < 2 ^ 64) :
    readSize (lowBytes n (byteLen n) ++ rest) (UInt8.ofNat (byteLen n)) =
      .ok (UInt64.ofNat n) := by
  have h1 := one_le_byteLen n
  have h8 := Stream.byteLen_le_eight hn
  have hk : (UInt8.ofNat (byteLen n)).toNat = byteLen n := by
    rw [toNat_ofNat_byte]
    omega
  have hval : (UInt64.ofNat n).toNat = n := UInt64.toNat_ofNat_of_lt' hn
  have hhead : (lowBytes n (byteLen n) ++ rest).headD 0 ≠ 0 := by
    have hne := head_bigBytes n
    rw [bigBytes_of_pos (by omega)] at hne
    obtain ⟨c, cs, hcs⟩ : ∃ c cs, lowBytes n (byteLen n) = c :: cs := by
      cases hl : lowBytes n (byteLen n) with
      | nil =>
        have := congrArg List.length hl
        simp at this
        omega
      | cons c cs => exact ⟨c, cs, rfl⟩
    rw [hcs] at hne ⊢
    simpa using hne
  unfold readSize
  rw [if_neg (by simp [hk])]
  have hr : 1 ≤ UInt8.ofNat (byteLen n) ∧ UInt8.ofNat (byteLen n) ≤ 8 := by
    rw [UInt8.le_iff_toNat_le, UInt8.le_iff_toNat_le, hk]
    simp only [UInt8.reduceToNat]
    omega
  have htake : (lowBytes n (byteLen n) ++ rest).take (UInt8.ofNat (byteLen n)).toNat =
      lowBytes n (byteLen n) := by
    rw [hk, List.take_left' (length_lowBytes _ _)]
  have hlow : value (lowBytes n (byteLen n)) = n := by
    rw [value_lowBytes, Nat.mod_eq_of_lt (lt_pow_byteLen n)]
  have hc : ¬ (UInt64.ofNat n < 56 ∨ (lowBytes n (byteLen n) ++ rest).headD 0 = 0) := by
    rintro (hlt | h0)
    · rw [UInt64.lt_iff_toNat_lt, hval] at hlt
      simp only [UInt64.reduceToNat] at hlt
      omega
    · exact hhead h0
  simp only [if_pos hr, htake, hlow, if_neg hc]

/-! ### Framed values -/

/-- **An encoded value as `Split` cuts it**: a canonical header of kind `k` for the `n`
bytes of `content` (a single byte `x` below `0x80` is its own header, with no contents),
and no string of one byte below `0x80`. What a list holds is not looked at. -/
structure Framed (k : Kind) (n : Nat) (x : UInt8) (content : List UInt8) : Prop where
  length_content : content.length = n
  lt_size : n < 2 ^ 64
  byte : k = .byte → x < 0x80 ∧ n = 0
  canonical : ¬ (k = .string ∧ n = 1 ∧ content.headD 0 < 0x80)

/-- The size check of `readKind` passes exactly for a value that fits in the slice after its
header. -/
theorem not_gt_length_sub_iff {buf : List UInt8} {ts cs : UInt64} (hbuf : buf.length < 2 ^ 64)
    (hts : ts.toNat ≤ buf.length) :
    ¬ cs > UInt64.ofNat buf.length - ts ↔ ts.toNat + cs.toNat ≤ buf.length := by
  have hl : (UInt64.ofNat buf.length).toNat = buf.length := UInt64.toNat_ofNat_of_lt' hbuf
  have hle : ts ≤ UInt64.ofNat buf.length := by
    rw [UInt64.le_iff_toNat_le, hl]
    exact hts
  rw [gt_iff_lt, UInt64.lt_iff_toNat_lt, UInt64.toNat_sub_of_le _ _ hle, hl]
  omega

theorem not_gt_length_sub {buf : List UInt8} {ts cs : UInt64} (hbuf : buf.length < 2 ^ 64)
    (hfit : ts.toNat + cs.toNat ≤ buf.length) : ¬ cs > UInt64.ofNat buf.length - ts :=
  (not_gt_length_sub_iff hbuf (by omega)).mpr hfit

/-- The length of a long header, as `readKind` computes it from the tag. -/
theorem toNat_long_tagsize {u : UInt8} (h8 : u.toNat ≤ 8) : (u.toUInt64 + 1).toNat = u.toNat + 1 := by
  rw [UInt64.toNat_add, UInt64.toNat_one, UInt8.toNat_toUInt64]
  omega

/-- **`readKind` reads the header of a framed value**, and the value ends where its
contents end. -/
theorem readKind_framed {k : Kind} {n : Nat} {x : UInt8} {content : List UInt8}
    (rest : List UInt8) (hf : Framed k n x content)
    (hlen : (Stream.tagBytes k n x ++ content ++ rest).length < 2 ^ 64) :
    ∃ ts cs : UInt64, readKind (Stream.tagBytes k n x ++ content ++ rest) = .ok (k, ts, cs) ∧
      ts.toNat = (if k = .byte then 0 else (Stream.tagBytes k n x).length) ∧
      (ts + cs).toNat = (Stream.tagBytes k n x ++ content).length := by
  have hn := hf.lt_size
  have hc := hf.length_content
  have h1 := one_le_byteLen n
  have h8 := Stream.byteLen_le_eight hn
  have hu : (UInt8.ofNat (byteLen n)).toNat = byteLen n := by
    rw [toNat_ofNat_byte]
    omega
  have hu8 : (UInt8.ofNat (byteLen n)).toNat ≤ 8 := by omega
  cases k with
  | byte =>
    -- a single byte, with no contents
    obtain ⟨hx, rfl⟩ := hf.byte rfl
    obtain rfl : content = [] := List.eq_nil_of_length_eq_zero hc
    simp only [Stream.tagBytes, List.append_nil, List.singleton_append] at hlen ⊢
    refine ⟨0, 1, ?_, rfl, rfl⟩
    have hchk : ¬ (1 : UInt64) > UInt64.ofNat (x :: rest).length - 0 :=
      not_gt_length_sub hlen (by simp)
    rw [readKind, if_pos hx]
    dsimp only
    rw [if_neg hchk]
  | string =>
    simp only [Stream.tagBytes, header, reduceCtorEq, ↓reduceIte] at hlen ⊢
    by_cases hshort : n < 56
    · -- a short header: the tag holds the size
      simp only [if_pos hshort] at hlen ⊢
      have hb : (0x80 + UInt8.ofNat n).toNat = 128 + n :=
        Stream.toNat_add_tag (by simp only [UInt8.reduceToNat]; omega)
      have hcanon : ¬ (UInt64.ofNat n = 1 ∧ ((0x80 + UInt8.ofNat n) :: (content ++ rest)).length > 1 ∧
          (content ++ rest).headD 0 < 128) := by
        rintro ⟨h1', -, hlt⟩
        have hn1 : n = 1 := by
          have := congrArg UInt64.toNat h1'
          rwa [UInt64.toNat_ofNat_of_lt' hn] at this
        obtain ⟨c, rfl⟩ := List.length_eq_one_iff.mp (hc.trans hn1)
        exact hf.canonical ⟨rfl, hn1, hlt⟩
      refine ⟨1, UInt64.ofNat n, ?_, rfl, ?_⟩
      · rw [List.singleton_append, List.cons_append, readKind,
          if_neg (by simp only [UInt8.lt_iff_toNat_lt, hb, UInt8.reduceToNat]; omega),
          if_pos (by simp only [UInt8.lt_iff_toNat_lt, hb, UInt8.reduceToNat]; omega),
          Stream.short_size (by omega)]
        dsimp only
        rw [if_neg hcanon]
        dsimp only
        rw [if_neg (not_gt_length_sub (by simpa using hlen) (by
          rw [UInt64.toNat_ofNat_of_lt' hn]
          simp only [List.length_cons, List.length_append, hc, UInt64.toNat_one]
          omega))]
      · rw [UInt64.toNat_add, UInt64.toNat_ofNat_of_lt' hn, UInt64.toNat_one]
        simp only [List.length_append, List.length_singleton, hc]
        omega
    · -- a long header: the tag holds the length of the size, which follows it
      simp only [if_neg hshort] at hlen ⊢
      have hb : (0xB7 + UInt8.ofNat (byteLen n)).toNat = 183 + byteLen n :=
        Stream.toNat_add_tag (by simp only [UInt8.reduceToNat]; omega)
      refine ⟨(UInt8.ofNat (byteLen n)).toUInt64 + 1, UInt64.ofNat n, ?_, ?_, ?_⟩
      · rw [List.cons_append, List.cons_append, readKind,
          if_neg (by simp only [UInt8.lt_iff_toNat_lt, hb, UInt8.reduceToNat]; omega),
          if_neg (by simp only [UInt8.lt_iff_toNat_lt, hb, UInt8.reduceToNat]; omega),
          if_pos (by simp only [UInt8.lt_iff_toNat_lt, hb, UInt8.reduceToNat]; omega),
          Stream.tag_sub, List.append_assoc, readSize_lowBytes _ (by omega) hn]
        simp only [Except.map]
        rw [if_neg (not_gt_length_sub (by simpa using hlen) (by
          rw [toNat_long_tagsize hu8, hu, UInt64.toNat_ofNat_of_lt' hn]
          simp only [List.length_cons, List.length_append, length_lowBytes, hc]
          omega))]
      · simp [toNat_long_tagsize hu8, hu]
      · simp only [List.length_append, List.length_cons, length_lowBytes, hc] at hlen ⊢
        rw [UInt64.toNat_add, toNat_long_tagsize hu8, hu, UInt64.toNat_ofNat_of_lt' hn]
        omega
  | list =>
    simp only [Stream.tagBytes, header, reduceCtorEq, ↓reduceIte] at hlen ⊢
    by_cases hshort : n < 56
    · -- a short header
      simp only [if_pos hshort] at hlen ⊢
      have hb : (0xC0 + UInt8.ofNat n).toNat = 192 + n :=
        Stream.toNat_add_tag (by simp only [UInt8.reduceToNat]; omega)
      refine ⟨1, UInt64.ofNat n, ?_, rfl, ?_⟩
      · rw [List.singleton_append, List.cons_append, readKind,
          if_neg (by simp only [UInt8.lt_iff_toNat_lt, hb, UInt8.reduceToNat]; omega),
          if_neg (by simp only [UInt8.lt_iff_toNat_lt, hb, UInt8.reduceToNat]; omega),
          if_neg (by simp only [UInt8.lt_iff_toNat_lt, hb, UInt8.reduceToNat]; omega),
          if_pos (by simp only [UInt8.lt_iff_toNat_lt, hb, UInt8.reduceToNat]; omega),
          Stream.short_size (by omega)]
        dsimp only
        rw [if_neg (not_gt_length_sub (by simpa using hlen) (by
          rw [UInt64.toNat_ofNat_of_lt' hn]
          simp only [List.length_cons, List.length_append, hc, UInt64.toNat_one]
          omega))]
      · rw [UInt64.toNat_add, UInt64.toNat_ofNat_of_lt' hn, UInt64.toNat_one]
        simp only [List.length_append, List.length_singleton, hc]
        omega
    · -- a long header
      simp only [if_neg hshort] at hlen ⊢
      have hb : (0xF7 + UInt8.ofNat (byteLen n)).toNat = 247 + byteLen n :=
        Stream.toNat_add_tag (by simp only [UInt8.reduceToNat]; omega)
      refine ⟨(UInt8.ofNat (byteLen n)).toUInt64 + 1, UInt64.ofNat n, ?_, ?_, ?_⟩
      · rw [List.cons_append, List.cons_append, readKind,
          if_neg (by simp only [UInt8.lt_iff_toNat_lt, hb, UInt8.reduceToNat]; omega),
          if_neg (by simp only [UInt8.lt_iff_toNat_lt, hb, UInt8.reduceToNat]; omega),
          if_neg (by simp only [UInt8.lt_iff_toNat_lt, hb, UInt8.reduceToNat]; omega),
          if_neg (by simp only [UInt8.lt_iff_toNat_lt, hb, UInt8.reduceToNat]; omega),
          Stream.tag_sub, List.append_assoc, readSize_lowBytes _ (by omega) hn]
        simp only [Except.map]
        rw [if_neg (not_gt_length_sub (by simpa using hlen) (by
          rw [toNat_long_tagsize hu8, hu, UInt64.toNat_ofNat_of_lt' hn]
          simp only [List.length_cons, List.length_append, length_lowBytes, hc]
          omega))]
      · simp [toNat_long_tagsize hu8, hu]
      · simp only [List.length_append, List.length_cons, length_lowBytes, hc] at hlen ⊢
        rw [UInt64.toNat_add, toNat_long_tagsize hu8, hu, UInt64.toNat_ofNat_of_lt' hn]
        omega

/-- A short header that `readKind` accepted: the tag, then contents that fit. -/
theorem short_header_parts {small large b : UInt8} {rest : List UInt8}
    (h56 : (b - small).toNat < 56) (hbuf : (b :: rest).length < 2 ^ 64)
    (hfit : ¬ (b - small).toUInt64 > UInt64.ofNat (b :: rest).length - 1) :
    ∃ content rest', b :: rest = header small large (b - small).toNat ++ content ++ rest' ∧
      content.length = (b - small).toNat := by
  have hle := (not_gt_length_sub_iff hbuf (by simp)).mp hfit
  rw [UInt8.toNat_toUInt64, UInt64.toNat_one] at hle
  refine ⟨rest.take (b - small).toNat, rest.drop (b - small).toNat, ?_, ?_⟩
  · have hhead : header small large (b - small).toUInt64.toNat = [b] := Stream.header_short h56
    rw [UInt8.toNat_toUInt64] at hhead
    rw [hhead, List.append_assoc, List.take_append_drop]
    rfl
  · rw [List.length_take]
    simp only [List.length_cons] at hle
    omega

/-- A long header that `readKind` accepted: the tag, the size of at least 56 in its shortest
form, then contents that fit. -/
theorem long_header_parts {small large b : UInt8} {rest : List UInt8} {s : UInt64}
    (hbuf : (b :: rest).length < 2 ^ 64) (hs : readSize rest (b - large) = .ok s)
    (hfit : ¬ s > UInt64.ofNat (b :: rest).length - ((b - large).toUInt64 + 1)) :
    ¬ s.toNat < 56 ∧ ((b - large).toUInt64 + 1).toNat = (header small large s.toNat).length ∧
      ∃ content rest', b :: rest = header small large s.toNat ++ content ++ rest' ∧
        content.length = s.toNat := by
  obtain ⟨hv, hk, hrest⟩ := readSize_ok hs
  have h8 : (b - large).toNat ≤ 8 := by
    rw [← hk]
    exact Stream.byteLen_le_eight s.toNat_lt
  have hts : ((b - large).toUInt64 + 1).toNat = (b - large).toNat + 1 := toNat_long_tagsize h8
  have hhead : header small large s.toNat = b :: lowBytes s.toNat (byteLen s.toNat) :=
    Stream.header_long hv hk
  have hslen : (b - large).toNat ≤ rest.length := by
    have := congrArg List.length hrest
    rw [List.length_append, length_lowBytes] at this
    omega
  have hle := (not_gt_length_sub_iff hbuf (by rw [hts]; simp; omega)).mp hfit
  rw [hts] at hle
  simp only [List.length_cons] at hle
  refine ⟨hv, by rw [hts, hhead]; simp [hk], (rest.drop (b - large).toNat).take s.toNat,
    (rest.drop (b - large).toNat).drop s.toNat, ?_, ?_⟩
  · rw [hhead, hk, List.append_assoc, List.take_append_drop, List.cons_append, ← hrest]
  · rw [List.length_take, List.length_drop]
    omega

/-- The end of a value a header and contents long, which fits a `uint64`. -/
theorem toNat_add_of_parts {ts cs : UInt64} {tag content rest : List UInt8}
    (hbuf : (tag ++ content ++ rest).length < 2 ^ 64) (hts : ts.toNat = tag.length)
    (hcs : cs.toNat = content.length) : (ts + cs).toNat = (tag ++ content).length := by
  have hlt : tag.length + content.length < 2 ^ 64 := by
    simp only [List.length_append] at hbuf
    omega
  rw [UInt64.toNat_add, hts, hcs, Nat.mod_eq_of_lt hlt, List.length_append]

/-- **What `readKind` accepts is a framed value**, which ends where the header and the
contents it reports end. -/
theorem readKind_ok {buf : List UInt8} {k : Kind} {ts cs : UInt64} (hbuf : buf.length < 2 ^ 64)
    (h : readKind buf = .ok (k, ts, cs)) :
    ∃ n x content rest, Framed k n x content ∧ buf = Stream.tagBytes k n x ++ content ++ rest ∧
      (ts + cs).toNat = (Stream.tagBytes k n x ++ content).length := by
  cases buf with
  | nil => simp [readKind] at h
  | cons b rest =>
    rw [readKind] at h
    by_cases c1 : b < 0x80
    · -- a single byte below `0x80`, its own value
      have hchk : ¬ (1 : UInt64) > UInt64.ofNat (b :: rest).length - 0 :=
        not_gt_length_sub hbuf (by simp)
      rw [if_pos c1] at h
      dsimp only at h
      rw [if_neg hchk] at h
      simp only [Except.ok.injEq, Prod.mk.injEq] at h
      obtain ⟨rfl, rfl, rfl⟩ := h
      exact ⟨0, b, [], rest, ⟨rfl, by decide, fun _ => ⟨c1, rfl⟩, fun h => by simp at h⟩,
        rfl, rfl⟩
    have hb80 : (0x80 : UInt8) ≤ b := UInt8.not_lt.mp c1
    rw [if_neg c1] at h
    by_cases c2 : b < 0xB8
    · -- a short string header, which must not hold a single byte below `0x80`
      rw [if_pos c2] at h
      dsimp only at h
      by_cases hcanon : (b - 0x80).toUInt64 = 1 ∧ (b :: rest).length > 1 ∧ rest.headD 0 < 128
      · rw [if_pos hcanon] at h
        cases h
      rw [if_neg hcanon] at h
      dsimp only at h
      by_cases hfit : (b - 0x80).toUInt64 > UInt64.ofNat (b :: rest).length - 1
      · rw [if_pos hfit] at h
        cases h
      rw [if_neg hfit] at h
      simp only [Except.ok.injEq, Prod.mk.injEq] at h
      obtain ⟨rfl, rfl, rfl⟩ := h
      have h56 : (b - 0x80).toNat < 56 := by
        rw [UInt8.toNat_sub_of_le _ _ hb80]
        rw [UInt8.lt_iff_toNat_lt] at c2
        simp only [UInt8.reduceToNat] at c2 ⊢
        omega
      obtain ⟨content, rest', hsplit, hlen⟩ : ∃ content rest',
          b :: rest = header 0x80 0xB7 (b - 0x80).toNat ++ content ++ rest' ∧
            content.length = (b - 0x80).toNat := short_header_parts h56 hbuf hfit
      have htag : header 0x80 0xB7 (b - 0x80).toNat = [b] := by
        have hshort : header 0x80 0xB7 (b - 0x80).toUInt64.toNat = [b] := Stream.header_short h56
        rwa [UInt8.toNat_toUInt64] at hshort
      -- one byte of contents below `0x80` was rejected
      have hcanon' : ¬ ((b - 0x80).toNat = 1 ∧ content.headD 0 < 0x80) := by
        rintro ⟨h1, hlt⟩
        obtain ⟨c, rfl⟩ := List.length_eq_one_iff.mp (hlen.trans h1)
        rw [htag] at hsplit
        simp only [List.cons_append, List.cons.injEq] at hsplit
        refine hcanon ⟨?_, by simp [hsplit.2], by simpa [hsplit.2] using hlt⟩
        apply UInt64.toNat_inj.mp
        rw [UInt8.toNat_toUInt64, h1]
        rfl
      have hts : (1 : UInt64).toNat = (Stream.tagBytes .string (b - 0x80).toNat 0).length := by
        simp [Stream.tagBytes, htag]
      refine ⟨(b - 0x80).toNat, 0, content, rest', ⟨hlen, by omega, (by simp),
        fun h => hcanon' ⟨h.2.1, h.2.2⟩⟩, hsplit, ?_⟩
      exact toNat_add_of_parts (hsplit ▸ hbuf) hts (by rw [UInt8.toNat_toUInt64, hlen])
    rw [if_neg c2] at h
    by_cases c3 : b < 0xC0
    · -- a long string header
      rw [if_pos c3] at h
      rcases hs : readSize rest (b - 0xB7) with e | sz
      · rw [hs] at h
        cases h
      rw [hs] at h
      dsimp only [Except.map] at h
      by_cases hfit : sz > UInt64.ofNat (b :: rest).length - ((b - 0xB7).toUInt64 + 1)
      · rw [if_pos hfit] at h
        cases h
      rw [if_neg hfit] at h
      simp only [Except.ok.injEq, Prod.mk.injEq] at h
      obtain ⟨rfl, rfl, rfl⟩ := h
      obtain ⟨hv, hts, content, rest', hsplit, hlen⟩ : ¬ sz.toNat < 56 ∧
          ((b - 0xB7).toUInt64 + 1).toNat = (header 0x80 0xB7 sz.toNat).length ∧
          ∃ content rest', b :: rest = header 0x80 0xB7 sz.toNat ++ content ++ rest' ∧
            content.length = sz.toNat := long_header_parts hbuf hs hfit
      exact ⟨sz.toNat, 0, content, rest', ⟨hlen, sz.toNat_lt, (by simp), fun h => hv (by omega)⟩,
        hsplit, toNat_add_of_parts (hsplit ▸ hbuf) hts hlen.symm⟩
    rw [if_neg c3] at h
    by_cases c4 : b < 0xF8
    · -- a short list header
      rw [if_pos c4] at h
      dsimp only at h
      by_cases hfit : (b - 0xC0).toUInt64 > UInt64.ofNat (b :: rest).length - 1
      · rw [if_pos hfit] at h
        cases h
      rw [if_neg hfit] at h
      simp only [Except.ok.injEq, Prod.mk.injEq] at h
      obtain ⟨rfl, rfl, rfl⟩ := h
      have hbC0 : (0xC0 : UInt8) ≤ b := UInt8.not_lt.mp c3
      have h56 : (b - 0xC0).toNat < 56 := by
        rw [UInt8.toNat_sub_of_le _ _ hbC0]
        rw [UInt8.lt_iff_toNat_lt] at c4
        simp only [UInt8.reduceToNat] at c4 ⊢
        omega
      obtain ⟨content, rest', hsplit, hlen⟩ : ∃ content rest',
          b :: rest = header 0xC0 0xF7 (b - 0xC0).toNat ++ content ++ rest' ∧
            content.length = (b - 0xC0).toNat := short_header_parts h56 hbuf hfit
      have htag : header 0xC0 0xF7 (b - 0xC0).toNat = [b] := by
        have hshort : header 0xC0 0xF7 (b - 0xC0).toUInt64.toNat = [b] := Stream.header_short h56
        rwa [UInt8.toNat_toUInt64] at hshort
      have hts : (1 : UInt64).toNat = (Stream.tagBytes .list (b - 0xC0).toNat 0).length := by
        simp [Stream.tagBytes, htag]
      refine ⟨(b - 0xC0).toNat, 0, content, rest', ⟨hlen, by omega, (by simp), fun h => by simp at h⟩,
        hsplit, ?_⟩
      exact toNat_add_of_parts (hsplit ▸ hbuf) hts (by rw [UInt8.toNat_toUInt64, hlen])
    · -- a long list header
      rw [if_neg c4] at h
      rcases hs : readSize rest (b - 0xF7) with e | sz
      · rw [hs] at h
        cases h
      rw [hs] at h
      dsimp only [Except.map] at h
      by_cases hfit : sz > UInt64.ofNat (b :: rest).length - ((b - 0xF7).toUInt64 + 1)
      · rw [if_pos hfit] at h
        cases h
      rw [if_neg hfit] at h
      simp only [Except.ok.injEq, Prod.mk.injEq] at h
      obtain ⟨rfl, rfl, rfl⟩ := h
      obtain ⟨hv, hts, content, rest', hsplit, hlen⟩ : ¬ sz.toNat < 56 ∧
          ((b - 0xF7).toUInt64 + 1).toNat = (header 0xC0 0xF7 sz.toNat).length ∧
          ∃ content rest', b :: rest = header 0xC0 0xF7 sz.toNat ++ content ++ rest' ∧
            content.length = sz.toNat := long_header_parts hbuf hs hfit
      exact ⟨sz.toNat, 0, content, rest', ⟨hlen, sz.toNat_lt, (by simp), fun h => by simp at h⟩,
        hsplit, toNat_add_of_parts (hsplit ▸ hbuf) hts hlen.symm⟩

/-! ### `Split` and `CountValues` -/

/-- **`Split` cuts a framed value off the front of a slice**: its kind, its contents (a
single byte is its own contents), and the bytes after it. -/
theorem split_framed {k : Kind} {n : Nat} {x : UInt8} {content : List UInt8}
    (rest : List UInt8) (hf : Framed k n x content)
    (hlen : (Stream.tagBytes k n x ++ content ++ rest).length < 2 ^ 64) :
    split (Stream.tagBytes k n x ++ content ++ rest) =
      .ok (k, if k = .byte then [x] else content, rest) := by
  obtain ⟨ts, cs, hk, hts, hend⟩ := readKind_framed rest hf hlen
  rw [split, hk]
  dsimp only
  rw [hend, List.drop_left', slice, List.take_left']
  · congr
    cases k with
    | byte =>
      obtain ⟨-, rfl⟩ := hf.byte rfl
      obtain rfl : content = [] := List.eq_nil_of_length_eq_zero hf.length_content
      rw [hts]
      rfl
    | string => simp [hts]
    | list => simp [hts]
  · rfl
  · rfl

/-- **What `Split` accepts is a framed value**, followed by the rest it returns. -/
theorem split_ok {b : List UInt8} {k : Kind} {c r : List UInt8} (hb : b.length < 2 ^ 64)
    (h : split b = .ok (k, c, r)) :
    ∃ n x content, Framed k n x content ∧ b = Stream.tagBytes k n x ++ content ++ r ∧
      c = if k = .byte then [x] else content := by
  rcases hk : readKind b with e | ⟨k', ts, cs⟩
  · rw [split, hk] at h
    cases h
  obtain ⟨n, x, content, rest, hf, hb', -⟩ := readKind_ok hb hk
  have hsplit := split_framed rest hf (hb' ▸ hb)
  rw [← hb', h] at hsplit
  simp only [Except.ok.injEq, Prod.mk.injEq] at hsplit
  obtain ⟨rfl, rfl, rfl⟩ := hsplit
  exact ⟨n, x, content, hf, hb', rfl⟩

/-- A framed value takes at least one byte. -/
theorem length_framed_pos (k : Kind) (n : Nat) (x : UInt8) (content : List UInt8) :
    0 < (Stream.tagBytes k n x ++ content).length := by
  have := one_le_headerLen n
  cases k with
  | byte => simp [Stream.tagBytes]
  | string | list =>
    simp only [Stream.tagBytes, List.length_append, length_header]
    omega

/-- One round of `CountValues`: a framed value is counted, and the loop goes on after it. -/
theorem countValuesLoop_framed {k : Kind} {n : Nat} {x : UInt8} {content : List UInt8}
    (rest : List UInt8) (fuel i : Nat) (hf : Framed k n x content)
    (hlen : (Stream.tagBytes k n x ++ content ++ rest).length < 2 ^ 64) :
    countValuesLoop (fuel + 1) (Stream.tagBytes k n x ++ content ++ rest) i =
      countValuesLoop fuel rest (i + 1) := by
  obtain ⟨ts, cs, hk, -, hend⟩ := readKind_framed rest hf hlen
  have hpos : (Stream.tagBytes k n x ++ content ++ rest).length > 0 := by
    have := length_framed_pos k n x content
    simp only [List.length_append] at this ⊢
    omega
  rw [countValuesLoop, if_pos hpos, hk]
  dsimp only
  rw [hend, List.drop_left]

/-- A value `Split` takes whole is a framed value. -/
theorem framed_of_split {x : List UInt8} {k : Kind} {c : List UInt8} (hx : x.length < 2 ^ 64)
    (h : split x = .ok (k, c, [])) :
    ∃ n y content, Framed k n y content ∧ x = Stream.tagBytes k n y ++ content := by
  obtain ⟨n, y, content, hf, hxeq, -⟩ := split_ok hx h
  exact ⟨n, y, content, hf, by rw [hxeq, List.append_nil]⟩

/-- **`CountValues` counts the values of a slice cut into values that `Split` takes
whole**, given more fuel than there are values. -/
theorem countValuesLoop_items : ∀ (xs : List (List UInt8)) (fuel i : Nat), xs.length < fuel →
    xs.flatten.length < 2 ^ 64 → (∀ x ∈ xs, ∃ k c, split x = .ok (k, c, [])) →
    countValuesLoop fuel xs.flatten i = .ok (i + xs.length)
  | [], fuel, i, hfuel, _, _ => by
    obtain ⟨f, rfl⟩ : ∃ f, fuel = f + 1 := ⟨fuel - 1, by simp at hfuel; omega⟩
    simp [countValuesLoop]
  | x :: xs, fuel, i, hfuel, hlen, hitems => by
    obtain ⟨f, rfl⟩ : ∃ f, fuel = f + 1 := ⟨fuel - 1, by simp at hfuel; omega⟩
    have hfuel' : xs.length < f := by
      simp only [List.length_cons] at hfuel
      omega
    have hxlen : x.length < 2 ^ 64 := by
      simp only [List.flatten_cons, List.length_append] at hlen
      omega
    have hlen' : xs.flatten.length < 2 ^ 64 := by
      simp only [List.flatten_cons, List.length_append] at hlen
      omega
    obtain ⟨k, c, hx⟩ := hitems x List.mem_cons_self
    obtain ⟨n, y, content, hf, rfl⟩ := framed_of_split hxlen hx
    rw [List.flatten_cons] at hlen ⊢
    rw [countValuesLoop_framed _ _ _ hf hlen,
      countValuesLoop_items xs f (i + 1) hfuel' hlen'
        (fun x hmem => hitems x (List.mem_cons_of_mem _ hmem))]
    rw [List.length_cons, Nat.add_assoc, Nat.add_comm 1]

/-- **What `CountValues` counts is a slice cut into values that `Split` takes whole.** -/
theorem countValuesLoop_ok : ∀ (fuel : Nat) (b : List UInt8) (i m : Nat), b.length < 2 ^ 64 →
    countValuesLoop fuel b i = .ok m →
    ∃ xs : List (List UInt8), i + xs.length = m ∧ xs.flatten = b ∧
      ∀ x ∈ xs, ∃ k c, split x = .ok (k, c, [])
  | 0, _, _, _, _, h => by cases h
  | fuel + 1, b, i, m, hb, h => by
    by_cases hpos : b.length > 0
    · rcases hk : readKind b with e | ⟨k, ts, cs⟩
      · rw [countValuesLoop, if_pos hpos, hk] at h
        cases h
      -- the first value, then the values after it
      obtain ⟨n, x, content, rest, hf, hbeq, hend⟩ := readKind_ok hb hk
      rw [countValuesLoop, if_pos hpos, hk] at h
      dsimp only at h
      rw [hend, hbeq, List.drop_left] at h
      have hrest : rest.length < 2 ^ 64 := by
        rw [hbeq] at hb
        simp only [List.length_append] at hb
        omega
      obtain ⟨xs, hm, hflat, hitems⟩ := countValuesLoop_ok fuel rest (i + 1) m hrest h
      refine ⟨(Stream.tagBytes k n x ++ content) :: xs, ?_, ?_, ?_⟩
      · simp only [List.length_cons]
        omega
      · rw [List.flatten_cons, hflat, hbeq]
      · intro y hy
        rcases List.mem_cons.mp hy with rfl | hmem
        · have hsplit := split_framed [] hf (by
            rw [List.append_nil]
            rw [hbeq] at hb
            simp only [List.length_append] at hb ⊢
            omega)
          rw [List.append_nil] at hsplit
          exact ⟨k, _, hsplit⟩
        · exact hitems y hmem
    · -- nothing left: the count so far
      rw [countValuesLoop, if_neg hpos] at h
      cases h
      refine ⟨[], by simp, ?_, by simp⟩
      simp only [gt_iff_lt, List.length_pos_iff, not_not] at hpos
      rw [hpos]
      rfl

/-- `Split` takes no value from an empty slice. -/
theorem split_nil : split [] = .error .unexpectedEOF := rfl

/-- Every value takes a byte, so a slice holds no more values than bytes. -/
theorem length_le_length_flatten : ∀ xs : List (List UInt8),
    (∀ x ∈ xs, ∃ k c, split x = .ok (k, c, [])) → xs.length ≤ xs.flatten.length
  | [], _ => by simp
  | x :: xs, hitems => by
    have hx : x ≠ [] := by
      rintro rfl
      obtain ⟨k, c, hs⟩ := hitems [] List.mem_cons_self
      rw [split_nil] at hs
      cases hs
    have ih := length_le_length_flatten xs (fun y hy => hitems y (List.mem_cons_of_mem _ hy))
    have hpos := List.length_pos_iff.mpr hx
    simp only [List.length_cons, List.flatten_cons, List.length_append]
    omega

/-- **`CountValues` counts `n` exactly when the slice is `n` values that `Split` takes
whole.** -/
theorem countValues_iff {b : List UInt8} (hb : b.length < 2 ^ 64) (n : Nat) :
    countValues b = .ok n ↔ ∃ xs : List (List UInt8), xs.length = n ∧ xs.flatten = b ∧
      ∀ x ∈ xs, ∃ k c, split x = .ok (k, c, []) := by
  constructor
  · intro h
    obtain ⟨xs, hn, hflat, hitems⟩ := countValuesLoop_ok _ b 0 n hb h
    exact ⟨xs, by omega, hflat, hitems⟩
  · rintro ⟨xs, rfl, rfl, hitems⟩
    -- one more round than there are values, the last one seeing the empty rest
    have hfuel : xs.length < xs.flatten.length + 1 :=
      Nat.lt_succ_of_le (length_le_length_flatten xs hitems)
    rw [countValues, countValuesLoop_items xs _ 0 hfuel hb hitems, Nat.zero_add]

example : countValues [0x05, 0x82, 0xAA, 0xBB, 0xC1, 0x01] = .ok 3 := rfl

/-! ### The stream on the same slice -/

namespace Stream

/-- **What `Kind` reads at the top level of a stream limited to its input**: a header of the
kind and size it reports, then at least that many bytes. -/
theorem Kind_top_ok {s s₁ : Stream} {k : Rlp.Kind} {size : UInt64} (hk : s.kind = none)
    (hstack : s.stack = []) (hlim : s.limited = true) (hrem : s.remaining.toNat = s.input.length)
    (h : run Stream.Kind s = (.ok (k, size), s₁)) :
    ∃ x content rest, s.input = tagBytes k size.toNat x ++ content ++ rest ∧
      content.length = size.toNat ∧ (k = .byte → x < 0x80 ∧ size = 0) := by
  have htop : TopOk s := fun tos htos => by simp [hstack] at htos
  obtain ⟨hm, -, -, -, hfitErr, hbyte⟩ := Kind_fresh_moved hk htop h
  -- the header was counted against the limit, which still covers the rest of the input
  have htag := hm.fits.2 hlim
  have hle : UInt64.ofNat (tagBytes k size.toNat s₁.byteval).length ≤ s.remaining :=
    UInt64.le_iff_toNat_le.mpr (by rw [toNat_ofNat_of_le htag]; exact htag)
  have hrem₁ : s₁.remaining.toNat = s₁.input.length := by
    rw [hm.remaining, if_pos hlim, UInt64.toNat_sub_of_le _ _ hle, toNat_ofNat_of_le htag, hrem,
      hm.input, List.length_append]
    omega
  -- and the size `Kind` reports was checked against that limit
  have hover : ¬ size > s₁.remaining := by
    have hstack₁ : s₁.stack = [] := by rw [hm.stack, hstack]; rfl
    simpa [fitErr, hstack₁, hm.limited, hlim] using hfitErr
  rw [gt_iff_lt, UInt64.lt_iff_toNat_lt, not_lt] at hover
  refine ⟨s₁.byteval, s₁.input.take size.toNat, s₁.input.drop size.toNat, ?_, ?_, hbyte⟩
  · rw [List.append_assoc, List.take_append_drop]
    exact hm.input
  · rw [List.length_take]
    omega

/-- **`Raw` reads a value back whole**, header and contents, from a stream where it fits. -/
theorem run_raw_framed {s : Stream} {k : Rlp.Kind} {n : Nat} {x : UInt8}
    {content rest : List UInt8} (hk : s.kind = none) (hbyte : k = .byte → x < 0x80 ∧ n = 0)
    (hn : n < 2 ^ 64) (hc : content.length = n) (hin : s.input = tagBytes k n x ++ content ++ rest)
    (hfit : Fits s ((tagBytes k n x).length + n)) :
    ∃ s', run raw s = (.ok (tagBytes k n x ++ content), s') ∧
      Moved s s' (tagBytes k n x ++ content) ∧ s'.kind = none := by
  have hin' : s.input = tagBytes k n x ++ (content ++ rest) := by rw [hin, List.append_assoc]
  obtain ⟨s₁, hK, hm, -, -, -, hbv⟩ := run_Kind_value hk hbyte hn hin' hfit
  have hin₁ : s₁.input = content ++ rest := by
    rw [hm.input] at hin'
    exact List.append_cancel_left hin'
  have hfit₁ : Fits s₁ content.length := hc ▸ hm.fits_rest hfit
  have hroom : Room s₁ (UInt64.ofNat n) := room_of_fits (hm.fits_rest hfit)
  have hread : run (readFull (UInt64.ofNat n)) s₁ =
      (.ok content, { reserve s₁ (UInt64.ofNat n) with input := rest }) :=
    run_readFull hroom hin₁ (by rw [hc, UInt64.toNat_ofNat_of_lt' hn])
  -- the contents follow the header
  have hm₂ : Moved s₁ { reserve s₁ (UInt64.ofNat n) with input := rest } content := by
    have := moved_reserve hin₁ hfit₁
    rwa [hc] at this
  rw [raw, run_bind_ok hK]
  cases k with
  | byte =>
    -- a single byte is its own value, with no contents to read
    obtain ⟨-, rfl⟩ := hbyte rfl
    obtain rfl : content = [] := List.eq_nil_of_length_eq_zero hc
    refine ⟨{ s₁ with kind := none }, ?_, by rw [List.append_nil]; exact hm.congr rfl rfl rfl rfl, rfl⟩
    simp [rearm, run_bind, hbv rfl, tagBytes]
  | string =>
    refine ⟨{ reserve s₁ (UInt64.ofNat n) with input := rest }, ?_, hm.trans hm₂, rfl⟩
    simp only [reduceCtorEq, ↓reduceIte, run_bind_ok hread, run_pure]
    rw [puthead_eq_header _ _ hn]
    rfl
  | list =>
    refine ⟨{ reserve s₁ (UInt64.ofNat n) with input := rest }, ?_, hm.trans hm₂, rfl⟩
    simp only [reduceCtorEq, ↓reduceIte, run_bind_ok hread, run_pure]
    rw [puthead_eq_header _ _ hn]
    rfl

/-- **`Raw` reads an item's encoding back whole**, from a stream where it fits. -/
theorem run_raw_encode {s : Stream} (t : Item) {rest : List UInt8}
    (hlen : t.encode.length < 2 ^ 64) (hk : s.kind = none) (hin : s.input = t.encode ++ rest)
    (hfit : Fits s t.encode.length) :
    ∃ s', run raw s = (.ok t.encode, s') ∧ Moved s s' t.encode ∧ s'.kind = none := by
  -- the encoding of every item is a header and its contents
  obtain ⟨k, n, x, content, henc, hbyte, hc⟩ : ∃ k n x content,
      t.encode = tagBytes k n x ++ content ∧ (k = .byte → x < 0x80 ∧ n = 0) ∧
        content.length = n := by
    cases t with
    | bytes b =>
      by_cases hsingle : b.length = 1 ∧ b.headD 0 < 0x80
      · obtain ⟨x, rfl, hx⟩ := bytes_single hsingle
        refine ⟨.byte, 0, x, [], ?_, fun _ => ⟨hx, rfl⟩, rfl⟩
        rw [encode_bytes, if_pos hsingle]
        rfl
      · refine ⟨.string, b.length, 0, b, ?_, (by simp), rfl⟩
        rw [encode_bytes, if_neg hsingle]
        rfl
    | list ts => exact ⟨.list, _, 0, _, encode_list ts, (by simp), rfl⟩
  have hlen' : (tagBytes k n x).length + n = t.encode.length := by
    rw [henc, List.length_append, hc]
  rw [henc] at hin hlen ⊢
  rw [← hlen'] at hfit
  exact run_raw_framed hk hbyte (by rw [List.length_append] at hlen; omega) hc hin hfit

end Stream

/-! ### `Split` against the stream -/

/-- What fits in a stream over `b` limited to its length, as `NewStream` makes it for a
`bytes.Reader`. -/
theorem fits_newStream {b : List UInt8} {m : Nat} (hb : b.length < 2 ^ 64) (hm : m ≤ b.length) :
    Stream.Fits (Stream.newStream b true (UInt64.ofNat b.length)) m := by
  rw [newStream_bytes]
  refine ⟨fun tos htos => by simp at htos, fun _ => ?_⟩
  rw [UInt64.toNat_ofNat_of_lt' hb]
  exact hm

/-- The byte after the header of a string of one byte. -/
theorem getD_one_short_string {x : UInt8} {content rest : List UInt8} (hc : content.length = 1) :
    (Stream.tagBytes .string 1 x ++ content ++ rest).getD 1 0 = content.headD 0 := by
  obtain ⟨c, rfl⟩ := List.length_eq_one_iff.mp hc
  rfl

/-- **`Split` accepts a slice exactly when `Kind` reads a value from a stream over it**, and
the value is not a string of one byte below `0x80`. -/
theorem split_ok_iff_Kind {b : List UInt8} (hb : b.length < 2 ^ 64) :
    (∃ k c r, split b = .ok (k, c, r)) ↔
      ∃ k size s₁, run Stream.Kind (Stream.newStream b true (UInt64.ofNat b.length)) =
          (.ok (k, size), s₁) ∧ ¬ (k = .string ∧ size = 1 ∧ b.getD 1 0 < 0x80) := by
  constructor
  · rintro ⟨k, c, r, h⟩
    obtain ⟨n, x, content, hf, rfl, -⟩ := split_ok hb h
    have hfit : Stream.Fits (Stream.newStream (Stream.tagBytes k n x ++ content ++ r) true
        (UInt64.ofNat (Stream.tagBytes k n x ++ content ++ r).length))
        ((Stream.tagBytes k n x).length + n) :=
      fits_newStream hb (by simp only [List.length_append, hf.length_content]; omega)
    obtain ⟨s₁, hK, -⟩ := Stream.run_Kind_value (by rw [newStream_bytes]) hf.byte
      hf.lt_size (by rw [newStream_bytes, List.append_assoc]) hfit
    refine ⟨k, _, s₁, hK, ?_⟩
    -- a string of one byte below `0x80` is what `Split` rejects
    rintro ⟨rfl, h1, hlt⟩
    have hn1 : n = 1 := by
      have := congrArg UInt64.toNat h1
      rwa [UInt64.toNat_ofNat_of_lt' hf.lt_size] at this
    subst hn1
    rw [getD_one_short_string hf.length_content] at hlt
    exact hf.canonical ⟨rfl, rfl, hlt⟩
  · rintro ⟨k, size, s₁, hK, hcanon⟩
    rw [newStream_bytes] at hK
    obtain ⟨x, content, rest, hin, hc, hbyte⟩ :=
      Stream.Kind_top_ok rfl rfl rfl (UInt64.toNat_ofNat_of_lt' hb) hK
    change b = _ at hin
    have hf : Framed k size.toNat x content := by
      refine ⟨hc, size.toNat_lt, fun h => ⟨(hbyte h).1, by rw [(hbyte h).2, UInt64.toNat_zero]⟩, ?_⟩
      rintro ⟨rfl, h1, hlt⟩
      refine hcanon ⟨rfl, UInt64.toNat_inj.mp (by rw [h1]; rfl), ?_⟩
      rw [hin, h1, getD_one_short_string (hc.trans h1)]
      exact hlt
    have hsplit := split_framed rest hf (by rw [← hin]; exact hb)
    rw [← hin] at hsplit
    exact ⟨k, _, _, hsplit⟩

example : split [0x81, 0x7F] = .error .canonSize := rfl

/-- **`Raw` returns the bytes of the value `Split` cuts off**: the slice before the rest. -/
theorem run_raw_of_split {b : List UInt8} {k : Kind} {c r : List UInt8} (hb : b.length < 2 ^ 64)
    (h : split b = .ok (k, c, r)) :
    ∃ s', run Stream.raw (Stream.newStream b true (UInt64.ofNat b.length)) =
      (.ok (b.take (b.length - r.length)), s') := by
  obtain ⟨n, x, content, hf, rfl, -⟩ := split_ok hb h
  have htake : (Stream.tagBytes k n x ++ content ++ r).take
      ((Stream.tagBytes k n x ++ content ++ r).length - r.length) =
        Stream.tagBytes k n x ++ content :=
    List.take_left' (by simp only [List.length_append]; omega)
  rw [htake]
  exact (Stream.run_raw_framed (by rw [newStream_bytes]) hf.byte hf.lt_size
    hf.length_content (by rw [newStream_bytes])
    (fits_newStream hb (by simp only [List.length_append, hf.length_content]; omega))).imp
    fun _ h => h.1

/-- **`Split` and `CountValues` agree with the stream.** On a slice `b`, `Split` accepts
exactly when `Kind` reads a value from a stream over `b` limited to its length, unless the
value is a string of one byte below `0x80`; `Raw` then returns the bytes before the rest
`Split` returns; and `CountValues` counts `n` exactly when `b` is `n` values that `Split`
takes whole. -/
theorem split_agrees_with_stream (b : List UInt8) (hb : b.length < 2 ^ 64) :
    ((∃ k c r, split b = .ok (k, c, r)) ↔
      ∃ k size s₁, run Stream.Kind (Stream.newStream b true (UInt64.ofNat b.length)) =
          (.ok (k, size), s₁) ∧ ¬ (k = .string ∧ size = 1 ∧ b.getD 1 0 < 0x80)) ∧
    (∀ k c r, split b = .ok (k, c, r) →
      ∃ s', run Stream.raw (Stream.newStream b true (UInt64.ofNat b.length)) =
        (.ok (b.take (b.length - r.length)), s')) ∧
    ∀ n, countValues b = .ok n ↔ ∃ xs : List (List UInt8), xs.length = n ∧ xs.flatten = b ∧
      ∀ x ∈ xs, ∃ k c, split x = .ok (k, c, []) :=
  ⟨split_ok_iff_Kind hb, fun _ _ _ h => run_raw_of_split hb h, countValues_iff hb⟩

theorem split_agrees_with_stream_at_string :
    ∃ s', run Stream.raw (Stream.newStream [0x82, 0xAA, 0xBB, 0x05] true (UInt64.ofNat 4)) =
      (.ok [0x82, 0xAA, 0xBB], s') :=
  (split_agrees_with_stream [0x82, 0xAA, 0xBB, 0x05] (by decide)).2.1 .string [0xAA, 0xBB] [0x05]
    rfl

end Rlp
