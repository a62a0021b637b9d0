import Dsplinz.Common.Hexutil

/-!
# The hex quantity codec reads back what it writes

The readers of `hexutil` are proved against one description of a quantity: `0x` or `0X`, then
one to 64 hex digits of either case (`Hexutil.IsHexDigit`), with no leading zero unless the
number is `0`, standing for the value of the digits. `DecodeBig` accepts exactly these strings
and returns that value (`Hexutil.decodeBig_ok_iff`), whatever the split of the digits into
words; the writers produce such strings, so each pair reads back its own output.

| part | theorem |
|---|---|
| a digit and `decodeNibble` | `Hexutil.decodeNibble_of_isHexDigit`, `Hexutil.isHexDigit_of_decodeNibble` |
| the loop of a word | `Hexutil.nibbleLoop_digits` |
| the words of `DecodeBig` | `Hexutil.wordsLoop_digits`, `Hexutil.wordsLoop_ok_good` |
| the check of the prefix | `Hexutil.checkNumber_ok_iff` |
| what `DecodeBig` accepts | `Hexutil.decodeBig_ok_iff` |
| the writers' output read back | `Hexutil.decodeBig_formatBits`, `Hexutil.unmarshalText_formatBits` |

The four round trips and the description of `DecodeBig` together are
`Hexutil.hex_quantity_codec`. What the writers write is described once, in base `16`, by
`GoStrconv.hexDigits`.
-/

namespace Hexutil

open GoStrconv

/-! ### Hex digits -/

/-- The upper-case digit of a value, as `digitByte` is the lower-case one. -/
def upperDigitByte (d : Nat) : UInt8 :=
  if d < 10 then charByte '0' + UInt8.ofNat d else charByte 'A' + UInt8.ofNat (d - 10)

/-- `c` is a hex digit of value `v`, of either case. -/
def IsHexDigit (c : UInt8) (v : Nat) : Prop :=
  v < 16 ∧ (c = digitByte v ∨ c = upperDigitByte v)

theorem isHexDigit_digitByte {v : Nat} (hv : v < 16) : IsHexDigit (digitByte v) v :=
  ⟨hv, Or.inl rfl⟩

/-- **A digit reads as its value.** -/
theorem decodeNibble_of_isHexDigit {c : UInt8} {v : Nat} (h : IsHexDigit c v) :
    decodeNibble c = UInt64.ofNat v := by
  obtain ⟨hv, rfl | rfl⟩ := h
  · exact (show ∀ v < 16, decodeNibble (digitByte v) = UInt64.ofNat v by decide) v hv
  · exact (show ∀ v < 16, decodeNibble (upperDigitByte v) = UInt64.ofNat v by decide) v hv

/-- The byte of a digit, of either case, as a number. -/
theorem toNat_digitByte {v : Nat} (hv : v < 16) :
    (digitByte v).toNat = (if v < 10 then 48 + v else 87 + v) ∧
      (upperDigitByte v).toNat = (if v < 10 then 48 + v else 55 + v) :=
  (show ∀ v < 16, (digitByte v).toNat = (if v < 10 then 48 + v else 87 + v) ∧
    (upperDigitByte v).toNat = (if v < 10 then 48 + v else 55 + v) by decide) v hv

/-- The value `decodeNibble` gives a byte of the letter rows, `c - lo + 10`, as a number. -/
theorem toNat_sub_add_ten {c lo : UInt8} (hlo : lo.toNat ≤ c.toNat)
    (hc : c.toNat - lo.toNat < 6) :
    (c - lo + 10).toUInt64.toNat = c.toNat - lo.toNat + 10 := by
  rw [UInt8.toNat_toUInt64, UInt8.toNat_add,
    UInt8.toNat_sub_of_le _ _ (UInt8.le_iff_toNat_le.mpr hlo)]
  simp only [UInt8.reduceToNat]
  omega

/-- **What `decodeNibble` accepts is a digit** of the value it returns. -/
theorem isHexDigit_of_decodeNibble {c : UInt8} (h : decodeNibble c ≠ badNibble) :
    IsHexDigit c (decodeNibble c).toNat := by
  have h0 : (charByte '0').toNat = 48 := rfl
  have h9 : (charByte '9').toNat = 57 := rfl
  have hA : (charByte 'A').toNat = 65 := rfl
  have hF : (charByte 'F').toNat = 70 := rfl
  have ha : (charByte 'a').toNat = 97 := rfl
  have hf : (charByte 'f').toNat = 102 := rfl
  unfold decodeNibble at h ⊢
  simp only [ge_iff_le, UInt8.le_iff_toNat_le, h0, h9, hA, hF, ha, hf] at h ⊢
  -- each range of bytes is one row of digits, and the value is the place in the row
  split_ifs at h ⊢ with h1 h2 h3
  · have hv : (c - charByte '0').toUInt64.toNat = c.toNat - 48 := by
      rw [UInt8.toNat_toUInt64, UInt8.toNat_sub_of_le _ _ (UInt8.le_iff_toNat_le.mpr (by omega)),
        h0]
    rw [hv]
    refine ⟨by omega, Or.inl (UInt8.toNat_inj.mp ?_)⟩
    rw [(toNat_digitByte (by omega)).1, if_pos (by omega)]
    omega
  · rw [toNat_sub_add_ten (by omega) (by omega), hA]
    refine ⟨by omega, Or.inr (UInt8.toNat_inj.mp ?_)⟩
    rw [(toNat_digitByte (by omega)).2, if_neg (by omega)]
    omega
  · rw [toNat_sub_add_ten (by omega) (by omega), ha]
    refine ⟨by omega, Or.inl (UInt8.toNat_inj.mp ?_)⟩
    rw [(toNat_digitByte (by omega)).1, if_neg (by omega)]
    omega
  · exact absurd rfl h

/-- The digit `0`, of either case, is the byte `'0'`. -/
theorem isHexDigit_eq_zero_iff {c : UInt8} {v : Nat} (h : IsHexDigit c v) :
    c = charByte '0' ↔ v = 0 := by
  constructor
  · rintro rfl
    have hv := congrArg UInt64.toNat (decodeNibble_of_isHexDigit h)
    have h0 : (decodeNibble (charByte '0')).toNat = 0 := rfl
    rw [h0, UInt64.toNat_ofNat'] at hv
    have := h.1
    omega
  · rintro rfl
    rcases h.2 with rfl | rfl <;> rfl

/-- The values of a string of digits are digits. -/
theorem forall₂_isHexDigit_lt {cs : List UInt8} {vs : List Nat}
    (h : List.Forall₂ IsHexDigit cs vs) : ∀ v ∈ vs, v < 16 := by
  induction h with
  | nil => simp
  | cons hcv _ ih =>
    intro v hv
    rcases List.mem_cons.mp hv with rfl | hv
    · exact hcv.1
    · exact ih v hv

/-- A string of digits starts with `'0'` exactly when its value starts with `0`. -/
theorem head?_eq_zero_iff {cs : List UInt8} {vs : List Nat} (h : List.Forall₂ IsHexDigit cs vs) :
    cs.head? = some (charByte '0') ↔ vs.head? = some 0 := by
  cases h with
  | nil => simp
  | cons hcv _ =>
    simp only [List.head?_cons, Option.some.injEq]
    exact isHexDigit_eq_zero_iff hcv

/-- `FormatUint` in base `16` writes hex digits, of the values `hexDigits`. -/
theorem forall₂_formatBits (u : Nat) :
    List.Forall₂ IsHexDigit (formatBits u 16) (hexDigits u) := by
  rw [formatBits_sixteen, List.forall₂_map_left_iff, List.forall₂_same]
  exact fun v hv => isHexDigit_digitByte (hexDigits_lt v hv)

/-! ### The loop of a word -/

/-- **The loop of a word reads hex digits** whose value, appended to `w`, fits in 64 bits, as
that value: the inner loop of `DecodeBig` and the loop of `Uint64.UnmarshalText`. -/
theorem nibbleLoop_digits {cs : List UInt8} {vs : List Nat} (h : List.Forall₂ IsHexDigit cs vs) :
    ∀ w : UInt64, w.toNat * 16 ^ vs.length + Nat.ofDigits 16 vs.reverse < 2 ^ 64 →
      nibbleLoop cs w =
        .ok (UInt64.ofNat (w.toNat * 16 ^ vs.length + Nat.ofDigits 16 vs.reverse)) := by
  induction h with
  | nil =>
    intro w _
    simp [nibbleLoop]
  | @cons c v cs vs hcv _ ih =>
    intro w hfit
    have hv := hcv.1
    obtain ⟨hval, hle⟩ := GoStrconv.horner_cons w.toNat v vs
    -- `w` then `v` is worth no more than the whole string
    have hstep : w.toNat * 16 + v < 2 ^ 64 := by omega
    have hn1 : (UInt64.ofNat (w.toNat * 16 + v)).toNat = w.toNat * 16 + v := by
      rw [UInt64.toNat_ofNat']
      omega
    have hnib := decodeNibble_of_isHexDigit hcv
    have hgood : decodeNibble c ≠ badNibble := by
      intro hbad
      have := congrArg UInt64.toNat (hnib.symm.trans hbad)
      rw [UInt64.toNat_ofNat'] at this
      simp only [badNibble, UInt64.reduceToNat] at this
      omega
    have hw : w * 16 + decodeNibble c = UInt64.ofNat (w.toNat * 16 + v) := by
      apply UInt64.toNat_inj.mp
      rw [hnib, hn1, UInt64.toNat_add, UInt64.toNat_mul, UInt64.toNat_ofNat']
      simp only [UInt64.reduceToNat]
      omega
    simp only [nibbleLoop, if_neg hgood, hw]
    rw [ih _ (by rw [hn1]; omega), hn1, hval]

/-- What the loop of a word accepts is a string of hex digits. -/
theorem nibbleLoop_ok_digits : ∀ {cs : List UInt8} {w r : UInt64}, nibbleLoop cs w = .ok r →
    ∃ vs, List.Forall₂ IsHexDigit cs vs
  | [], _, _, _ => ⟨[], .nil⟩
  | c :: cs, w, r, h => by
    simp only [nibbleLoop] at h
    split at h
    · cases h
    · next hgood =>
      obtain ⟨vs, hvs⟩ := nibbleLoop_ok_digits h
      exact ⟨_, .cons (isHexDigit_of_decodeNibble hgood) hvs⟩

/-! ### The words of `DecodeBig` -/

theorem except_bind_eq_ok {ε α β : Type} {x : Except ε α} {f : α → Except ε β} {b : β} :
    x >>= f = .ok b ↔ ∃ a, x = .ok a ∧ f a = .ok b := by
  cases x <;> simp [bind, Except.bind]

/-- `SetBits` of one more word, the least significant. -/
theorem setBits_cons (w : UInt64) (ws : List UInt64) :
    setBits (w :: ws) = w.toNat + 2 ^ 64 * setBits ws := by
  simp [setBits, Nat.ofDigits_cons]

theorem except_map_eq_ok {ε α β : Type} {x : Except ε α} {f : α → β} {b : β} :
    x.map f = .ok b ↔ ∃ a, x = .ok a ∧ f a = b := by
  cases x <;> simp [Except.map]

/-- The digits before `stop` are those before the start of the word that ends at `stop`, then
the word's. -/
theorem take_eq_take_append_word {α : Type} (l : List α) (stop : Nat) :
    l.take stop = l.take (stop - bigWordNibbles) ++ (l.take stop).drop (stop - bigWordNibbles) := by
  conv_lhs => rw [← List.take_append_drop (stop - bigWordNibbles) (l.take stop)]
  rw [List.take_take, Nat.min_eq_left (Nat.sub_le _ _)]

/-- The value of one word's digits fits in a `big.Word`. -/
theorem ofDigits_word_lt {vs : List Nat} (hvs : ∀ v ∈ vs, v < 16) (hlen : vs.length ≤ 16) :
    Nat.ofDigits 16 vs.reverse < 2 ^ 64 :=
  calc Nat.ofDigits 16 vs.reverse
      < 16 ^ vs.reverse.length :=
        Nat.ofDigits_lt_base_pow_length (by norm_num) (fun v hv => hvs v (List.mem_reverse.mp hv))
    _ ≤ 16 ^ 16 := Nat.pow_le_pow_right (by norm_num) (by rw [List.length_reverse]; exact hlen)
    _ = 2 ^ 64 := by norm_num

/-- **The words of `DecodeBig` join to the value of the digits** before `stop`: words of
sixteen digits taken from the right are the digits of the number in base `2^64`. -/
theorem wordsLoop_digits {raw : List UInt8} {vs : List Nat} (h : List.Forall₂ IsHexDigit raw vs) :
    ∀ count stop, stop ≤ raw.length → stop ≤ bigWordNibbles * count →
      (wordsLoop raw count stop).map setBits = .ok (Nat.ofDigits 16 (vs.take stop).reverse)
  | 0, stop, _, hcount => by
    have hstop : stop = 0 := by simpa using hcount
    rw [hstop, wordsLoop_zero]
    rfl
  | count + 1, stop, hraw, hcount => by
    have hb : bigWordNibbles = 16 := rfl
    have hlen := h.length_eq
    have hword := List.forall₂_drop (stop - bigWordNibbles) (List.forall₂_take stop h)
    have hwlen : ((vs.take stop).drop (stop - bigWordNibbles)).length = min stop 16 := by
      simp only [List.length_drop, List.length_take]
      omega
    have hlt := ofDigits_word_lt (forall₂_isHexDigit_lt hword) (by omega)
    have hfit : (0 : UInt64).toNat * 16 ^ ((vs.take stop).drop (stop - bigWordNibbles)).length +
        Nat.ofDigits 16 ((vs.take stop).drop (stop - bigWordNibbles)).reverse < 2 ^ 64 := by
      rw [UInt64.toNat_zero, zero_mul, zero_add]
      exact hlt
    have hnib := nibbleLoop_digits hword 0 hfit
    rw [UInt64.toNat_zero, zero_mul, zero_add] at hnib
    -- the words after this one join to the digits before its start
    obtain ⟨ws, hws, hset⟩ := except_map_eq_ok.mp
      (wordsLoop_digits h count (stop - bigWordNibbles) (by omega) (by rw [hb] at hcount ⊢; omega))
    have hsplit : Nat.ofDigits 16 (vs.take stop).reverse =
        Nat.ofDigits 16 ((vs.take stop).drop (stop - bigWordNibbles)).reverse +
          16 ^ min stop 16 * Nat.ofDigits 16 (vs.take (stop - bigWordNibbles)).reverse := by
      conv_lhs => rw [take_eq_take_append_word vs stop]
      rw [List.reverse_append, Nat.ofDigits_append, List.length_reverse, hwlen]
    rw [wordsLoop_succ_ok hnib, hws]
    simp only [Except.map, Except.ok.injEq]
    rw [setBits_cons, hset, UInt64.toNat_ofNat', Nat.mod_eq_of_lt hlt, hsplit]
    -- a word is sixteen digits, unless it is the last and nothing stands before it
    rcases Nat.lt_or_ge stop 16 with hs | hs
    · have hstart : stop - bigWordNibbles = 0 := by omega
      simp [hstart]
    · rw [Nat.min_eq_right hs]
      norm_num

/-- What the words of `DecodeBig` accept, once they cover the digits before `stop`, is a
string of hex digits. -/
theorem wordsLoop_ok_digits {raw : List UInt8} :
    ∀ count stop, stop ≤ bigWordNibbles * count → ∀ ws, wordsLoop raw count stop = .ok ws →
      ∃ vs, List.Forall₂ IsHexDigit (raw.take stop) vs
  | 0, stop, hcount, _, _ => by
    have hstop : stop = 0 := by simpa using hcount
    rw [hstop, List.take_zero]
    exact ⟨[], .nil⟩
  | count + 1, stop, hcount, ws, h => by
    have hb : bigWordNibbles = 16 := rfl
    cases hn : nibbleLoop ((raw.take stop).drop (stop - bigWordNibbles)) 0 with
    | error e =>
      rw [wordsLoop_succ_error hn] at h
      cases h
    | ok w =>
      rw [wordsLoop_succ_ok hn] at h
      obtain ⟨ws', hws', -⟩ := except_map_eq_ok.mp h
      obtain ⟨vs, hvs⟩ := wordsLoop_ok_digits count (stop - bigWordNibbles)
        (by rw [hb] at hcount ⊢; omega) ws' hws'
      obtain ⟨vw, hvw⟩ := nibbleLoop_ok_digits hn
      refine ⟨vs ++ vw, ?_⟩
      rw [take_eq_take_append_word raw stop]
      exact List.rel_append hvs hvw

/-- **What the body of `DecodeBig` accepts**: at most 64 hex digits, read as their value. -/
theorem decodeBigDigits_ok_iff {raw : List UInt8} {n : Nat} :
    decodeBigDigits raw = .ok n ↔
      raw.length ≤ 64 ∧ ∃ vs, List.Forall₂ IsHexDigit raw vs ∧ n = Nat.ofDigits 16 vs.reverse := by
  have hb : bigWordNibbles = 16 := rfl
  -- `len(raw)/bigWordNibbles + 1` words cover the digits
  have hcover : raw.length ≤ bigWordNibbles * (raw.length / bigWordNibbles + 1) := by
    rw [hb]
    omega
  unfold decodeBigDigits
  constructor
  · intro h
    split at h
    · cases h
    · rename_i hlen
      obtain ⟨ws, hws, hn⟩ := except_map_eq_ok.mp h
      obtain ⟨vs, hvs⟩ := wordsLoop_ok_digits _ _ hcover ws hws
      rw [List.take_length] at hvs
      have hval := wordsLoop_digits hvs _ _ le_rfl hcover
      rw [hws, List.take_of_length_le (by rw [← hvs.length_eq])] at hval
      simp only [Except.map, Except.ok.injEq] at hval
      exact ⟨by omega, vs, hvs, hn ▸ hval⟩
  · rintro ⟨hlen, vs, hvs, rfl⟩
    rw [if_neg (by omega), wordsLoop_digits hvs _ _ le_rfl hcover,
      List.take_of_length_le (by rw [← hvs.length_eq])]

/-! ### The check of the prefix -/

theorem bytesOf_0x : bytesOf "0x" = [charByte '0', charByte 'x'] := rfl

theorem bytesOf_0X : bytesOf "0X" = [charByte '0', charByte 'X'] := rfl

/-- The inputs `has0xPrefix` accepts, and the rest behind their prefix. -/
theorem eq_0x_append_iff {input raw : List UInt8} :
    (input = bytesOf "0x" ++ raw ∨ input = bytesOf "0X" ++ raw) ↔
      has0xPrefix input = true ∧ input.drop 2 = raw := by
  rcases input with _ | ⟨c0, _ | ⟨c1, rest⟩⟩
  · simp [bytesOf_0x, bytesOf_0X, has0xPrefix]
  · simp [bytesOf_0x, bytesOf_0X, has0xPrefix]
  · simp only [has0xPrefix, bytesOf_0x, bytesOf_0X, List.cons_append, List.nil_append,
      List.cons.injEq, List.drop_succ_cons, List.drop_zero, Bool.and_eq_true, Bool.or_eq_true,
      beq_iff_eq]
    constructor
    · rintro (⟨rfl, rfl, rfl⟩ | ⟨rfl, rfl, rfl⟩)
      · exact ⟨⟨rfl, .inl rfl⟩, rfl⟩
      · exact ⟨⟨rfl, .inr rfl⟩, rfl⟩
    · rintro ⟨⟨rfl, rfl | rfl⟩, rfl⟩
      · exact .inl ⟨rfl, rfl, rfl⟩
      · exact .inr ⟨rfl, rfl, rfl⟩

/-- The checks `checkNumber` and `checkNumberText` make behind a prefix they accept. -/
theorem checkNumberWith_of_prefix {onEmpty : Except DecError (List UInt8)}
    {hasPrefix : List UInt8 → Bool} {input : List UInt8} (hp : hasPrefix input = true)
    (hne : input ≠ []) :
    checkNumberWith onEmpty hasPrefix input =
      if (input.drop 2).length = 0 then .error .emptyNumber
      else if (input.drop 2).length > 1 ∧ (input.drop 2).head? = some (charByte '0') then
        .error .leadingZero
      else .ok (input.drop 2) := by
  unfold checkNumberWith
  rw [if_neg (by simpa using hne), hp]
  rfl

/-- **What `checkNumber` accepts**: `0x` or `0X`, then at least one digit, with no leading
`0` unless it is the only one. -/
theorem checkNumber_ok_iff {input raw : List UInt8} :
    checkNumber input = .ok raw ↔
      (input = bytesOf "0x" ++ raw ∨ input = bytesOf "0X" ++ raw) ∧ raw ≠ [] ∧
        ¬(raw.length > 1 ∧ raw.head? = some (charByte '0')) := by
  rw [eq_0x_append_iff]
  by_cases hp : has0xPrefix input = true
  · have hne : input ≠ [] := by
      rintro rfl
      cases hp
    rw [checkNumber, checkNumberWith_of_prefix hp hne]
    split_ifs with h1 h2
    · simp only [false_iff]
      rintro ⟨⟨-, rfl⟩, hraw, -⟩
      exact hraw (List.eq_nil_of_length_eq_zero h1)
    · simp only [false_iff]
      rintro ⟨⟨-, rfl⟩, -, hlead⟩
      exact hlead h2
    · constructor
      · rintro ⟨⟩
        exact ⟨⟨hp, rfl⟩, fun h => h1 (by rw [h, List.length_nil]), h2⟩
      · rintro ⟨⟨-, rfl⟩, -⟩
        rfl
  · rw [Bool.not_eq_true] at hp
    simp only [hp, Bool.false_eq_true, false_and, iff_false]
    -- an empty input, or one without the prefix, is an error
    by_cases h0 : input.length = 0
    · rw [checkNumber, checkNumberWith, if_pos h0]
      simp
    · rw [checkNumber, checkNumberWith, if_neg h0, hp]
      simp

/-! ### What `DecodeBig` accepts -/

/-- **`DecodeBig` accepts exactly a quantity**: `0x` or `0X`, then one to 64 hex digits of
either case, with no leading zero unless the number is `0`; and it returns the value of the
digits. -/
theorem decodeBig_ok_iff {s : List UInt8} {n : Nat} :
    decodeBig s = .ok n ↔ ∃ raw vs, (s = bytesOf "0x" ++ raw ∨ s = bytesOf "0X" ++ raw) ∧
      List.Forall₂ IsHexDigit raw vs ∧ 1 ≤ vs.length ∧ vs.length ≤ 64 ∧
      (1 < vs.length → vs.head? ≠ some 0) ∧ n = Nat.ofDigits 16 vs.reverse := by
  unfold decodeBig
  constructor
  · intro h
    obtain ⟨raw, hraw, hdig⟩ := except_bind_eq_ok.mp h
    obtain ⟨hpre, hne, hlead⟩ := checkNumber_ok_iff.mp hraw
    obtain ⟨hlen, vs, hvs, rfl⟩ := decodeBigDigits_ok_iff.mp hdig
    have hl := hvs.length_eq
    have hpos := List.length_pos_of_ne_nil hne
    refine ⟨raw, vs, hpre, hvs, by omega, by omega, fun h1 h0 => ?_, rfl⟩
    exact hlead ⟨by omega, (head?_eq_zero_iff hvs).mpr h0⟩
  · rintro ⟨raw, vs, hpre, hvs, hlen1, hlen64, hhead, rfl⟩
    have hl := hvs.length_eq
    have hraw : checkNumber s = .ok raw := by
      refine checkNumber_ok_iff.mpr ⟨hpre, fun h => ?_, fun ⟨h1, h0⟩ => ?_⟩
      · rw [h, List.length_nil] at hl
        omega
      · exact hhead (by omega) ((head?_eq_zero_iff hvs).mp h0)
    rw [hraw]
    exact decodeBigDigits_ok_iff.mpr ⟨by omega, vs, hvs, rfl⟩

/-! ### Round trips -/

/-- `checkNumber` accepts what `FormatUint` writes in base `16` behind `0x`. -/
theorem checkNumber_formatBits (u : Nat) :
    checkNumber (bytesOf "0x" ++ formatBits u 16) = .ok (formatBits u 16) := by
  have hvs := forall₂_formatBits u
  have hl := hvs.length_eq
  have hpos := List.length_pos_of_ne_nil (hexDigits_ne_nil u)
  refine checkNumber_ok_iff.mpr ⟨.inl rfl, fun h => ?_, fun ⟨h1, h0⟩ => ?_⟩
  · rw [h, List.length_nil] at hl
    omega
  · exact hexDigits_head (by omega) ((head?_eq_zero_iff hvs).mp h0)

/-- `checkNumberText` agrees with `checkNumber` behind `0x`. -/
theorem checkNumberText_0x (raw : List UInt8) :
    checkNumberText (bytesOf "0x" ++ raw) = checkNumber (bytesOf "0x" ++ raw) := by
  have hne : bytesOf "0x" ++ raw ≠ [] := by simp [bytesOf_0x]
  have htake : (bytesOf "0x" ++ raw).take 2 = bytesOf "0x" := List.take_left' rfl
  have hp : bytesHave0xPrefix (bytesOf "0x" ++ raw) = true := by
    unfold bytesHave0xPrefix
    have hlen : (bytesOf "0x" ++ raw).length ≥ 2 := by simp [bytesOf_0x]
    have hmem : (possibleCustomHexPrefixes.map bytesOf).contains (bytesOf "0x") = true := by
      decide
    rw [htake, decide_eq_true hlen, hmem]
    rfl
  have hp' : has0xPrefix (bytesOf "0x" ++ raw) = true := eq_0x_append_iff.mp (.inl rfl) |>.1
  rw [checkNumberText, checkNumber, checkNumberWith_of_prefix hp hne,
    checkNumberWith_of_prefix hp' hne]

/-- `EncodeBig` of a number that is not negative: `0x`, then the digits `FormatUint` writes in
base `16`, the one digit `0` for zero. -/
theorem encodeBig_of_nonneg {n : Int} (hn : 0 ≤ n) :
    encodeBig n = bytesOf "0x" ++ formatBits n.toNat 16 := by
  have habs : n.natAbs = n.toNat := by omega
  unfold encodeBig
  split_ifs with h0 hneg
  · -- `BitLen` is `0` only at zero
    have hz : n.toNat = 0 := by
      rw [← habs]
      exact Nat.size_eq_zero.mp h0
    rw [hz]
    rfl
  · omega
  · rw [List.nil_append, habs]

/-- `DecodeBig` reads back the digits `FormatUint` writes behind `0x`, up to 64 of them. -/
theorem decodeBig_formatBits {u : Nat} (hu : u < 2 ^ 256) :
    decodeBig (bytesOf "0x" ++ formatBits u 16) = .ok u := by
  have hvs := forall₂_formatBits u
  have hpos := List.length_pos_of_ne_nil (hexDigits_ne_nil u)
  refine decodeBig_ok_iff.mpr ⟨_, hexDigits u, .inl rfl, hvs, hpos,
    hexDigits_length_le (by norm_num) (by simpa using hu), hexDigits_head,
    (ofDigits_hexDigits u).symm⟩

/-- `Uint64.UnmarshalText` reads back the digits `FormatUint` writes behind `0x` for a
`uint64`. -/
theorem unmarshalText_formatBits (m : UInt64) :
    Uint64.unmarshalText (bytesOf "0x" ++ formatBits m.toNat 16) = .ok m := by
  have hvs := forall₂_formatBits m.toNat
  have hval := ofDigits_hexDigits m.toNat
  -- sixteen digits at most, as `m < 16 ^ 16`
  have hlen : (formatBits m.toNat 16).length ≤ 16 := by
    rw [hvs.length_eq]
    exact hexDigits_length_le (by norm_num) (by simpa using m.toNat_lt)
  have hnib := nibbleLoop_digits hvs 0 (by simpa [hval] using m.toNat_lt)
  rw [UInt64.toNat_zero, zero_mul, zero_add, hval, UInt64.ofNat_toNat] at hnib
  rw [Uint64.unmarshalText, checkNumberText_0x, checkNumber_formatBits]
  simp only [bind, Except.bind, if_neg (Nat.not_lt.mpr hlen)]
  exact hnib

/-- **The hex quantity codec.** Each reader reads back what its writer writes: a `*big.Int`
below `2 ^ 256` that is not negative, and every `uint64`; and `DecodeBig` accepts exactly the
quantities, `0x` or `0X` then one to 64 hex digits with no leading zero unless the number is
`0`, and returns the value of their digits. -/
theorem hex_quantity_codec :
    (∀ n : Int, 0 ≤ n → n < 2 ^ 256 → decodeBig (encodeBig n) = .ok n.toNat) ∧
    (∀ n : Int, 0 ≤ n → n < 2 ^ 256 → Big.unmarshalText (Big.marshalText n) = .ok n.toNat) ∧
    (∀ m : UInt64, decodeUint64 (encodeUint64 m) = .ok m) ∧
    (∀ m : UInt64, Uint64.unmarshalText (Uint64.marshalText m) = .ok m) ∧
    (∀ (s : List UInt8) (n : Nat), decodeBig s = .ok n ↔
      ∃ raw vs, (s = bytesOf "0x" ++ raw ∨ s = bytesOf "0X" ++ raw) ∧
        List.Forall₂ IsHexDigit raw vs ∧ 1 ≤ vs.length ∧ vs.length ≤ 64 ∧
        (1 < vs.length → vs.head? ≠ some 0) ∧ n = Nat.ofDigits 16 vs.reverse) := by
  have hbig : ∀ n : Int, 0 ≤ n → n < 2 ^ 256 →
      decodeBig (bytesOf "0x" ++ formatBits n.toNat 16) = .ok n.toNat :=
    fun n hn hlt => decodeBig_formatBits (by omega)
  refine ⟨fun n hn hlt => ?_, fun n hn hlt => ?_, fun m => ?_, fun m => ?_,
    fun s n => decodeBig_ok_iff⟩
  · rw [encodeBig_of_nonneg hn]
    exact hbig n hn hlt
  · rw [Big.unmarshalText, Big.marshalText, encodeBig_of_nonneg hn, checkNumberText_0x]
    exact hbig n hn hlt
  · rw [decodeUint64, encodeUint64, GoStrconv.appendUint, checkNumber_formatBits]
    simp only [bind, Except.bind, GoStrconv.parseUint_formatBits]
  · exact unmarshalText_formatBits m

end Hexutil
