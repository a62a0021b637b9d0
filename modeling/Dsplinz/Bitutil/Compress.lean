import Dsplinz.Lib.ByteBitmap

/-!
# Sparse bitset compression

`common/bitutil/compress.go` compresses byte strings with many zero bytes. A string of at
least two bytes is written as the compression of its *nonzero bitset* (one bit per byte,
most significant first, set for the nonzero bytes) followed by its nonzero bytes; a string
of zeros becomes empty and a single byte stays as it is. Decompression needs the length of
the original and reads the nested bitsets back from the front of its input.

The results:

* `Bitutil.bitsetDecodePartialBytes_encode` – decoding an encoding, followed by anything
  the encoding does not need, gives the string back and consumes exactly the encoding;
* `Bitutil.encode_of_bitsetDecodePartialBytes` – conversely, what a successful decoding
  consumed is the encoding of what it returned;
* `Bitutil.bitset_codec_bijective` – the two together: the codec is a bijection between
  byte strings and the inputs the decoder accepts in full.
-/

namespace Bitutil

open ByteBitmap

/-- The errors of decompression. -/
inductive DecompressError where
  /-- `errMissingData`: a byte the bitset references is past the end of the input. -/
  | missingData
  /-- `errUnreferencedData`: bytes are left in the input after decompression. -/
  | unreferencedData
  /-- `errExceededTarget`: the input is longer than the target, or the bitset has a bit
  past it. -/
  | exceededTarget
  /-- `errZeroContent`: a byte the bitset references is zero. -/
  | zeroContent
  deriving DecidableEq, Repr

/-! ### Compression -/

/-- The loop `for i, b := range data` of `bitsetEncodeBytes`, from index `i` on: every
nonzero byte is appended to `nonZeroBytes` and its bit set in `nonZeroBitset`. -/
def encodeLoop : List UInt8 → Nat → List UInt8 → List UInt8 → List UInt8 × List UInt8
  | [], _, nonZeroBitset, nonZeroBytes => (nonZeroBitset, nonZeroBytes)
  | b :: rest, i, nonZeroBitset, nonZeroBytes =>
    if b ≠ 0 then
      -- `nonZeroBitset[i/8] |= 1 << byte(7-i%8)`; the index is in range for the loop's
      -- bitset of `(len(data)+7)/8` bytes
      encodeLoop rest (i + 1) (nonZeroBitset.modify (i / 8) (· ||| 1 <<< (7 - i % 8).toUInt8))
        (nonZeroBytes ++ [b])
    else encodeLoop rest (i + 1) nonZeroBitset nonZeroBytes

theorem length_encodeLoop_fst (data : List UInt8) (i : Nat) (bitset bytes : List UInt8) :
    (encodeLoop data i bitset bytes).1.length = bitset.length := by
  induction data generalizing i bitset bytes with
  | nil => rfl
  | cons b rest ih =>
    simp only [encodeLoop]
    split
    · rw [ih, List.length_modify]
    · rw [ih]

/-- The nonzero bitset and the nonzero bytes of a string, as `bitsetEncodeBytes`
gathers them. -/
def gather (data : List UInt8) : List UInt8 × List UInt8 :=
  encodeLoop data 0 (List.replicate ((data.length + 7) / 8) 0) []

theorem length_gather_fst (data : List UInt8) :
    (gather data).1.length = (data.length + 7) / 8 := by
  rw [gather, length_encodeLoop_fst, List.length_replicate]

/-- `bitsetEncodeBytes(data)`. -/
def bitsetEncodeBytes (data : List UInt8) : List UInt8 :=
  if h : data.length = 0 then []
  else if data.length = 1 then (if data[0] = 0 then [] else data)
  else if (gather data).2.length = 0 then []
  else bitsetEncodeBytes (gather data).1 ++ (gather data).2
termination_by data.length
decreasing_by
  rw [length_gather_fst]
  omega

/-- `CompressBytes(data)`: the encoding, or a copy of `data` when that is not shorter. -/
def compressBytes (data : List UInt8) : List UInt8 :=
  if (bitsetEncodeBytes data).length < data.length then bitsetEncodeBytes data else data

/-! ### Decompression -/

/-- The loop `for i := 0; i < 8*len(nonZeroBitset); i++` of `bitsetDecodePartialBytes`,
over the indices `is` still to visit: every set bit takes the next byte of `data`. -/
def decodeLoop (data nonZeroBitset : List UInt8) :
    List Nat → List UInt8 × Nat → Except DecompressError (List UInt8 × Nat)
  | [], st => .ok st
  | i :: is, (decomp, ptr) =>
    if nonZeroBitset.getD (i / 8) 0 &&& 1 <<< (7 - i % 8).toUInt8 ≠ 0 then
      if h : data.length ≤ ptr then .error .missingData
      else if decomp.length ≤ i then .error .exceededTarget
      else if data[ptr] = 0 then .error .zeroContent
      else decodeLoop data nonZeroBitset is (decomp.set i data[ptr], ptr + 1)
    else decodeLoop data nonZeroBitset is (decomp, ptr)

/-- `bitsetDecodePartialBytes(data, target)`: the decompressed string and how much of
`data` it used. (On an error Go also returns a position, which no caller reads.) -/
def bitsetDecodePartialBytes (data : List UInt8) (target : Nat) :
    Except DecompressError (List UInt8 × Nat) :=
  if target = 0 then .ok ([], 0)
  else
    match data with
    | [] => .ok (List.replicate target 0, 0)
    | b :: _ =>
      if target = 1 then
        if b ≠ 0 then .ok ([b], 1) else .ok ([b], 0)
      else do
        let (nonZeroBitset, ptr) ← bitsetDecodePartialBytes data ((target + 7) / 8)
        decodeLoop data nonZeroBitset (List.range (8 * nonZeroBitset.length))
          (List.replicate target 0, ptr)
termination_by target
decreasing_by omega

/-- `bitsetDecodeBytes(data, target)`: decompression that uses all of `data`. -/
def bitsetDecodeBytes (data : List UInt8) (target : Nat) :
    Except DecompressError (List UInt8) := do
  let (out, size) ← bitsetDecodePartialBytes data target
  if size ≠ data.length then throw .unreferencedData
  pure out

/-- `DecompressBytes(data, target)`: an input as long as the target was not compressed. -/
def decompressBytes (data : List UInt8) (target : Nat) : Except DecompressError (List UInt8) :=
  if data.length > target then .error .exceededTarget
  else if data.length = target then .ok data
  else bitsetDecodeBytes data target

/-! ### How the decoder unfolds -/

theorem bitsetDecodePartialBytes_zero (data : List UInt8) :
    bitsetDecodePartialBytes data 0 = .ok ([], 0) := by
  rw [bitsetDecodePartialBytes.eq_def, if_pos rfl]

theorem bitsetDecodePartialBytes_nil {target : Nat} (h : target ≠ 0) :
    bitsetDecodePartialBytes [] target = .ok (List.replicate target 0, 0) := by
  rw [bitsetDecodePartialBytes.eq_def, if_neg h]

theorem bitsetDecodePartialBytes_one (b : UInt8) (rest : List UInt8) :
    bitsetDecodePartialBytes (b :: rest) 1 = .ok ([b], if b = 0 then 0 else 1) := by
  rw [bitsetDecodePartialBytes.eq_def, if_neg (by omega)]
  by_cases hb : b = 0 <;> simp [hb]

theorem bitsetDecodePartialBytes_of_two_le {data : List UInt8} {target : Nat} (hd : data ≠ [])
    (h : 2 ≤ target) :
    bitsetDecodePartialBytes data target = (do
      let (nonZeroBitset, ptr) ← bitsetDecodePartialBytes data ((target + 7) / 8)
      decodeLoop data nonZeroBitset (List.range (8 * nonZeroBitset.length))
        (List.replicate target 0, ptr)) := by
  obtain ⟨b, rest, rfl⟩ := List.exists_cons_of_ne_nil hd
  rw [bitsetDecodePartialBytes.eq_def, if_neg (by omega)]
  simp only [if_neg (show target ≠ 1 by omega)]

/-! ### What the encoder gathers -/

/-- `bits` is the nonzero bitset of `d`: bit `p` is set exactly when byte `p` of `d` is
there and nonzero. -/
def Marks (bits d : List UInt8) : Prop := ∀ p, bitAt bits p = (d.getD p 0 != 0)

/-- The invariant of the encoding loop: the bits it has set are those of the nonzero bytes
it has visited, and it has kept those bytes in order. -/
theorem encodeLoop_spec (rest : List UInt8) :
    ∀ (i : Nat) (bitset bytes : List UInt8), i + rest.length ≤ 8 * bitset.length →
      (∀ p, bitAt (encodeLoop rest i bitset bytes).1 p =
        (bitAt bitset p || (decide (i ≤ p) && (rest.getD (p - i) 0 != 0)))) ∧
      (encodeLoop rest i bitset bytes).2 = bytes ++ rest.filter (· ≠ 0) := by
  induction rest with
  | nil =>
    intro i bitset bytes _
    refine ⟨fun p => ?_, by simp [encodeLoop]⟩
    simp [encodeLoop]
  | cons b rest ih =>
    intro i bitset bytes hroom
    simp only [List.length_cons] at hroom
    by_cases hb : b = 0
    · -- a zero byte is skipped
      have hrec := ih (i + 1) bitset bytes (by omega)
      simp only [encodeLoop, hb, ne_eq, not_true_eq_false, if_false]
      refine ⟨fun p => ?_, by simp [hrec.2]⟩
      rw [hrec.1 p]
      rcases Nat.lt_trichotomy p i with hp | rfl | hp
      · simp [show ¬ i ≤ p by omega, show ¬ i + 1 ≤ p by omega]
      · simp
      · have hsub : p - i = (p - (i + 1)) + 1 := by omega
        simp [show i ≤ p by omega, show i + 1 ≤ p by omega, hsub]
    · -- a nonzero byte sets bit `i`, in byte `i / 8`, which is in range
      have hidx : i / 8 < bitset.length := by omega
      have hrec := ih (i + 1) (bitset.modify (i / 8) (· ||| 1 <<< (7 - i % 8).toUInt8))
        (bytes ++ [b]) (by rw [List.length_modify]; omega)
      simp only [encodeLoop, ne_eq, hb, not_false_eq_true, if_true]
      refine ⟨fun p => ?_, by simp [hrec.2, hb]⟩
      rw [hrec.1 p, bitAt_modify_or hidx, one_shiftLeft_eq_bitMask (Nat.mod_lt i (by omega)),
        testBit_bitMask (Nat.mod_lt i (by omega)) (Nat.mod_lt p (by omega))]
      rcases Nat.lt_trichotomy p i with hp | rfl | hp
      · have hoff : (decide (p / 8 = i / 8) && decide (i % 8 = p % 8)) = false := by
          simp only [Bool.and_eq_false_iff, decide_eq_false_iff_not]
          omega
        rw [hoff, Bool.or_false]
        simp [show ¬ i ≤ p by omega, show ¬ i + 1 ≤ p by omega]
      · simp [hb]
      · have hoff : (decide (p / 8 = i / 8) && decide (i % 8 = p % 8)) = false := by
          simp only [Bool.and_eq_false_iff, decide_eq_false_iff_not]
          omega
        have hsub : p - i = (p - (i + 1)) + 1 := by omega
        rw [hoff, Bool.or_false]
        simp [show i ≤ p by omega, show i + 1 ≤ p by omega, hsub]

/-- **What `bitsetEncodeBytes` gathers**: the nonzero bitset of the string and its nonzero
bytes. -/
theorem gather_spec (d : List UInt8) :
    Marks (gather d).1 d ∧ (gather d).2 = d.filter (· ≠ 0) := by
  have h := encodeLoop_spec d 0 (List.replicate ((d.length + 7) / 8) 0) []
    (by rw [List.length_replicate]; omega)
  refine ⟨fun p => ?_, by simpa [gather] using h.2⟩
  rw [gather, h.1 p, bitAt_replicate_zero]
  simp

theorem bitsetEncodeBytes_nil : bitsetEncodeBytes [] = [] := by
  rw [bitsetEncodeBytes]
  simp

theorem bitsetEncodeBytes_singleton (b : UInt8) :
    bitsetEncodeBytes [b] = if b = 0 then [] else [b] := by
  rw [bitsetEncodeBytes]
  simp

theorem bitsetEncodeBytes_of_two_le {d : List UInt8} (h : 2 ≤ d.length) :
    bitsetEncodeBytes d =
      if (gather d).2.length = 0 then [] else bitsetEncodeBytes (gather d).1 ++ (gather d).2 := by
  rw [bitsetEncodeBytes, dif_neg (by omega), if_neg (by omega)]

/-- A string of zeros encodes to nothing. -/
theorem bitsetEncodeBytes_of_forall_zero {d : List UInt8} (h : ∀ b ∈ d, b = 0) :
    bitsetEncodeBytes d = [] := by
  match d, h with
  | [], _ => exact bitsetEncodeBytes_nil
  | [b], h => rw [bitsetEncodeBytes_singleton, if_pos (h b (by simp))]
  | b₀ :: b₁ :: rest, h =>
    have hnz : (gather (b₀ :: b₁ :: rest)).2.length = 0 := by
      rw [(gather_spec _).2, List.length_eq_zero_iff, List.filter_eq_nil_iff]
      intro b hb
      simpa using h b hb
    rw [bitsetEncodeBytes_of_two_le (by simp), if_pos hnz]

/-! ### Decoding an encoding -/

/-- The test `nonZeroBitset[i/8]&(1<<byte(7-i%8)) != 0` of the decoding loop reads bit `i`. -/
theorem mask_ne_zero_iff (bits : List UInt8) (i : Nat) :
    (bits.getD (i / 8) 0 &&& 1 <<< (7 - i % 8).toUInt8 ≠ 0) ↔ bitAt bits i = true := by
  have hi : i % 8 < 8 := Nat.mod_lt i (by omega)
  have h := and_bitMask_eq_zero (bits.getD (i / 8) 0) hi
  rw [one_shiftLeft_eq_bitMask hi, bitAt]
  generalize bits.getD (i / 8) 0 &&& bitMask (i % 8) = x at h ⊢
  constructor
  · intro hne
    by_contra hb
    apply hne
    have hx : (x == 0) = true := by rw [h]; simpa using hb
    simpa using hx
  · intro hb hzero
    have hx : (x == 0) = true := by simp [hzero]
    rw [h, hb] at hx
    simp at hx

/-- `d` up to index `i` and zeros after it: what the decoding loop has written before it
visits bit `i`. -/
def fillTo (d : List UInt8) (i : Nat) : List UInt8 := d.take i ++ List.replicate (d.length - i) 0

theorem length_fillTo (d : List UInt8) (i : Nat) : (fillTo d i).length = d.length := by
  simp [fillTo]
  omega

theorem fillTo_zero (d : List UInt8) : fillTo d 0 = List.replicate d.length 0 := by
  simp [fillTo]

theorem fillTo_of_le {d : List UInt8} {i : Nat} (h : d.length ≤ i) : fillTo d i = d := by
  simp [fillTo, List.take_of_length_le h, Nat.sub_eq_zero_of_le h]

/-- Visiting a zero byte, or a position past the end, writes nothing. -/
theorem fillTo_succ_of_getD {d : List UInt8} {i : Nat} (h : d.getD i 0 = 0) :
    fillTo d (i + 1) = fillTo d i := by
  by_cases hi : i < d.length
  · have hdi : d[i] = 0 := by simpa [List.getD_eq_getElem?_getD, List.getElem?_eq_getElem hi] using h
    have hrep : List.replicate (d.length - i) (0 : UInt8) = 0 :: List.replicate (d.length - (i + 1)) 0 := by
      rw [show d.length - i = d.length - (i + 1) + 1 by omega, List.replicate_succ]
    simp [fillTo, List.take_add_one, List.getElem?_eq_getElem hi, hdi, hrep]
  · rw [fillTo_of_le (by omega), fillTo_of_le (by omega)]

/-- Visiting a nonzero byte writes it. -/
theorem set_fillTo {d : List UInt8} {i : Nat} (h : i < d.length) :
    (fillTo d i).set i d[i] = fillTo d (i + 1) := by
  have hrep : List.replicate (d.length - i) (0 : UInt8) = 0 :: List.replicate (d.length - (i + 1)) 0 := by
    rw [show d.length - i = d.length - (i + 1) + 1 by omega, List.replicate_succ]
  have hlen : (d.take i).length = i := by simp; omega
  rw [fillTo, fillTo, hrep, List.set_append_right _ _ (by omega), hlen, Nat.sub_self,
    List.set_cons_zero]
  rw [List.take_add_one, List.getElem?_eq_getElem h]
  simp only [Option.toList_some, List.append_assoc, List.singleton_append]

theorem filter_take_succ (d : List UInt8) (i : Nat) (f : UInt8 → Bool) :
    (d.take (i + 1)).filter f = (d.take i).filter f ++ (d[i]?.toList).filter f := by
  rw [List.take_add_one, List.filter_append]

/-- The nonzero byte at `i` is the one after those of `d.take i` among the nonzero bytes. -/
theorem getElem?_filter_take {d : List UInt8} {i : Nat} (h : i < d.length) (hd : d[i] ≠ 0) :
    (d.filter (· ≠ 0))[((d.take i).filter (· ≠ 0)).length]? = some d[i] := by
  have hsplit : d = d.take i ++ d[i] :: d.drop (i + 1) := by
    rw [← List.drop_eq_getElem_cons h, List.take_append_drop]
  have hf : d.filter (· ≠ 0) =
      (d.take i).filter (· ≠ 0) ++ d[i] :: (d.drop (i + 1)).filter (· ≠ 0) := by
    conv => lhs; rw [hsplit]
    rw [List.filter_append, List.filter_cons_of_pos (by simpa using hd)]
  rw [hf, List.getElem?_append_right (Nat.le_refl _), Nat.sub_self]
  rfl

/-- **The decoding loop over the nonzero bitset of `d`** writes `d` back, taking its
nonzero bytes in order from wherever they stand in the input. -/
theorem decodeLoop_fill {d B : List UInt8} (hB : Marks B d) (pre rest : List UInt8) (k : Nat) :
    ∀ i, decodeLoop (pre ++ d.filter (· ≠ 0) ++ rest) B (List.range' i k)
        (fillTo d i, pre.length + ((d.take i).filter (· ≠ 0)).length) =
      .ok (fillTo d (i + k), pre.length + ((d.take (i + k)).filter (· ≠ 0)).length) := by
  induction k with
  | zero => intro i; simp [decodeLoop]
  | succ k ih =>
    intro i
    rw [List.range'_succ, decodeLoop, show i + (k + 1) = i + 1 + k by omega, ← ih (i + 1)]
    by_cases hbit : bitAt B i = true
    · -- byte `i` is nonzero, and it is the next nonzero byte of the input
      have hdi : d.getD i 0 ≠ 0 := by rw [hB] at hbit; simpa using hbit
      have hi : i < d.length := by
        by_contra hge
        exact hdi (List.getD_eq_default _ _ (by omega))
      have hval : d[i] ≠ 0 := by
        simpa [List.getD_eq_getElem?_getD, List.getElem?_eq_getElem hi] using hdi
      have hnext := getElem?_filter_take hi hval
      have hlt : ((d.take i).filter (· ≠ 0)).length < (d.filter (· ≠ 0)).length := by
        by_contra hge
        rw [List.getElem?_eq_none (by omega)] at hnext
        cases hnext
      have hget : (pre ++ d.filter (· ≠ 0) ++ rest)[pre.length +
          ((d.take i).filter (· ≠ 0)).length]? = some d[i] := by
        rw [List.append_assoc, List.getElem?_append_right (by omega), Nat.add_sub_cancel_left,
          List.getElem?_append_left hlt, hnext]
      have hlen : pre.length + ((d.take i).filter (· ≠ 0)).length <
          (pre ++ d.filter (· ≠ 0) ++ rest).length := by
        simp only [List.length_append]
        omega
      have hdata : (pre ++ d.filter (· ≠ 0) ++ rest)[pre.length +
          ((d.take i).filter (· ≠ 0)).length] = d[i] := by
        rw [List.getElem_eq_iff]
        exact hget
      have hcount : ((d.take (i + 1)).filter (· ≠ 0)).length =
          ((d.take i).filter (· ≠ 0)).length + 1 := by
        rw [filter_take_succ, List.getElem?_eq_getElem hi]
        simp [hval]
      rw [if_pos ((mask_ne_zero_iff B i).mpr hbit), dif_neg (by omega),
        if_neg (by rw [length_fillTo]; omega)]
      simp only [hdata, hval, if_false]
      rw [set_fillTo hi, hcount, Nat.add_assoc]
    · -- byte `i` is zero or past the end: nothing is written or consumed
      have hdi : d.getD i 0 = 0 := by
        have h := hB i
        simp only [hbit, Bool.false_eq, bne_eq_false_iff_eq] at h
        exact h
      have hcount : ((d.take (i + 1)).filter (· ≠ 0)).length =
          ((d.take i).filter (· ≠ 0)).length := by
        rw [filter_take_succ]
        cases hd : d[i]? with
        | none => simp
        | some b =>
          have hb : b = 0 := by simpa [List.getD_eq_getElem?_getD, hd] using hdi
          simp [hb]
      rw [if_neg (fun h => hbit ((mask_ne_zero_iff B i).mp h)), fillTo_succ_of_getD hdi, hcount]

/-- The bitset of a string with a nonzero byte has a nonzero byte. -/
theorem exists_ne_zero_of_marks {B d : List UInt8} (hB : Marks B d) (hd : ∃ b ∈ d, b ≠ 0) :
    ∃ b ∈ B, b ≠ 0 := by
  obtain ⟨b, hb, hb0⟩ := hd
  obtain ⟨p, hp, rfl⟩ := List.getElem_of_mem hb
  by_contra hz
  push Not at hz
  have hrep : B = List.replicate B.length 0 := List.eq_replicate_iff.mpr ⟨rfl, hz⟩
  have h := hB p
  rw [hrep, bitAt_replicate_zero] at h
  simp [List.getD_eq_getElem?_getD, List.getElem?_eq_getElem hp, hb0] at h

/-- **Decoding an encoding**, followed by anything the encoding does not need, gives the
string back and consumes exactly the encoding. The encoding of a string of zeros is empty,
and then nothing may follow it. -/
theorem bitsetDecodePartialBytes_encode (d rest : List UInt8)
    (hrest : rest = [] ∨ ∃ b ∈ d, b ≠ 0) :
    bitsetDecodePartialBytes (bitsetEncodeBytes d ++ rest) d.length =
      .ok (d, (bitsetEncodeBytes d).length) := by
  obtain ⟨n, hn⟩ : ∃ n, d.length = n := ⟨_, rfl⟩
  -- strong induction on the length: the bitset of `d` is shorter than `d`
  induction n using Nat.strong_induction_on generalizing d rest with
  | _ n ih =>
    by_cases hz : ∀ b ∈ d, b = 0
    · -- a string of zeros: an empty encoding, and nothing after it
      have hrest' : rest = [] := hrest.resolve_right (by simpa using hz)
      rw [bitsetEncodeBytes_of_forall_zero hz, hrest', List.append_nil, hn]
      rcases Nat.eq_zero_or_pos n with h0 | hpos
      · rw [h0, bitsetDecodePartialBytes_zero, List.eq_nil_of_length_eq_zero (hn.trans h0)]
        rfl
      · rw [bitsetDecodePartialBytes_nil (by omega), List.eq_replicate_iff.mpr ⟨hn, hz⟩]
        rfl
    push Not at hz
    obtain ⟨b, hb, hb0⟩ := hz
    have hpos : 0 < n := hn ▸ List.length_pos_of_mem hb
    rcases Nat.lt_or_ge n 2 with h1 | h2
    · -- a single nonzero byte stands for itself
      obtain ⟨c, rfl⟩ := List.length_eq_one_iff.mp (show d.length = 1 by omega)
      obtain rfl : b = c := List.mem_singleton.mp hb
      rw [bitsetEncodeBytes_singleton, if_neg hb0]
      simp [bitsetDecodePartialBytes_one, hb0]
    -- the bitset `B` of `d`, encoded, then the nonzero bytes `N` of `d`
    obtain ⟨hB, hN⟩ := gather_spec d
    have hNne : d.filter (· ≠ 0) ≠ [] := by
      rw [← List.length_pos_iff, List.length_pos_iff_exists_mem]
      exact ⟨b, List.mem_filter.mpr ⟨hb, by simpa using hb0⟩⟩
    have henc : bitsetEncodeBytes d = bitsetEncodeBytes (gather d).1 ++ d.filter (· ≠ 0) := by
      rw [bitsetEncodeBytes_of_two_le (by omega), hN, if_neg (by simpa using hNne)]
    have hBlen : (gather d).1.length = (n + 7) / 8 := by rw [length_gather_fst, hn]
    have hdata : bitsetEncodeBytes d ++ rest ≠ [] := by
      rw [henc, List.append_assoc]
      exact List.append_ne_nil_of_right_ne_nil _ (List.append_ne_nil_of_left_ne_nil hNne _)
    -- the bitset decodes first, from the front of the same input
    have hbits : bitsetDecodePartialBytes (bitsetEncodeBytes d ++ rest) ((n + 7) / 8) =
        .ok ((gather d).1, (bitsetEncodeBytes (gather d).1).length) := by
      rw [henc, List.append_assoc, ← hBlen]
      exact ih _ (by omega) _ _ (.inr (exists_ne_zero_of_marks hB ⟨b, hb, hb0⟩)) rfl
    -- and the loop over its bits fills in the nonzero bytes
    have hloop := decodeLoop_fill hB (bitsetEncodeBytes (gather d).1) rest
      (8 * (gather d).1.length) 0
    have hcover : d.length ≤ 8 * (gather d).1.length := by omega
    simp only [fillTo_zero, List.take_zero, List.filter_nil, List.length_nil, Nat.add_zero,
      Nat.zero_add, fillTo_of_le hcover, List.take_of_length_le hcover] at hloop
    rw [hn, bitsetDecodePartialBytes_of_two_le hdata h2, hbits, henc, List.length_append,
      ← hloop, ← hn]
    simp only [bind, Except.bind, List.range_eq_range']

/-! ### What a decoding consumed -/

theorem getD_replicate_zero (n j : Nat) : (List.replicate n (0 : UInt8)).getD j 0 = 0 := by
  by_cases h : j < n
  · simp [List.getD_eq_getElem?_getD, h]
  · exact List.getD_eq_default _ _ (by simp; omega)

/-- The window `[i, i + k + 1)` of `d` is byte `i` followed by the window `[i + 1, i + k + 1)`. -/
theorem filter_drop_take_succ (d : List UInt8) (i k : Nat) (f : UInt8 → Bool) :
    ((d.drop i).take (k + 1)).filter f = (d[i]?.toList ++ (d.drop (i + 1)).take k).filter f := by
  by_cases h : i < d.length
  · rw [List.drop_eq_getElem_cons h, List.take_succ_cons, List.getElem?_eq_getElem h]
    rfl
  · rw [List.drop_eq_nil_of_le (by omega), List.drop_eq_nil_of_le (by omega),
      List.getElem?_eq_none (by omega)]
    simp

/-- What a successful run of the decoding loop over the window `[i, i + k)` did, from
`(decomp, ptr)` to `(d, p)`: it kept the length and every byte outside the window, made the
nonzero bytes of the window those whose bits are set, and took them, in order, from the input
at `ptr`. -/
structure Filled (c B decomp d : List UInt8) (i k ptr p : Nat) : Prop where
  length : d.length = decomp.length
  within : p ≤ c.length
  frame : ∀ j, j < i ∨ i + k ≤ j → d.getD j 0 = decomp.getD j 0
  marks : ∀ j, i ≤ j → j < i + k → bitAt B j = (d.getD j 0 != 0)
  consumed : c.drop ptr = ((d.drop i).take k).filter (· ≠ 0) ++ c.drop p

/-- **The decoding loop, read backwards**: a successful run over a window of zeros fills it
as `Filled` says. -/
theorem decodeLoop_filled {c B : List UInt8} (k : Nat) :
    ∀ i decomp ptr d p, decodeLoop c B (List.range' i k) (decomp, ptr) = .ok (d, p) →
      ptr ≤ c.length → (∀ j, i ≤ j → decomp.getD j 0 = 0) →
      Filled c B decomp d i k ptr p := by
  induction k with
  | zero =>
    intro i decomp ptr d p h hptr _
    simp only [List.range'_zero, decodeLoop, Except.ok.injEq, Prod.mk.injEq] at h
    obtain ⟨rfl, rfl⟩ := h
    exact ⟨rfl, hptr, fun _ _ => rfl, fun j h1 h2 => absurd h2 (by omega), by simp⟩
  | succ k ih =>
    intro i decomp ptr d p h hptr hzero
    rw [List.range'_succ, decodeLoop] at h
    by_cases hbit : bitAt B i = true
    · -- a set bit: the next input byte, which the loop checks is there and nonzero
      rw [if_pos ((mask_ne_zero_iff B i).mpr hbit)] at h
      by_cases hc : c.length ≤ ptr
      · rw [dif_pos hc] at h; cases h
      rw [dif_neg hc] at h
      by_cases hi : decomp.length ≤ i
      · rw [if_pos hi] at h; cases h
      rw [if_neg hi] at h
      by_cases h0 : (c)[ptr] = 0
      · rw [if_pos h0] at h; cases h
      rw [if_neg h0] at h
      have hzero' : ∀ j, i + 1 ≤ j → (decomp.set i (c)[ptr]).getD j 0 = 0 := by
        intro j hj
        rw [List.getD_eq_getElem?_getD, List.getElem?_set_ne (by omega),
          ← List.getD_eq_getElem?_getD, hzero j (by omega)]
      have hrun := ih (i + 1) _ _ d p h (by omega) hzero'
      have hdi : d[i]? = some (c)[ptr] := by
        have hf := hrun.frame i (.inl (by omega))
        have hlen : i < d.length := by rw [hrun.length, List.length_set]; omega
        rw [List.getD_eq_getElem?_getD, List.getD_eq_getElem?_getD, List.getElem?_set_self
          (by omega), List.getElem?_eq_getElem hlen] at hf
        rw [List.getElem?_eq_getElem hlen]
        simpa using hf
      refine ⟨by rw [hrun.length, List.length_set], hrun.within, ?_, ?_, ?_⟩
      · intro j hj
        rw [hrun.frame j (by omega), List.getD_eq_getElem?_getD, List.getD_eq_getElem?_getD,
          List.getElem?_set_ne (by omega)]
      · intro j hj1 hj2
        rcases Nat.eq_or_lt_of_le hj1 with rfl | hlt
        · rw [hbit, List.getD_eq_getElem?_getD, hdi]
          simpa using h0
        · exact hrun.marks j (by omega) (by omega)
      · rw [List.drop_eq_getElem_cons (by omega), filter_drop_take_succ, hdi, hrun.consumed]
        simp [h0]
    · -- a clear bit: the byte stays zero and nothing is consumed
      rw [if_neg (fun h => hbit ((mask_ne_zero_iff B i).mp h))] at h
      have hrun := ih (i + 1) _ _ d p h hptr (fun j hj => hzero j (by omega))
      have hdi : d.getD i 0 = 0 := by
        rw [hrun.frame i (.inl (by omega)), hzero i le_rfl]
      refine ⟨hrun.length, hrun.within, fun j hj => hrun.frame j (by omega), ?_, ?_⟩
      · intro j hj1 hj2
        rcases Nat.eq_or_lt_of_le hj1 with rfl | hlt
        · rw [hdi]
          simpa using hbit
        · exact hrun.marks j (by omega) (by omega)
      · rw [hrun.consumed, filter_drop_take_succ]
        cases hd : d[i]? with
        | none => simp
        | some b =>
          have hb : b = 0 := by simpa [List.getD_eq_getElem?_getD, hd] using hdi
          simp [hb]

/-- The bitset of a string of zeros is zeros. -/
theorem eq_replicate_of_marks {B d : List UInt8} (hB : Marks B d) (hd : ∀ b ∈ d, b = 0) :
    B = List.replicate B.length 0 := by
  have hrep : d = List.replicate d.length 0 := List.eq_replicate_iff.mpr ⟨rfl, hd⟩
  refine eq_of_bitAt_eq (by simp) fun p => ?_
  rw [hB p, bitAt_replicate_zero, hrep, getD_replicate_zero]
  rfl

/-- **What a decoding consumed is an encoding**: a successful `bitsetDecodePartialBytes`
returns a string of the target length, and the bytes it used are the encoding of that
string. -/
theorem encode_of_bitsetDecodePartialBytes (t : Nat) :
    ∀ c d p, bitsetDecodePartialBytes c t = .ok (d, p) →
      d.length = t ∧ p ≤ c.length ∧ bitsetEncodeBytes d = c.take p := by
  -- strong induction on the target: the bitset is decoded with a smaller one
  induction t using Nat.strong_induction_on with
  | _ t ih =>
  intro c d p h
  by_cases h0 : t = 0
  · subst h0
    rw [bitsetDecodePartialBytes_zero] at h
    cases h
    simp [bitsetEncodeBytes_nil]
  cases c with
  | nil =>
    -- no input: a string of zeros
    rw [bitsetDecodePartialBytes_nil h0] at h
    cases h
    refine ⟨List.length_replicate, le_rfl, ?_⟩
    rw [bitsetEncodeBytes_of_forall_zero fun b hb => List.eq_of_mem_replicate hb]
    rfl
  | cons b cs =>
  by_cases h1 : t = 1
  · -- one byte, used when it is nonzero
    subst h1
    rw [bitsetDecodePartialBytes_one] at h
    cases h
    by_cases hb : b = 0 <;> simp [hb, bitsetEncodeBytes_singleton]
  -- the bitset `B` first, from the first `ptr` bytes of the input
  rw [bitsetDecodePartialBytes_of_two_le (List.cons_ne_nil _ _) (by omega)] at h
  cases hbits : bitsetDecodePartialBytes (b :: cs) ((t + 7) / 8) with
  | error e => rw [hbits] at h; cases h
  | ok r =>
  obtain ⟨B, ptr⟩ := r
  rw [hbits] at h
  simp only [bind, Except.bind, List.range_eq_range'] at h
  obtain ⟨hBlen, hptr, hencB⟩ := ih _ (by omega) _ _ _ hbits
  -- then the loop over its bits
  have hrun := decodeLoop_filled _ _ _ _ _ _ h hptr fun j _ => getD_replicate_zero t j
  have hdlen : d.length = t := by rw [hrun.length, List.length_replicate]
  have hcover : t ≤ 8 * B.length := by omega
  have hmarks : Marks B d := by
    intro j
    by_cases hj : j < 8 * B.length
    · exact hrun.marks j (Nat.zero_le _) (by omega)
    · rw [bitAt_of_length_le (by omega), hrun.frame j (.inr (by omega)), getD_replicate_zero]
      rfl
  have hcons : (b :: cs).drop ptr = d.filter (· ≠ 0) ++ (b :: cs).drop p := by
    rw [hrun.consumed, List.drop_zero, List.take_of_length_le (by omega)]
  have hlen := congrArg List.length hcons
  simp only [List.length_drop, List.length_append] at hlen
  have hwithin := hrun.within
  -- the bitset the encoder would gather from `d` is `B`
  have hgather : (gather d).1 = B :=
    eq_of_bitAt_eq (by rw [length_gather_fst, hdlen, hBlen])
      fun j => by rw [(gather_spec d).1 j, hmarks j]
  refine ⟨hdlen, hwithin, ?_⟩
  by_cases hz : ∀ x ∈ d, x = 0
  · -- zeros: the bitset is zeros too, its encoding is empty, and nothing was used
    have hB0 : bitsetEncodeBytes B = [] := by
      rw [eq_replicate_of_marks hmarks hz]
      exact bitsetEncodeBytes_of_forall_zero fun x hx => List.eq_of_mem_replicate hx
    have hptr0 : ptr = 0 := by
      rw [hB0, eq_comm, List.take_eq_nil_iff] at hencB
      simpa using hencB
    have hF : (d.filter (· ≠ 0)).length = 0 := by
      rw [List.length_eq_zero_iff, List.filter_eq_nil_iff]
      simpa using hz
    have hp : p = 0 := by omega
    rw [bitsetEncodeBytes_of_forall_zero hz, hp, List.take_zero]
  · -- otherwise the encoding of `B`, then the nonzero bytes of `d`
    have hNne : (gather d).2.length ≠ 0 := by
      rw [(gather_spec d).2, Ne, List.length_eq_zero_iff, List.filter_eq_nil_iff]
      simpa using hz
    have hsplit : p = ptr + (d.filter (· ≠ 0)).length := by omega
    rw [bitsetEncodeBytes_of_two_le (by omega), if_neg hNne, hgather, (gather_spec d).2, hencB,
      hsplit, List.take_add, hcons, List.take_left' rfl]

/-! ### The codec -/

/-- `bitsetDecodeBytes` succeeds exactly when the partial decoding uses the whole input. -/
theorem bitsetDecodeBytes_eq_ok {c d : List UInt8} {t : Nat} :
    bitsetDecodeBytes c t = .ok d ↔ bitsetDecodePartialBytes c t = .ok (d, c.length) := by
  unfold bitsetDecodeBytes
  cases bitsetDecodePartialBytes c t with
  | error e => simp [bind, Except.bind]
  | ok r =>
    obtain ⟨out, size⟩ := r
    by_cases hs : size = c.length
    · simp [bind, Except.bind, hs, pure, Except.pure]
    · simp [bind, Except.bind, hs, throw, throwThe, MonadExceptOf.throw, Except.ok.injEq]

theorem bitsetDecodeBytes_encode (d : List UInt8) :
    bitsetDecodeBytes (bitsetEncodeBytes d) d.length = .ok d := by
  have h := bitsetDecodePartialBytes_encode d [] (.inl rfl)
  rw [List.append_nil] at h
  exact bitsetDecodeBytes_eq_ok.mpr h

/-- **What `CompressBytes` writes, `DecompressBytes` reads back**, given the length of the
data: the encoding when it is shorter, else the data itself. -/
theorem decompressBytes_compressBytes (d : List UInt8) :
    decompressBytes (compressBytes d) d.length = .ok d := by
  unfold compressBytes decompressBytes
  by_cases hlt : (bitsetEncodeBytes d).length < d.length
  · rw [if_pos hlt, if_neg (by omega), if_neg (by omega), bitsetDecodeBytes_encode]
  · rw [if_neg hlt, if_neg (by omega), if_pos rfl]

theorem bitset_codec_bijective :
    (∀ d : List UInt8, bitsetDecodeBytes (bitsetEncodeBytes d) d.length = .ok d ∧
        decompressBytes (compressBytes d) d.length = .ok d) ∧
      ∀ (t : Nat) (c d : List UInt8), bitsetDecodeBytes c t = .ok d → bitsetEncodeBytes d = c := by
  refine ⟨fun d => ⟨bitsetDecodeBytes_encode d, ?_⟩, fun t c d h => ?_⟩
  · -- the compressed form is the encoding only when that is shorter
    unfold compressBytes decompressBytes
    by_cases hlt : (bitsetEncodeBytes d).length < d.length
    · rw [if_pos hlt, if_neg (by omega), if_neg (by omega), bitsetDecodeBytes_encode]
    · rw [if_neg hlt, if_neg (by omega), if_pos rfl]
  · obtain ⟨-, -, henc⟩ := encode_of_bitsetDecodePartialBytes t c d c.length
      (bitsetDecodeBytes_eq_ok.mp h)
    rw [henc, List.take_length]

end Bitutil
