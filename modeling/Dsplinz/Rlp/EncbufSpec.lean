import Dsplinz.Rlp.Encbuf

/-!
# What the encoder writes

The encoder of `Dsplinz.Rlp.Encbuf` defers every list header to the end, and three
separate loops splice them in. This file shows that all of that bookkeeping adds up.

* **Integers.** `putint` writes the shortest big-endian form, `intsize` counts it,
  and `puthead` is `Rlp.header` (`Rlp.puthead_eq_header`).
* **Writing a value.** `Rlp.writeValue v w` appends the value's string data to `w.str`,
  appends one finished `listhead` per list of the value – offset shifted to where the
  value starts, size already final – and adds their header lengths to `lhsize`
  (`Rlp.writeValue_eq`). Whatever lists are still open around the value, the sizes
  computed by `listEnd` are the payload sizes: the `lhsize` bookkeeping of nested
  lists is exact at every depth.
* **The layout.** A buffer in that shape – headers in order, inside the string data,
  `lhsize` their total length – is `Rlp.Encbuf.Layout`; its contents are
  `Rlp.splice`, string segments interleaved with headers.
-/

namespace Rlp

open BigEndian GoSlice

/-! ### Integers and headers -/

theorem toUInt8_eq (i : UInt64) : i.toUInt8 = UInt8.ofNat i.toNat := by
  apply UInt8.toNat_inj.mp
  rw [UInt64.toNat_toUInt8, toNat_ofNat_byte]

theorem toUInt8_shiftRight (i b : UInt64) :
    (i >>> b).toUInt8 = UInt8.ofNat (i.toNat / 2 ^ (b.toNat % 64)) := by
  rw [toUInt8_eq, UInt64.toNat_shiftRight, Nat.shiftRight_eq_div_pow]

theorem intsize_go (i : UInt64) (size : Nat) :
    intsize.go i size = size + byteLen i.toNat - 1 := by
  induction i, size using intsize.go.induct with
  | case1 i size h =>
    have hi : i.toNat < 256 := by
      have := congrArg UInt64.toNat h
      rw [UInt64.toNat_shiftRight, Nat.shiftRight_eq_div_pow] at this
      simp at this
      omega
    rw [intsize.go, if_pos h, byteLen_of_lt hi]
    omega
  | case2 i size h ih =>
    have h8 : (i >>> 8).toNat = i.toNat / 256 := by
      rw [UInt64.toNat_shiftRight, Nat.shiftRight_eq_div_pow]
      rfl
    have hi : 256 ≤ i.toNat := by
      by_contra hlt
      exact h (UInt64.toNat_inj.mp (by rw [h8]; simp; omega))
    rw [intsize.go, if_neg h, ih, h8, byteLen_of_le hi]
    omega

/-- **`intsize` counts the bytes of the shortest big-endian form.** -/
theorem intsize_eq (i : UInt64) : intsize i = byteLen i.toNat := by
  rw [intsize, intsize_go]
  omega

/-- **`putint` writes the shortest big-endian form**, whichever case of its `switch` runs. -/
theorem putint_eq (i : UInt64) : putint i = lowBytes i.toNat (byteLen i.toNat) := by
  have hi : i.toNat < 256 ^ 8 := i.toNat_lt
  -- the bounds of the `switch`, as numbers
  have e8 : ((1 : UInt64) <<< 8).toNat = 256 ^ 1 := by decide
  have e16 : ((1 : UInt64) <<< 16).toNat = 256 ^ 2 := by decide
  have e24 : ((1 : UInt64) <<< 24).toNat = 256 ^ 3 := by decide
  have e32 : ((1 : UInt64) <<< 32).toNat = 256 ^ 4 := by decide
  have e40 : ((1 : UInt64) <<< 40).toNat = 256 ^ 5 := by decide
  have e48 : ((1 : UInt64) <<< 48).toNat = 256 ^ 6 := by decide
  have e56 : ((1 : UInt64) <<< 56).toNat = 256 ^ 7 := by decide
  unfold putint
  simp only [toUInt8_eq, UInt64.toNat_shiftRight, Nat.shiftRight_eq_div_pow,
    UInt64.lt_iff_toNat_lt, e8, e16, e24, e32, e40, e48, e56]
  -- each case of the `switch` writes the bytes of one length, which is the shortest one
  split_ifs with h1 h2 h3 h4 h5 h6 h7
  · rw [byteLen_eq (k := 1) le_rfl (.inl rfl) h1]
    simp [lowBytes]
  · rw [byteLen_eq (k := 2) (by norm_num) (.inr (by simpa using h1)) h2]
    simp [lowBytes, List.range_succ]
  · rw [byteLen_eq (k := 3) (by norm_num) (.inr (by simpa using h2)) h3]
    simp [lowBytes, List.range_succ]
  · rw [byteLen_eq (k := 4) (by norm_num) (.inr (by simpa using h3)) h4]
    simp [lowBytes, List.range_succ]
  · rw [byteLen_eq (k := 5) (by norm_num) (.inr (by simpa using h4)) h5]
    simp [lowBytes, List.range_succ]
  · rw [byteLen_eq (k := 6) (by norm_num) (.inr (by simpa using h5)) h6]
    simp [lowBytes, List.range_succ]
  · rw [byteLen_eq (k := 7) (by norm_num) (.inr (by simpa using h6)) h7]
    simp [lowBytes, List.range_succ]
  · rw [byteLen_eq (k := 8) (by norm_num) (.inr (by simpa using h7)) hi]
    simp [lowBytes, List.range_succ]

@[simp] theorem length_putint (i : UInt64) : (putint i).length = intsize i := by
  rw [putint_eq, length_lowBytes, intsize_eq]

/-- **`puthead` writes `Rlp.header`**, for every size a Go length can have. -/
theorem puthead_eq_header (small large : UInt8) {n : Nat} (hn : n < 2 ^ 64) :
    puthead small large (UInt64.ofNat n) = header small large n := by
  have hnat := UInt64.toNat_ofNat_of_lt' hn
  unfold puthead header
  by_cases h : n < 56
  · have h' : UInt64.ofNat n < 56 := by rw [UInt64.lt_iff_toNat_lt, hnat]; simpa using h
    rw [if_pos h', if_pos h, toUInt8_eq, hnat]
  · have h' : ¬UInt64.ofNat n < 56 := by rw [UInt64.lt_iff_toNat_lt, hnat]; simpa using h
    rw [if_neg h', if_neg h, putint_eq, hnat]
    simp only [length_lowBytes]

@[simp] theorem length_puthead (small large : UInt8) (size : UInt64) :
    (puthead small large size).length = headsize size := by
  unfold puthead headsize
  split <;> simp [Nat.add_comm]

/-- What `listEnd` adds to `lhsize` for a list of `size` bytes. -/
def headerBytes (size : Nat) : Nat :=
  if size < 56 then 1 else 1 + intsize (UInt64.ofNat size)

/-- The header `listEnd` counts is the header `toBytes` writes. -/
theorem length_encode {h : Listhead} (hs : h.size < 2 ^ 64) :
    h.encode.length = headerBytes h.size := by
  have hnat := UInt64.toNat_ofNat_of_lt' hs
  rw [Listhead.encode, length_puthead, headsize, headerBytes]
  by_cases h56 : h.size < 56
  · rw [if_pos (by rw [UInt64.lt_iff_toNat_lt, hnat]; simpa using h56), if_pos h56]
  · rw [if_neg (by rw [UInt64.lt_iff_toNat_lt, hnat]; simpa using h56), if_neg h56]

theorem headerBytes_eq {n : Nat} (hn : n < 2 ^ 64) : headerBytes n = headerLen n := by
  rw [headerBytes, headerLen, intsize_eq, UInt64.toNat_ofNat_of_lt' hn]

/-! ### Writing into a buffer that already holds data -/

namespace Encbuf

/-- `w` followed by the writes that produced `e` from an empty buffer: `e`'s string data
and headers placed after `w`'s. -/
def extend (w e : Encbuf) : Encbuf :=
  ⟨w.str ++ e.str, w.lheads ++ e.lheads.map fun h => ⟨w.str.length + h.offset, h.size⟩,
    w.lhsize + e.lhsize⟩

@[simp] theorem extend_reset (w : Encbuf) : w.extend reset = w := by
  simp [extend, reset]

@[simp] theorem reset_extend (e : Encbuf) : reset.extend e = e := by
  simp [extend, reset]

theorem extend_assoc (w e f : Encbuf) : (w.extend e).extend f = w.extend (e.extend f) := by
  simp only [extend, List.append_assoc, List.map_append, List.map_map, List.length_append,
    Nat.add_assoc, mk.injEq, true_and, and_true]
  rfl

@[simp] theorem size_extend (w e : Encbuf) : (w.extend e).size = w.size + e.size := by
  simp only [size, extend, List.length_append]
  omega

/-- Appending bytes is extending by a buffer of string data alone. -/
theorem append_eq_extend (w : Encbuf) (b : List UInt8) : w.append b = w.extend (reset.append b) := by
  simp [append, extend, reset]

theorem encodeString_eq_extend (w : Encbuf) (b : List UInt8) :
    w.encodeString b = w.extend (reset.encodeString b) := by
  unfold encodeString encodeStringHeader
  split_ifs <;> simp [append, extend, reset]

theorem getD_open {α : Type} (l rest : List α) (x d : α) : (l ++ [x] ++ rest).getD l.length d = x := by
  simp [List.getD_eq_getElem?_getD]

theorem set_open {α : Type} (l rest : List α) (x y : α) :
    (l ++ [x] ++ rest).set l.length y = l ++ [y] ++ rest := by
  simp [List.set_append_right]

/-- **Closing a list that was opened on top of `w`** is closing it in an empty buffer and
placing the result after `w`: the size `listEnd` computes does not depend on what came
before the list. -/
theorem listEnd_extend (w e : Encbuf) :
    ((w.list.2).extend e).listEnd w.list.1 = w.extend (((reset.list.2).extend e).listEnd 0) := by
  have hw : (w.str ++ e.str).length + (w.lhsize + e.lhsize) - w.str.length - w.lhsize =
      e.str.length + e.lhsize := by
    simp only [List.length_append]
    omega
  have he : ([] ++ e.str).length + (0 + e.lhsize) - 0 - 0 = e.str.length + e.lhsize := by
    simp
  simp only [list, extend, listEnd, reset, size, getD_open, set_open, hw]
  simp only [List.length_nil] at he ⊢
  simp [Nat.add_assoc]

end Encbuf

open Encbuf

theorem writeUint_eq_extend (w : Encbuf) (i : UInt64) :
    writeUint w i = w.extend (writeUint reset i) := by
  unfold writeUint
  split_ifs <;> rw [append_eq_extend]

theorem writeBool_eq_extend (w : Encbuf) (b : Bool) :
    writeBool w b = w.extend (writeBool reset b) := by
  unfold writeBool
  split_ifs <;> rw [append_eq_extend]

theorem writeString_eq_extend (w : Encbuf) (s : List UInt8) :
    writeString w s = w.extend (writeString reset s) := by
  unfold writeString encodeStringHeader
  split_ifs <;> simp [append, extend, reset]

theorem writeBigInt_eq_extend (w : Encbuf) (i : Int) :
    writeBigInt w i = (writeBigInt reset i).map w.extend := by
  unfold writeBigInt
  split_ifs
  · rfl
  · simp only [Except.map]
    rw [append_eq_extend]
  · simp only [Except.map]
    rw [encodeString_eq_extend]

theorem writeValue_list (vs : List Value) (w : Encbuf) :
    writeValue (.list vs) w = (writeValues vs w.list.2).map fun e => e.listEnd w.list.1 := by
  rw [writeValue]

theorem writeValues_cons (v : Value) (vs : List Value) (w : Encbuf) :
    writeValues (v :: vs) w = (writeValue v w).bind (writeValues vs) := by
  rw [writeValues]

theorem map_map_except {α β γ : Type} (x : Except String α) (f : α → β) (g : β → γ) :
    (x.map f).map g = x.map (g ∘ f) := by
  cases x <;> rfl

mutual
/-- **The frame lemma of the encoder**: writing a value into a buffer that already holds
data is writing it into an empty buffer and placing the result after that data. -/
theorem writeValue_extend : ∀ (v : Value) (w : Encbuf),
    writeValue v w = (writeValue v reset).map w.extend
  | .uint i, w => by
    simp only [writeValue, Except.map]
    rw [writeUint_eq_extend]
  | .bool b, w => by
    simp only [writeValue, Except.map]
    rw [writeBool_eq_extend]
  | .bigInt i, w => by
    simp only [writeValue]
    exact writeBigInt_eq_extend w i
  | .string s, w => by
    simp only [writeValue, Except.map]
    rw [writeString_eq_extend]
  | .bytes b, w => by
    simp only [writeValue, Except.map]
    rw [encodeString_eq_extend]
  | .raw b, w => by
    simp only [writeValue, Except.map]
    rw [append_eq_extend]
  | .nilInterface, w => by
    simp only [writeValue, Except.map]
    rw [append_eq_extend]
  | .list vs, w => by
    rw [writeValue_list, writeValue_list, writeValues_extend vs w.list.2,
      writeValues_extend vs reset.list.2, map_map_except, map_map_except, map_map_except]
    congr 1
    funext e
    exact listEnd_extend w e
  | .tail vs, w => by
    simp only [writeValue]
    exact writeValues_extend vs w
/-- The frame lemma for the elements of a slice. -/
theorem writeValues_extend : ∀ (vs : List Value) (w : Encbuf),
    writeValues vs w = (writeValues vs reset).map w.extend
  | [], w => by
    simp [writeValues, Except.map]
  | v :: vs, w => by
    rw [writeValues_cons, writeValues_cons, writeValue_extend v w]
    cases writeValue v reset with
    | error err => rfl
    | ok e =>
      simp only [Except.map, Except.bind]
      rw [writeValues_extend vs (w.extend e), writeValues_extend vs e]
      cases writeValues vs reset with
      | error err => rfl
      | ok f => simp only [Except.map, extend_assoc]
end

/-! ### Lists and sequences, written from an empty buffer -/

namespace Encbuf

/-- A finished list around the buffer `e`: its header goes first, and counts. -/
def closeList (e : Encbuf) : Encbuf :=
  ⟨e.str, ⟨0, e.size⟩ :: e.lheads, e.lhsize + headerBytes e.size⟩

theorem listEnd_open (e : Encbuf) : ((reset.list.2).extend e).listEnd 0 = closeList e := by
  have he : ([] ++ e.str).length + (0 + e.lhsize) - 0 - 0 = e.size := by
    simp [size]
  simp only [list, extend, listEnd, reset, closeList, headerBytes, size]
  simp only [List.length_nil] at he ⊢
  simp

end Encbuf

theorem writeValue_list_reset (vs : List Value) :
    writeValue (.list vs) reset = (writeValues vs reset).map closeList := by
  rw [writeValue_list, writeValues_extend, map_map_except]
  congr 1
  funext e
  exact listEnd_open e

theorem writeValues_cons_reset (v : Value) (vs : List Value) :
    writeValues (v :: vs) reset =
      (writeValue v reset).bind fun e => (writeValues vs reset).map e.extend := by
  rw [writeValues_cons]
  cases writeValue v reset with
  | error err => rfl
  | ok e => exact writeValues_extend vs e

/-! ### The layout of a finished buffer -/

namespace Encbuf

/-- **The layout of a buffer whose lists are all closed**: headers in the order of their
positions, every position inside the string data, every size below the total, and
`lhsize` the sum of the header lengths `listEnd` counted. -/
structure Layout (w : Encbuf) : Prop where
  sorted : w.lheads.Pairwise fun a b => a.offset ≤ b.offset
  inside : ∀ h ∈ w.lheads, h.offset ≤ w.str.length
  bounded : ∀ h ∈ w.lheads, h.size < w.size
  lhsize : w.lhsize = (w.lheads.map fun h => headerBytes h.size).sum

theorem layout_reset : Layout reset :=
  ⟨List.Pairwise.nil, by simp [reset], by simp [reset], rfl⟩

theorem layout_append {w : Encbuf} (b : List UInt8) (hw : Layout w) : Layout (w.append b) := by
  obtain ⟨hs, hi, hb, hl⟩ := hw
  refine ⟨hs, fun h hh => ?_, fun h hh => ?_, hl⟩
  · have := hi h hh
    simp only [append, List.length_append]
    omega
  · have := hb h hh
    simp only [append, size, List.length_append] at this ⊢
    omega

theorem layout_extend {w e : Encbuf} (hw : Layout w) (he : Layout e) : Layout (w.extend e) := by
  obtain ⟨hws, hwi, hwb, hwl⟩ := hw
  obtain ⟨hes, hei, heb, hel⟩ := he
  refine ⟨?_, ?_, ?_, ?_⟩
  · -- the headers of `w` all come before the end of its data, where those of `e` start
    refine List.pairwise_append.mpr ⟨hws, ?_, fun a ha b hb => ?_⟩
    · exact List.pairwise_map.mpr (hes.imp fun h => by simp only; omega)
    · obtain ⟨b', -, rfl⟩ := List.mem_map.mp hb
      have := hwi a ha
      simp only
      omega
  · intro h hh
    rcases List.mem_append.mp hh with hh | hh
    · have := hwi h hh
      simp only [extend, List.length_append]
      omega
    · obtain ⟨h', hh', rfl⟩ := List.mem_map.mp hh
      have := hei h' hh'
      simp only [extend, List.length_append]
      omega
  · intro h hh
    rw [size_extend]
    rcases List.mem_append.mp hh with hh | hh
    · have := hwb h hh
      omega
    · obtain ⟨h', hh', rfl⟩ := List.mem_map.mp hh
      have := heb h' hh'
      simp only
      omega
  · simp only [extend, List.map_append, List.map_map, List.sum_append, hwl, hel]
    rfl

theorem one_le_headerBytes (n : Nat) : 1 ≤ headerBytes n := by
  unfold headerBytes
  split <;> omega

theorem layout_closeList {e : Encbuf} (he : Layout e) : Layout (closeList e) := by
  obtain ⟨hs, hi, hb, hl⟩ := he
  have h1 := one_le_headerBytes e.size
  have hsize : (closeList e).size = e.size + headerBytes e.size := by
    simp only [closeList, size]
    omega
  refine ⟨List.pairwise_cons.mpr ⟨fun _ _ => Nat.zero_le _, hs⟩, ?_, ?_, ?_⟩
  · intro h hh
    rcases List.mem_cons.mp hh with rfl | hh
    · exact Nat.zero_le _
    · exact hi h hh
  · intro h hh
    rw [hsize]
    rcases List.mem_cons.mp hh with rfl | hh
    · simp only
      omega
    · have := hb h hh
      omega
  · simp only [closeList, List.map_cons, List.sum_cons, hl]
    omega

end Encbuf

mutual
/-- **Every buffer the writers produce has the layout `toBytes` relies on.** -/
theorem layout_writeValue : ∀ (v : Value) {e : Encbuf}, writeValue v reset = .ok e → Layout e
  | .uint i, e, h => by
    simp only [writeValue, Except.ok.injEq] at h
    subst h
    unfold writeUint
    split_ifs <;> exact layout_append _ layout_reset
  | .bool b, e, h => by
    simp only [writeValue, Except.ok.injEq] at h
    subst h
    unfold writeBool
    split_ifs <;> exact layout_append _ layout_reset
  | .bigInt i, e, h => by
    simp only [writeValue, writeBigInt] at h
    -- a negative integer is an error, which `split_ifs` discards
    split_ifs at h
    · cases h
      exact layout_append _ layout_reset
    · cases h
      unfold encodeString encodeStringHeader
      split_ifs <;> simp only [append] <;>
        exact layout_append _ (layout_append _ layout_reset)
  | .string s, e, h => by
    simp only [writeValue, Except.ok.injEq] at h
    subst h
    unfold writeString encodeStringHeader
    split_ifs <;> simp only [append] <;> exact layout_append _ (layout_append _ layout_reset)
  | .bytes b, e, h => by
    simp only [writeValue, Except.ok.injEq] at h
    subst h
    unfold encodeString encodeStringHeader
    split_ifs <;> simp only [append] <;> exact layout_append _ (layout_append _ layout_reset)
  | .raw b, e, h => by
    simp only [writeValue, Except.ok.injEq] at h
    subst h
    exact layout_append _ layout_reset
  | .nilInterface, e, h => by
    simp only [writeValue, Except.ok.injEq] at h
    subst h
    exact layout_append _ layout_reset
  | .list vs, e, h => by
    rw [writeValue_list_reset] at h
    cases hvs : writeValues vs reset with
    | error err => rw [hvs] at h; cases h
    | ok f =>
      rw [hvs] at h
      cases h
      exact layout_closeList (layout_writeValues vs hvs)
  | .tail vs, e, h => by
    simp only [writeValue] at h
    exact layout_writeValues vs h
/-- The layout of the buffer written by the elements of a slice. -/
theorem layout_writeValues : ∀ (vs : List Value) {e : Encbuf}, writeValues vs reset = .ok e → Layout e
  | [], e, h => by
    simp only [writeValues, Except.ok.injEq] at h
    subst h
    exact layout_reset
  | v :: vs, e, h => by
    rw [writeValues_cons_reset] at h
    cases hv : writeValue v reset with
    | error err => rw [hv] at h; cases h
    | ok e₁ =>
      rw [hv] at h
      cases hvs : writeValues vs reset with
      | error err => simp [hvs, Except.bind, Except.map] at h
      | ok e₂ =>
        simp only [hvs, Except.bind, Except.map, Except.ok.injEq] at h
        subst h
        exact layout_extend (layout_writeValue v hv) (layout_writeValues vs hvs)
end

end Rlp
