import Dsplinz.Abi.Unpack
import Dsplinz.Lib.Returns

/-!
# Unpacking is memory-safe, except on `bytesN` with `N > 32`

The results on `Dsplinz.Abi.Unpack`, for arguments whose `bytesN` types have `N ≤ 32`
(`Abi.Ty.Sized`), and any data:

* `Abi.returns_unpackValues` – `UnpackValues` does not panic (`Returns`), and every slice
  and array in its values has at most `len(data) / 32` elements (`Abi.Value.Within`):
  `forEachUnpack` checks `start + 32 * size ≤ len(output)`, and every `start` is `≥ 0`;
* `Abi.unpackValues_congr` – it reads nothing past `len(data)`: two slices with the same
  elements unpack alike, whatever their capacities hold.

Both are inductions on the type, as `toGoType` recurses on it, with the bounds
`lengthPrefixPointsTo` checks handed down. The hypothesis is needed:
`Abi.toGoType_fixedBytes_last_word` – `NewType` accepts `bytes33`, and `readFixedBytes`
reslices the 32-byte word to 33 bytes, which on the last word of the data panics when the
capacity ends there, and reads a byte past the data when it does not.
-/

namespace Abi

open GoSlice

/-! ### Bounded values and sized types -/

/-- The elements of a slice or an array; none for any other value. -/
def Value.elems : Value → List Value
  | .slice vs | .array vs => vs
  | _ => []

/-- Every slice and array in a value, the value itself included, has at most `n`
elements. -/
inductive Value.Within (n : Nat) : Value → Prop
  | intro {v : Value} (hlen : v.elems.length ≤ n) (helems : ∀ x ∈ v.elems, Within n x) :
      Within n v

namespace Value

variable {n : Nat} {vs : List Value}

theorem within_slice (hlen : vs.length ≤ n) (h : ∀ x ∈ vs, Within n x) : Within n (.slice vs) :=
  .intro hlen h

theorem within_array (hlen : vs.length ≤ n) (h : ∀ x ∈ vs, Within n x) : Within n (.array vs) :=
  .intro hlen h

/-- A value with no elements is within every bound. -/
theorem within_of_elems_eq_nil {v : Value} (h : v.elems = []) : Within n v :=
  .intro (by simp [h]) (by simp [h])

end Value

/-- Every `bytesN` in a type has `N ≤ 32`: its bytes lie in its word. -/
def Ty.Sized : Ty → Prop
  | .fixedBytes size => size ≤ 32
  | .slice elem | .array _ elem => elem.Sized
  | _ => True

/-! ### Slice expressions -/

section Slicing

variable {v : View UInt8} {lo hi : Int}

theorem sliceAt_of_le (h₀ : 0 ≤ lo) (hlo : lo ≤ hi) (hhi : hi ≤ v.backing.length) :
    ∃ w, sliceAt v lo hi = pure w ∧ w.backing = v.backing.drop lo.toNat ∧ w.len = (hi - lo).toNat := by
  obtain ⟨w, hw, hback, hlen⟩ := View.reslice_of_le h₀ hlo hhi
  exact ⟨w, by rw [sliceAt, hw], hback, hlen⟩

theorem sliceAt_of_cap_lt (h : v.backing.length < hi) : sliceAt v lo hi = outOfRange := by
  rw [sliceAt, View.reslice_of_cap_lt h]

theorem returns_sliceAt {Q : View UInt8 → Prop} (h₀ : 0 ≤ lo) (hlo : lo ≤ hi)
    (hhi : hi ≤ v.backing.length)
    (hQ : ∀ w : View UInt8, w.backing = v.backing.drop lo.toNat → w.len = (hi - lo).toNat → Q w) :
    Returns (sliceAt v lo hi) Q := by
  obtain ⟨w, hw, hback, hlen⟩ := sliceAt_of_le h₀ hlo hhi
  rw [hw, Returns.pure_iff]
  exact hQ w hback hlen

end Slicing

/-! ### No panic -/

theorem returns_lengthPrefixPointsTo {index : Int} {output : View UInt8} (h₀ : 0 ≤ index)
    (hlen : index + 32 ≤ output.len) :
    Returns (lengthPrefixPointsTo index output) fun (begin, size) =>
      32 ≤ begin ∧ 0 ≤ size ∧ begin + size ≤ output.len := by
  have hcap := output.len_le
  unfold lengthPrefixPointsTo
  simp only [Returns.bind_iff, Returns.ite_iff, Returns.of_throw, Returns.pure_iff, implies_true,
    true_and]
  refine returns_sliceAt h₀ (by omega) (by omega) fun word _ _ => ?_
  -- the offset word's value ends within the data, and so does the length word before it
  intro hoff _
  refine returns_sliceAt (by omega) (by omega) (by omega) fun lengthWord _ _ => ?_
  intro _ hfit
  omega

/-- Element `j + 1` of a loop from `i`, `e` apart, is element `j` of the loop from `i + e`. -/
theorem elem_index_succ (i e : Int) (j : Nat) : i + ((j + 1 : Nat) : Int) * e = i + e + j * e := by
  rw [Nat.cast_succ]
  ring

theorem returns_forEachElem {f : Int → Unpack Value} {e : Int} {Q : Value → Prop} :
    ∀ (n : Nat) (i : Int), (∀ j : Nat, j < n → Returns (f (i + j * e)) Q) →
      Returns (forEachElem f e n i) fun vs => vs.length = n ∧ ∀ x ∈ vs, Q x
  | 0, i, _ => by simp [forEachElem]
  | n + 1, i, hf => by
    have hfirst : Returns (f i) Q := by simpa using hf 0 (Nat.succ_pos n)
    -- the rest of the elements start one step on
    have hrest : Returns (forEachElem f e n (i + e)) fun vs => vs.length = n ∧ ∀ x ∈ vs, Q x :=
      returns_forEachElem n (i + e) fun j hj => by
        rw [← elem_index_succ]
        exact hf (j + 1) (by omega)
    rw [forEachElem, Returns.bind_iff]
    refine hfirst.mono fun inter hinter => ?_
    rw [Returns.bind_iff]
    refine hrest.mono fun rest ⟨hlen, hall⟩ => ?_
    rw [Returns.pure_iff, List.length_cons, hlen]
    exact ⟨rfl, List.forall_mem_cons.mpr ⟨hinter, hall⟩⟩

theorem returns_forEachUnpack {t : Ty} {output : View UInt8} {start size : Int}
    {f : Int → Unpack Value} (hstart : 0 ≤ start)
    (hf : ∀ i, start ≤ i → Returns (f i) (Value.Within (output.len / 32))) :
    Returns (forEachUnpack t output start size f) (Value.Within (output.len / 32)) := by
  unfold forEachUnpack
  simp only [Returns.bind_iff, Returns.ite_iff, Returns.of_throw, implies_true, true_and]
  intro hsize hfit
  -- the elements are `elemSize ≥ 0` apart from `start`, and there are at most `len / 32`
  have helems : ∀ e : Int, 0 ≤ e → Returns (forEachElem f e size.toNat start)
      fun vs => vs.length ≤ output.len / 32 ∧ ∀ x ∈ vs, Value.Within (output.len / 32) x := by
    intro e he
    refine (returns_forEachElem size.toNat start fun j _ => hf _ ?_).mono fun vs h => ?_
    · have : 0 ≤ (j : Int) * e := Int.mul_nonneg (Int.natCast_nonneg j) he
      omega
    · obtain ⟨hlen, hall⟩ := h
      exact ⟨by omega, hall⟩
  cases t with
  | slice elem =>
    rw [Returns.map_iff]
    exact (helems 32 (by decide)).mono fun vs h => Value.within_slice h.1 h.2
  | array n elem =>
    rw [Returns.map_iff]
    exact (helems _ (Int.natCast_nonneg _)).mono fun vs h => Value.within_array h.1 h.2
  | _ => exact Returns.of_throw _

theorem returns_readBool (n : Nat) (word : List UInt8) : Returns (readBool word) (Value.Within n) := by
  unfold readBool
  split
  · exact Returns.of_throw _
  · split
    · exact (Returns.pure_iff _).mpr (Value.within_of_elems_eq_nil rfl)
    · exact (Returns.pure_iff _).mpr (Value.within_of_elems_eq_nil rfl)
    · exact Returns.of_throw _

theorem returns_readFunctionType (n : Nat) (t : Ty) (word : List UInt8) :
    Returns (readFunctionType t word) (Value.Within n) := by
  unfold readFunctionType
  split
  · split
    · exact Returns.of_throw _
    · exact (Returns.pure_iff _).mpr (Value.within_of_elems_eq_nil rfl)
  · exact Returns.of_throw _

/-- `word[0:t.Size]` stays within the capacity of the word when `t.Size` does. -/
theorem returns_readFixedBytes {n size : Nat} {word : View UInt8} (h : size ≤ word.backing.length) :
    Returns (readFixedBytes (.fixedBytes size) word) (Value.Within n) := by
  rw [readFixedBytes, Returns.bind_iff]
  exact returns_sliceAt (by omega) (by omega) (by omega) fun _ _ _ =>
    (Returns.pure_iff _).mpr (Value.within_of_elems_eq_nil rfl)

theorem returns_toGoType (output : View UInt8) :
    ∀ t : Ty, t.Sized → ∀ index : Int, 0 ≤ index →
      Returns (toGoType index t output) (Value.Within (output.len / 32)) := by
  have hcap := output.len_le
  intro t
  induction t
  -- past the length check, a type with a length prefix reads where its word points, any
  -- other type reads its word
  all_goals
    intro hs index h₀
    rw [toGoType]
    simp only [Returns.bind_iff, Returns.ite_iff, Returns.of_throw, Returns.pure_iff,
      requiresLengthPrefix, implies_true, true_and, and_true, not_true_eq_false,
      Bool.false_eq_true, not_false_eq_true, false_implies, true_implies]
    intro hlen
  case slice elem ih =>
    refine (returns_lengthPrefixPointsTo h₀ (by omega)).mono fun a h => ?_
    obtain ⟨hbegin, -, -⟩ := h
    exact returns_forEachUnpack (by omega) fun i hi => ih hs i (by omega)
  case array n elem ih =>
    refine returns_sliceAt h₀ (by omega) (by omega) fun _ _ _ => ?_
    exact returns_forEachUnpack h₀ fun i hi => ih hs i (by omega)
  case string | bytes =>
    refine (returns_lengthPrefixPointsTo h₀ (by omega)).mono fun a h => ?_
    obtain ⟨hbegin, hsize, hend⟩ := h
    exact returns_sliceAt (by omega) (by omega) (by omega) fun _ _ _ => Value.within_of_elems_eq_nil rfl
  case int | uint | address | hash =>
    exact returns_sliceAt h₀ (by omega) (by omega) fun _ _ _ => Value.within_of_elems_eq_nil rfl
  case bool =>
    exact returns_sliceAt h₀ (by omega) (by omega) fun word _ _ => returns_readBool _ word.toList
  case function =>
    exact returns_sliceAt h₀ (by omega) (by omega) fun word _ _ => returns_readFunctionType _ _ word.toList
  case fixedBytes size =>
    -- the word runs from `index` to the capacity, at least 32 bytes, and `size ≤ 32`
    refine returns_sliceAt h₀ (by omega) (by omega) fun word hword _ => ?_
    refine returns_readFixedBytes ?_
    rw [hword, List.length_drop]
    have : size ≤ 32 := hs
    omega
  case fixedPoint => exact returns_sliceAt h₀ (by omega) (by omega) fun _ _ _ => trivial

theorem returns_unpackLoop (data : View UInt8) :
    ∀ (args : List Argument) (index virtualArgs : Int), (∀ arg ∈ args, arg.type.Sized) →
      0 ≤ index + virtualArgs →
      Returns (unpackLoop data args index virtualArgs) fun vs => ∀ x ∈ vs, x.Within (data.len / 32)
  | [], _, _, _, _ => by simp [unpackLoop]
  | arg :: rest, index, virtualArgs, hs, h₀ => by
    rw [unpackLoop, Returns.bind_iff]
    refine (returns_toGoType data arg.type (hs arg List.mem_cons_self) _ (by omega)).mono
      fun v hv => ?_
    rw [Returns.bind_iff]
    refine (returns_unpackLoop data rest _ _ (fun a ha => hs a (List.mem_cons_of_mem _ ha)) ?_).mono
      fun vs hvs => ?_
    · -- a static array moves the next argument past all its elements, at least none
      split <;> omega
    · rw [Returns.pure_iff]
      exact List.forall_mem_cons.mpr ⟨hv, hvs⟩

theorem returns_unpackValues (arguments : List Argument) (data : View UInt8)
    (hs : ∀ arg ∈ arguments, arg.type.Sized) :
    Returns (unpackValues arguments data) fun vs => ∀ x ∈ vs, x.Within (data.len / 32) :=
  returns_unpackLoop data _ 0 0 (fun arg harg => hs arg (List.mem_of_mem_filter harg)) le_rfl

theorem returns_unpackValues_uint_slice :
    Returns (unpackValues [⟨.slice (.uint .ptr 256), false⟩] (View.ofList (List.replicate 96 0)))
      fun vs => ∀ x ∈ vs, x.Within ((View.ofList (List.replicate 96 (0 : UInt8))).len / 32) :=
  returns_unpackValues _ _ fun arg harg => by
    rw [List.mem_singleton] at harg
    rw [harg]
    exact trivial

/-! ### Reading only the data -/

section Agree

variable {v w : View UInt8}

theorem len_eq_of_toList_eq (hvw : v.toList = w.toList) : v.len = w.len := by
  rw [← View.length_toList, hvw, View.length_toList]

theorem sliceAt_bind_congr {β : Type} {lo hi : Int} (h₀ : 0 ≤ lo) (hlo : lo ≤ hi) (hhi : hi ≤ v.len)
    (hvw : v.toList = w.toList) {f g : View UInt8 → Unpack β}
    (hfg : ∀ x y : View UInt8, x.toList = y.toList → x.len = (hi - lo).toNat → f x = g y) :
    sliceAt v lo hi >>= f = sliceAt w lo hi >>= g := by
  have hl := len_eq_of_toList_eq hvw
  obtain ⟨x, hx, hxl, hxlen⟩ := View.reslice_of_le_len h₀ hlo hhi
  obtain ⟨y, hy, hyl, -⟩ := View.reslice_of_le_len (v := w) h₀ hlo (by omega)
  simp only [sliceAt, hx, hy, pure_bind]
  exact hfg x y (by rw [hxl, hyl, hvw]) hxlen

theorem lengthPrefixPointsTo_congr {index : Int} (h₀ : 0 ≤ index) (hlen : index + 32 ≤ v.len)
    (hvw : v.toList = w.toList) :
    lengthPrefixPointsTo index v = lengthPrefixPointsTo index w := by
  have hl := len_eq_of_toList_eq hvw
  unfold lengthPrefixPointsTo
  refine sliceAt_bind_congr h₀ (by omega) hlen hvw fun x y hxy _ => ?_
  rw [hxy, hl]
  dsimp only
  simp only [ExceptT.bind_throw]
  split_ifs with hoff hbig
  · rfl
  · rfl
  -- the length word ends where the offset word points, within the data
  refine sliceAt_bind_congr ?_ ?_ ?_ hvw fun x' y' hxy' _ => ?_
  · omega
  · omega
  · omega
  · rw [hxy']

theorem forEachElem_congr {f g : Int → Unpack Value} {e : Int} :
    ∀ (n : Nat) (i : Int), (∀ j : Nat, j < n → f (i + j * e) = g (i + j * e)) →
      forEachElem f e n i = forEachElem g e n i
  | 0, _, _ => rfl
  | n + 1, i, hfg => by
    have hfirst : f i = g i := by simpa using hfg 0 (Nat.succ_pos n)
    have hrest : forEachElem f e n (i + e) = forEachElem g e n (i + e) :=
      forEachElem_congr n (i + e) fun j hj => by
        rw [← elem_index_succ]
        exact hfg (j + 1) (by omega)
    rw [forEachElem, forEachElem, hfirst, hrest]

theorem forEachUnpack_congr {t : Ty} {start size : Int} {f g : Int → Unpack Value}
    (hvw : v.toList = w.toList) (hfg : ∀ i, start ≤ i → f i = g i) :
    forEachUnpack t v start size f = forEachUnpack t w start size g := by
  have hl := len_eq_of_toList_eq hvw
  -- the element loops agree at every element, `elemSize ≥ 0` apart from `start`
  have helems : ∀ e : Int, 0 ≤ e →
      forEachElem f e size.toNat start = forEachElem g e size.toNat start := fun e he =>
    forEachElem_congr _ _ fun j _ => hfg _ (by
      have := Int.mul_nonneg (Int.natCast_nonneg j) he
      omega)
  unfold forEachUnpack
  rw [hl]
  cases t with
  | slice elem =>
    dsimp only
    rw [helems 32 (by decide)]
  | array n elem =>
    dsimp only
    rw [helems _ (Int.natCast_nonneg _)]
  | _ => rfl

theorem toGoType_congr (hvw : v.toList = w.toList) :
    ∀ t : Ty, t.Sized → ∀ index : Int, 0 ≤ index → toGoType index t v = toGoType index t w := by
  have hl := len_eq_of_toList_eq hvw
  intro t
  induction t
  -- the length check is the same on both slices; past it, each case compares what the two
  -- read, all of it within the length
  all_goals
    intro hs index h₀
    rw [toGoType, toGoType, hl]
    simp only [requiresLengthPrefix, ↓reduceIte, Bool.false_eq_true, pure_bind, ExceptT.bind_throw]
    refine if_ctx_congr Iff.rfl (fun _ => rfl) fun hlen => ?_
  case slice elem ih =>
    rw [lengthPrefixPointsTo_congr h₀ (by omega) hvw]
    refine Returns.bind_congr (returns_lengthPrefixPointsTo h₀ (by omega)) fun a ⟨hbegin, _, _⟩ => ?_
    exact forEachUnpack_congr hvw fun i hi => ih hs i (by omega)
  case array n elem ih =>
    refine sliceAt_bind_congr h₀ (by omega) (by omega) hvw fun _ _ _ _ => ?_
    exact forEachUnpack_congr hvw fun i hi => ih hs i (by omega)
  case string | bytes =>
    rw [lengthPrefixPointsTo_congr h₀ (by omega) hvw]
    refine Returns.bind_congr (returns_lengthPrefixPointsTo h₀ (by omega)) fun a ⟨hbegin, hsize, hend⟩ => ?_
    exact sliceAt_bind_congr (by omega) (by omega) (by omega) hvw fun x y hxy _ => by rw [hxy]
  case int | uint | address | hash | bool | function =>
    exact sliceAt_bind_congr h₀ (by omega) (by omega) hvw fun x y hxy _ => by rw [hxy]
  case fixedBytes size =>
    -- `word[0:size]` lies within the word, which lies within the data
    refine sliceAt_bind_congr h₀ (by omega) (by omega) hvw fun x y hxy hxlen => ?_
    have : size ≤ 32 := hs
    rw [readFixedBytes, readFixedBytes]
    exact sliceAt_bind_congr le_rfl (by omega) (by omega) hxy fun a b hab _ => by rw [hab]
  case fixedPoint => exact sliceAt_bind_congr h₀ (by omega) (by omega) hvw fun _ _ _ _ => rfl

theorem unpackLoop_congr (hvw : v.toList = w.toList) :
    ∀ (args : List Argument) (index virtualArgs : Int), (∀ arg ∈ args, arg.type.Sized) →
      0 ≤ index + virtualArgs →
      unpackLoop v args index virtualArgs = unpackLoop w args index virtualArgs
  | [], _, _, _, _ => rfl
  | arg :: rest, index, virtualArgs, hs, h₀ => by
    rw [unpackLoop, unpackLoop, toGoType_congr hvw arg.type (hs arg List.mem_cons_self) _ (by omega)]
    congr 1
    funext value
    dsimp only
    rw [unpackLoop_congr hvw rest _ _ (fun a ha => hs a (List.mem_cons_of_mem _ ha)) (by split <;> omega)]

/-- **`UnpackValues` reads only the data**, for arguments whose `bytesN` have `N ≤ 32`: two
slices with the same elements unpack alike, whatever lies past their length. -/
theorem unpackValues_congr (arguments : List Argument) (hs : ∀ arg ∈ arguments, arg.type.Sized)
    (hvw : v.toList = w.toList) : unpackValues arguments v = unpackValues arguments w :=
  unpackLoop_congr hvw _ 0 0 (fun arg harg => hs arg (List.mem_of_mem_filter harg)) le_rfl

/-- A byte past the length of the data, within its capacity, is not read. -/
theorem unpackValues_congr_past_length :
    unpackValues [⟨.uint .ptr 256, false⟩] ⟨List.replicate 32 0 ++ [1], 32, by simp⟩ =
      unpackValues [⟨.uint .ptr 256, false⟩] (View.ofList (List.replicate 32 0)) :=
  unpackValues_congr _ (fun arg harg => by
    rw [List.mem_singleton] at harg
    rw [harg]
    exact trivial) (by decide)

end Agree

/-! ### `bytesN` past its word -/

theorem toGoType_fixedBytes_last_word {n : Nat} (hn : 32 < n) (data : View UInt8) (hlen : data.len = 32) :
    (toGoType 0 (.fixedBytes n) data).run =
      if data.backing.length < n then none else some (.ok (.fixedBytes (data.backing.take n))) := by
  have hcap := data.len_le
  -- the word is the whole data, and its capacity is the data's
  obtain ⟨word, hword, hback, hwlen⟩ := sliceAt_of_le (v := data) (show (0 : Int) ≤ 0 from le_rfl)
    (show (0 : Int) ≤ 32 by decide) (show (32 : Int) ≤ data.backing.length by omega)
  rw [toGoType]
  simp only [requiresLengthPrefix, hlen, Nat.cast_ofNat, zero_add, gt_iff_lt, lt_self_iff_false,
    ↓reduceIte, Bool.false_eq_true, hword, pure_bind, readFixedBytes]
  by_cases hshort : data.backing.length < n
  · rw [if_pos hshort, sliceAt_of_cap_lt (by rw [hback, Int.toNat_zero, List.drop_zero]; omega)]
    rfl
  · obtain ⟨bytes, hbytes, hbback, hblen⟩ := sliceAt_of_le (v := word) (show (0 : Int) ≤ 0 from le_rfl)
      (show (0 : Int) ≤ n by omega) (by rw [hback, Int.toNat_zero, List.drop_zero]; omega)
    rw [if_neg hshort, hbytes, pure_bind]
    simp only [View.toList, hbback, hblen, hback, Int.toNat_zero, List.drop_zero, Int.sub_zero,
      Int.toNat_natCast]
    rfl

theorem unpackValues_bytes33_reads_past_data :
    (newType (ascii "bytes33")).run = some (.ok (.fixedBytes 33)) ∧
      ∀ data : View UInt8, data.len = 32 →
        (unpackValues [⟨.fixedBytes 33, false⟩] data).run =
          if data.backing.length < 33 then none
          else some (.ok [.fixedBytes (data.backing.take 33)]) := by
  refine ⟨by rw [newType]; decide, fun data hlen => ?_⟩
  have hword := toGoType_fixedBytes_last_word (by decide : 32 < 33) data hlen
  simp only [unpackValues, nonIndexed, List.filter, Bool.not_false, unpackLoop, ExceptT.run_bind,
    add_zero, zero_mul, hword]
  split
  · rfl
  · rfl

end Abi
