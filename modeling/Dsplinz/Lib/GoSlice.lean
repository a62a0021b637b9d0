import Mathlib

/-!
# Go slices as lists

The three built-in slice operations the byte-level code of this development uses,
on a slice modelled as the list of its elements (its capacity is not modelled, so
an expression `s[lo:hi]` is only ever taken with `hi ≤ len(s)`):

* `GoSlice.slice s lo hi` – the expression `s[lo:hi]`, and `GoSlice.sliceChecked` with the
  bounds check that panics;
* `GoSlice.copyAt dst pos src` – the statement `n := copy(dst[pos:], src)`, which
  copies as much as fits and reports how much;
* `GoSlice.writeAt dst pos src` – indexed stores `dst[pos+i] = src[i]` for every
  `i`, which panic (`none`) when the last one is out of range.

Where a slice is resliced past its length, its capacity matters: `GoSlice.View` is a slice
with the rest of its backing array, and `GoSlice.View.reslice` may reach into that rest, up
to the capacity, and panics beyond it.

The lemmas are the ones a buffer-filling loop needs: writing into the zeroed tail of
a buffer that has room, at the end of what has been written so far.
-/

namespace GoSlice

variable {α : Type}

/-- The slice expression `s[lo:hi]`. -/
def slice (s : List α) (lo hi : Nat) : List α := (s.take hi).drop lo

/-- The slice expression `s[lo:hi]` with its bounds check, on `int` bounds: it panics
(`none`) unless `0 ≤ lo ≤ hi ≤ len(s)`. -/
def sliceChecked (s : List α) (lo hi : Int) : Option (List α) :=
  if 0 ≤ lo ∧ lo ≤ hi ∧ hi ≤ s.length then some (slice s lo.toNat hi.toNat) else none

/-- `n := copy(dst[pos:], src)`: the elements of `src` that fit are copied to position
`pos`, and `n` is how many. -/
def copyAt (dst : List α) (pos : Nat) (src : List α) : List α × Nat :=
  let n := min (dst.length - pos) src.length
  (dst.take pos ++ src.take n ++ dst.drop (pos + n), n)

/-- The stores `dst[pos+i] = src[i]`, one per element of `src`; `none` is the
index-out-of-range panic when they do not all fit. -/
def writeAt (dst : List α) (pos : Nat) (src : List α) : Option (List α) :=
  if pos + src.length ≤ dst.length then some (dst.take pos ++ src ++ dst.drop (pos + src.length))
  else none

@[simp] theorem length_slice (s : List α) (lo hi : Nat) :
    (slice s lo hi).length = min hi s.length - lo := by
  simp [slice]

theorem length_sliceChecked {s v : List α} {lo hi : Int} (h : sliceChecked s lo hi = some v) :
    (v.length : Int) = hi - lo := by
  unfold sliceChecked at h
  split at h
  · rename_i hb
    cases h
    simp only [length_slice]
    omega
  · cases h

/-- A slice within bounds, its bounds given as numbers. -/
theorem sliceChecked_of_le {s : List α} {lo hi : Int} {l h : Nat} (hl : lo = l) (hh : hi = h)
    (hle : l ≤ h) (hlen : h ≤ s.length) : sliceChecked s lo hi = some (slice s l h) := by
  subst hl hh
  rw [sliceChecked, if_pos (by omega)]
  simp

/-- A slice whose high bound is past the length panics. -/
theorem sliceChecked_of_length_lt {s : List α} {lo hi : Int} (h : s.length < hi) :
    sliceChecked s lo hi = none := by
  rw [sliceChecked, if_neg (by omega)]

/-- `copy` writes into `dst` and leaves its length alone. -/
@[simp] theorem length_copyAt (dst : List α) (pos : Nat) (src : List α) :
    (copyAt dst pos src).1.length = dst.length := by
  simp only [copyAt, List.length_append, List.length_take, List.length_drop]
  omega

/-- Stores that fit leave the length of `dst` alone. -/
theorem length_writeAt {dst src out : List α} {pos : Nat} (h : writeAt dst pos src = some out) :
    out.length = dst.length := by
  unfold writeAt at h
  split at h
  · cases h
    simp only [List.length_append, List.length_take, List.length_drop]
    omega
  · cases h

/-- `copy` into a fresh buffer of `k` elements: the source, cut to `k`, then the fill. -/
theorem copyAt_replicate (src : List α) (k : Nat) (fill : α) :
    (copyAt (List.replicate k fill) 0 src).1 = src.take k ++ List.replicate (k - src.length) fill := by
  simp only [copyAt, List.length_replicate, Nat.sub_zero, List.take_zero, List.nil_append,
    Nat.zero_add, List.drop_replicate]
  congr 1
  · rcases Nat.le_total k src.length with h | h
    · rw [Nat.min_eq_left h]
    · rw [Nat.min_eq_right h, List.take_length, List.take_of_length_le h]
  · congr 1
    omega

theorem slice_append_left {s t : List α} {lo hi : Nat} (h : hi ≤ s.length) :
    slice (s ++ t) lo hi = slice s lo hi := by
  simp [slice, List.take_append_of_le_length h]

theorem slice_append_right (s t : List α) (lo hi : Nat) :
    slice (s ++ t) (s.length + lo) (s.length + hi) = slice t lo hi := by
  simp [slice, List.take_append, List.drop_append]

theorem slice_self (s : List α) (lo : Nat) : slice s lo lo = [] := by
  simp [slice]

/-- The middle part of a concatenation, cut out by its positions. -/
theorem slice_middle (s t u : List α) :
    slice (s ++ t ++ u) s.length (s.length + t.length) = t := by
  have h := slice_append_right s (t ++ u) 0 t.length
  rw [Nat.add_zero] at h
  rw [List.append_assoc, h, slice_append_left (Nat.le_refl _)]
  simp [slice]

/-- A slice from a position to the end. -/
theorem slice_to_length (s t : List α) : slice (s ++ t) s.length (s ++ t).length = t := by
  rw [slice, List.take_length, List.drop_left]

/-- The idiom `copy(s[i+1:], s[i:]); s[i] = x`: `x` goes in at `i`, and the elements from
`i` on move down by one, the last one falling off. -/
theorem copyAt_slide_set (l : List α) {i : Nat} (x : α) (hi : i < l.length) :
    ((copyAt l (i + 1) (l.drop i)).1).set i x = l.take i ++ x :: (l.drop i).dropLast := by
  have hm : min (l.length - (i + 1)) (l.drop i).length = l.length - i - 1 := by
    simp only [List.length_drop]
    omega
  simp only [copyAt, hm, List.drop_eq_nil_of_le (show l.length ≤ i + 1 + (l.length - i - 1) by
    omega), List.append_nil]
  rw [List.dropLast_eq_take, List.length_drop, List.take_add_one, List.getElem?_eq_getElem hi,
    Option.toList_some, List.append_assoc, List.set_append_right _ _ (by rw [List.length_take]; omega)]
  simp only [List.length_take, Nat.min_eq_left (Nat.le_of_lt hi), Nat.sub_self, List.singleton_append,
    List.set_cons_zero]

/-- Copying into the zeroed tail of a buffer with room for the whole source. -/
theorem copyAt_fill (done src : List α) (fill : α) (k : Nat) :
    copyAt (done ++ List.replicate (src.length + k) fill) done.length src =
      (done ++ src ++ List.replicate k fill, src.length) := by
  have hmin : min (done.length + (src.length + k) - done.length) src.length = src.length := by
    omega
  simp only [copyAt, List.length_append, List.length_replicate, hmin]
  simp [List.drop_append, List.drop_replicate]

/-- Writing into the zeroed tail of a buffer with room for the whole source. -/
theorem writeAt_fill (done src : List α) (fill : α) (k : Nat) :
    writeAt (done ++ List.replicate (src.length + k) fill) done.length src =
      some (done ++ src ++ List.replicate k fill) := by
  rw [writeAt, if_pos (by simp)]
  simp [List.drop_append, List.drop_replicate]

/-! ### Slices with their capacity -/

/-- A slice with its capacity: `backing` is the backing array from the slice's start to
its capacity, of which the first `len` elements are the slice. -/
structure View (α : Type) where
  backing : List α
  len : Nat
  len_le : len ≤ backing.length

namespace View

/-- A slice whose capacity is its length. -/
def ofList (s : List α) : View α := ⟨s, s.length, Nat.le_refl _⟩

/-- The elements of the slice. -/
def toList (v : View α) : List α := v.backing.take v.len

/-- `v[lo:hi]` on `int` bounds, which may reach past `len(v)` up to `cap(v)`; it panics
(`none`) unless `0 ≤ lo ≤ hi ≤ cap(v)`. -/
def reslice (v : View α) (lo hi : Int) : Option (View α) :=
  if h : 0 ≤ lo ∧ lo ≤ hi ∧ hi ≤ v.backing.length then
    some ⟨v.backing.drop lo.toNat, (hi - lo).toNat, by rw [List.length_drop]; omega⟩
  else none

@[simp] theorem len_ofList (s : List α) : (ofList s).len = s.length := rfl

@[simp] theorem toList_ofList (s : List α) : (ofList s).toList = s := List.take_length

theorem length_toList (v : View α) : v.toList.length = v.len := by
  rw [toList, List.length_take, Nat.min_eq_left v.len_le]

/-- A reslice within the capacity: the backing array from `lo`, `hi - lo` long. -/
theorem reslice_of_le {v : View α} {lo hi : Int} (h₀ : 0 ≤ lo) (hlo : lo ≤ hi)
    (hhi : hi ≤ v.backing.length) :
    ∃ w, v.reslice lo hi = some w ∧ w.backing = v.backing.drop lo.toNat ∧ w.len = (hi - lo).toNat := by
  rw [reslice, dif_pos ⟨h₀, hlo, hhi⟩]
  exact ⟨_, rfl, rfl, rfl⟩

/-- A reslice within the length: its elements are the slice's, from `lo` to `hi`. -/
theorem reslice_of_le_len {v : View α} {lo hi : Int} (h₀ : 0 ≤ lo) (hlo : lo ≤ hi) (hhi : hi ≤ v.len) :
    ∃ w, v.reslice lo hi = some w ∧ w.toList = (v.toList.drop lo.toNat).take (hi - lo).toNat ∧
      w.len = (hi - lo).toNat := by
  have hcap := v.len_le
  obtain ⟨w, hw, hback, hlen⟩ := reslice_of_le (v := v) h₀ hlo (by omega)
  refine ⟨w, hw, ?_, hlen⟩
  rw [toList, toList, hback, hlen, List.drop_take, List.take_take, Nat.min_eq_left (by omega)]

/-- A reslice past the capacity panics. -/
theorem reslice_of_cap_lt {v : View α} {lo hi : Int} (h : v.backing.length < hi) :
    v.reslice lo hi = none := by
  rw [reslice, dif_neg (by omega)]

end View

end GoSlice
