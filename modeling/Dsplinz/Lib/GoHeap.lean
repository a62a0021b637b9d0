import Mathlib

/-!
# Binary heaps as Go's `container/heap` keeps them

Go's `container/heap` keeps a min-heap in a slice through `Less` and `Swap`: the parent of
position `j` is `(j - 1) / 2`, and no element may be less than its parent (`GoHeap.IsHeap`).
The package's functions are modelled step for step over a list: the two sifts `up` and
`down`, then `Push`, `Pop`, `Remove`, `Fix` and `Init` built from them. `Less` is `<` of a
strict weak order, as `sort.Interface` asks: elements may tie, as two transactions of one
price do under `TxByPrice`.

The sifts are proved with the invariants of a heap in which one element is out of place
(`GoHeap.UpOrder`, `GoHeap.DownOrder`): all pairs of a parent and a child are in order but
those next to that element, and its children are not less than its parent. A `move` lemma
says that one swap keeps the invariant, and a `finish` lemma what holds when the sift stops.
`down` also serves `Init`, which sifts down from every parent in turn, on a slice only the
subtrees below which are heaps yet: its invariant therefore looks only at parents from a
bound `m` on.

* `GoHeap.root_min` – the root of a heap is its least element;
* `GoHeap.push_spec`, `GoHeap.pop_spec`, `GoHeap.remove_spec`, `GoHeap.fix_spec`,
  `GoHeap.init_spec` – each operation leaves a heap, holding the elements it should.
-/

namespace GoHeap

variable {α : Type*}

/-! ### The package -/

/-- The parent of position `j`. At the root Go computes `(0 - 1) / 2 = 0`, as here. -/
def parent (j : Nat) : Nat := (j - 1) / 2

/-- `h.Swap(i, j)`. -/
def swap (h : List α) (i j : Nat) : List α :=
  match h[i]?, h[j]? with
  | some a, some b => (h.set i b).set j a
  | _, _ => h

section Package

variable [LT α] [DecidableLT α]

/-- `h.Less(i, j)`. -/
def less (h : List α) (i j : Nat) : Bool :=
  match h[i]?, h[j]? with
  | some a, some b => decide (a < b)
  | _, _ => false

/-- `up(h, j)`: swap the element at `j` with its parent while it is less than it. -/
def up (h : List α) (j : Nat) : List α :=
  if parent j = j ∨ less h j (parent j) = false then h
  else up (swap h (parent j) j) (parent j)
termination_by j
decreasing_by
  rename_i hne
  rw [not_or] at hne
  have := hne.1
  unfold parent at *
  omega

/-- The child of `i` that `down` compares `i` with: the right one `j2` if it is among the
first `n` and less than the left one `j1`, else the left one. -/
def minChild (h : List α) (i n : Nat) : Nat :=
  let j1 := 2 * i + 1
  if j1 + 1 < n ∧ less h (j1 + 1) j1 = true then j1 + 1 else j1

/-- The loop of `down(h, i0, n)`, from position `i`: swap the element with its smaller child
while that child is less than it. It returns the slice and the position it stopped at. -/
def downLoop (h : List α) (i n : Nat) : List α × Nat :=
  if 2 * i + 1 < n then
    if less h (minChild h i n) i then downLoop (swap h i (minChild h i n)) (minChild h i n) n
    else (h, i)
  else (h, i)
termination_by n - i
decreasing_by
  unfold minChild
  dsimp only
  split_ifs <;> omega

/-- `down(h, i0, n)`: sift the element at `i0` down among the first `n` positions; the
result says whether it moved. -/
def down (h : List α) (i0 n : Nat) : List α × Bool :=
  let r := downLoop h i0 n
  (r.1, decide (r.2 > i0))

/-- `heap.Push(h, x)`: `h.Push(x)` appends `x`, which `up` then moves into place. -/
def push (h : List α) (x : α) : List α :=
  up (h ++ [x]) h.length

/-- `h.Pop()` of a slice: its last element, which is removed. It panics on an empty slice,
here `none`. -/
def popLast (h : List α) : Option (α × List α) :=
  h.getLast?.map fun x => (x, h.dropLast)

/-- `heap.Pop(h)`: swap the root with the last element, sift it down among the others, and
take the last element off. -/
def pop (h : List α) : Option (α × List α) :=
  let n := h.length - 1
  popLast (down (swap h 0 n) 0 n).1

/-- `heap.Remove(h, i)`: swap position `i` with the last one, sift the element now at `i`
down, or up if it did not move, and take the last element off. -/
def remove (h : List α) (i : Nat) : Option (α × List α) :=
  let n := h.length - 1
  if n ≠ i then
    let r := down (swap h i n) i n
    popLast (if r.2 then r.1 else up r.1 i)
  else popLast h

/-- `heap.Fix(h, i)`: sift the element at `i`, which has changed, down, or up if it did not
move. -/
def fix (h : List α) (i : Nat) : List α :=
  let r := down h i h.length
  if r.2 then r.1 else up r.1 i

/-- The loop of `heap.Init`: `down(h, i, n)` for `i` from `k - 1` down to `0`. -/
def initLoop (n : Nat) : Nat → List α → List α
  | 0, h => h
  | k + 1, h => initLoop n k (down h k n).1

/-- `heap.Init(h)`: sift down from every parent, the last one first. -/
def init (h : List α) : List α :=
  initLoop h.length (h.length / 2) h

end Package

/-! ### The heap property -/

/-- The element at `c`, if there is one, is not less than the one at `p`, if there is one. -/
def NotBelow [LT α] (h : List α) (c p : Nat) : Prop :=
  match h[c]?, h[p]? with
  | some a, some b => ¬ a < b
  | _, _ => True

instance [LT α] [DecidableLT α] (h : List α) (c p : Nat) : Decidable (NotBelow h c p) := by
  unfold NotBelow
  split <;> infer_instance

/-- `c` is a child of `p`. The root is nobody's child, although `parent 0 = 0`. -/
def IsChild (c p : Nat) : Prop := 0 < c ∧ parent c = p

/-- Among the first `n` positions, every one whose parent is at or past `m` is not less than
its parent. -/
def Ordered [LT α] (h : List α) (n m : Nat) : Prop :=
  ∀ c < n, 0 < c → m ≤ parent c → NotBelow h c (parent c)

/-- **The heap property**: no element is less than its parent. -/
def IsHeap [LT α] (h : List α) : Prop := Ordered h h.length 0

instance [LT α] [DecidableLT α] (h : List α) : Decidable (IsHeap h) := by
  unfold IsHeap Ordered
  infer_instance

/-! ### Positions -/

theorem parent_lt {c : Nat} (hc : 0 < c) : parent c < c := by
  unfold parent
  omega

theorem parent_le (j : Nat) : parent j ≤ j := by
  unfold parent
  omega

theorem isChild_iff {c p : Nat} : IsChild c p ↔ c = 2 * p + 1 ∨ c = 2 * p + 1 + 1 := by
  unfold IsChild parent
  omega

theorem IsChild.lt {c p : Nat} (h : IsChild c p) : p < c := by
  rw [isChild_iff] at h
  omega

/-! ### `Swap` and `Less` -/

section Swap

variable {h : List α} {i j : Nat}

@[simp]
theorem length_swap (h : List α) (i j : Nat) : (swap h i j).length = h.length := by
  unfold swap
  split <;> simp

theorem swap_eq (hi : i < h.length) (hj : j < h.length) :
    swap h i j = (h.set i h[j]).set j h[i] := by
  simp [swap, List.getElem?_eq_getElem hi, List.getElem?_eq_getElem hj]

theorem getElem?_swap_right (hi : i < h.length) (hj : j < h.length) :
    (swap h i j)[j]? = h[i]? := by
  rw [swap_eq hi hj, List.getElem?_set_self (by simpa using hj), List.getElem?_eq_getElem hi]

theorem getElem?_swap_left (hi : i < h.length) (hj : j < h.length) :
    (swap h i j)[i]? = h[j]? := by
  by_cases hij : i = j
  · subst hij
    exact getElem?_swap_right hi hi
  rw [swap_eq hi hj, List.getElem?_set_ne (Ne.symm hij), List.getElem?_set_self hi,
    List.getElem?_eq_getElem hj]

theorem getElem?_swap_of_ne {k : Nat} (hki : k ≠ i) (hkj : k ≠ j) : (swap h i j)[k]? = h[k]? := by
  unfold swap
  split
  · rw [List.getElem?_set_ne (Ne.symm hkj), List.getElem?_set_ne (Ne.symm hki)]
  · rfl

theorem swap_perm (h : List α) (i j : Nat) : (swap h i j).Perm h := by
  by_cases hij : i < h.length ∧ j < h.length
  · rw [swap_eq hij.1 hij.2]
    exact List.set_set_perm hij.1 hij.2
  · unfold swap
    split
    · rename_i a b ha hb
      exact absurd ⟨(List.getElem?_eq_some_iff.mp ha).1, (List.getElem?_eq_some_iff.mp hb).1⟩ hij
    · exact List.Perm.refl h

theorem eq_of_popLast {h h' : List α} {x : α} (hp : popLast h = some (x, h')) : h = h' ++ [x] := by
  unfold popLast at hp
  obtain ⟨y, hy, hyx⟩ := Option.map_eq_some_iff.mp hp
  simp only [Prod.mk.injEq] at hyx
  obtain ⟨rfl, rfl⟩ := hyx
  exact (List.dropLast_append_getLast? y hy).symm

end Swap

/-! ### What the sifts move -/

section Less

variable [LT α] [DecidableLT α] {h : List α} {i j n : Nat}

theorem less_eq (hi : i < h.length) (hj : j < h.length) : less h i j = decide (h[i] < h[j]) := by
  simp [less, List.getElem?_eq_getElem hi, List.getElem?_eq_getElem hj]

theorem isChild_minChild (h : List α) (i n : Nat) : IsChild (minChild h i n) i := by
  unfold minChild
  dsimp only
  split_ifs <;> rw [isChild_iff] <;> simp

theorem minChild_lt (h1 : 2 * i + 1 < n) : minChild h i n < n := by
  unfold minChild
  dsimp only
  split_ifs with hc
  · exact hc.1
  · exact h1

theorem downLoop_perm (h : List α) (i n : Nat) : (downLoop h i n).1.Perm h := by
  fun_induction downLoop h i n with
  | case1 h i _ _ ih => exact ih.trans (swap_perm _ _ _)
  | case2 => exact List.Perm.refl _
  | case3 => exact List.Perm.refl _

@[simp]
theorem length_downLoop (h : List α) (i n : Nat) : (downLoop h i n).1.length = h.length :=
  (downLoop_perm h i n).length_eq

/-- `down` leaves the positions from `n` on alone. -/
theorem getElem?_downLoop_of_le {k : Nat} (hk : n ≤ k) (h : List α) (i : Nat) :
    (downLoop h i n).1[k]? = h[k]? := by
  fun_induction downLoop h i n with
  | case1 h i h1 _ ih =>
    have := minChild_lt (h := h) h1
    rw [ih, getElem?_swap_of_ne (by omega) (by omega)]
  | case2 => rfl
  | case3 => rfl

theorem le_downLoop (h : List α) (i n : Nat) : i ≤ (downLoop h i n).2 := by
  fun_induction downLoop h i n with
  | case1 h i _ _ ih =>
    have := (isChild_minChild h i n).lt
    omega
  | case2 => exact Nat.le_refl _
  | case3 => exact Nat.le_refl _

/-- A `down` that stops where it started changed nothing. -/
theorem downLoop_eq_of_snd (h : List α) (i n : Nat) (hs : (downLoop h i n).2 = i) :
    (downLoop h i n).1 = h := by
  fun_induction downLoop h i n with
  | case1 h i _ _ =>
    have := (isChild_minChild h i n).lt
    have := le_downLoop (swap h i (minChild h i n)) (minChild h i n) n
    omega
  | case2 => rfl
  | case3 => rfl

theorem up_perm (h : List α) (j : Nat) : (up h j).Perm h := by
  fun_induction up h j with
  | case1 => exact List.Perm.refl _
  | case2 h j _ ih => exact ih.trans (swap_perm _ _ _)

@[simp]
theorem length_up (h : List α) (j : Nat) : (up h j).length = h.length :=
  (up_perm h j).length_eq

/-- `up` from `j` leaves the positions past `j` alone. -/
theorem getElem?_up_of_lt {k : Nat} (h : List α) (j : Nat) (hk : j < k) : (up h j)[k]? = h[k]? := by
  fun_induction up h j with
  | case1 => rfl
  | case2 h j _ ih =>
    have := parent_le j
    rw [ih (by omega), getElem?_swap_of_ne (by omega) (by omega)]

/-- `Pop` takes one element off. -/
theorem length_of_pop {h h' : List α} {x : α} (hp : pop h = some (x, h')) :
    h'.length < h.length := by
  have hL := congrArg List.length (eq_of_popLast hp)
  simp only [down, length_downLoop, length_swap, List.length_append, List.length_singleton] at hL
  omega

theorem initLoop_perm (n k : Nat) (h : List α) : (initLoop n k h).Perm h := by
  induction k generalizing h with
  | zero => exact List.Perm.refl h
  | succ k ih => exact (ih _).trans (downLoop_perm h k n)

end Less

section NotBelow

variable [LT α] {h : List α} {i j : Nat}

theorem notBelow_iff (hi : i < h.length) (hj : j < h.length) : NotBelow h i j ↔ ¬ h[i] < h[j] := by
  simp [NotBelow, List.getElem?_eq_getElem hi, List.getElem?_eq_getElem hj]

/-- `NotBelow` looks only at the two elements. -/
theorem notBelow_congr {h' : List α} {c p c' p' : Nat} (hc : h'[c]? = h[c']?)
    (hp : h'[p]? = h[p']?) : NotBelow h' c p ↔ NotBelow h c' p' := by
  unfold NotBelow
  rw [hc, hp]

theorem notBelow_of_length_le {c p : Nat} (hc : h.length ≤ c) : NotBelow h c p := by
  simp [NotBelow, List.getElem?_eq_none hc]

theorem notBelow_iff_forall {c p : Nat} :
    NotBelow h c p ↔ ∀ a b, h[c]? = some a → h[p]? = some b → ¬ a < b := by
  unfold NotBelow
  split <;> simp_all

end NotBelow

/-- Two positions of one slice are in order exactly when `Less` says no. -/
theorem notBelow_iff_less [LT α] [DecidableLT α] {h : List α} {i j : Nat} (hi : i < h.length)
    (hj : j < h.length) : NotBelow h i j ↔ less h i j = false := by
  rw [notBelow_iff hi hj, less_eq hi hj, decide_eq_false_iff_not]

/-! ### In a strict weak order -/

/-- A strict total order is a strict weak one: two elements neither of which is less than the
other are equal. -/
instance (priority := 100) isStrictWeakOrder_of_isStrictTotalOrder [LT α]
    [IsStrictTotalOrder α (· < ·)] : IsStrictWeakOrder α (· < ·) where
  incomp_trans a b c hab hbc := by
    obtain rfl := ((trichotomous_of (· < ·) a b).resolve_left hab.1).resolve_right hab.2
    exact hbc

section Order

variable [LT α] [IsStrictWeakOrder α (· < ·)] {h : List α}

/-- Not being less is transitive in a strict weak order. -/
theorem not_lt_trans {a b c : α} (hab : ¬ a < b) (hbc : ¬ b < c) : ¬ a < c := by
  intro hac
  -- `b` is neither below `a` nor above `c`, so it ties with both
  have hba : ¬ b < a := fun hba => hbc (trans_of (· < ·) hba hac)
  have hcb : ¬ c < b := fun hcb => hab (trans_of (· < ·) hac hcb)
  exact (IsStrictWeakOrder.incomp_trans a b c ⟨hab, hba⟩ ⟨hbc, hcb⟩).1 hac

theorem notBelow_self (c : Nat) : NotBelow h c c := by
  rw [notBelow_iff_forall]
  intro a b ha hb
  rw [ha, Option.some.injEq] at hb
  subst hb
  exact irrefl a

theorem NotBelow.trans {a b c : Nat} (h₁ : NotBelow h a b) (h₂ : NotBelow h b c)
    (hb : b < h.length) : NotBelow h a c := by
  rw [notBelow_iff_forall] at h₁ h₂ ⊢
  intro x z hx hz
  have hy : h[b]? = some h[b] := List.getElem?_eq_getElem hb
  exact not_lt_trans (h₁ x _ hx hy) (h₂ _ z hy hz)

end Order

section Sift

variable [LT α] [DecidableLT α] [IsStrictWeakOrder α (· < ·)] {h : List α} {i j n m : Nat}

/-- What `Less` says yes to is in order the other way round. -/
theorem notBelow_of_less (hl : less h i j = true) : NotBelow h j i := by
  unfold less at hl
  rw [notBelow_iff_forall]
  intro b a hb ha
  rw [ha, hb] at hl
  exact asymm (of_decide_eq_true hl)

/-- A position not less than `p` is not less than anything less than `p`. -/
theorem NotBelow.of_less {c p : Nat} (hc : NotBelow h c p) (hl : less h j p = true) :
    NotBelow h c j := by
  unfold less at hl
  rw [notBelow_iff_forall] at hc ⊢
  intro a b ha hb
  split at hl
  · rename_i x y hx hy
    rw [hb, Option.some.injEq] at hx
    subst hx
    intro hab
    exact hc a y ha hy (trans_of (· < ·) hab (of_decide_eq_true hl))
  · cases hl

/-! ### The child `down` picks -/

/-- The child `down` picks is not greater than the other child. -/
theorem notBelow_minChild (hn : n ≤ h.length) :
    ∀ s < n, IsChild s i → NotBelow h s (minChild h i n) := by
  intro s hs hsc
  unfold minChild
  dsimp only
  split_ifs with hc
  · rcases isChild_iff.mp hsc with rfl | rfl
    · exact notBelow_of_less hc.2
    · exact notBelow_self _
  · rcases isChild_iff.mp hsc with rfl | rfl
    · exact notBelow_self _
    · -- the right child is there, and `Less` said it is not below the left one
      have hl : less h (2 * i + 1 + 1) (2 * i + 1) = false := by simpa [hs] using hc
      exact (notBelow_iff_less (by omega) (by omega)).mpr hl

/-! ### `down` -/

/-- What `down` keeps while the element it sifts, which started at `i0`, sits at `j`. Among
the first `n` positions and the parents at or past `m`, every position is in order with its
parent but `j`'s children, and but `i0` while nothing has moved; and `j`'s children are not
less than `j`'s parent. -/
structure DownOrder (h : List α) (n m i0 j : Nat) : Prop where
  start_le : i0 ≤ j
  except : ∀ c < n, 0 < c → m ≤ parent c → parent c ≠ j → (c = i0 → i0 < j) →
    NotBelow h c (parent c)
  grand : 0 < j → m ≤ parent j → ∀ c < n, IsChild c j → NotBelow h c (parent j)

/-- **One swap of `down`** with the smaller child `k`, which is less than the element at `j`,
keeps the invariant, now at `k`. -/
theorem DownOrder.move {i0 : Nat} (o : DownOrder h n m i0 j) (hm : m ≤ i0) (hn : n ≤ h.length)
    (h1 : 2 * j + 1 < n) (hl : less h (minChild h j n) j = true) :
    DownOrder (swap h j (minChild h j n)) n m i0 (minChild h j n) := by
  have hkc := isChild_minChild h j n
  have hkn := minChild_lt (h := h) h1
  have hmin := notBelow_minChild (i := j) hn
  generalize minChild h j n = k at hkc hkn hmin hl ⊢
  have hjk := hkc.lt
  have hs := o.start_le
  have hjl : j < h.length := by omega
  have hkl : k < h.length := by omega
  refine ⟨by omega, fun c hcn hc0 hmc hpc _ => ?_, fun _ hmk c hcn hck => ?_⟩
  · by_cases hck : c = k
    · -- `k` now holds the sifted element, below the smaller child that went up to `j`
      rw [hck, hkc.2, notBelow_congr (getElem?_swap_right hjl hkl) (getElem?_swap_left hjl hkl)]
      exact notBelow_of_less hl
    by_cases hcj : c = j
    · -- the smaller child, now at `j`, against `j`'s parent
      rw [hcj] at hc0 hmc ⊢
      have hpj := parent_lt hc0
      rw [notBelow_congr (getElem?_swap_left hjl hkl) (getElem?_swap_of_ne (by omega) (by omega))]
      exact o.grand hc0 hmc k hkn hkc
    by_cases hpj : parent c = j
    · -- the other child of `j`, against the smaller one
      rw [hpj, notBelow_congr (getElem?_swap_of_ne hcj hck) (getElem?_swap_left hjl hkl)]
      exact hmin c hcn ⟨hc0, hpj⟩
    · rw [notBelow_congr (getElem?_swap_of_ne hcj hck) (getElem?_swap_of_ne hpj hpc)]
      exact o.except c hcn hc0 hmc hpj (fun _ => by omega)
  · -- `k`'s children, against the smaller child now at `j`
    have hkc' := hck.lt
    rw [hkc.2, notBelow_congr (getElem?_swap_of_ne (by omega) (by omega)) (getElem?_swap_left hjl hkl)]
    have hck' := o.except c hcn hck.1 (by rw [hck.2]; omega) (by rw [hck.2]; omega) (fun _ => by omega)
    rwa [hck.2] at hck'

/-- **Where `down` stops**, with no child less than the element at `j`, every position is in
order with its parent but `i0` if nothing has moved. -/
theorem DownOrder.finish {i0 : Nat} (o : DownOrder h n m i0 j) (hn : n ≤ h.length)
    (hstop : 2 * j + 1 < n → less h (minChild h j n) j = false) :
    ∀ c < n, 0 < c → m ≤ parent c → (c = i0 → i0 < j) → NotBelow h c (parent c) := by
  intro c hcn hc0 hmc hci0
  by_cases hpc : parent c = j
  · -- a child of `j` is not less than the smaller child, which is not less than `j`
    have hcj : IsChild c j := ⟨hc0, hpc⟩
    have h1 : 2 * j + 1 < n := by rw [isChild_iff] at hcj; omega
    have hkn := minChild_lt (h := h) h1
    have hkj : NotBelow h (minChild h j n) j :=
      (notBelow_iff_less (by omega) (by omega)).mpr (hstop h1)
    rw [hpc]
    exact (notBelow_minChild hn c hcn hcj).trans hkj (by omega)
  · exact o.except c hcn hc0 hmc hpc hci0

/-- **`down` sifts the element into place**: every position is in order with its parent but
`i0` if it did not move. -/
theorem downLoop_ordered {i0 : Nat} (hm : m ≤ i0) (h : List α) (j : Nat) (hn : n ≤ h.length)
    (o : DownOrder h n m i0 j) :
    ∀ c < n, 0 < c → m ≤ parent c → (c = i0 → i0 < (downLoop h j n).2) →
      NotBelow (downLoop h j n).1 c (parent c) := by
  fun_induction downLoop h j n with
  | case1 h j h1 hl ih => exact ih (by simpa using hn) (o.move hm hn h1 hl)
  | case2 h j h1 hl => exact o.finish hn (fun _ => by simpa using hl)
  | case3 h j h1 => exact o.finish hn (fun h1' => absurd h1' h1)

/-! ### `up` -/

/-- What `up` keeps while the element it sifts sits at `j`, among the first `n` positions:
every position but `j` is in order with its parent, and `j`'s children are not less than
`j`'s parent. -/
structure UpOrder (h : List α) (n j : Nat) : Prop where
  except : ∀ c < n, 0 < c → c ≠ j → NotBelow h c (parent c)
  grand : 0 < j → ∀ c < n, IsChild c j → NotBelow h c (parent j)

/-- **One swap of `up`** with the parent `p`, which is greater than the element at `j`,
keeps the invariant, now at `p`. -/
theorem UpOrder.move (o : UpOrder h n j) (hn : n ≤ h.length) (hj : j < n) (hj0 : 0 < j)
    (hl : less h j (parent j) = true) : UpOrder (swap h (parent j) j) n (parent j) := by
  have hpj := parent_lt hj0
  generalize hp : parent j = p at hl hpj ⊢
  have hjl : j < h.length := by omega
  have hpl : p < h.length := by omega
  have hpp : 0 < p → NotBelow h p (parent p) := fun hp0 => o.except p (by omega) hp0 (by omega)
  refine ⟨fun c hcn hc0 hcp => ?_, fun hp0 c hcn hcc => ?_⟩
  · by_cases hcj : c = j
    · -- the old parent, now at `j`, against the sifted element now at `p`
      rw [hcj, hp, notBelow_congr (getElem?_swap_right hpl hjl) (getElem?_swap_left hpl hjl)]
      exact notBelow_of_less hl
    by_cases hpc : parent c = p
    · -- the other child of `p`, against the sifted element, which is less than the old parent
      rw [hpc, notBelow_congr (getElem?_swap_of_ne hcp hcj) (getElem?_swap_left hpl hjl)]
      have hcp' := o.except c hcn hc0 hcj
      rw [hpc] at hcp'
      exact hcp'.of_less hl
    by_cases hcc : parent c = j
    · -- `j`'s children, against the old parent now at `j`
      have hjc : j < c := (show IsChild c j from ⟨hc0, hcc⟩).lt
      rw [hcc, notBelow_congr (getElem?_swap_of_ne (by omega) (by omega))
        (getElem?_swap_right hpl hjl), ← hp]
      exact o.grand hj0 c hcn ⟨hc0, hcc⟩
    · rw [notBelow_congr (getElem?_swap_of_ne hcp hcj) (getElem?_swap_of_ne hpc hcc)]
      exact o.except c hcn hc0 hcj
  · -- `p`'s children, against `p`'s parent, which nothing moved
    have hpp' := parent_lt hp0
    have hpc := hcc.lt
    have hpar : (swap h p j)[parent p]? = h[parent p]? := getElem?_swap_of_ne (by omega) (by omega)
    by_cases hcj : c = j
    · rw [hcj, notBelow_congr (getElem?_swap_right hpl hjl) hpar]
      exact hpp hp0
    · rw [notBelow_congr (getElem?_swap_of_ne (by omega) hcj) hpar]
      have hcp' := o.except c hcn hcc.1 hcj
      rw [hcc.2] at hcp'
      exact hcp'.trans (hpp hp0) hpl

omit [IsStrictWeakOrder α (· < ·)] in
/-- **Where `up` stops**, at the root or below a parent that is not greater, the first `n`
positions are a heap. -/
theorem UpOrder.finish (o : UpOrder h n j) (hn : n ≤ h.length) (hj : j < n)
    (hstop : 0 < j → less h j (parent j) = false) : Ordered h n 0 := by
  intro c hcn hc0 _
  by_cases hcj : c = j
  · rw [hcj] at hc0 ⊢
    have hpj := parent_lt hc0
    exact (notBelow_iff_less (by omega) (by omega)).mpr (hstop hc0)
  · exact o.except c hcn hc0 hcj

/-- **`up` sifts the element into place**: the first `n` positions are a heap again. -/
theorem up_ordered (h : List α) (j : Nat) (hn : n ≤ h.length) (hj : j < n) (o : UpOrder h n j) :
    Ordered (up h j) n 0 := by
  fun_induction up h j with
  | case1 h j hstop =>
    refine o.finish hn hj fun hj0 => ?_
    have hpj := parent_lt hj0
    exact hstop.resolve_left (by omega)
  | case2 h j hne ih =>
    obtain ⟨hpj, hl⟩ := not_or.mp hne
    have hj0 : 0 < j := by
      unfold parent at hpj
      omega
    have := parent_lt hj0
    exact ih (by simpa using hn) (by omega) (o.move hn hj hj0 (by simpa using hl))

/-! ### The operations of the package -/

omit [DecidableLT α] in
/-- **The root of a heap is its least element.** -/
theorem root_min (hh : IsHeap h) : ∀ k < h.length, NotBelow h k 0 := by
  intro k
  induction k using Nat.strongRecOn with
  | ind k ih =>
    intro hk
    rcases Nat.eq_zero_or_pos k with rfl | hk0
    · exact notBelow_self 0
    · have hp := parent_lt hk0
      exact (hh k hk hk0 (Nat.zero_le _)).trans (ih _ hp (by omega)) (by omega)

omit [DecidableLT α] in
/-- No element of a heap is less than its root. -/
theorem not_lt_root (hh : IsHeap h) {x : α} (hx : h[0]? = some x) : ∀ y ∈ h, ¬ y < x := by
  intro y hy
  obtain ⟨k, hk, rfl⟩ := List.getElem_of_mem hy
  have := root_min hh k hk
  rw [notBelow_iff_forall] at this
  exact this _ x (List.getElem?_eq_getElem hk) hx

omit [DecidableLT α] [IsStrictWeakOrder α (· < ·)] in
/-- The last element of a slice whose first `n` positions are a heap comes off and leaves a
heap. -/
theorem popLast_ordered {L : List α} (hlen : L.length = n + 1) (ho : Ordered L n 0) :
    ∃ x h', popLast L = some (x, h') ∧ L[n]? = some x ∧ IsHeap h' ∧ (x :: h').Perm L := by
  rcases List.eq_nil_or_concat' L with rfl | ⟨h', x, rfl⟩
  · simp at hlen
  · have hn : h'.length = n := by simpa using hlen
    refine ⟨x, h', by simp [popLast], by rw [← hn, List.getElem?_concat_length], ?_,
      (List.perm_append_singleton x h').symm⟩
    intro c hc hc0 _
    have hpc := parent_lt hc0
    exact (notBelow_congr (List.getElem?_append_left hc).symm
      (List.getElem?_append_left (by omega)).symm).mpr (ho c (by omega) hc0 (Nat.zero_le _))

/-- **`Push` adds an element** and leaves a heap. -/
theorem push_spec (hh : IsHeap h) (x : α) : IsHeap (push h x) ∧ (push h x).Perm (x :: h) := by
  have hlen : (h ++ [x]).length = h.length + 1 := by simp
  -- the new element is out of place, at the end, with no children
  have o : UpOrder (h ++ [x]) (h.length + 1) h.length := by
    refine ⟨fun c hc hc0 hcj => ?_, fun _ c hc hch => absurd hc (by have := hch.lt; omega)⟩
    have hpc := parent_lt hc0
    rw [notBelow_congr (List.getElem?_append_left (by omega)) (List.getElem?_append_left (by omega))]
    exact hh c (by omega) hc0 (Nat.zero_le _)
  refine ⟨?_, (up_perm _ _).trans (List.perm_append_singleton x h)⟩
  unfold IsHeap push
  rw [length_up, hlen]
  exact up_ordered _ _ (Nat.le_of_eq hlen.symm) (by omega) o

/-- **`Pop` takes the least element off**, the root, and leaves a heap of the others. -/
theorem pop_spec (hh : IsHeap h) (hne : h ≠ []) :
    ∃ x h', pop h = some (x, h') ∧ h[0]? = some x ∧ IsHeap h' ∧ (x :: h').Perm h := by
  obtain ⟨n, hlen⟩ : ∃ n, h.length = n + 1 :=
    ⟨h.length - 1, by have := List.length_pos_iff.mpr hne; omega⟩
  have h0 : 0 < h.length := by omega
  have hnl : n < h.length := by omega
  -- the last element goes to the root, to be sifted down among the first `n`
  have o : DownOrder (swap h 0 n) n 0 0 0 := by
    refine ⟨Nat.le_refl 0, fun c hcn hc0 _ hpc _ => ?_, fun h00 => absurd h00 (Nat.lt_irrefl 0)⟩
    have hpc' := parent_lt hc0
    rw [notBelow_congr (getElem?_swap_of_ne (by omega) (by omega))
      (getElem?_swap_of_ne hpc (by omega))]
    exact hh c (by omega) hc0 (Nat.zero_le _)
  have hnl' : n ≤ (swap h 0 n).length := by simp; omega
  have hord := downLoop_ordered (Nat.le_refl 0) (swap h 0 n) 0 hnl' o
  obtain ⟨x, h', hp, hx, hheap, hperm⟩ := popLast_ordered (L := (downLoop (swap h 0 n) 0 n).1)
    (by simp [hlen]) (fun c hcn hc0 _ => hord c hcn hc0 (Nat.zero_le _) (fun hc => by omega))
  refine ⟨x, h', ?_, ?_, hheap, hperm.trans ((downLoop_perm _ _ _).trans (swap_perm _ _ _))⟩
  · simp only [pop, down, hlen, Nat.add_sub_cancel]
    exact hp
  · rw [← hx, getElem?_downLoop_of_le (Nat.le_refl n), getElem?_swap_right h0 hnl]

/-- **The sift of `Remove` and `Fix`.** Among the first `n` positions of a slice that are a
heap but at `i`, where the children of `i` are not less than its parent, `down` from `i`,
and `up` if it did not move, make a heap of the same elements, and leave the positions from
`n` on alone. -/
theorem sift_ordered (hn : n ≤ h.length) (hin : i < n)
    (hexc : ∀ c < n, 0 < c → c ≠ i → parent c ≠ i → NotBelow h c (parent c))
    (hgrand : 0 < i → ∀ c < n, IsChild c i → NotBelow h c (parent i)) :
    Ordered (if (down h i n).2 then (down h i n).1 else up (down h i n).1 i) n 0 ∧
      (if (down h i n).2 then (down h i n).1 else up (down h i n).1 i).Perm h ∧
      ∀ k, n ≤ k →
        (if (down h i n).2 then (down h i n).1 else up (down h i n).1 i)[k]? = h[k]? := by
  have o : DownOrder h n 0 i i := by
    refine ⟨Nat.le_refl i, fun c hcn hc0 _ hpc hci => ?_, fun hi0 _ => hgrand hi0⟩
    exact hexc c hcn hc0 (fun hc => absurd (hci hc) (Nat.lt_irrefl i)) hpc
  have hord := downLoop_ordered (Nat.zero_le i) h i hn o
  have hperm : (downLoop h i n).1.Perm h := downLoop_perm _ _ _
  by_cases hmv : (downLoop h i n).2 > i
  · -- it moved down, and the heap is whole
    simp only [down, hmv, decide_true, if_true]
    exact ⟨fun c hcn hc0 _ => hord c hcn hc0 (Nat.zero_le _) (fun _ => hmv), hperm,
      fun k hk => getElem?_downLoop_of_le hk _ _⟩
  · -- it did not move, so `up` moves it
    have hstay : (downLoop h i n).2 = i := by
      have := le_downLoop h i n
      omega
    have hsame := downLoop_eq_of_snd _ _ _ hstay
    simp only [down, hmv, decide_false, Bool.false_eq_true, if_false]
    rw [hsame] at hord hperm ⊢
    have ou : UpOrder h n i :=
      ⟨fun c hcn hc0 hci => hord c hcn hc0 (Nat.zero_le _) (fun hc => absurd hc hci), hgrand⟩
    exact ⟨up_ordered _ _ hn hin ou, up_perm _ _, fun k hk => getElem?_up_of_lt _ _ (by omega)⟩

/-- What `Remove` has made of the slice before `h.Pop()`: the element that was at `i` is last,
and the positions before it are a heap. -/
theorem sift_of_remove (hh : IsHeap h) (hin : i < n) (hlen : h.length = n + 1)
    (r : List α × Bool) (hr : down (swap h i n) i n = r) :
    (if r.2 then r.1 else up r.1 i).length = n + 1 ∧ Ordered (if r.2 then r.1 else up r.1 i) n 0 ∧
      (if r.2 then r.1 else up r.1 i)[n]? = h[i]? ∧ (if r.2 then r.1 else up r.1 i).Perm h := by
  have hil : i < h.length := by omega
  have hnl : n < h.length := by omega
  -- the last element goes to `i`: its children are not less than `i`'s parent
  have hgrand : 0 < i → ∀ c < n, IsChild c i → NotBelow (swap h i n) c (parent i) := by
    intro hi0 c hcn hci
    have hic := hci.lt
    have hpi := parent_lt hi0
    rw [notBelow_congr (getElem?_swap_of_ne (by omega) (by omega))
      (getElem?_swap_of_ne (by omega) (by omega))]
    have hc := hh c (by omega) hci.1 (Nat.zero_le _)
    rw [hci.2] at hc
    exact hc.trans (hh i hil hi0 (Nat.zero_le _)) hil
  have hexc : ∀ c < n, 0 < c → c ≠ i → parent c ≠ i → NotBelow (swap h i n) c (parent c) := by
    intro c hcn hc0 hci hpc
    have hpc' := parent_lt hc0
    rw [notBelow_congr (getElem?_swap_of_ne hci (by omega)) (getElem?_swap_of_ne hpc (by omega))]
    exact hh c (by omega) hc0 (Nat.zero_le _)
  obtain ⟨hord, hperm, hrest⟩ := sift_ordered (by simp; omega) hin hexc hgrand
  subst hr
  refine ⟨by rw [hperm.length_eq, length_swap, hlen], hord, ?_, hperm.trans (swap_perm _ _ _)⟩
  rw [hrest n (Nat.le_refl n), getElem?_swap_right hil hnl]

/-- **`Remove` takes the element at `i` off**, and leaves a heap of the others. -/
theorem remove_spec (hh : IsHeap h) (hi : i < h.length) :
    ∃ h', remove h i = some (h[i], h') ∧ IsHeap h' ∧ (h[i] :: h').Perm h := by
  obtain ⟨n, hlen⟩ : ∃ n, h.length = n + 1 := ⟨h.length - 1, by omega⟩
  have hnl : n < h.length := by omega
  by_cases hni : n = i
  · -- the last element: nothing to sift
    obtain ⟨x, h', hp, hx, hheap, hperm⟩ :=
      popLast_ordered hlen (fun c hc hc0 _ => hh c (by omega) hc0 (Nat.zero_le _))
    subst hni
    rw [List.getElem?_eq_getElem hnl, Option.some.injEq] at hx
    subst hx
    refine ⟨h', ?_, hheap, hperm⟩
    simp only [remove, hlen, Nat.add_sub_cancel, ne_eq, not_true_eq_false, if_false]
    exact hp
  · have hrem : remove h i = popLast (if (down (swap h i n) i n).2 then (down (swap h i n) i n).1
        else up (down (swap h i n) i n).1 i) := by
      simp only [remove, hlen, Nat.add_sub_cancel, ne_eq, hni, not_false_eq_true, if_true]
    have hin : i < n := by omega
    obtain ⟨hLlen, hLord, hLn, hLperm⟩ := sift_of_remove hh hin hlen _ rfl
    rw [hrem]
    generalize (if (down (swap h i n) i n).2 then (down (swap h i n) i n).1
      else up (down (swap h i n) i n).1 i) = L at hLlen hLord hLn hLperm ⊢
    obtain ⟨x, h', hp, hx, hheap, hperm⟩ := popLast_ordered hLlen hLord
    rw [hLn, List.getElem?_eq_getElem hi, Option.some.injEq] at hx
    subst hx
    exact ⟨h', hp, hheap, hperm.trans hLperm⟩

/-- **`Fix` puts a changed element back in place**: a heap whose element at `i` is replaced
is a heap again after `Fix`, of the new elements. -/
theorem fix_spec (hh : IsHeap h) (hi : i < h.length) (x : α) :
    IsHeap (fix (h.set i x) i) ∧ (fix (h.set i x) i).Perm (h.set i x) := by
  have hlen : (h.set i x).length = h.length := List.length_set
  -- the children of `i` were not less than the old element, nor that than `i`'s parent
  have hgrand : 0 < i → ∀ c < h.length, IsChild c i → NotBelow (h.set i x) c (parent i) := by
    intro hi0 c hcn hci
    have hic := hci.lt
    have hpi := parent_lt hi0
    rw [notBelow_congr (List.getElem?_set_ne (by omega)) (List.getElem?_set_ne (by omega))]
    have hc := hh c hcn hci.1 (Nat.zero_le _)
    rw [hci.2] at hc
    exact hc.trans (hh i hi hi0 (Nat.zero_le _)) hi
  have hexc : ∀ c < h.length, 0 < c → c ≠ i → parent c ≠ i →
      NotBelow (h.set i x) c (parent c) := by
    intro c hcn hc0 hci hpc
    rw [notBelow_congr (List.getElem?_set_ne (Ne.symm hci)) (List.getElem?_set_ne (Ne.symm hpc))]
    exact hh c hcn hc0 (Nat.zero_le _)
  obtain ⟨hord, hperm, -⟩ := sift_ordered (h := h.set i x) (Nat.le_of_eq hlen.symm) hi hexc hgrand
  have hfix : fix (h.set i x) i = if (down (h.set i x) i h.length).2 then
      (down (h.set i x) i h.length).1 else up (down (h.set i x) i h.length).1 i := by
    unfold fix
    rw [hlen]
  rw [hfix]
  refine ⟨?_, hperm⟩
  unfold IsHeap
  rw [hperm.length_eq, hlen]
  exact hord

/-! ### `Init` -/

/-- **`Init`'s loop** turns a slice whose subtrees below the parent `k` are heaps into a heap,
sifting down from `k - 1` to the root. -/
theorem initLoop_ordered (n : Nat) :
    ∀ (k : Nat) (h : List α), n ≤ h.length → Ordered h n k → Ordered (initLoop n k h) n 0
  | 0, _, _, ho => ho
  | k + 1, h, hn, ho => by
    -- `k` is sifted into the heaps below it; nothing above it is looked at yet
    have o : DownOrder h n k k k :=
      ⟨Nat.le_refl k, fun c hcn hc0 hmc hpc _ => ho c hcn hc0 (by omega),
        fun hk0 hmk => absurd hmk (by have := parent_lt hk0; omega)⟩
    have hord := downLoop_ordered (Nat.le_refl k) h k hn o
    refine initLoop_ordered n k _ (by simpa [down] using hn) fun c hcn hc0 hmc => ?_
    refine hord c hcn hc0 hmc fun hck => ?_
    subst hck
    exact absurd hmc (by have := parent_lt hc0; omega)

/-- **`Init` makes a heap** of the same elements. -/
theorem init_spec (h : List α) : IsHeap (init h) ∧ (init h).Perm h := by
  have hperm := initLoop_perm h.length (h.length / 2) h
  refine ⟨?_, hperm⟩
  unfold IsHeap init
  rw [hperm.length_eq]
  refine initLoop_ordered _ _ _ (Nat.le_refl _) fun c hc _ hmc => ?_
  -- no position of the slice has a parent at or past half its length
  unfold parent at hmc
  omega

end Sift

/-! ### Heaps of `uint64` -/

/-- `uint64` with `<` is a strict total order, so a heap of `uint64`s is one. -/
instance uint64_isStrictTotalOrder : IsStrictTotalOrder UInt64 (· < ·) where
  trichotomous a b hab hba := by
    rw [UInt64.lt_iff_toNat_lt] at hab hba
    exact UInt64.toNat_inj.mp (by omega)
  irrefl a h := Nat.lt_irrefl _ (UInt64.lt_iff_toNat_lt.mp h)
  trans a b c hab hbc := by
    rw [UInt64.lt_iff_toNat_lt] at hab hbc ⊢
    omega

end GoHeap
