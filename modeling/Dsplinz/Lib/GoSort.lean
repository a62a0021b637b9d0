import Mathlib

/-!
# Binary search

Go's `sort.Search(n, f)` finds by binary search the smallest index in `[0, n)` at which
`f` holds, assuming that `f` is false and then true over `[0, n)`, and returns `n` when
there is none. The loop is modelled step for step: it keeps a window `[i, j)` and halves
it at the midpoint until it is empty.

* `GoSort.search_spec` – for a predicate that is false and then true, the result is the
  first index at which it holds: it is false before, and true there unless the result is
  `n`;
* `GoSort.search_eq_of_spec` – hence the result is the one index with that property;
* `GoSort.search_key_eq`, `GoSort.search_key_eq_length` – over rising keys, the search for
  the key of an index finds that index, and the search for a key above them all finds
  none.
-/

namespace GoSort

/-- The loop `for i < j` of `sort.Search`, over the window `[i, j)`. -/
def searchLoop (f : Nat → Bool) (i j : Nat) : Nat :=
  if i < j then
    -- `h := int(uint(i+j) >> 1)`: the midpoint, computed without overflow
    let h := (i + j) / 2
    if !f h then searchLoop f (h + 1) j else searchLoop f i h
  else i
termination_by j - i

/-- `sort.Search(n, f)`. -/
def search (n : Nat) (f : Nat → Bool) : Nat := searchLoop f 0 n

/-- `f` is false and then true over `[0, n)`. -/
def Monotone (n : Nat) (f : Nat → Bool) : Prop := ∀ a b, a ≤ b → b < n → f a → f b

/-- What the result of a search over `[0, n)` is: an index up to `n`, before which `f` is
false, and at which it is true unless it is `n`. -/
structure IsFirst (n : Nat) (f : Nat → Bool) (r : Nat) : Prop where
  le : r ≤ n
  before : ∀ k < r, f k = false
  at_ : r < n → f r = true

variable {n : Nat} {f : Nat → Bool}

/-- The invariant of the loop: the window lies in `[0, n)`, `f` is false to its left and
true at its right end. -/
theorem searchLoop_spec (hf : Monotone n f) (i j : Nat) (hj : j ≤ n) (hij : i ≤ j)
    (hlo : ∀ k < i, f k = false) (hhi : j < n → f j = true) :
    IsFirst n f (searchLoop f i j) := by
  fun_induction searchLoop f i j with
  | case1 i j hlt h hfh ih =>
    -- `f h` is false: so is `f` at every index up to `h`
    have hfh' : f ((i + j) / 2) = false := by simpa using hfh
    refine ih hj (by omega) (fun k hk => ?_) hhi
    by_cases hki : k < i
    · exact hlo k hki
    · cases hfk : f k with
      | false => rfl
      | true =>
        have := hf k ((i + j) / 2) (by omega) (by omega) hfk
        rw [hfh'] at this
        cases this
  | case2 i j hlt h hfh ih =>
    -- `f h` is true: the first index is at most `h`
    have hfh' : f ((i + j) / 2) = true := by simpa using hfh
    exact ih (by omega) (by omega) hlo fun _ => hfh'
  | case3 i j hge =>
    have hij' : i = j := by omega
    subst hij'
    exact ⟨hj, hlo, hhi⟩

theorem search_spec (hf : Monotone n f) : IsFirst n f (search n f) :=
  searchLoop_spec hf 0 n (Nat.le_refl n) (Nat.zero_le n)
    (fun _ h => absurd h (Nat.not_lt_zero _)) fun h => absurd h (Nat.lt_irrefl n)

/-- The first index is unique. -/
theorem IsFirst.unique {r r' : Nat} (h : IsFirst n f r) (h' : IsFirst n f r') : r = r' := by
  rcases Nat.lt_trichotomy r r' with hlt | heq | hgt
  · have := h'.before r hlt
    rw [h.at_ (by have := h'.le; omega)] at this
    cases this
  · exact heq
  · have := h.before r' hgt
    rw [h'.at_ (by have := h.le; omega)] at this
    cases this

theorem search_eq_of_spec {r : Nat} (hf : Monotone n f) (h : IsFirst n f r) :
    search n f = r :=
  (search_spec hf).unique h

/-! ### Searching a list -/

/-- **Over a list along which `p` turns from false to true, the search for `p` finds the end
of the prefix where it is false.** -/
theorem search_eq_length_takeWhile {α : Type} {l : List α} {p : α → Bool} (d : α)
    (hmono : l.Pairwise fun a b => p a = true → p b = true) :
    search l.length (fun i => p (l.getD i d)) = (l.takeWhile fun b => !p b).length := by
  have hget : ∀ i (hi : i < l.length), l.getD i d = l[i] := fun i hi => by simp [hi]
  have hpre := List.takeWhile_prefix (l := l) fun b => !p b
  apply search_eq_of_spec
  · intro a b hab hb ha
    simp only at ha ⊢
    rw [hget a (by omega)] at ha
    rw [hget b hb]
    rcases Nat.lt_or_eq_of_le hab with hlt | rfl
    · exact List.pairwise_iff_getElem.mp hmono a b (by omega) hb hlt ha
    · exact ha
  · refine ⟨hpre.length_le, fun k hk => ?_, fun hk => ?_⟩
    · -- the entries of the prefix fail the test
      rw [hget k (by have := hpre.length_le; omega), ← hpre.getElem hk]
      simpa using List.mem_takeWhile_imp (List.getElem_mem hk)
    · -- the entry after it passes
      have hne : l.dropWhile (fun b => !p b) ≠ [] := by
        intro hnil
        have := congrArg List.length (List.takeWhile_append_dropWhile (p := fun b => !p b) (l := l))
        rw [hnil, List.append_nil] at this
        omega
      have hhead := List.head_dropWhile_not (fun b => !p b) hne
      rw [hget _ hk]
      have hat : l[(l.takeWhile fun b => !p b).length] =
          (l.dropWhile fun b => !p b).head hne := by
        have e := (List.takeWhile_append_dropWhile (p := fun b => !p b) (l := l)).symm
        rw [List.head_eq_getElem, List.getElem_of_eq e, List.getElem_append_right (Nat.le_refl _)]
        simp
      rw [hat]
      simpa using hhead

/-! ### Searching rising keys -/

section Key

variable {key : Nat → Int}

theorem search_key_monotone (hkey : ∀ a b, a < b → b < n → key a < key b) (x : Int) :
    Monotone n fun i => decide (x ≤ key i) := by
  intro a b hab hb ha
  have hxa : x ≤ key a := of_decide_eq_true ha
  apply decide_eq_true
  rcases Nat.lt_or_eq_of_le hab with hlt | heq
  · have := hkey a b hlt hb
    omega
  · exact heq ▸ hxa

/-- Over rising keys, the search for the key of index `k` finds `k`. -/
theorem search_key_eq (hkey : ∀ a b, a < b → b < n → key a < key b) {k : Nat} (hk : k < n) :
    search n (fun i => decide (key k ≤ key i)) = k := by
  refine search_eq_of_spec (search_key_monotone hkey _) ⟨Nat.le_of_lt hk, fun i hi => ?_, ?_⟩
  · -- the keys before `k` are below it
    have := hkey i k hi hk
    exact decide_eq_false (by omega)
  · exact fun _ => decide_eq_true (Int.le_refl _)

/-- A key above all keys is found nowhere. -/
theorem search_key_eq_length {x : Int} (hx : ∀ i < n, key i < x) :
    search n (fun i => decide (x ≤ key i)) = n := by
  have hfalse : ∀ i < n, decide (x ≤ key i) = false := fun i hi =>
    decide_eq_false (by have := hx i hi; omega)
  refine search_eq_of_spec (fun a b _ hb ha => ?_) ⟨Nat.le_refl n, hfalse, fun h => absurd h (Nat.lt_irrefl n)⟩
  rw [hfalse a (by omega)] at ha
  cases ha

end Key

end GoSort
