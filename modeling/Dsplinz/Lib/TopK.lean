import Mathlib

/-!
# Keeping the `k` least

A list kept sorted by a key, into which elements are inserted one at a time, each before
the first element of a greater key, and which is cut to its first `k` elements after each
insertion, holds at every point the `k` least of what was inserted, in order.

`TopK.insert` is `List.orderedInsert` for the strict comparison of keys, and `TopK.push`
cuts after it. `TopK.Least` states what the list is after some insertions:

| lemma | what it gives |
|---|---|
| `TopK.insert_sorted` | insertion keeps the list sorted |
| `TopK.Least.push` | one insertion keeps the `k` least |
| `TopK.Least.foldl` | so does a sequence of them |
| `TopK.Least.le_of_not_mem` | an element left out is no less than any kept |
-/

namespace TopK

variable {α β : Type} [LinearOrder β] (key : α → β)

/-- `x` inserted before the first element of `l` of a greater key. -/
def insert (x : α) (l : List α) : List α := l.orderedInsert (fun a b => key a < key b) x

/-- One insertion, after which only the first `k` elements are kept. -/
def push (k : Nat) (l : List α) (x : α) : List α := (insert key x l).take k

/-- `l` holds the `k` least elements of `seen` by key, sorted: it has `min k seen.length`
elements, and `seen` is `l` and a rest, up to order, whose keys are no less. -/
structure Least (k : Nat) (seen l : List α) : Prop where
  sorted : l.Pairwise fun a b => key a ≤ key b
  length_eq : l.length = min k seen.length
  split : ∃ rest, seen.Perm (l ++ rest) ∧ ∀ a ∈ l, ∀ b ∈ rest, key a ≤ key b

variable {key}

/-! ### One insertion -/

/-- Where `x` goes: after the elements of keys up to its own, before the others. -/
theorem insert_eq (x : α) (l : List α) :
    insert key x l = l.takeWhile (fun b => decide ¬key x < key b) ++
      x :: l.dropWhile (fun b => decide ¬key x < key b) :=
  List.orderedInsert_eq_take_drop _ x l

theorem insert_perm (x : α) (l : List α) : (insert key x l).Perm (x :: l) :=
  List.perm_orderedInsert _ x l

theorem insert_sorted {x : α} {l : List α} (hl : l.Pairwise fun a b => key a ≤ key b) :
    (insert key x l).Pairwise fun a b => key a ≤ key b := by
  induction l with
  | nil => simp [insert]
  | cons y l ih =>
    obtain ⟨hy, hl⟩ := List.pairwise_cons.mp hl
    by_cases hxy : key x < key y
    · -- `x` goes in front of `y`, and so before everything after it
      rw [insert, List.orderedInsert_cons, if_pos hxy]
      refine List.pairwise_cons.mpr ⟨fun z hz => ?_, List.pairwise_cons.mpr ⟨hy, hl⟩⟩
      rcases List.mem_cons.mp hz with rfl | hz
      · exact le_of_lt hxy
      · exact (le_of_lt hxy).trans (hy z hz)
    · rw [insert, List.orderedInsert_cons, if_neg hxy]
      refine List.pairwise_cons.mpr ⟨fun z hz => ?_, ih hl⟩
      rcases List.mem_cons.mp ((insert_perm x l).mem_iff.mp hz) with rfl | hz
      · exact not_lt.mp hxy
      · exact hy z hz

/-- The elements before `x` have keys up to its own. -/
theorem le_of_mem_takeWhile {x a : α} {l : List α}
    (ha : a ∈ l.takeWhile fun b => decide ¬key x < key b) : key a ≤ key x := by
  have := List.mem_takeWhile_imp ha
  simpa using this

/-- **One insertion keeps the `k` least.** When the list is full, the last element of the
insertion is cut off and joins the rest: it is `x` itself, or an element at least as far as
`x` and no further than the rest. -/
theorem Least.push {k : Nat} {seen l : List α} (h : Least key k seen l) (x : α) :
    Least key k (seen ++ [x]) (push key k l x) := by
  obtain ⟨hsorted, hlen, rest, hperm, hrest⟩ := h
  have hsorted' := insert_sorted (x := x) hsorted
  have hlen' : (insert key x l).length = l.length + 1 := by simp [(insert_perm x l).length_eq]
  by_cases hroom : l.length < k
  · -- room left: nothing is cut off, and nothing was ever left out
    have hnil : rest = [] := by
      have := hperm.length_eq
      rw [List.length_append] at this
      exact List.eq_nil_of_length_eq_zero (by omega)
    subst hnil
    refine ⟨?_, ?_, [], ?_, by simp⟩
    · rw [TopK.push, List.take_of_length_le (by omega)]
      exact hsorted'
    · rw [TopK.push, List.take_of_length_le (by omega), hlen', List.length_append]
      have := hperm.length_eq
      simp only [List.length_append, List.length_nil] at this
      simp only [List.length_singleton]
      omega
    · rw [TopK.push, List.take_of_length_le (by omega), List.append_nil]
      rw [List.append_nil] at hperm
      exact (hperm.append_right [x]).trans
        ((List.perm_append_singleton x l).trans (insert_perm x l).symm)
  · -- the list is full: the last element of the insertion is cut off
    have hk : l.length = k := by
      rw [hlen]
      omega
    rw [insert_eq] at hsorted' hlen'
    generalize hp : l.takeWhile (fun b => decide ¬key x < key b) = p at hsorted' hlen'
    generalize hs : l.dropWhile (fun b => decide ¬key x < key b) = s at hsorted' hlen'
    have hl : l = p ++ s := by rw [← hp, ← hs, List.takeWhile_append_dropWhile]
    have hpx : ∀ a ∈ p, key a ≤ key x := fun a ha => le_of_mem_takeWhile (hp ▸ ha)
    have hcut : TopK.push key k l x = (insert key x l).take k := rfl
    rw [insert_eq, hp, hs] at hcut
    rcases List.eq_nil_or_concat s with rfl | ⟨s', z, rfl⟩
    · -- `x` goes last and is cut off: the list stays as it was
      rw [List.append_nil] at hl
      subst hl
      rw [List.take_left' hk] at hcut
      rw [hcut]
      refine ⟨hsorted, by simp only [List.length_append, List.length_singleton]; omega, x :: rest,
        ?_, fun a ha b hb => ?_⟩
      · refine (hperm.append_right [x]).trans ?_
        rw [List.append_assoc]
        exact (List.perm_append_singleton x rest).append_left l
      · rcases List.mem_cons.mp hb with rfl | hb
        · exact hpx a ha
        · exact hrest a ha b hb
    · -- the last element `z` of the list is cut off and joins the rest
      subst hl
      simp only [List.concat_eq_append] at hsorted' hlen' hcut hperm hrest hk ⊢
      have htake : (p ++ x :: (s' ++ [z])).take k = p ++ x :: s' := by
        rw [show p ++ x :: (s' ++ [z]) = (p ++ x :: s') ++ [z] by simp]
        exact List.take_left' (by simp at hk ⊢; omega)
      rw [htake] at hcut
      rw [hcut]
      have hsorted'' : ((p ++ x :: s') ++ [z]).Pairwise fun a b => key a ≤ key b := by
        simpa using hsorted'
      -- every kept element is no further than `z`, which is no further than the rest
      have hz : ∀ a ∈ p ++ x :: s', key a ≤ key z := fun a ha =>
        (List.pairwise_append.mp hsorted'').2.2 a ha z (List.mem_singleton_self z)
      have hzrest : ∀ b ∈ rest, key z ≤ key b := fun b hb => hrest z (by simp) b hb
      refine ⟨(List.pairwise_append.mp hsorted'').1, by simp at hk ⊢; omega, z :: rest, ?_,
        fun a ha b hb => ?_⟩
      · classical
        refine (hperm.append_right [x]).trans ?_
        rw [List.perm_iff_count]
        intro c
        simp only [List.count_append, List.count_cons, List.count_nil]
        omega
      · rcases List.mem_cons.mp hb with rfl | hb
        · exact hz a ha
        · exact (hz a ha).trans (hzrest b hb)

/-! ### A sequence of insertions -/

theorem least_nil (k : Nat) : Least key k [] [] :=
  ⟨List.Pairwise.nil, by simp, [], by simp, by simp⟩

/-- **A sequence of insertions keeps the `k` least** of everything inserted. -/
theorem Least.foldl {k : Nat} {seen l : List α} (h : Least key k seen l) (xs : List α) :
    Least key k (seen ++ xs) (xs.foldl (TopK.push key k) l) := by
  induction xs generalizing seen l with
  | nil => simpa using h
  | cons x xs ih =>
    have := ih (h.push x)
    simpa using this

/-! ### What the `k` least are -/

section Facts

variable {k : Nat} {seen l : List α} (h : Least key k seen l)
include h

/-- The kept elements were inserted. -/
theorem Least.mem {a : α} (ha : a ∈ l) : a ∈ seen := by
  obtain ⟨rest, hperm, -⟩ := h.split
  exact hperm.mem_iff.mpr (List.mem_append_left rest ha)

/-- Of elements distinct under `f`, ones distinct under `f` are kept. -/
theorem Least.nodup_map {γ : Type} (f : α → γ) (hseen : (seen.map f).Nodup) : (l.map f).Nodup := by
  obtain ⟨rest, hperm, -⟩ := h.split
  have hall := (hperm.map f).nodup_iff.mp hseen
  rw [List.map_append] at hall
  exact (List.nodup_append.mp hall).1

/-- **An element left out is no less than any kept.** -/
theorem Least.le_of_not_mem {a b : α} (ha : a ∈ l) (hb : b ∈ seen) (hbl : b ∉ l) :
    key a ≤ key b := by
  obtain ⟨rest, hperm, hrest⟩ := h.split
  rcases List.mem_append.mp (hperm.mem_iff.mp hb) with hb' | hb'
  · exact absurd hb' hbl
  · exact hrest a ha b hb'

end Facts

end TopK
