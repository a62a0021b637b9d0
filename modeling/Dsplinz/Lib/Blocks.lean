import Mathlib

/-!
# Lists cut into blocks of one length

A list laid out as blocks of `m` elements each is addressed in mixed radix: element `j` of
block `b` sits at `m * b + j`. `Blocks.blocks g` lays the blocks `g : Fin k → List β` end to
end. Where every block has length `m`, reading, writing and searching the whole list is
reading, writing and searching one block:

| lemma | what it gives |
|---|---|
| `Blocks.length_blocks` | the whole has `k * m` elements |
| `Blocks.getElem?_blocks` | element `m * b + j` is element `j` of block `b` |
| `Blocks.blocks_update_set` | writing element `j` of block `b` writes element `m * b + j` |
| `Blocks.findIdx_blocks` | the first match is in the first block that has one |
| `Blocks.sum_map_blocks` | a sum over the whole is the sum of the sums over the blocks |

Each is proved first for a list of blocks, by induction on it, then read for `List.ofFn g`.
-/

namespace Blocks

variable {β : Type} {m : Nat}

/-! ### A list of blocks -/

section Lists

variable {L : List (List β)} (hL : ∀ g ∈ L, g.length = m)
include hL

theorem length_flatten_eq : L.flatten.length = L.length * m := by
  induction L with
  | nil => simp
  | cons g L ih =>
    rw [List.flatten_cons, List.length_append, hL g List.mem_cons_self,
      ih fun g' h => hL g' (List.mem_cons_of_mem g h), List.length_cons, Nat.succ_mul]
    omega

theorem getElem?_flatten_eq {j : Nat} (hj : j < m) (b : Nat) :
    L.flatten[m * b + j]? = L[b]?.bind (·[j]?) := by
  induction L generalizing b with
  | nil => simp
  | cons g L ih =>
    have hg := hL g List.mem_cons_self
    cases b with
    | zero =>
      rw [List.flatten_cons, Nat.mul_zero, Nat.zero_add, List.getElem?_append_left (by omega)]
      rfl
    | succ b =>
      -- past the first block, the index drops by its length
      rw [List.flatten_cons, List.getElem?_append_right (by rw [hg, Nat.mul_succ]; omega), hg,
        show m * (b + 1) + j - m = m * b + j by rw [Nat.mul_succ]; omega,
        ih (fun g' h => hL g' (List.mem_cons_of_mem g h)) b]
      rfl

theorem flatten_set_set {j : Nat} (hj : j < m) {b : Nat} (hb : b < L.length) (x : β) :
    (L.set b (L[b].set j x)).flatten = L.flatten.set (m * b + j) x := by
  induction L generalizing b with
  | nil => cases hb
  | cons g L ih =>
    have hg := hL g List.mem_cons_self
    cases b with
    | zero =>
      rw [List.getElem_cons_zero, List.set_cons_zero, List.flatten_cons, List.flatten_cons,
        Nat.mul_zero, Nat.zero_add, List.set_append_left _ _ (by omega)]
    | succ b =>
      rw [List.getElem_cons_succ, List.set_cons_succ, List.flatten_cons, List.flatten_cons,
        List.set_append_right _ _ (by rw [hg, Nat.mul_succ]; omega), hg,
        show m * (b + 1) + j - m = m * b + j by rw [Nat.mul_succ]; omega,
        ih (fun g' h => hL g' (List.mem_cons_of_mem g h)) (Nat.lt_of_succ_lt_succ hb)]

theorem findIdx_flatten_eq {p : β → Bool} {b : Nat} (hb : b < L.length)
    (hbefore : ∀ b' (hb' : b' < b), ∀ s ∈ L[b'], p s = false) (hin : L[b].findIdx p < m) :
    L.flatten.findIdx p = m * b + L[b].findIdx p := by
  induction L generalizing b with
  | nil => cases hb
  | cons g L ih =>
    have hg := hL g List.mem_cons_self
    rw [List.flatten_cons, List.findIdx_append]
    cases b with
    | zero =>
      rw [if_pos (by simpa [hg] using hin)]
      simp
    | succ b =>
      -- the first block has no match, so the search runs through it
      have hnone : g.findIdx p = g.length := List.findIdx_eq_length.mpr
        fun s hs => hbefore 0 (Nat.succ_pos b) s hs
      rw [if_neg (by omega), ih (fun g' h => hL g' (List.mem_cons_of_mem g h))
        (Nat.lt_of_succ_lt_succ hb) (fun b' hb' => hbefore (b' + 1) (by omega)) hin, hg]
      simp only [List.getElem_cons_succ, Nat.mul_succ]
      omega

end Lists

/-! ### Blocks given by index -/

/-- The blocks `g 0, …, g (k - 1)` end to end. -/
def blocks {k : Nat} (g : Fin k → List β) : List β := (List.ofFn g).flatten

theorem ofFn_update {k : Nat} (g : Fin k → β) (b : Fin k) (x : β) :
    List.ofFn (Function.update g b x) = (List.ofFn g).set b x := by
  refine List.ext_getElem (by simp) fun i h₁ h₂ => ?_
  rw [List.getElem_ofFn, List.getElem_set, List.getElem_ofFn, Function.update_apply]
  by_cases hi : (b : Nat) = i
  · rw [if_pos (Fin.ext hi.symm), if_pos hi]
  · rw [if_neg (fun h => hi (congrArg Fin.val h).symm), if_neg hi]

theorem sum_map_blocks {M : Type} [AddCommMonoid M] (f : β → M) {k : Nat} (g : Fin k → List β) :
    ((blocks g).map f).sum = ∑ b, ((g b).map f).sum := by
  rw [blocks, List.map_flatten, List.sum_flatten, List.map_ofFn, List.map_ofFn, List.sum_ofFn]
  rfl

section Fin

variable {k : Nat} {g : Fin k → List β} (hg : ∀ b, (g b).length = m)
include hg

theorem forall_mem_ofFn_length : ∀ l ∈ List.ofFn g, l.length = m := by
  intro l hl
  obtain ⟨b, rfl⟩ := List.mem_ofFn.mp hl
  exact hg b

theorem length_blocks : (blocks g).length = k * m := by
  rw [blocks, length_flatten_eq (forall_mem_ofFn_length hg), List.length_ofFn]

theorem getElem?_blocks (b : Fin k) {j : Nat} (hj : j < m) :
    (blocks g)[m * b + j]? = (g b)[j]? := by
  rw [blocks, getElem?_flatten_eq (forall_mem_ofFn_length hg) hj, List.getElem?_ofFn]
  simp

theorem blocks_update_set (b : Fin k) {j : Nat} (hj : j < m) (x : β) :
    blocks (Function.update g b ((g b).set j x)) = (blocks g).set (m * b + j) x := by
  have hb : (b : Nat) < (List.ofFn g).length := by simp
  have hset := flatten_set_set (forall_mem_ofFn_length hg) hj hb x
  rw [List.getElem_ofFn] at hset
  rw [blocks, blocks, ofFn_update]
  exact hset

theorem findIdx_blocks {p : β → Bool} (b : Fin k) (hbefore : ∀ b' < b, ∀ s ∈ g b', p s = false)
    (hin : (g b).findIdx p < m) : (blocks g).findIdx p = m * b + (g b).findIdx p := by
  have hb : (b : Nat) < (List.ofFn g).length := by simp
  have h := findIdx_flatten_eq (forall_mem_ofFn_length hg) (p := p) hb
    (fun b' hb' s hs => hbefore ⟨b', by omega⟩ hb' s (by simpa using hs)) (by simpa using hin)
  rw [blocks]
  simpa using h

end Fin

end Blocks
