import Dsplinz.Lib.WeightedPick
import Dsplinz.Lib.Blocks

/-!
# The tree of weighted random selection

`les/randselect.go` keeps the items of a `weightedRandomSelect` in a tree of `wrsNode`s with
`wrsBranches = 8` branches each. A node of level `0` holds up to eight items and their
weights; a node of level `l + 1` holds up to eight nodes of level `l` and, as the weight of
each branch, that node's total. Every node keeps its total `sumWeight`, its number of items
`itemCnt`, and `maxItems`, the number of leaf slots below it. An item is addressed by its
leaf slot in mixed radix: slot `j` of branch `b` of a node whose branches have `m` slots each
is `m * b + j`.

The model reads the field `level` of the source as the index of the type: a node of level
`l` is a `WrsNode (Level α l)`, so the type assertions `items[i].(*wrsNode)` and
`items[i].(wrsItem)` are the only reading the types allow, and what the source reaches as a
panic (a nil item, an index out of range, a division by zero, a loop with no branch left) is
`none`.

What the tree is for is a list of leaf slots, `Les.slots`: every node stands for its slots
laid end to end (`Blocks.blocks`), and `WF` is what makes the stored sums and counts those of
the slots. Over the slots the three operations are list operations:

| operation | over the slots | theorem |
|---|---|---|
| `insert` | fills the first empty slot | `Les.WrsNode.insert_spec` |
| `setWeight` | sets one slot's weight, emptying it at `0` | `Les.WrsNode.setWeight_spec` |
| `choose` | picks the slot whose interval of weight holds the draw | `Les.WrsNode.choose_eq` |

Weights are `int64` in the source; they are `Int` here, for weights whose totals fit.
-/

namespace Les

open WeightedPick Blocks

/-! ### The model -/

/-- `wrsBranches`: the number of branches of a node. -/
def wrsBranches : Nat := 8

/-- `wrsNode`, its branches holding values of `C`; the field `level` is the index of
`Level`. -/
structure WrsNode (C : Type) where
  items : Fin 8 → Option C
  weights : Fin 8 → Int
  sumWeight : Int
  itemCnt : Nat
  maxItems : Nat

/-- What a branch of a node of level `l` holds: an item at level `0`, a node of level
`l - 1` above. -/
@[reducible] def Level (α : Type) : Nat → Type
  | 0 => α
  | l + 1 => WrsNode (Level α l)

namespace WrsNode

variable {α C : Type}

/-- `&wrsNode{maxItems: maxItems}`: a node with no items. -/
def empty (maxItems : Nat) : WrsNode C := ⟨fun _ => none, fun _ => 0, 0, 0, maxItems⟩

/-- The loop of `insert` that looks for a branch, from `0` up: the first for which `free`
holds, or `none` where it reaches `wrsBranches` and panics. -/
def findBranch (free : Fin 8 → Bool) : Option (Fin 8) := (List.finRange 8).find? free

/-- The test of `insert`'s loop above level `0`, negated: a branch is taken when it is
empty or its node is not full. -/
def branchFree : Option (WrsNode C) → Bool
  | none => true
  | some c => c.itemCnt != c.maxItems

/-- The bookkeeping of `insert` at `branch`: one item more, `weight` more on the branch and on
the node, and the branch holding `child`. -/
def added (n : WrsNode C) (branch : Fin 8) (child : C) (weight : Int) : WrsNode C where
  items := Function.update n.items branch (some child)
  weights := Function.update n.weights branch (n.weights branch + weight)
  sumWeight := n.sumWeight + weight
  itemCnt := n.itemCnt + 1
  maxItems := n.maxItems

/-- `wrsNode.insert(item, weight)`: the node after it, and the index of the item. -/
def insert : (l : Nat) → WrsNode (Level α l) → α → Int → Option (WrsNode (Level α l) × Nat)
  | 0, n, item, weight =>
    match findBranch fun b => (n.items b).isNone with
    | none => none
    | some branch => some (n.added branch item weight, branch)
  | l + 1, n, item, weight =>
    match findBranch fun b => branchFree (n.items b) with
    | none => none
    | some branch =>
      let subNode : WrsNode (Level α l) := (n.items branch).getD (empty (n.maxItems / wrsBranches))
      match insert l subNode item weight with
      | none => none
      | some (subNode', subIdx) =>
        some (n.added branch subNode' weight, subNode.maxItems * branch + subIdx)

/-- `wrsNode.setWeight(idx, weight)`: the node after it, and the change of the weight. -/
def setWeight : (l : Nat) → WrsNode (Level α l) → Nat → Int → Option (WrsNode (Level α l) × Int)
  | 0, n, idx, weight =>
    if h : idx < 8 then
      let i : Fin 8 := ⟨idx, h⟩
      let diff := weight - n.weights i
      let n' : WrsNode (Level α 0) :=
        { n with weights := Function.update n.weights i weight, sumWeight := n.sumWeight + diff }
      if weight = 0 then
        some ({ n' with items := Function.update n.items i none, itemCnt := n.itemCnt - 1 }, diff)
      else some (n', diff)
    else none
  | l + 1, n, idx, weight =>
    let branchItems := n.maxItems / wrsBranches
    if branchItems = 0 then none
    else if h : idx / branchItems < 8 then
      let branch : Fin 8 := ⟨idx / branchItems, h⟩
      match n.items branch with
      | none => none
      | some c =>
        match setWeight l c (idx - branch * branchItems) weight with
        | none => none
        | some (c', diff) =>
          some ({ items := Function.update n.items branch (some c')
                  weights := Function.update n.weights branch (n.weights branch + diff)
                  sumWeight := n.sumWeight + diff
                  itemCnt := if weight = 0 then n.itemCnt - 1 else n.itemCnt
                  maxItems := n.maxItems }, diff)
    else none

/-- `wrsNode.choose(val)`: the item whose interval of weight holds `val`, with its weight. -/
def choose : (l : Nat) → WrsNode (Level α l) → Int → Option (α × Int)
  | 0, n, val =>
    match pick n.weights (List.finRange 8) val with
    | none => none
    | some (i, _) => (n.items i).map fun item => (item, n.weights i)
  | l + 1, n, val =>
    match pick n.weights (List.finRange 8) val with
    | none => none
    | some (i, val) =>
      match n.items i with
      | none => none
      | some c => choose l c val

/-! ### The branch search and the bookkeeping -/

/-- `findBranch` finds the first branch that is free. -/
theorem findBranch_eq_some {free : Fin 8 → Bool} {b : Fin 8} :
    findBranch free = some b ↔ free b = true ∧ ∀ b' < b, free b' = false := by
  rw [findBranch, List.find?_eq_some_iff_getElem]
  constructor
  · rintro ⟨hb, i, hi, rfl, hbefore⟩
    refine ⟨hb, fun b' hb' => ?_⟩
    have := hbefore b' (by simp [Fin.lt_def] at hb'; simpa using hb')
    simpa using this
  · rintro ⟨hb, hbefore⟩
    refine ⟨hb, b, by rw [List.length_finRange]; exact b.isLt, by simp, fun j hj => ?_⟩
    have := hbefore ⟨j, by omega⟩ (by simpa [Fin.lt_def] using hj)
    simp [this]

/-- `findBranch` panics only where no branch is free. -/
theorem findBranch_eq_none {free : Fin 8 → Bool} :
    findBranch free = none ↔ ∀ b, free b = false := by
  rw [findBranch, List.find?_eq_none]
  exact ⟨fun h b => by simpa using h b (List.mem_finRange b),
    fun h b _ => by simp [h b]⟩

theorem sum_update_add {M : Type} [AddCommMonoid M] (f : Fin 8 → M) (b : Fin 8) (x : M) :
    ∑ i, Function.update f b x i + f b = ∑ i, f i + x := by
  rw [Finset.sum_update_of_mem (Finset.mem_univ b), Finset.sdiff_singleton_eq_erase,
    ← Finset.add_sum_erase Finset.univ f (Finset.mem_univ b)]
  ac_rfl

/-! ### The slots below a node -/

/-- What an empty branch of `m` slots, or a branch holding `c`, stands for. -/
def branchSlots {β : Type} (S : C → List β) (m : Nat) (empty : β) : Option C → List β
  | none => List.replicate m empty
  | some c => S c

/-- The leaf slots below a node, in the order of their indices: at level `0` its own items
and weights; above, the slots of its branches end to end, an empty branch standing for
`maxItems / wrsBranches` empty slots. -/
def slots : (l : Nat) → WrsNode (Level α l) → List (Option α × Int)
  | 0, n => List.ofFn fun i => (n.items i, n.weights i)
  | l + 1, n => blocks fun b => branchSlots (slots l) (n.maxItems / wrsBranches) (none, 0) (n.items b)

/-- A leaf slot as the tree keeps it: empty with weight `0`, or an item of positive
weight. -/
def SlotOK : Option α × Int → Prop
  | (none, w) => w = 0
  | (some _, w) => 0 < w

/-- `1` for an item, `0` for an empty slot. -/
def liveCnt : Option C → Nat
  | none => 0
  | some _ => 1

@[simp] theorem liveCnt_none : liveCnt (none : Option C) = 0 := rfl

@[simp] theorem liveCnt_some (c : C) : liveCnt (some c) = 1 := rfl

/-- The items below a branch. -/
def childCnt : Option (WrsNode C) → Nat
  | none => 0
  | some c => c.itemCnt

/-- A branch above level `0` as the tree keeps it: empty with weight `0`, or a node that `P`
holds of, weighing its total. -/
def BranchOK (P : WrsNode C → Prop) : Option (WrsNode C) → Int → Prop
  | none, w => w = 0
  | some c, w => P c ∧ w = c.sumWeight

/-- What a node keeps of its branches, counting a branch's items with `cnt` and checking it
with `ok`: `cap` slots, the total of the branch weights, the total of their items. -/
structure NodeWF (n : WrsNode C) (cnt : Option C → Nat) (ok : Option C → Int → Prop)
    (cap : Nat) : Prop where
  maxItems_eq : n.maxItems = cap
  sumWeight_eq : n.sumWeight = ∑ i, n.weights i
  itemCnt_eq : n.itemCnt = ∑ i, cnt (n.items i)
  branch_ok : ∀ i, ok (n.items i) (n.weights i)

/-- A well-formed node of level `l`: every node below keeps its branches, and a node of level
`l` has `wrsBranches ^ (l + 1)` slots. -/
def WF : (l : Nat) → WrsNode (Level α l) → Prop
  | 0, n => NodeWF n liveCnt (fun x w => SlotOK (x, w)) wrsBranches
  | l + 1, n => NodeWF n childCnt (BranchOK (WF l)) (wrsBranches ^ (l + 2))

/-- What a list of slots says: `len` slots, weights summing to `sum`, `cnt` of them holding
an item, each as the tree keeps it. -/
structure SlotsOf (S : List (Option α × Int)) (len : Nat) (sum : Int) (cnt : Nat) : Prop where
  length_eq : S.length = len
  sum_eq : (S.map Prod.snd).sum = sum
  count_eq : (S.map fun s => liveCnt s.1).sum = cnt
  ok : ∀ s ∈ S, SlotOK s

theorem slotsOf_replicate (m : Nat) : SlotsOf (List.replicate m ((none : Option α), (0 : Int))) m 0 0 where
  length_eq := List.length_replicate
  sum_eq := by simp
  count_eq := by simp [liveCnt]
  ok s hs := by
    rw [List.eq_of_mem_replicate hs]
    rfl

theorem slotsOf_blocks {m : Nat} {g : Fin 8 → List (Option α × Int)} {w : Fin 8 → Int}
    {c : Fin 8 → Nat} (h : ∀ b, SlotsOf (g b) m (w b) (c b)) :
    SlotsOf (blocks g) (8 * m) (∑ b, w b) (∑ b, c b) where
  length_eq := length_blocks fun b => (h b).length_eq
  sum_eq := by
    rw [sum_map_blocks]
    exact Finset.sum_congr rfl fun b _ => (h b).sum_eq
  count_eq := by
    rw [sum_map_blocks]
    exact Finset.sum_congr rfl fun b _ => (h b).count_eq
  ok s hs := by
    obtain ⟨l, hl, hsl⟩ := List.mem_flatten.mp hs
    obtain ⟨b, rfl⟩ := List.mem_ofFn.mp hl
    exact (h b).ok s hsl

/-- **The bookkeeping of one branch**: a node that writes `x` and `y` to branch `b` and moves
its total and its count by the change of that branch keeps its branches. Every write of
`insert` and `setWeight` is one. -/
theorem NodeWF.update {n n' : WrsNode C} {cnt : Option C → Nat} {ok : Option C → Int → Prop}
    {cap : Nat} (h : NodeWF n cnt ok cap) (b : Fin 8) {x : Option C} {y : Int}
    (hitems : n'.items = Function.update n.items b x)
    (hweights : n'.weights = Function.update n.weights b y)
    (hsum : n'.sumWeight = n.sumWeight + (y - n.weights b))
    (hcnt : n'.itemCnt + cnt (n.items b) = n.itemCnt + cnt x)
    (hmax : n'.maxItems = n.maxItems) (hok : ok x y) : NodeWF n' cnt ok cap where
  maxItems_eq := hmax.trans h.maxItems_eq
  sumWeight_eq := by
    have := sum_update_add n.weights b y
    rw [hweights, hsum, h.sumWeight_eq]
    omega
  itemCnt_eq := by
    have hupd : ∀ i, cnt (n'.items i) = Function.update (fun i => cnt (n.items i)) b (cnt x) i :=
      fun i => by
        rw [hitems]
        exact Function.apply_update (fun _ => cnt) n.items b x i
    have key : ∑ i, cnt (n'.items i) + cnt (n.items b) = n.itemCnt + cnt x := by
      rw [Finset.sum_congr rfl fun i _ => hupd i, h.itemCnt_eq]
      exact sum_update_add _ b (cnt x)
    omega
  branch_ok i := by
    rw [hitems, hweights]
    by_cases hi : i = b
    · subst hi
      simpa using hok
    · rw [Function.update_of_ne hi, Function.update_of_ne hi]
      exact h.branch_ok i

theorem slots_succ {l : Nat} (n : WrsNode (Level α (l + 1))) :
    slots (l + 1) n =
      blocks fun b => branchSlots (slots l) (n.maxItems / wrsBranches) (none, 0) (n.items b) :=
  rfl

theorem WF.maxItems_eq {l : Nat} {n : WrsNode (Level α l)} (hn : WF l n) :
    n.maxItems = wrsBranches ^ (l + 1) := by
  cases l with
  | zero => exact (NodeWF.maxItems_eq hn).trans (pow_one _).symm
  | succ l => exact NodeWF.maxItems_eq hn

/-- The branches of a node of level `l + 1` have `wrsBranches ^ (l + 1)` slots each. -/
theorem branchItems_eq {l : Nat} {n : WrsNode (Level α (l + 1))} (hn : WF (l + 1) n) :
    n.maxItems / wrsBranches = wrsBranches ^ (l + 1) := by
  rw [hn.maxItems_eq, pow_succ, Nat.mul_div_cancel _ (by decide)]

/-- A branch of a well-formed node stands for slots as many as its share, weighing what the
node says and holding the items it counts, given that the nodes below are as their slots
say. -/
theorem slotsOf_branch_of {l : Nat} {n : WrsNode (Level α (l + 1))} (hn : WF (l + 1) n)
    (ih : ∀ c : WrsNode (Level α l), WF l c → SlotsOf (slots l c) c.maxItems c.sumWeight c.itemCnt)
    (b : Fin 8) :
    SlotsOf (branchSlots (slots l) (n.maxItems / wrsBranches) (none, 0) (n.items b))
      (wrsBranches ^ (l + 1)) (n.weights b) (childCnt (n.items b)) := by
  have hb := NodeWF.branch_ok hn b
  cases hc : n.items b with
  | none =>
    rw [hc] at hb
    change n.weights b = 0 at hb
    rw [hb, branchItems_eq hn]
    exact slotsOf_replicate _
  | some c =>
    rw [hc] at hb
    obtain ⟨hwf, hw⟩ := hb
    have hc' := ih c hwf
    rw [hwf.maxItems_eq] at hc'
    rw [hw]
    exact hc'

/-- **The stored sums and counts are those of the slots**: a well-formed node has
`maxItems` slots, whose weights sum to `sumWeight` and of which `itemCnt` hold an item. -/
theorem WF.slotsOf : ∀ {l : Nat} {n : WrsNode (Level α l)}, WF l n →
    SlotsOf (slots l n) n.maxItems n.sumWeight n.itemCnt
  | 0, n, hn => by
    obtain ⟨hmax, hsum, hcnt, hok⟩ := hn
    refine ⟨?_, ?_, ?_, ?_⟩
    · rw [slots, List.length_ofFn, hmax]
      rfl
    · rw [slots, List.map_ofFn, List.sum_ofFn, hsum]
      rfl
    · rw [slots, List.map_ofFn, List.sum_ofFn, hcnt]
      rfl
    · intro s hs
      obtain ⟨i, rfl⟩ := List.mem_ofFn.mp hs
      exact hok i
  | l + 1, n, hn => by
    -- the branches laid end to end
    obtain ⟨h₁, h₂, h₃, h₄⟩ := slotsOf_blocks (slotsOf_branch_of hn fun c hc => WF.slotsOf hc)
    rw [slots_succ]
    refine ⟨?_, ?_, ?_, h₄⟩
    · rw [h₁, hn.maxItems_eq, pow_succ' wrsBranches (l + 1)]
      rfl
    · rw [h₂, NodeWF.sumWeight_eq hn]
    · rw [h₃, NodeWF.itemCnt_eq hn]

theorem WF.slotsOf_branch {l : Nat} {n : WrsNode (Level α (l + 1))} (hn : WF (l + 1) n)
    (b : Fin 8) :
    SlotsOf (branchSlots (slots l) (n.maxItems / wrsBranches) (none, 0) (n.items b))
      (wrsBranches ^ (l + 1)) (n.weights b) (childCnt (n.items b)) :=
  slotsOf_branch_of hn (fun _ hc => hc.slotsOf) b

theorem SlotOK.nonneg {s : Option α × Int} (h : SlotOK s) : 0 ≤ s.2 := by
  obtain ⟨_ | _, w⟩ := s
  · exact Int.le_of_eq h.symm
  · exact Int.le_of_lt h

/-! ### Choosing -/

/-- **`choose` picks over the slots**: on a draw that is not negative, it returns the item
and the weight of the slot the weighted walk over the slots picks, and panics where that slot
is empty or the walk runs off the end. -/
theorem choose_eq : ∀ {l : Nat} {n : WrsNode (Level α l)}, WF l n → ∀ {v : Int}, 0 ≤ v →
    choose l n v = (pick Prod.snd (slots l n) v).bind fun r => r.1.1.map fun x => (x, r.1.2)
  | 0, n, _, v, _ => by
    rw [slots, List.ofFn_eq_map, pick_map]
    have hw : pick (Prod.snd ∘ fun i => (n.items i, n.weights i)) (List.finRange 8) v =
        pick n.weights (List.finRange 8) v := rfl
    rw [hw]
    cases h : pick n.weights (List.finRange 8) v with
    | none => simp [choose, h]
    | some r =>
      obtain ⟨i, v'⟩ := r
      simp [choose, h]
  | l + 1, n, hn, v, hv => by
    have hok : ∀ s ∈ slots (l + 1) n, 0 ≤ s.2 := fun s hs => (hn.slotsOf.ok s hs).nonneg
    rw [slots_succ, blocks, pick_flatten (fun g hg s hs => hok s (List.mem_flatten.mpr ⟨g, hg, hs⟩)) hv,
      List.ofFn_eq_map, pick_map]
    -- a branch weighs what its slots weigh
    rw [Function.comp_def, (pick_congr (fun b _ => (hn.slotsOf_branch b).sum_eq) v :
      _ = pick n.weights _ v)]
    cases h : pick n.weights (List.finRange 8) v with
    | none => simp [choose, h]
    | some r =>
      obtain ⟨b, v'⟩ := r
      obtain ⟨-, -, -, -, hlt, hpos⟩ := pick_eq_some h
      have hb := NodeWF.branch_ok hn b
      cases hc : n.items b with
      | none =>
        -- an empty branch weighs nothing, so no draw falls in it
        rw [hc] at hb
        change n.weights b = 0 at hb
        omega
      | some c =>
        rw [hc] at hb
        simp only [choose, h, hc, Option.map_some, Option.bind_some, Prod.map, id]
        exact choose_eq hb.1 (hpos hv)

/-- **The item whose interval holds the draw is chosen**: a slot whose interval of weight
holds `v` holds an item, and `choose` returns it with the slot's weight. -/
theorem choose_eq_of_mem_interval {l : Nat} {n : WrsNode (Level α l)} (hn : WF l n) {v : Int}
    (hv : 0 ≤ v) {i : Nat} (hi : i < (slots l n).length)
    (h₁ : (((slots l n).take i).map Prod.snd).sum ≤ v)
    (h₂ : v < (((slots l n).take i).map Prod.snd).sum + ((slots l n)[i]).2) :
    ∃ x, ((slots l n)[i]).1 = some x ∧ choose l n v = some (x, ((slots l n)[i]).2) := by
  have hok := hn.slotsOf.ok _ (List.getElem_mem hi)
  rw [choose_eq hn hv, pick_eq_some_of_mem_interval (fun s hs => (hn.slotsOf.ok s hs).nonneg) hi h₁ h₂]
  -- the slot weighs more than nothing, so it holds an item
  generalize (slots l n)[i] = s at hok h₂ ⊢
  obtain ⟨_ | x, w⟩ := s
  · change w = 0 at hok
    omega
  · exact ⟨x, rfl, rfl⟩

/-- Every draw in `[0, sumWeight)` falls in the interval of some slot. -/
theorem exists_mem_interval {l : Nat} {n : WrsNode (Level α l)} (hn : WF l n) {v : Int}
    (hv : 0 ≤ v) (hlt : v < n.sumWeight) :
    ∃ (i : Nat) (hi : i < (slots l n).length), (((slots l n).take i).map Prod.snd).sum ≤ v ∧
      v < (((slots l n).take i).map Prod.snd).sum + ((slots l n)[i]).2 := by
  have hw : ∀ s ∈ slots l n, 0 ≤ s.2 := fun s hs => (hn.slotsOf.ok s hs).nonneg
  have hsome : pick Prod.snd (slots l n) v ≠ none := fun h => by
    have := (pick_eq_none_iff hw hv).mp h
    rw [hn.slotsOf.sum_eq] at this
    omega
  obtain ⟨⟨s, v'⟩, h⟩ := Option.ne_none_iff_exists'.mp hsome
  obtain ⟨i, hi, rfl, hv', hlt', hpos⟩ := pick_eq_some h
  exact ⟨i, hi, by have := hpos hv; omega, by omega⟩

/-- **The draws that choose an item are as many as its weight**: of the draws in
`[0, sumWeight)`, those for which `choose` returns `x` number the weights of the slots holding
`x`. -/
theorem card_choose [DecidableEq α] {l : Nat} {n : WrsNode (Level α l)} (hn : WF l n) (x : α) :
    (((Finset.Ico 0 n.sumWeight).filter fun v => (choose l n v).map Prod.fst = some x).card
      : Int) = (((slots l n).filter fun s => s.1 = some x).map Prod.snd).sum := by
  have hw : ∀ s ∈ slots l n, 0 ≤ s.2 := fun s hs => (hn.slotsOf.ok s hs).nonneg
  have hcard := card_pick Prod.fst (some x) hw
  rw [hn.slotsOf.sum_eq] at hcard
  rw [← hcard]
  congr 2
  refine Finset.filter_congr fun v hv => ?_
  rw [choose_eq hn (Finset.mem_Ico.mp hv).1]
  -- both sides read the item of the slot picked
  rcases pick Prod.snd (slots l n) v with _ | ⟨⟨_ | y, w⟩, v'⟩ <;> simp

/-! ### Inserting -/

theorem sum_liveCnt_le_length (S : List (Option α × Int)) :
    (S.map fun s => liveCnt s.1).sum ≤ S.length := by
  induction S with
  | nil => simp
  | cons s S ih =>
    obtain ⟨_ | _, _⟩ := s <;>
      simp only [List.map_cons, List.sum_cons, List.length_cons, liveCnt_none, liveCnt_some] <;>
      omega

/-- Slots hold fewer items than there are slots exactly when one of them is empty. -/
theorem sum_liveCnt_lt_length_iff (S : List (Option α × Int)) :
    (S.map fun s => liveCnt s.1).sum < S.length ↔ ∃ s ∈ S, s.1 = none := by
  induction S with
  | nil => simp
  | cons s S ih =>
    have hle := sum_liveCnt_le_length S
    obtain ⟨_ | x, w⟩ := s
    · simp only [List.map_cons, List.sum_cons, List.length_cons, liveCnt_none, List.mem_cons]
      exact ⟨fun _ => ⟨_, Or.inl rfl, rfl⟩, fun _ => by omega⟩
    · simp only [List.map_cons, List.sum_cons, List.length_cons, List.mem_cons,
        exists_eq_or_imp, reduceCtorEq, false_or, liveCnt_some, ← ih]
      omega

/-- The node `insert` makes for an empty branch is well formed. -/
theorem WF_empty : ∀ l : Nat, WF l (empty (wrsBranches ^ (l + 1)) : WrsNode (Level α l))
  | 0 => ⟨pow_one _, by simp [empty], by simp [empty, liveCnt], fun _ => rfl⟩
  | _ + 1 => ⟨rfl, by simp [empty], by simp [empty, childCnt], fun _ => rfl⟩

theorem slots_empty : ∀ l : Nat,
    slots l (empty (wrsBranches ^ (l + 1)) : WrsNode (Level α l)) =
      List.replicate (wrsBranches ^ (l + 1)) (none, 0)
  | 0 => List.ofFn_const 8 _
  | l + 1 => by
    rw [slots_succ, blocks]
    simp only [empty, branchSlots]
    rw [List.ofFn_const, List.flatten_replicate_replicate, pow_succ' wrsBranches (l + 1),
      Nat.mul_div_cancel_left _ (by decide)]
    rfl

theorem pair_update {β γ : Type} (f : Fin 8 → β) (g : Fin 8 → γ) (b : Fin 8) (u : β) (v : γ) :
    (fun i => (Function.update f b u i, Function.update g b v i)) =
      Function.update (fun i => (f i, g i)) b (u, v) := by
  funext i
  by_cases hi : i = b
  · subst hi
    simp
  · simp [Function.update_of_ne hi]

/-- The index of the first empty slot. -/
def firstEmpty (S : List (Option α × Int)) : Nat := S.findIdx fun s => s.1.isNone

/-- What `insert` of `x` with weight `w` leaves of `n`: a well-formed node whose slots are
those of `n` with `x` written in the first empty one, one item and `w` more. -/
structure Inserted (l : Nat) (n n' : WrsNode (Level α l)) (x : α) (w : Int) : Prop where
  wf : WF l n'
  slots_eq : slots l n' = (slots l n).set (firstEmpty (slots l n)) (some x, w)
  sumWeight_eq : n'.sumWeight = n.sumWeight + w
  itemCnt_eq : n'.itemCnt = n.itemCnt + 1
  maxItems_eq : n'.maxItems = n.maxItems

/-- A node with fewer items than slots has an empty slot. -/
theorem exists_empty {l : Nat} {n : WrsNode (Level α l)} (hn : WF l n)
    (hfree : n.itemCnt < n.maxItems) : ∃ s ∈ slots l n, s.1 = none :=
  (sum_liveCnt_lt_length_iff _).mp (by rw [hn.slotsOf.count_eq, hn.slotsOf.length_eq]; exact hfree)

/-- **`insert` at level `0`** fills the first empty slot. -/
theorem insert_zero_spec {n : WrsNode (Level α 0)} (hn : WF 0 n) (hfree : n.itemCnt < n.maxItems)
    (x : α) {w : Int} (hw : 0 < w) :
    ∃ n', insert 0 n x w = some (n', firstEmpty (slots 0 n)) ∧ Inserted 0 n n' x w := by
  -- an empty slot is an empty branch, so the search finds the first one
  obtain ⟨s, hs, hnone⟩ := exists_empty hn hfree
  obtain ⟨b₀, rfl⟩ := List.mem_ofFn.mp hs
  obtain ⟨b, hb⟩ : ∃ b, findBranch (fun b => (n.items b).isNone) = some b := by
    refine Option.ne_none_iff_exists'.mp fun h => ?_
    have := findBranch_eq_none.mp h b₀
    rw [show n.items b₀ = none from hnone] at this
    cases this
  obtain ⟨hfb, hbefore⟩ := findBranch_eq_some.mp hb
  have hidx : firstEmpty (slots 0 n) = b := by
    have hlen : (b : Nat) < (slots 0 n).length := by
      rw [slots, List.length_ofFn]
      exact b.isLt
    rw [firstEmpty, List.findIdx_eq hlen]
    refine ⟨?_, fun j hj => ?_⟩
    · simp only [slots, List.getElem_ofFn]
      exact hfb
    · simp only [slots, List.getElem_ofFn]
      exact hbefore ⟨j, by omega⟩ (Fin.lt_def.mpr hj)
  have hitem : n.items b = none := by simpa using hfb
  have hwb : n.weights b = 0 := by
    have := NodeWF.branch_ok hn b
    rwa [hitem] at this
  refine ⟨n.added b x w, by rw [hidx, insert, hb], ⟨?_, ?_, rfl, rfl, rfl⟩⟩
  · refine NodeWF.update hn b rfl rfl (by simp [added]) ?_ rfl (show (0 : Int) < _ by simp [hwb, hw])
    simp [added, hitem]
  · rw [hidx, slots, slots, List.ofFn_eq_map, List.ofFn_eq_map]
    simp only [added]
    rw [pair_update, ← List.ofFn_eq_map, ← List.ofFn_eq_map, ofFn_update, hwb, Int.zero_add]

/-- A branch is free exactly when one of its slots is empty. -/
theorem branchFree_iff {l : Nat} {n : WrsNode (Level α (l + 1))} (hn : WF (l + 1) n) (b : Fin 8) :
    branchFree (n.items b) = true ↔
      ∃ s ∈ branchSlots (slots l) (n.maxItems / wrsBranches) (none, 0) (n.items b), s.1 = none := by
  have hb := NodeWF.branch_ok hn b
  cases hc : n.items b with
  | none =>
    refine ⟨fun _ => ⟨(none, 0), ?_, rfl⟩, fun _ => rfl⟩
    rw [branchSlots, branchItems_eq hn]
    exact List.mem_replicate.mpr ⟨Nat.pos_iff_ne_zero.mp (Nat.pow_pos (by decide)), rfl⟩
  | some c =>
    rw [hc] at hb
    have hS := hb.1.slotsOf
    rw [branchSlots, ← sum_liveCnt_lt_length_iff, hS.count_eq, hS.length_eq, branchFree,
      bne_iff_ne]
    have := sum_liveCnt_le_length (slots l c)
    rw [hS.count_eq, hS.length_eq] at this
    omega

/-- The node `insert` descends into at a free branch, and what it is. -/
theorem subNode_spec {l : Nat} {n : WrsNode (Level α (l + 1))} (hn : WF (l + 1) n) {b : Fin 8}
    (hfree : branchFree (n.items b) = true) :
    WF l ((n.items b).getD (empty (n.maxItems / wrsBranches))) ∧
      ((n.items b).getD (empty (n.maxItems / wrsBranches)) : WrsNode (Level α l)).itemCnt <
        ((n.items b).getD (empty (n.maxItems / wrsBranches)) : WrsNode (Level α l)).maxItems ∧
      slots l ((n.items b).getD (empty (n.maxItems / wrsBranches))) =
        branchSlots (slots l) (n.maxItems / wrsBranches) (none, 0) (n.items b) ∧
      ((n.items b).getD (empty (n.maxItems / wrsBranches)) : WrsNode (Level α l)).sumWeight =
        n.weights b ∧
      ((n.items b).getD (empty (n.maxItems / wrsBranches)) : WrsNode (Level α l)).itemCnt =
        childCnt (n.items b) ∧
      ((n.items b).getD (empty (n.maxItems / wrsBranches)) : WrsNode (Level α l)).maxItems =
        wrsBranches ^ (l + 1) := by
  have hb := NodeWF.branch_ok hn b
  rw [branchItems_eq hn]
  cases hc : n.items b with
  | none =>
    rw [hc] at hb
    exact ⟨WF_empty l, Nat.pow_pos (by decide), slots_empty l, hb.symm, rfl, rfl⟩
  | some c =>
    rw [hc] at hb hfree
    have hS := hb.1.slotsOf
    have hle := sum_liveCnt_le_length (slots l c)
    rw [hS.count_eq, hS.length_eq] at hle
    have hne : c.itemCnt ≠ c.maxItems := by simpa [branchFree] using hfree
    exact ⟨hb.1, by simp only [Option.getD_some]; omega, rfl, hb.2.symm, rfl, hb.1.maxItems_eq⟩

/-- **`insert` above level `0`** takes the first free branch, whose first empty slot is the
first empty slot of the node, and inserts there. -/
theorem insert_succ_spec {l : Nat} {n : WrsNode (Level α (l + 1))} (hn : WF (l + 1) n)
    (hfree : n.itemCnt < n.maxItems) (x : α) {w : Int}
    (ih : ∀ c : WrsNode (Level α l), WF l c → c.itemCnt < c.maxItems →
      ∃ c', insert l c x w = some (c', firstEmpty (slots l c)) ∧ Inserted l c c' x w) :
    ∃ n', insert (l + 1) n x w = some (n', firstEmpty (slots (l + 1) n)) ∧
      Inserted (l + 1) n n' x w := by
  -- an empty slot lies in some branch, which is then free
  obtain ⟨s, hs, hnone⟩ := exists_empty hn hfree
  rw [slots_succ, blocks] at hs
  obtain ⟨g, hg, hsg⟩ := List.mem_flatten.mp hs
  obtain ⟨b₀, rfl⟩ := List.mem_ofFn.mp hg
  obtain ⟨b, hb⟩ : ∃ b, findBranch (fun b => branchFree (n.items b)) = some b := by
    refine Option.ne_none_iff_exists'.mp fun h => ?_
    have := findBranch_eq_none.mp h b₀
    rw [(branchFree_iff hn b₀).mpr ⟨s, hsg, hnone⟩] at this
    cases this
  obtain ⟨hfb, hbefore⟩ := findBranch_eq_some.mp hb
  obtain ⟨hwf, hlt, hslots, hsum, hcnt, hmax⟩ := subNode_spec hn hfb
  obtain ⟨c', hins, hc'⟩ := ih _ hwf hlt
  have hlen : ∀ b, (branchSlots (slots l) (n.maxItems / wrsBranches) (none, 0)
      (n.items b)).length = wrsBranches ^ (l + 1) := fun b => (hn.slotsOf_branch b).length_eq
  have hin : firstEmpty (slots l ((n.items b).getD (empty (n.maxItems / wrsBranches)))) <
      wrsBranches ^ (l + 1) := by
    obtain ⟨s', hs', hnone'⟩ := (branchFree_iff hn b).mp hfb
    rw [hslots, ← hlen b, firstEmpty]
    exact List.findIdx_lt_length.mpr ⟨s', hs', by simp [hnone']⟩
  -- the first empty slot of the node is the first empty slot of branch `b`
  have hidx : firstEmpty (slots (l + 1) n) = wrsBranches ^ (l + 1) * b +
      firstEmpty (slots l ((n.items b).getD (empty (n.maxItems / wrsBranches)))) := by
    rw [hslots] at hin ⊢
    rw [firstEmpty, firstEmpty, slots_succ]
    refine findIdx_blocks hlen b (fun b' hb' s hs => ?_) hin
    cases hs1 : s.1 with
    | none =>
      have := (branchFree_iff hn b').mpr ⟨s, hs, hs1⟩
      rw [hbefore b' hb'] at this
      cases this
    | some _ => rfl
  refine ⟨n.added b c' w, ?_, ⟨?_, ?_, rfl, rfl, rfl⟩⟩
  · rw [insert, hb]
    simp only [hins]
    rw [hidx, hmax]
  · refine NodeWF.update hn b rfl rfl (by simp [added]) ?_ rfl ⟨hc'.wf, ?_⟩
    · simp only [added, childCnt, hc'.itemCnt_eq, hcnt]
      omega
    · rw [hc'.sumWeight_eq, hsum]
  · -- writing the slot of branch `b` writes the slot of the node
    have hupd : (fun b' => branchSlots (slots l) (n.maxItems / wrsBranches) (none, 0)
        (Function.update n.items b (some c') b')) =
        Function.update (fun b' => branchSlots (slots l) (n.maxItems / wrsBranches) (none, 0)
          (n.items b')) b (slots l c') :=
      funext fun b' => Function.apply_update (fun _ => branchSlots (slots l)
        (n.maxItems / wrsBranches) (none, 0)) n.items b (some c') b'
    rw [hidx, slots_succ, slots_succ]
    change blocks (fun b' => branchSlots (slots l) (n.maxItems / wrsBranches) (none, 0)
      (Function.update n.items b (some c') b')) = _
    rw [hupd, hc'.slots_eq, hslots, ← blocks_update_set hlen b (hslots ▸ hin)]

/-- **`insert` fills the first empty slot** of a well-formed node with an empty slot, and
never panics there. -/
theorem insert_spec : ∀ {l : Nat} {n : WrsNode (Level α l)}, WF l n → n.itemCnt < n.maxItems →
    ∀ (x : α) {w : Int}, 0 < w →
      ∃ n', insert l n x w = some (n', firstEmpty (slots l n)) ∧ Inserted l n n' x w
  | 0, _, hn, hfree, x, _, hw => insert_zero_spec hn hfree x hw
  | _ + 1, _, hn, hfree, x, _, hw =>
    insert_succ_spec hn hfree x fun _ hc hcf => insert_spec hc hcf x hw

/-! ### Setting a weight -/

/-- What `setWeight` of slot `i`, holding `x` with weight `w₀`, to `w` leaves of `n`: a
well-formed node whose slots are those of `n` with slot `i` reweighted, and emptied at `0`. -/
structure Reweighted (l : Nat) (n n' : WrsNode (Level α l)) (i : Nat) (x : α) (w₀ w : Int) :
    Prop where
  wf : WF l n'
  slots_eq : slots l n' = (slots l n).set i (if w = 0 then none else some x, w)
  sumWeight_eq : n'.sumWeight = n.sumWeight + (w - w₀)
  itemCnt_eq : n'.itemCnt = if w = 0 then n.itemCnt - 1 else n.itemCnt
  maxItems_eq : n'.maxItems = n.maxItems

/-- A node with an item in a slot counts at least one item. -/
theorem one_le_itemCnt {l : Nat} {n : WrsNode (Level α l)} (hn : WF l n) {i : Nat} {x : α}
    {w₀ : Int} (h : (slots l n)[i]? = some (some x, w₀)) : 1 ≤ n.itemCnt := by
  rw [← hn.slotsOf.count_eq]
  refine List.le_sum_of_mem (List.mem_map.mpr ⟨(some x, w₀), ?_, rfl⟩)
  exact List.mem_of_getElem? h

/-- **`setWeight` at level `0`** reweights the slot, emptying it at `0`. -/
theorem setWeight_zero_spec {n : WrsNode (Level α 0)} (hn : WF 0 n) {i : Nat} {x : α} {w₀ : Int}
    (h : (slots 0 n)[i]? = some (some x, w₀)) {w : Int} (hw : 0 ≤ w) :
    ∃ n', setWeight 0 n i w = some (n', w - w₀) ∧ Reweighted 0 n n' i x w₀ w := by
  have hi : i < 8 := by
    have := (List.getElem?_eq_some_iff.mp h).1
    rwa [slots, List.length_ofFn] at this
  have hslot : n.items ⟨i, hi⟩ = some x ∧ n.weights ⟨i, hi⟩ = w₀ := by
    rw [slots, List.getElem?_ofFn, dif_pos hi] at h
    simpa using h
  have hone := one_le_itemCnt hn h
  have hsum : n.sumWeight + (w - w₀) = n.sumWeight + (w - n.weights ⟨i, hi⟩) := by rw [hslot.2]
  by_cases hw0 : w = 0
  · -- the slot is emptied, and the item no longer counted
    refine ⟨{ items := Function.update n.items ⟨i, hi⟩ none
              weights := Function.update n.weights ⟨i, hi⟩ w
              sumWeight := n.sumWeight + (w - w₀)
              itemCnt := n.itemCnt - 1
              maxItems := n.maxItems },
      by rw [setWeight, dif_pos hi, if_pos hw0, hslot.2], ⟨?_, ?_, rfl, by rw [if_pos hw0], rfl⟩⟩
    · refine NodeWF.update hn ⟨i, hi⟩ rfl rfl hsum ?_ rfl hw0
      simp only [hslot.1, liveCnt_some, liveCnt_none]
      omega
    · simp only [slots]
      rw [pair_update, ofFn_update, if_pos hw0]
  · refine ⟨{ n with weights := Function.update n.weights ⟨i, hi⟩ w
                     sumWeight := n.sumWeight + (w - w₀) },
      by rw [setWeight, dif_pos hi, if_neg hw0, hslot.2], ⟨?_, ?_, rfl, by rw [if_neg hw0], rfl⟩⟩
    · refine NodeWF.update hn ⟨i, hi⟩ (Function.update_eq_self _ _).symm rfl hsum rfl rfl ?_
      rw [hslot.1]
      change (0 : Int) < w
      omega
    · simp only [slots]
      rw [← Function.update_eq_self ⟨i, hi⟩ n.items, pair_update, ofFn_update,
        Function.update_eq_self, hslot.1, if_neg hw0]

/-- The items below one branch are among the node's. -/
theorem childCnt_le_itemCnt {l : Nat} {n : WrsNode (Level α (l + 1))} (hn : WF (l + 1) n)
    (b : Fin 8) : childCnt (n.items b) ≤ n.itemCnt := by
  rw [NodeWF.itemCnt_eq hn]
  exact Finset.single_le_sum (f := fun i => childCnt (n.items i)) (fun _ _ => Nat.zero_le _)
    (Finset.mem_univ b)

/-- **`setWeight` above level `0`** descends into the branch `idx / branchItems` at the
index `idx - branch * branchItems` there, which is slot `idx` of the node in mixed radix. -/
theorem setWeight_succ_spec {l : Nat} {n : WrsNode (Level α (l + 1))} (hn : WF (l + 1) n)
    {i : Nat} {x : α} {w₀ : Int} (h : (slots (l + 1) n)[i]? = some (some x, w₀)) {w : Int}
    (ih : ∀ c : WrsNode (Level α l), WF l c → ∀ {j : Nat}, (slots l c)[j]? = some (some x, w₀) →
      ∃ c', setWeight l c j w = some (c', w - w₀) ∧ Reweighted l c c' j x w₀ w) :
    ∃ n', setWeight (l + 1) n i w = some (n', w - w₀) ∧ Reweighted (l + 1) n n' i x w₀ w := by
  have hm := branchItems_eq hn
  have hmpos : 0 < wrsBranches ^ (l + 1) := Nat.pow_pos (by decide)
  have hlen : ∀ b, (branchSlots (slots l) (n.maxItems / wrsBranches) (none, 0)
      (n.items b)).length = wrsBranches ^ (l + 1) := fun b => (hn.slotsOf_branch b).length_eq
  -- the slot lies in branch `i / m`, at `i % m`
  have hi : i < wrsBranches * wrsBranches ^ (l + 1) := by
    have := (List.getElem?_eq_some_iff.mp h).1
    rwa [hn.slotsOf.length_eq, hn.maxItems_eq, pow_succ'] at this
  have hb : i / (n.maxItems / wrsBranches) < 8 := by
    rw [hm, Nat.div_lt_iff_lt_mul hmpos]
    exact hi
  have hlen' : ∀ b, (branchSlots (slots l) (n.maxItems / wrsBranches) (none, 0)
      (n.items b)).length = n.maxItems / wrsBranches := fun b => (hlen b).trans hm.symm
  have hj : i % (n.maxItems / wrsBranches) < n.maxItems / wrsBranches :=
    Nat.mod_lt _ (hm ▸ hmpos)
  have hsub : i - i / (n.maxItems / wrsBranches) * (n.maxItems / wrsBranches) =
      i % (n.maxItems / wrsBranches) := by
    rw [Nat.mod_def, Nat.mul_comm]
  have hgroup : (branchSlots (slots l) (n.maxItems / wrsBranches) (none, 0)
      (n.items ⟨i / (n.maxItems / wrsBranches), hb⟩))[i % (n.maxItems / wrsBranches)]? =
      some (some x, w₀) := by
    rw [← getElem?_blocks hlen' _ hj, Nat.div_add_mod]
    exact h
  -- the branch holds a node, since its slot holds an item
  obtain ⟨c, hc⟩ : ∃ c, n.items ⟨i / (n.maxItems / wrsBranches), hb⟩ = some c := by
    cases hc : n.items ⟨i / (n.maxItems / wrsBranches), hb⟩ with
    | none =>
      rw [hc, branchSlots] at hgroup
      simp [List.getElem?_replicate] at hgroup
    | some c => exact ⟨c, rfl⟩
  rw [hc] at hgroup
  have hok := NodeWF.branch_ok hn ⟨i / (n.maxItems / wrsBranches), hb⟩
  rw [hc] at hok
  obtain ⟨c', hset, hc'⟩ := ih c hok.1 hgroup
  have hone := one_le_itemCnt hok.1 hgroup
  have hle := childCnt_le_itemCnt hn ⟨i / (n.maxItems / wrsBranches), hb⟩
  rw [hc] at hle
  change c.itemCnt ≤ n.itemCnt at hle
  refine ⟨{ items := Function.update n.items ⟨i / (n.maxItems / wrsBranches), hb⟩ (some c')
            weights := Function.update n.weights ⟨i / (n.maxItems / wrsBranches), hb⟩
              (n.weights ⟨i / (n.maxItems / wrsBranches), hb⟩ + (w - w₀))
            sumWeight := n.sumWeight + (w - w₀)
            itemCnt := if w = 0 then n.itemCnt - 1 else n.itemCnt
            maxItems := n.maxItems }, ?_, ⟨?_, ?_, rfl, rfl, rfl⟩⟩
  · have hm0 : n.maxItems / wrsBranches ≠ 0 := by omega
    rw [setWeight, if_neg hm0, dif_pos hb]
    simp only [hc, ← hsub] at hset ⊢
    rw [hset]
  · refine NodeWF.update hn _ rfl rfl (by dsimp only; omega) ?_ rfl ⟨hc'.wf, ?_⟩
    · simp only [hc, childCnt, hc'.itemCnt_eq]
      split_ifs <;> omega
    · rw [hc'.sumWeight_eq, hok.2]
  · -- rewriting one slot of branch `b` rewrites slot `i` of the node
    have hupd : (fun b' => branchSlots (slots l) (n.maxItems / wrsBranches) (none, 0)
        (Function.update n.items ⟨i / (n.maxItems / wrsBranches), hb⟩ (some c') b')) =
        Function.update (fun b' => branchSlots (slots l) (n.maxItems / wrsBranches) (none, 0)
          (n.items b')) ⟨i / (n.maxItems / wrsBranches), hb⟩ (slots l c') :=
      funext fun b' => Function.apply_update (fun _ => branchSlots (slots l)
        (n.maxItems / wrsBranches) (none, 0)) n.items _ (some c') b'
    rw [slots_succ, slots_succ]
    change blocks (fun b' => branchSlots (slots l) (n.maxItems / wrsBranches) (none, 0)
      (Function.update n.items _ (some c') b')) = _
    have hslots : slots l c = branchSlots (slots l) (n.maxItems / wrsBranches) (none, 0)
        (n.items ⟨i / (n.maxItems / wrsBranches), hb⟩) := by rw [hc]; rfl
    rw [hupd, hc'.slots_eq, hslots, blocks_update_set hlen' _ hj, Nat.div_add_mod]

/-- **`setWeight` reweights the slot it is given**, emptying it at `0`, on a well-formed node
whose slot holds an item, and never panics there. -/
theorem setWeight_spec : ∀ {l : Nat} {n : WrsNode (Level α l)}, WF l n →
    ∀ {i : Nat} {x : α} {w₀ : Int}, (slots l n)[i]? = some (some x, w₀) → ∀ {w : Int}, 0 ≤ w →
      ∃ n', setWeight l n i w = some (n', w - w₀) ∧ Reweighted l n n' i x w₀ w
  | 0, _, hn, _, _, _, h, _, hw => setWeight_zero_spec hn h hw
  | _ + 1, _, hn, _, _, _, h, _, hw =>
    setWeight_succ_spec hn h fun _ hc _ hj => setWeight_spec hc hj hw

end WrsNode

end Les
