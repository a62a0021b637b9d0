import Dsplinz.Les.RandSelect

/-!
# Weighted random selection

A `weightedRandomSelect` of `les/randselect.go` holds a root `wrsNode` and `idx`, the leaf slot
of each item it holds. `setWeight` sets the weight of an item: it reweights the item's slot
when there is one (and forgets the item at `0`), and otherwise inserts the item into the
first empty slot, giving the tree a new level above the root when the root is full. `choose`
draws a number below the total weight and returns the item whose interval of weight holds
it; when the item's current weight has fallen below the stored one, it stores the new weight
and keeps the item only with the ratio of the two as chance, drawing again otherwise.

`Les.WeightedRandomSelect.Inv` is what the structure keeps: the tree is well formed, and `idx`
and the slots agree both ways. Every call keeps it, so every state a run reaches has it:

| theorem | what it gives |
|---|---|
| `setWeight_inv` | `setWeight`, and so the `insert` in it, keeps it and never panics |
| `choose_inv` | `choose` keeps it, also where it writes a stale weight back |
| `reachable_inv` | every reachable state has it |
| `slots_newRoot` | a new level keeps every slot where it was |
| `choose_fresh` | with fresh weights, `choose` returns the root's choice for its first draw |
| `reachable_consistent` | what callers rely on, in every reachable state (`Consistent`) |

The source calls `rand.Int63n`; the model takes the numbers it returns as a function `rand`
of the call's rank and its bound.
-/

namespace Les

open WrsNode Blocks

/-- `weightedRandomSelect`: the root, of level `level`, and the slot of each item. -/
structure WeightedRandomSelect (α : Type) where
  level : Nat
  root : WrsNode (Level α level)
  idx : α → Option Nat

namespace WeightedRandomSelect

variable {α : Type} [DecidableEq α]

/-! ### The model -/

/-- `newWeightedRandomSelect()`. -/
def new : WeightedRandomSelect α := ⟨0, empty wrsBranches, fun _ => none⟩

/-- The root `setWeight` puts above a full root `root`: `root` in branch `0`. -/
def newRoot {l : Nat} (root : WrsNode (Level α l)) : WrsNode (Level α (l + 1)) where
  items := Function.update (fun _ => none) 0 (some root)
  weights := Function.update (fun _ => 0) 0 root.sumWeight
  sumWeight := root.sumWeight
  itemCnt := root.itemCnt
  maxItems := root.maxItems * wrsBranches

/-- "add a new level" of `setWeight`. -/
def addLevel (w : WeightedRandomSelect α) : WeightedRandomSelect α :=
  ⟨w.level + 1, newRoot w.root, w.idx⟩

/-- The insertion that ends `setWeight` for an item not held: into the root, recording the
item's index. -/
def insertItem (w : WeightedRandomSelect α) (item : α) (weight : Int) :
    Option (WeightedRandomSelect α) :=
  match WrsNode.insert w.level w.root item weight with
  | none => none
  | some (root, i) => some ⟨w.level, root, Function.update w.idx item (some i)⟩

/-- `weightedRandomSelect.setWeight(item, weight)`; `none` for a panic. -/
def setWeight (w : WeightedRandomSelect α) (item : α) (weight : Int) :
    Option (WeightedRandomSelect α) :=
  match w.idx item with
  | some idx =>
    match WrsNode.setWeight w.level w.root idx weight with
    | none => none
    | some (root, _) =>
      some ⟨w.level, root, if weight = 0 then Function.update w.idx item none else w.idx⟩
  | none =>
    if weight ≠ 0 then
      -- a full root gets a new level first
      (if w.root.itemCnt = w.root.maxItems then w.addLevel else w).insertItem item weight
    else some w

/-- `weightedRandomSelect.update(item)`, with `weightOf` the items' `Weight()`. -/
def update (weightOf : α → Int) (w : WeightedRandomSelect α) (item : α) :
    Option (WeightedRandomSelect α) :=
  w.setWeight item (weightOf item)

/-- `weightedRandomSelect.remove(item)`. -/
def remove (w : WeightedRandomSelect α) (item : α) : Option (WeightedRandomSelect α) :=
  w.setWeight item 0

/-- `weightedRandomSelect.choose()`, its loop run for at most `fuel` rounds: `rand k n` is
the number the `k`-th call `rand.Int63n(n)` returns, and `weightOf` the items' current
`Weight()`. `none` for a panic, or for a loop that has not returned within `fuel` rounds. -/
def choose (weightOf : α → Int) (rand : Nat → Int → Int) :
    Nat → Nat → WeightedRandomSelect α → Option (Option α × WeightedRandomSelect α)
  | 0, _, _ => none
  | fuel + 1, k, w =>
    if w.root.sumWeight = 0 then some (none, w)
    else
      match WrsNode.choose w.level w.root (rand k w.root.sumWeight) with
      | none => none
      | some (choice, lastWeight) =>
        let weight := weightOf choice
        match (if weight ≠ lastWeight then w.setWeight choice weight else some w) with
        | none => none
        | some w =>
          if weight ≥ lastWeight then some (some choice, w)
          -- the item is kept with chance `weight / lastWeight`
          else if rand (k + 1) lastWeight < weight then some (some choice, w)
          else choose weightOf rand fuel (k + 2) w

/-! ### What the structure keeps -/

/-- The slots of the root. -/
def slotList (w : WeightedRandomSelect α) : List (Option α × Int) := slots w.level w.root

/-- The weight stored for an item: that of its slot, or `0` for an item not held. -/
def storedWeight (w : WeightedRandomSelect α) (x : α) : Int :=
  match w.idx x with
  | none => 0
  | some i => ((w.slotList[i]?).map Prod.snd).getD 0

/-- **The invariant**: the tree is well formed, and `idx` gives each item held its slot and
nothing else. -/
structure Inv (w : WeightedRandomSelect α) : Prop where
  wf : WF w.level w.root
  idx_iff : ∀ x i, w.idx x = some i ↔ ∃ v, w.slotList[i]? = some (some x, v)

omit [DecidableEq α] in
theorem inv_new : Inv (new : WeightedRandomSelect α) where
  wf := WF_empty 0
  idx_iff x i := by
    have hslots : (new : WeightedRandomSelect α).slotList = List.replicate 8 (none, 0) :=
      slots_empty 0
    rw [hslots, List.getElem?_replicate]
    constructor
    · intro h
      cases h
    · rintro ⟨v, hv⟩
      split_ifs at hv
      cases hv

omit [DecidableEq α] in
/-- A slot that holds an item is the one `idx` gives it: no item is held twice. -/
theorem Inv.slot_unique {w : WeightedRandomSelect α} (h : Inv w) {x : α} {i j : Nat} {u v : Int}
    (hi : w.slotList[i]? = some (some x, u)) (hj : w.slotList[j]? = some (some x, v)) : i = j := by
  have h₁ := (h.idx_iff x i).mpr ⟨u, hi⟩
  have h₂ := (h.idx_iff x j).mpr ⟨v, hj⟩
  rw [h₁] at h₂
  exact Option.some.inj h₂

/-! ### A new level -/

section NewRoot

variable {l : Nat} {root : WrsNode (Level α l)}

omit [DecidableEq α]

theorem wf_newRoot (hwf : WF l root) : WF (l + 1) (newRoot root) where
  maxItems_eq := by
    change root.maxItems * wrsBranches = _
    rw [hwf.maxItems_eq, ← pow_succ]
  sumWeight_eq := by
    have := sum_update_add (fun _ : Fin 8 => (0 : Int)) 0 root.sumWeight
    simp only [Finset.sum_const_zero, Int.add_zero, Int.zero_add] at this
    exact this.symm
  itemCnt_eq := by
    have := sum_update_add (fun _ : Fin 8 => (0 : Nat)) 0 root.itemCnt
    simp only [Finset.sum_const_zero, Nat.add_zero, Nat.zero_add] at this
    change root.itemCnt = _
    rw [← this]
    refine Finset.sum_congr rfl fun b _ => ?_
    by_cases hb : b = 0
    · subst hb
      simp [newRoot, childCnt]
    · simp [newRoot, childCnt, Function.update_of_ne hb]
  branch_ok b := by
    by_cases hb : b = 0
    · subst hb
      exact ⟨by simpa [newRoot] using hwf, by simp [newRoot]⟩
    · simp only [newRoot, Function.update_of_ne hb]
      rfl

/-- **The slots keep their indices under a new level**: those of the old root come first,
and empty slots after them. -/
theorem slots_newRoot (hwf : WF l root) :
    slots (l + 1) (newRoot root) =
      slots l root ++ List.replicate (7 * wrsBranches ^ (l + 1)) (none, 0) := by
  have hM : root.maxItems * wrsBranches / wrsBranches = wrsBranches ^ (l + 1) := by
    rw [Nat.mul_div_cancel _ (by decide), hwf.maxItems_eq]
  rw [slots_succ, blocks, List.ofFn_succ, List.flatten_cons]
  simp only [newRoot, Function.update_self, hM]
  congr 1
  -- the seven other branches are empty
  have hrest : (List.ofFn fun i : Fin 7 => branchSlots (slots l)
      (wrsBranches ^ (l + 1)) (none, 0)
      (Function.update (fun _ => none) (0 : Fin 8) (some root) i.succ)) =
      List.replicate 7 (List.replicate (wrsBranches ^ (l + 1)) (none, 0)) := by
    rw [← List.ofFn_const]
    refine congrArg List.ofFn (funext fun i => ?_)
    rw [Function.update_of_ne (Fin.succ_ne_zero i), branchSlots]
  rw [hrest, List.flatten_replicate_replicate]

end NewRoot

omit [DecidableEq α] in
theorem inv_addLevel {w : WeightedRandomSelect α} (h : Inv w) : Inv w.addLevel where
  wf := wf_newRoot h.wf
  idx_iff x i := by
    have hlen := h.wf.slotsOf.length_eq
    rw [h.wf.maxItems_eq] at hlen
    change w.idx x = some i ↔ ∃ v, (slots (w.level + 1) (newRoot w.root))[i]? = _
    rw [h.idx_iff, slots_newRoot h.wf, slotList]
    by_cases hi : i < (slots w.level w.root).length
    · rw [List.getElem?_append_left hi]
    · -- past the old slots every slot is empty
      have hi' : (slots w.level w.root).length ≤ i := Nat.le_of_not_lt hi
      rw [List.getElem?_append_right hi', List.getElem?_replicate]
      constructor
      · rintro ⟨v, hv⟩
        rw [List.getElem?_eq_none hi'] at hv
        cases hv
      · rintro ⟨v, hv⟩
        split_ifs at hv
        cases hv

/-! ### Setting a weight -/

/-- **Writing one slot keeps the index in step**: when slot `i` held `x` or nothing, and `x`
is held nowhere else, writing `o` (nothing, or `x`) to it and recording `x` at `i` or
forgetting it keeps `idx` and the slots agreeing. -/
theorem idx_iff_set {S : List (Option α × Int)} {idx : α → Option Nat}
    (hS : ∀ y j, idx y = some j ↔ ∃ v, S[j]? = some (some y, v)) {i : Nat} (hi : i < S.length)
    {x : α} (hslot : ∀ y v, S[i]? = some (some y, v) → y = x)
    (hx : ∀ j v, S[j]? = some (some x, v) → j = i) {o : Option α} (ho : ∀ y, o = some y → y = x)
    (u : Int) (y : α) (j : Nat) :
    Function.update idx x (o.map fun _ => i) y = some j ↔ ∃ v, (S.set i (o, u))[j]? = some (some y, v) := by
  by_cases hy : y = x
  · subst hy
    rw [Function.update_self]
    by_cases hj : i = j
    · subst hj
      rw [List.getElem?_set_self hi]
      cases o with
      | none => simp
      | some z => simp [ho z rfl]
    · rw [List.getElem?_set_ne hj]
      constructor
      · intro h
        obtain ⟨_, -, h⟩ := Option.map_eq_some_iff.mp h
        exact absurd h hj
      · rintro ⟨v, hv⟩
        exact absurd (hx j v hv).symm hj
  · rw [Function.update_of_ne hy, hS]
    by_cases hj : i = j
    · -- slot `i` holds neither `y` before nor after
      subst hj
      rw [List.getElem?_set_self hi]
      constructor
      · rintro ⟨v, hv⟩
        exact absurd (hslot y v hv) hy
      · rintro ⟨v, hv⟩
        exact absurd (ho y (congrArg Prod.fst (Option.some.inj hv))) hy
    · rw [List.getElem?_set_ne hj]

/-- **`setWeight` of an item held** reweights its slot, and forgets the item at `0`. -/
theorem setWeight_held {w : WeightedRandomSelect α} (h : Inv w) {x : α} {i : Nat}
    (hx : w.idx x = some i) {weight : Int} (hw : 0 ≤ weight) :
    ∃ w', w.setWeight x weight = some w' ∧ Inv w' ∧
      w'.slotList = w.slotList.set i (if weight = 0 then none else some x, weight) := by
  obtain ⟨v, hv⟩ := (h.idx_iff x i).mp hx
  obtain ⟨root', hset, hrw⟩ := WrsNode.setWeight_spec h.wf hv hw
  have hidx : (if weight = 0 then Function.update w.idx x none else w.idx) =
      Function.update w.idx x ((if weight = 0 then none else some x).map fun _ => i) := by
    split_ifs
    · rfl
    · exact (Function.update_eq_self_iff.mpr (by rw [hx]; rfl)).symm
  refine ⟨⟨w.level, root', if weight = 0 then Function.update w.idx x none else w.idx⟩, ?_,
    ⟨hrw.wf, fun y j => ?_⟩, hrw.slots_eq⟩
  · simp only [setWeight, hx, hset]
  · change _ ↔ ∃ u, (slots w.level root')[j]? = _
    rw [hrw.slots_eq, hidx]
    refine idx_iff_set h.idx_iff (List.getElem?_eq_some_iff.mp hv).1 (fun y u hy => ?_)
      (fun j u hj => h.slot_unique hj hv) (fun y hy => ?_) weight y j
    · rw [hv] at hy
      exact (Option.some.inj (congrArg Prod.fst (Option.some.inj hy))).symm
    · split_ifs at hy
      exact (Option.some.inj hy).symm

/-- `insert` from `setWeight`, on a structure whose root has an empty slot. -/
theorem insert_inv {w : WeightedRandomSelect α} (h : Inv w)
    (hfree : w.root.itemCnt < w.root.maxItems) {x : α} (hx : w.idx x = none) {weight : Int}
    (hw : 0 < weight) :
    ∃ w', w.insertItem x weight = some w' ∧ Inv w' ∧ w'.slotList = w.slotList.set (firstEmpty w.slotList) (some x, weight) := by
  obtain ⟨root', hins, hI⟩ := insert_spec h.wf hfree x hw
  obtain ⟨s, hs, hnone⟩ := exists_empty h.wf hfree
  have hlt : firstEmpty w.slotList < w.slotList.length :=
    List.findIdx_lt_length_of_exists ⟨s, hs, by simp [hnone]⟩
  -- the first empty slot is empty
  have hempty : ∀ y v, w.slotList[firstEmpty w.slotList]? = some (some y, v) → False := by
    intro y v hy
    have hp := @List.findIdx_getElem _ (fun s : Option α × Int => s.1.isNone) w.slotList hlt
    change (w.slotList[firstEmpty w.slotList]).1.isNone = true at hp
    rw [List.getElem?_eq_getElem hlt] at hy
    rw [Option.some.inj hy] at hp
    cases hp
  refine ⟨⟨w.level, root', Function.update w.idx x (some (firstEmpty w.slotList))⟩, ?_,
    ⟨hI.wf, fun y j => ?_⟩, hI.slots_eq⟩
  · rw [insertItem, hins]
    rfl
  · change _ ↔ ∃ u, (slots w.level root')[j]? = _
    rw [hI.slots_eq]
    exact idx_iff_set (o := some x) h.idx_iff hlt (fun y v hy => (hempty y v hy).elim)
      (fun j v hj => absurd ((h.idx_iff x j).mpr ⟨v, hj⟩) (by rw [hx]; simp))
      (fun y hy => (Option.some.inj hy).symm) weight y j

omit [DecidableEq α] in
theorem Inv.itemCnt_le {w : WeightedRandomSelect α} (h : Inv w) :
    w.root.itemCnt ≤ w.root.maxItems := by
  have hle := sum_liveCnt_le_length (slots w.level w.root)
  rw [h.wf.slotsOf.count_eq, h.wf.slotsOf.length_eq] at hle
  exact hle

omit [DecidableEq α] in
/-- A root that is not full has an empty slot; one that is full has one after a new level. -/
theorem itemCnt_lt_of_not_full {w : WeightedRandomSelect α} (h : Inv w)
    (hfull : ¬w.root.itemCnt = w.root.maxItems) : w.root.itemCnt < w.root.maxItems :=
  Nat.lt_of_le_of_ne h.itemCnt_le hfull

omit [DecidableEq α] in
theorem itemCnt_lt_addLevel {w : WeightedRandomSelect α} (h : Inv w) :
    w.addLevel.root.itemCnt < w.addLevel.root.maxItems := by
  have hpos : 0 < w.root.maxItems := by
    rw [h.wf.maxItems_eq]
    exact Nat.pow_pos (by decide)
  have hle := h.itemCnt_le
  change w.root.itemCnt < w.root.maxItems * 8
  omega

/-- **`setWeight` keeps the invariant, and never panics** on a weight that is not negative:
the `insert` in it always finds an empty slot. -/
theorem setWeight_inv {w : WeightedRandomSelect α} (h : Inv w) (x : α) {weight : Int}
    (hw : 0 ≤ weight) : ∃ w', w.setWeight x weight = some w' ∧ Inv w' := by
  cases hx : w.idx x with
  | some i =>
    obtain ⟨w', hset, hinv, -⟩ := setWeight_held h hx hw
    exact ⟨w', hset, hinv⟩
  | none =>
    by_cases hw0 : weight = 0
    · exact ⟨w, by simp [setWeight, hx, hw0], h⟩
    have hpos : 0 < weight := by omega
    by_cases hfull : w.root.itemCnt = w.root.maxItems
    · -- a full root gets a new level first
      obtain ⟨w', hins, hinv, -⟩ := insert_inv (inv_addLevel h) (itemCnt_lt_addLevel h) hx hpos
      exact ⟨w', by rw [setWeight, hx, if_pos hw0, if_pos hfull]; exact hins, hinv⟩
    · obtain ⟨w', hins, hinv, -⟩ := insert_inv h (itemCnt_lt_of_not_full h hfull) hx hpos
      exact ⟨w', by rw [setWeight, hx, if_pos hw0, if_neg hfull]; exact hins, hinv⟩

/-! ### Choosing -/

section Choose

variable {weightOf : α → Int} (hweight : ∀ x, 0 ≤ weightOf x) (rand : Nat → Int → Int)
include hweight

/-- **`choose` keeps the invariant**: a stale weight it finds is written back with
`setWeight`, which keeps it. The induction is on the rounds of the loop. -/
theorem choose_inv : ∀ (fuel k : Nat) {w w' : WeightedRandomSelect α} {r : Option α},
    Inv w → w.choose weightOf rand fuel k = some (r, w') → Inv w'
  | 0, _, _, _, _, _, h => by cases h
  | fuel + 1, k, w, w', r, hinv, h => by
    rw [choose] at h
    split_ifs at h with h0
    · cases h
      exact hinv
    split at h
    · cases h
    rename_i choice lastWeight _
    -- the weight written back, if any, leaves a structure that keeps the invariant
    obtain ⟨w₁, hw₁, hinv₁⟩ : ∃ w₁, (if weightOf choice ≠ lastWeight then
        w.setWeight choice (weightOf choice) else some w) = some w₁ ∧ Inv w₁ := by
      split_ifs
      · exact setWeight_inv hinv choice (hweight choice)
      · exact ⟨w, rfl, hinv⟩
    simp only [hw₁] at h
    split_ifs at h
    · cases h
      exact hinv₁
    · cases h
      exact hinv₁
    · exact choose_inv fuel (k + 2) hinv₁ h

end Choose

/-! ### Runs -/

/-- One call on the structure: a `setWeight` with a weight that is not negative (`update`
and `remove` are such calls), or a `choose` that returns, with items whose weights are not
negative and any numbers drawn. -/
inductive Step : WeightedRandomSelect α → WeightedRandomSelect α → Prop
  | setWeight {w w' : WeightedRandomSelect α} (item : α) (weight : Int) :
      0 ≤ weight → w.setWeight item weight = some w' → Step w w'
  | choose {w w' : WeightedRandomSelect α} (weightOf : α → Int) (rand : Nat → Int → Int)
      (fuel k : Nat) (r : Option α) :
      (∀ x, 0 ≤ weightOf x) → w.choose weightOf rand fuel k = some (r, w') → Step w w'

/-- The structures a run of calls from an empty one reaches. -/
def Reachable (w : WeightedRandomSelect α) : Prop := Relation.ReflTransGen Step new w

theorem Step.inv {w w' : WeightedRandomSelect α} (hs : Step w w') (h : Inv w) : Inv w' := by
  cases hs with
  | setWeight item weight hw hset =>
    obtain ⟨w₁, hw₁, hinv⟩ := setWeight_inv h item hw
    rw [hset] at hw₁
    cases hw₁
    exact hinv
  | choose weightOf rand fuel k r hweight hch => exact choose_inv hweight rand fuel k h hch

theorem reachable_inv {w : WeightedRandomSelect α} (hw : Reachable w) : Inv w := by
  induction hw with
  | refl => exact inv_new
  | tail _ hs ih => exact hs.inv ih

/-! ### Stored weights -/

omit [DecidableEq α] in
theorem getElem?_of_fst_eq {S : List (Option α × Int)} {j : Nat} (hj : j < S.length) {x : α}
    (hx : S[j].1 = some x) : S[j]? = some (some x, S[j].2) := by
  rw [List.getElem?_eq_getElem hj]
  exact congrArg some (Prod.ext hx rfl)

omit [DecidableEq α] in
/-- Filtering for a property that one element has, and no other, leaves that element. -/
theorem filter_eq_singleton {β : Type} {l : List β} {p : β → Bool} {i : Nat} (hi : i < l.length)
    (hp : p l[i] = true) (huniq : ∀ j (hj : j < l.length), p l[j] = true → j = i) :
    l.filter p = [l[i]] := by
  induction l generalizing i with
  | nil => cases hi
  | cons b l ih =>
    cases i with
    | zero =>
      rw [List.filter_cons_of_pos (by simpa using hp), List.getElem_cons_zero]
      refine congrArg (b :: ·) (List.filter_eq_nil_iff.mpr fun a ha hpa => ?_)
      obtain ⟨j, hj, rfl⟩ := List.getElem_of_mem ha
      have := huniq (j + 1) (by simp [hj]) (by simpa using hpa)
      omega
    | succ i =>
      -- the head is not the element, so the filter skips it
      have hb : ¬p b = true := fun hpb => absurd (huniq 0 (by simp) (by simpa using hpb)) (by omega)
      rw [List.filter_cons_of_neg hb, List.getElem_cons_succ]
      refine ih (by simpa using hi) (by simpa using hp) fun j hj hpj => ?_
      have := huniq (j + 1) (by simp [hj]) (by simpa using hpj)
      omega

omit [DecidableEq α] in
theorem storedWeight_of_slot {w : WeightedRandomSelect α} (h : Inv w) {x : α} {i : Nat} {u : Int}
    (hi : w.slotList[i]? = some (some x, u)) : w.storedWeight x = u := by
  rw [storedWeight, (h.idx_iff x i).mpr ⟨u, hi⟩]
  dsimp only
  rw [hi]
  rfl

/-- **The stored weight of an item is the weight of the slots that hold it**: of its one
slot, or none. -/
theorem sum_filter_eq_storedWeight {w : WeightedRandomSelect α} (h : Inv w) (x : α) :
    ((w.slotList.filter fun s => s.1 = some x).map Prod.snd).sum = w.storedWeight x := by
  cases hx : w.idx x with
  | none =>
    -- no slot holds an item that `idx` does not record
    have hnil : w.slotList.filter (fun s => s.1 = some x) = [] := by
      refine List.filter_eq_nil_iff.mpr fun s hs hsx => ?_
      obtain ⟨j, hj, rfl⟩ := List.getElem_of_mem hs
      have hj' := (h.idx_iff x j).mpr ⟨_, getElem?_of_fst_eq hj (by simpa using hsx)⟩
      rw [hx] at hj'
      cases hj'
    rw [hnil, storedWeight, hx]
    rfl
  | some i =>
    obtain ⟨u, hu⟩ := (h.idx_iff x i).mp hx
    obtain ⟨hi, hget⟩ := List.getElem?_eq_some_iff.mp hu
    rw [filter_eq_singleton hi (by simp [hget]) fun j hj hpj =>
      h.slot_unique (getElem?_of_fst_eq hj (by simpa using hpj)) hu, storedWeight_of_slot h hu,
      hget]
    simp

/-- **With fresh weights, `choose` returns at its first draw** the item the root's `choose`
gives: its weight equals the stored one, so the loop neither writes a weight back nor draws
again. -/
theorem choose_fresh {w : WeightedRandomSelect α} (h : Inv w) {weightOf : α → Int}
    (hfresh : ∀ x i, w.idx x = some i → weightOf x = w.storedWeight x)
    {rand : Nat → Int → Int} {k : Nat} (hv : 0 ≤ rand k w.root.sumWeight)
    (hlt : rand k w.root.sumWeight < w.root.sumWeight) (fuel : Nat) :
    w.choose weightOf rand (fuel + 1) k =
      (WrsNode.choose w.level w.root (rand k w.root.sumWeight)).map fun r => (some r.1, w) := by
  obtain ⟨i, hi, h₁, h₂⟩ := exists_mem_interval h.wf hv hlt
  obtain ⟨x, hx, hch⟩ := choose_eq_of_mem_interval h.wf hv hi h₁ h₂
  have hslot : w.slotList[i]? = some (some x, (slots w.level w.root)[i].2) :=
    getElem?_of_fst_eq hi hx
  have hcur : weightOf x = (slots w.level w.root)[i].2 :=
    (hfresh x i ((h.idx_iff x i).mpr ⟨_, hslot⟩)).trans (storedWeight_of_slot h hslot)
  rw [choose, if_neg (by omega), hch]
  simp [hcur]

/-- With fresh weights, the draws in `[0, sumWeight)` for which `choose` returns an item are
as many as its stored weight. -/
theorem card_choose_fresh {w : WeightedRandomSelect α} (h : Inv w) {weightOf : α → Int}
    (hfresh : ∀ x i, w.idx x = some i → weightOf x = w.storedWeight x) (fuel k : Nat) (x : α) :
    (((Finset.Ico 0 w.root.sumWeight).filter fun v =>
        (w.choose weightOf (fun _ _ => v) (fuel + 1) k).map Prod.fst = some (some x)).card : Int) =
      w.storedWeight x := by
  rw [← sum_filter_eq_storedWeight h x, slotList, ← card_choose h.wf x]
  congr 2
  refine Finset.filter_congr fun v hv => ?_
  obtain ⟨hv0, hvlt⟩ := Finset.mem_Ico.mp hv
  have hv0' : 0 ≤ (fun _ _ => v : Nat → Int → Int) k w.root.sumWeight := hv0
  rw [choose_fresh h hfresh hv0' hvlt fuel]
  cases WrsNode.choose w.level w.root v <;> simp

/-! ### What a reachable structure gives -/

omit [DecidableEq α] in
/-- The items `idx` records are exactly those of a weight other than `0`. -/
theorem Inv.idx_iff_ne_zero {w : WeightedRandomSelect α} (h : Inv w) (x : α) (i : Nat) :
    w.idx x = some i ↔ ∃ u, u ≠ 0 ∧ w.slotList[i]? = some (some x, u) := by
  rw [h.idx_iff]
  constructor
  · rintro ⟨u, hu⟩
    -- a slot holding an item weighs more than nothing
    have hok : 0 < u := h.wf.slotsOf.ok _ (List.mem_of_getElem? hu)
    exact ⟨u, by omega, hu⟩
  · rintro ⟨u, -, hu⟩
    exact ⟨u, hu⟩

omit [DecidableEq α] in
theorem Inv.slotList_prefix_addLevel {w : WeightedRandomSelect α} (h : Inv w) :
    w.slotList <+: w.addLevel.slotList := by
  change _ <+: slots (w.level + 1) (newRoot w.root)
  rw [slots_newRoot h.wf]
  exact List.prefix_append _ _

omit [DecidableEq α] in
/-- **The root's `choose` on a draw below the total** returns the item of the one slot whose
interval holds the draw, with its stored weight. -/
theorem Inv.choose_mem_interval {w : WeightedRandomSelect α} (h : Inv w) {v : Int} (hv : 0 ≤ v)
    (hlt : v < w.root.sumWeight) :
    ∃ i x u, w.slotList[i]? = some (some x, u) ∧
      ((w.slotList.take i).map Prod.snd).sum ≤ v ∧
      v < ((w.slotList.take i).map Prod.snd).sum + u ∧
      WrsNode.choose w.level w.root v = some (x, u) ∧ u = w.storedWeight x ∧
      ∀ j y u', w.slotList[j]? = some (some y, u') →
        ((w.slotList.take j).map Prod.snd).sum ≤ v →
        v < ((w.slotList.take j).map Prod.snd).sum + u' → j = i := by
  obtain ⟨i, hi, h₁, h₂⟩ := exists_mem_interval h.wf hv hlt
  obtain ⟨x, hx, hch⟩ := choose_eq_of_mem_interval h.wf hv hi h₁ h₂
  have hslot := getElem?_of_fst_eq hi hx
  refine ⟨i, x, _, hslot, h₁, h₂, hch, (storedWeight_of_slot h hslot).symm,
    fun j y u' hj hj₁ hj₂ => ?_⟩
  obtain ⟨hjlt, hget⟩ :=
    List.getElem?_eq_some_iff.mp (show (slots w.level w.root)[j]? = _ from hj)
  -- no two intervals hold the draw
  exact WeightedPick.mem_interval_unique (w := Prod.snd)
    (fun s hs => (h.wf.slotsOf.ok s hs).nonneg) hjlt hi hj₁ (by rw [hget]; exact hj₂) h₁ h₂

/-- What the callers of a `weightedRandomSelect` rely on. -/
structure Consistent (w : WeightedRandomSelect α) : Prop where
  /-- every node keeps its total, the totals of its branches and its count of items -/
  wf : WF w.level w.root
  itemCnt_eq : (w.slotList.map fun s => liveCnt s.1).sum = w.root.itemCnt
  itemCnt_le : w.root.itemCnt ≤ w.root.maxItems
  /-- `idx` gives exactly the items of weight other than `0` their slots -/
  idx_iff : ∀ x i, w.idx x = some i ↔ ∃ u, u ≠ 0 ∧ w.slotList[i]? = some (some x, u)
  /-- a new level keeps every slot where it was -/
  slotList_addLevel : w.slotList <+: w.addLevel.slotList
  /-- `setWeight`, and the `insert` in it, never panics -/
  setWeight_isSome : ∀ x weight, 0 ≤ weight → (w.setWeight x weight).isSome
  /-- the root's `choose` returns the item whose interval holds the draw, and no other
  interval holds it -/
  choose_interval : ∀ v, 0 ≤ v → v < w.root.sumWeight →
    ∃ i x u, w.slotList[i]? = some (some x, u) ∧
      ((w.slotList.take i).map Prod.snd).sum ≤ v ∧
      v < ((w.slotList.take i).map Prod.snd).sum + u ∧
      WrsNode.choose w.level w.root v = some (x, u) ∧ u = w.storedWeight x ∧
      ∀ j y u', w.slotList[j]? = some (some y, u') →
        ((w.slotList.take j).map Prod.snd).sum ≤ v →
        v < ((w.slotList.take j).map Prod.snd).sum + u' → j = i
  /-- with fresh weights, `choose` returns an item for as many of the draws as its stored
  weight -/
  choose_fresh : ∀ weightOf : α → Int,
    (∀ x i, w.idx x = some i → weightOf x = w.storedWeight x) → ∀ fuel k x,
      (((Finset.Ico 0 w.root.sumWeight).filter fun v =>
        (w.choose weightOf (fun _ _ => v) (fuel + 1) k).map Prod.fst = some (some x)).card
          : Int) = w.storedWeight x

/-- **Every structure a run of calls reaches is consistent.** -/
theorem reachable_consistent {w : WeightedRandomSelect α} (hw : Reachable w) : Consistent w := by
  have h := reachable_inv hw
  refine ⟨h.wf, h.wf.slotsOf.count_eq, h.itemCnt_le, h.idx_iff_ne_zero, h.slotList_prefix_addLevel,
    fun x weight hweight => ?_, fun v hv hlt => h.choose_mem_interval hv hlt,
    fun weightOf hfresh fuel k x => card_choose_fresh h hfresh fuel k x⟩
  obtain ⟨w', hset, -⟩ := setWeight_inv h x hweight
  rw [hset]
  rfl

/-- Three calls: items `1` and `2` weighed `3` and `5`, and then `1` removed. -/
def threeCalls : WeightedRandomSelect Nat :=
  ((((new.setWeight 1 3).get rfl).setWeight 2 5).get rfl).setWeight 1 0 |>.get rfl

theorem reachable_consistent_threeCalls : Reachable threeCalls ∧ Consistent threeCalls := by
  have h₁ : Step new ((new.setWeight 1 3).get rfl) :=
    .setWeight 1 3 (by decide) (Option.some_get _).symm
  have h₂ : Step ((new.setWeight 1 3).get rfl)
      ((((new.setWeight 1 3).get rfl).setWeight 2 5).get rfl) :=
    .setWeight 2 5 (by decide) (Option.some_get _).symm
  have h₃ : Step ((((new.setWeight 1 3).get rfl).setWeight 2 5).get rfl) threeCalls :=
    .setWeight 1 0 le_rfl (Option.some_get _).symm
  have hrun : Reachable threeCalls := ((Relation.ReflTransGen.single h₁).tail h₂).tail h₃
  exact ⟨hrun, reachable_consistent hrun⟩

/-- After the removal, only `2` keeps a slot, the second, and the total is its weight. -/
example : threeCalls.idx 1 = none ∧ threeCalls.idx 2 = some 1 ∧ threeCalls.root.sumWeight = 5 := by
  decide

end WeightedRandomSelect

end Les
