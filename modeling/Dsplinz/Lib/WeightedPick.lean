import Mathlib

/-!
# Picking by cumulative weight

A weighted choice draws a number `v` below the total weight and walks the elements,
subtracting the weight of each from `v` until `v` falls below one: that element is picked,
with what is left of `v`. Each element owns an interval of draws as long as its weight, and
the intervals follow one another in the order of the list.

`WeightedPick.pick` is that walk, for any integer weights. What makes it a weighted choice
needs the weights nonnegative and the draw in `[0, total)`:

| lemma | what it gives |
|---|---|
| `WeightedPick.pick_append` | a walk over two lists walks the first, then the second |
| `WeightedPick.pick_eq_none_iff` | the walk runs off the end exactly when the draw reaches the total |
| `WeightedPick.pick_flatten` | over groups: pick a group by its total, then within it |
| `WeightedPick.pick_eq_some` | what is picked is an element whose interval holds the draw |
| `WeightedPick.pick_eq_some_of_mem_interval` | and the element whose interval holds the draw is picked |
| `WeightedPick.mem_interval_unique` | no two intervals hold one draw |
| `WeightedPick.card_pick` | the draws that pick elements of a kind are as many as their weight |
-/

namespace WeightedPick

variable {β γ : Type} (w : β → Int)

/-- The walk: the first element whose interval holds `v`, with `v` less the weights
before it. -/
def pick : List β → Int → Option (β × Int)
  | [], _ => none
  | b :: l, v => if v < w b then some (b, v) else pick l (v - w b)

variable {w}

@[simp] theorem pick_nil (v : Int) : pick w [] v = none := rfl

theorem pick_cons (b : β) (l : List β) (v : Int) :
    pick w (b :: l) v = if v < w b then some (b, v) else pick w l (v - w b) := rfl

/-! ### For any weights -/

theorem pick_append (l₁ l₂ : List β) (v : Int) :
    pick w (l₁ ++ l₂) v = (pick w l₁ v).or (pick w l₂ (v - (l₁.map w).sum)) := by
  induction l₁ generalizing v with
  | nil => simp
  | cons b l₁ ih =>
    rw [List.cons_append, pick_cons, pick_cons]
    split_ifs with h
    · rfl
    · rw [ih, List.map_cons, List.sum_cons, Int.sub_sub]

theorem pick_map (f : γ → β) (l : List γ) (v : Int) :
    pick w (l.map f) v = (pick (w ∘ f) l v).map (Prod.map f id) := by
  induction l generalizing v with
  | nil => rfl
  | cons c l ih =>
    rw [List.map_cons, pick_cons, pick_cons, ih, Function.comp_apply]
    split_ifs <;> rfl

theorem pick_congr {w' : β → Int} {l : List β} (h : ∀ b ∈ l, w b = w' b) (v : Int) :
    pick w l v = pick w' l v := by
  induction l generalizing v with
  | nil => rfl
  | cons b l ih =>
    rw [pick_cons, pick_cons, h b List.mem_cons_self,
      ih (fun c hc => h c (List.mem_cons_of_mem b hc))]

/-- **What is picked** is the element at some `i` whose interval holds the draw: the draw is
the weights before it and what is left, which is below its weight, and not negative when the
draw is not. -/
theorem pick_eq_some {l : List β} {v v' : Int} {b : β} (h : pick w l v = some (b, v')) :
    ∃ (i : Nat) (hi : i < l.length), l[i] = b ∧ v = ((l.take i).map w).sum + v' ∧
      v' < w b ∧ (0 ≤ v → 0 ≤ v') := by
  induction l generalizing v with
  | nil => cases h
  | cons c l ih =>
    rw [pick_cons] at h
    split_ifs at h with hc
    · cases h
      exact ⟨0, by simp, rfl, by simp, hc, id⟩
    · obtain ⟨i, hi, hb, hv, hlt, hpos⟩ := ih h
      refine ⟨i + 1, by simpa using hi, by simpa using hb, ?_, hlt, fun _ => hpos (by omega)⟩
      rw [List.take_succ_cons, List.map_cons, List.sum_cons]
      omega

/-! ### For nonnegative weights -/

section Nonneg

theorem sum_take_nonneg {l : List β} (hw : ∀ b ∈ l, 0 ≤ w b) (i : Nat) :
    0 ≤ ((l.take i).map w).sum :=
  List.sum_nonneg fun x hx => by
    obtain ⟨b, hb, rfl⟩ := List.mem_map.mp hx
    exact hw b (List.mem_of_mem_take hb)

/-- **The walk runs off the end exactly when the draw reaches the total.** -/
theorem pick_eq_none_iff {l : List β} (hw : ∀ b ∈ l, 0 ≤ w b) {v : Int} (hv : 0 ≤ v) :
    pick w l v = none ↔ (l.map w).sum ≤ v := by
  induction l generalizing v with
  | nil => simpa using hv
  | cons b l ih =>
    have hrest := sum_take_nonneg (fun c hc => hw c (List.mem_cons_of_mem b hc)) l.length
    rw [List.take_length] at hrest
    rw [pick_cons, List.map_cons, List.sum_cons]
    split_ifs with hc
    · -- the draw falls in the first interval, short of the total
      simp only [false_iff, not_le]
      omega
    · rw [ih (fun c hc => hw c (List.mem_cons_of_mem b hc)) (by omega)]
      omega

/-- **Picking from groups**: the walk over the groups laid end to end picks the group whose
interval of totals holds the draw, then walks within that group. -/
theorem pick_flatten {L : List (List β)} (hw : ∀ g ∈ L, ∀ b ∈ g, 0 ≤ w b) {v : Int}
    (hv : 0 ≤ v) :
    pick w L.flatten v = (pick (fun g => (g.map w).sum) L v).bind fun r => pick w r.1 r.2 := by
  induction L generalizing v with
  | nil => rfl
  | cons g L ih =>
    have hg : ∀ b ∈ g, 0 ≤ w b := hw g List.mem_cons_self
    rw [List.flatten_cons, pick_append, pick_cons]
    by_cases hc : v < (g.map w).sum
    · -- the group holds the draw, and so does one of its elements
      rw [if_pos hc, Option.bind_some]
      have hsome : pick w g v ≠ none := fun h => absurd ((pick_eq_none_iff hg hv).mp h) (by omega)
      obtain ⟨r, hr⟩ := Option.ne_none_iff_exists'.mp hsome
      rw [hr, Option.some_or]
    · rw [if_neg hc, (pick_eq_none_iff hg hv).mpr (by omega), Option.none_or]
      exact ih (fun g' hg' => hw g' (List.mem_cons_of_mem g hg')) (by omega)

/-- **The element whose interval holds the draw is picked**, so the element picked is
unique. -/
theorem pick_eq_some_of_mem_interval {l : List β} (hw : ∀ b ∈ l, 0 ≤ w b) {i : Nat}
    (hi : i < l.length) {v : Int} (h₁ : ((l.take i).map w).sum ≤ v)
    (h₂ : v < ((l.take i).map w).sum + w l[i]) :
    pick w l v = some (l[i], v - ((l.take i).map w).sum) := by
  induction l generalizing i v with
  | nil => cases hi
  | cons b l ih =>
    cases i with
    | zero =>
      simp only [List.take_zero, List.map_nil, List.sum_nil, Int.sub_zero] at h₂ ⊢
      rw [pick_cons, if_pos (by simpa using h₂)]
      rfl
    | succ i =>
      have hw' : ∀ c ∈ l, 0 ≤ w c := fun c hc => hw c (List.mem_cons_of_mem b hc)
      have hS := sum_take_nonneg hw' i
      simp only [List.take_succ_cons, List.map_cons, List.sum_cons, List.getElem_cons_succ]
        at h₁ h₂ ⊢
      -- the first interval lies below the draw
      rw [pick_cons, if_neg (by omega),
        ih hw' (Nat.lt_of_succ_lt_succ hi) (v := v - w b) (by omega) (by omega)]
      rw [Int.sub_sub]

/-- Past the interval of element `i` come the intervals of the elements after it. -/
theorem interval_le_sum_take {l : List β} (hw : ∀ b ∈ l, 0 ≤ w b) {i j : Nat}
    (hi : i < l.length) (hij : i < j) :
    ((l.take i).map w).sum + w l[i] ≤ ((l.take j).map w).sum := by
  have hsucc : ((l.take (i + 1)).map w).sum = ((l.take i).map w).sum + w l[i] := by
    rw [List.map_take, List.map_take, List.sum_take_succ _ _ (by simpa using hi), List.getElem_map]
  rw [← hsucc]
  exact ((List.take_sublist_take_left hij).map w).sum_le_sum fun a ha => by
    obtain ⟨b, hb, rfl⟩ := List.mem_map.mp ha
    exact hw b (List.mem_of_mem_take hb)

/-- **No two intervals hold one draw.** -/
theorem mem_interval_unique {l : List β} (hw : ∀ b ∈ l, 0 ≤ w b) {i j : Nat}
    (hi : i < l.length) (hj : j < l.length) {v : Int}
    (hi₁ : ((l.take i).map w).sum ≤ v) (hi₂ : v < ((l.take i).map w).sum + w l[i])
    (hj₁ : ((l.take j).map w).sum ≤ v) (hj₂ : v < ((l.take j).map w).sum + w l[j]) : i = j := by
  rcases Nat.lt_trichotomy i j with hij | hij | hij
  · have := interval_le_sum_take hw hi hij
    omega
  · exact hij
  · have := interval_le_sum_take hw hj hij
    omega

/-! ### Counting the draws -/

variable [DecidableEq γ]

/-- The draws in the first interval pick the first element. -/
theorem card_filter_head (f : β → γ) (c : γ) (b : β) (l : List β) (hb : 0 ≤ w b) :
    (((Finset.Ico 0 (w b)).filter fun v => (pick w (b :: l) v).map (f ∘ Prod.fst) = some c).card
      : Int) = if f b = c then w b else 0 := by
  have hpick : ∀ v ∈ Finset.Ico 0 (w b), pick w (b :: l) v = some (b, v) := fun v hv => by
    rw [pick_cons, if_pos (Finset.mem_Ico.mp hv).2]
  split_ifs with hf
  · rw [Finset.filter_true_of_mem fun v hv => by simp [hpick v hv, hf], Int.card_Ico]
    omega
  · rw [Finset.filter_false_of_mem fun v hv => by simp [hpick v hv, hf]]
    rfl

/-- The draws past the first interval are the draws on the rest, shifted by its weight. -/
theorem card_filter_tail (f : β → γ) (c : γ) (b : β) (l : List β) :
    ((Finset.Ico (w b) (w b + (l.map w).sum)).filter
        fun v => (pick w (b :: l) v).map (f ∘ Prod.fst) = some c).card =
      ((Finset.Ico 0 (l.map w).sum).filter
        fun v => (pick w l v).map (f ∘ Prod.fst) = some c).card := by
  have hshift : Finset.Ico (w b) (w b + (l.map w).sum) =
      (Finset.Ico 0 (l.map w).sum).map (addRightEmbedding (w b)) := by
    rw [Finset.map_add_right_Ico (0 : Int) (l.map w).sum (w b), Int.zero_add, Int.add_comm]
  rw [hshift, Finset.filter_map, Finset.card_map]
  congr 1
  refine Finset.filter_congr fun v hv => ?_
  have hv0 := (Finset.mem_Ico.mp hv).1
  simp only [Function.comp_apply, addRightEmbedding_apply]
  rw [pick_cons, if_neg (by omega), Int.add_sub_cancel]

/-- **The draws that pick elements of a kind are as many as their weight**: of the draws in
`[0, total)`, those that pick an element `b` with `f b = c` number the weights of those
elements. With draws uniform, such an element is picked with probability its share of the
total. -/
theorem card_pick (f : β → γ) (c : γ) {l : List β} (hw : ∀ b ∈ l, 0 ≤ w b) :
    (((Finset.Ico 0 (l.map w).sum).filter
        fun v => (pick w l v).map (f ∘ Prod.fst) = some c).card : Int) =
      ((l.filter fun b => f b = c).map w).sum := by
  induction l with
  | nil => simp
  | cons b l ih =>
    have hb := hw b List.mem_cons_self
    have hw' : ∀ c ∈ l, 0 ≤ w c := fun c hc => hw c (List.mem_cons_of_mem b hc)
    have hS := sum_take_nonneg hw' l.length
    rw [List.take_length] at hS
    -- the draws split at the end of the first interval
    rw [List.map_cons, List.sum_cons,
      ← Finset.Ico_union_Ico_eq_Ico hb (Int.le_add_of_nonneg_right hS), Finset.filter_union,
      Finset.card_union_of_disjoint (Disjoint.mono (Finset.filter_subset _ _)
        (Finset.filter_subset _ _) (Finset.Ico_disjoint_Ico_consecutive _ _ _)),
      Nat.cast_add, card_filter_head f c b l hb, card_filter_tail, ih hw']
    by_cases hf : f b = c
    · rw [if_pos hf, List.filter_cons_of_pos (by simpa using hf), List.map_cons, List.sum_cons]
    · rw [if_neg hf, List.filter_cons_of_neg (by simpa using hf), Int.zero_add]

end Nonneg

end WeightedPick
