import Mathlib

/-!
# The linear walk over a code of variable-width instructions

A code is a list of units; the unit at a position opens an instruction that takes
`w a` more units as its immediate. The walk starts at position `0` and steps from
each position `i` below the end to `i + 1 + w code[i]`. This file develops what the
walk determines:

* `Walk.Boundary w code i` – position `i` is reached by the walk;
* `Walk.next_le_of_lt` – two reached positions are at least one instruction apart;
* `Walk.InData w code p` – position `p` lies in the immediate of an instruction the walk
  reaches, and `Walk.boundary_iff_not_inData` – below the end of the code a position
  is reached iff it is not such a data position;
* `Walk.DataBelow w code pc p` – the same, for the instructions below `pc` only: what a
  single left-to-right pass has seen when it stands at `pc`, with the rule
  `Walk.dataBelow_next` for one step of the pass and `Walk.dataBelow_end` for its end;
* `Walk.filter_range'_of_boundary` – listed in order by any test that decides them, the
  reached positions from a reached one are that position and then those from the next
  instruction on: a pass that jumps from instruction to instruction lists them all.
-/

namespace Walk

variable {α : Type} (w : α → Nat) (code : List α)

/-- The positions the walk reaches: `0`, and the position after each instruction it
reaches below the end of the code. -/
inductive Boundary : Nat → Prop
  | zero : Boundary 0
  | step {i : Nat} {a : α} (ha : code[i]? = some a) : Boundary i → Boundary (i + 1 + w a)

/-- Position `p` is in the immediate of an instruction the walk reaches. -/
def InData (p : Nat) : Prop :=
  ∃ k a, Boundary w code k ∧ code[k]? = some a ∧ k < p ∧ p ≤ k + w a

/-- Position `p` is in the immediate of an instruction the walk reaches below `pc`. -/
def DataBelow (pc p : Nat) : Prop :=
  ∃ k a, Boundary w code k ∧ code[k]? = some a ∧ k < pc ∧ k < p ∧ p ≤ k + w a

variable {w code}

/-- **Reached positions are an instruction apart.** The walk never lands strictly
inside an instruction it has stepped over. By strong induction on the later position:
its predecessor on the walk is either the earlier one, or on one side of it. -/
theorem next_le_of_lt {j : Nat} (hj : Boundary w code j) :
    ∀ {i : Nat} {a : α}, Boundary w code i → code[i]? = some a → i < j → i + 1 + w a ≤ j := by
  induction j using Nat.strongRecOn with
  | _ j ih =>
    intro i a hi ha hij
    cases hj with
    | zero => omega
    | @step m b hb hm =>
      rcases Nat.lt_trichotomy i m with hlt | rfl | hgt
      · have := ih m (by omega) hm hi ha hlt
        omega
      · rw [ha] at hb
        cases hb
        exact Nat.le_refl _
      · -- `i` would lie inside the instruction at `m`, which the walk steps over
        have := ih i hij hi hm hb hgt
        omega

/-- No reached position lies strictly inside an instruction the walk reaches. -/
theorem not_boundary_of_inside {k i : Nat} {a : α} (hk : Boundary w code k) (ha : code[k]? = some a)
    (hi : Boundary w code i) (hki : k < i) (hin : i ≤ k + w a) : False := by
  have := next_le_of_lt hi hk ha hki
  omega

/-- Every position of the code is covered by an instruction the walk reaches: from any
reached position `b ≤ p`, walking on finds the instruction that holds `p`. -/
theorem exists_cover {p : Nat} (hp : p < code.length) :
    ∀ {b : Nat}, Boundary w code b → b ≤ p →
      ∃ k a, Boundary w code k ∧ code[k]? = some a ∧ k ≤ p ∧ p ≤ k + w a := by
  intro b hb hbp
  induction h : p - b using Nat.strongRecOn generalizing b with
  | _ n ih =>
    obtain ⟨a, ha⟩ : ∃ a, code[b]? = some a :=
      ⟨code[b], List.getElem?_eq_getElem (by omega)⟩
    by_cases hin : p ≤ b + w a
    · exact ⟨b, a, hb, ha, hbp, hin⟩
    · exact ih (p - (b + 1 + w a)) (by omega) (.step ha hb) (by omega) rfl

/-- **Below the end of the code, a position is reached iff it is not data.** -/
theorem boundary_iff_not_inData {p : Nat} (hp : p < code.length) :
    Boundary w code p ↔ ¬ InData w code p := by
  constructor
  · rintro hb ⟨k, a, hk, ha, hkp, hin⟩
    exact not_boundary_of_inside hk ha hb hkp hin
  · intro hnot
    obtain ⟨k, a, hk, ha, hkp, hin⟩ := exists_cover hp .zero (Nat.zero_le p)
    rcases Nat.lt_or_eq_of_le hkp with hlt | rfl
    · exact absurd ⟨k, a, hk, ha, hlt, hin⟩ hnot
    · exact hk

/-! ### A left-to-right pass -/

/-- Nothing has been seen before the pass starts. -/
theorem not_dataBelow_zero (p : Nat) : ¬ DataBelow w code 0 p := by
  rintro ⟨k, a, -, -, hk, -⟩
  omega

/-- **One step of the pass**: standing at a reached position `pc` whose instruction is
`a`, the pass moves on to `pc + 1 + w a` having seen the immediate of `a` too. -/
theorem dataBelow_next {pc : Nat} {a : α} (hpc : Boundary w code pc) (ha : code[pc]? = some a)
    (p : Nat) :
    DataBelow w code (pc + 1 + w a) p ↔ DataBelow w code pc p ∨ (pc < p ∧ p ≤ pc + w a) := by
  constructor
  · rintro ⟨k, b, hk, hb, hkpc, hkp, hin⟩
    rcases Nat.lt_trichotomy k pc with hlt | rfl | hgt
    · exact .inl ⟨k, b, hk, hb, hlt, hkp, hin⟩
    · rw [ha] at hb
      cases hb
      exact .inr ⟨hkp, hin⟩
    · exact absurd (not_boundary_of_inside hpc ha hk hgt (by omega)) id
  · rintro (⟨k, b, hk, hb, hkpc, hkp, hin⟩ | ⟨hp, hin⟩)
    · exact ⟨k, b, hk, hb, by omega, hkp, hin⟩
    · exact ⟨pc, a, hpc, ha, by omega, hp, hin⟩

/-- **The end of the pass**: past the end of the code, the pass has seen all data. -/
theorem dataBelow_end {pc : Nat} (hend : code.length ≤ pc) (p : Nat) :
    DataBelow w code pc p ↔ InData w code p := by
  constructor
  · rintro ⟨k, a, hk, ha, -, hkp, hin⟩
    exact ⟨k, a, hk, ha, hkp, hin⟩
  · rintro ⟨k, a, hk, ha, hkp, hin⟩
    have hklt : k < code.length := (List.getElem?_eq_some_iff.mp ha).1
    exact ⟨k, a, hk, ha, by omega, hkp, hin⟩

/-- A data position lies at most the widest immediate past the last instruction. -/
theorem InData.lt {p n : Nat} (hw : ∀ a ∈ code, w a ≤ n) (h : InData w code p) :
    p < code.length + n := by
  obtain ⟨k, a, -, ha, -, hin⟩ := h
  have hk : k < code.length := (List.getElem?_eq_some_iff.mp ha).1
  have := hw a (List.mem_of_getElem? ha)
  omega

/-! ### The reached positions, listed -/

section Listing

variable {f : Nat → Bool}

/-- Nothing strictly inside the instruction at a reached `pc`, and inside the code, passes a
test for reachability. -/
theorem filter_range'_inside (hf : ∀ p < code.length, f p = true ↔ Boundary w code p)
    {pc k : Nat} {a : α} (hpc : Boundary w code pc) (ha : code[pc]? = some a) (hk : k ≤ w a)
    (hlen : pc + k < code.length) :
    (List.range' (pc + 1) k).filter f = [] := by
  rw [List.filter_eq_nil_iff]
  intro p hp hfp
  rw [List.mem_range'_1] at hp
  exact not_boundary_of_inside hpc ha ((hf p (by omega)).mp hfp) (by omega) (by omega)

/-- **The reached positions from a reached one.** Listed in order by a test `f` that decides
reachability below the end of the code, the positions from a reached `pc` on are `pc` and
then those from the next instruction on: the walk steps over the immediate at `pc`, also
when that immediate runs past the end. -/
theorem filter_range'_of_boundary (hf : ∀ p < code.length, f p = true ↔ Boundary w code p)
    {pc : Nat} {a : α} (hpc : Boundary w code pc) (ha : code[pc]? = some a) :
    (List.range' pc (code.length - pc)).filter f =
      pc :: (List.range' (pc + 1 + w a) (code.length - (pc + 1 + w a))).filter f := by
  have hlt : pc < code.length := (List.getElem?_eq_some_iff.mp ha).1
  have hhead : f pc = true := (hf pc hlt).mpr hpc
  by_cases hfit : pc + 1 + w a ≤ code.length
  · -- the immediate, then the rest of the code
    have hsplit : List.range' pc (code.length - pc) = pc :: (List.range' (pc + 1) (w a) ++
        List.range' (pc + 1 + w a) (code.length - (pc + 1 + w a))) := by
      rw [List.range'_append_1, ← List.range'_succ]
      congr 1
      omega
    rw [hsplit, List.filter_cons_of_pos hhead, List.filter_append,
      filter_range'_inside hf hpc ha (Nat.le_refl _) (by omega), List.nil_append]
  · -- the immediate runs past the end: nothing after `pc` is reached
    have hsplit : List.range' pc (code.length - pc) =
        pc :: List.range' (pc + 1) (code.length - pc - 1) := by
      rw [← List.range'_succ]
      congr 1
      omega
    rw [hsplit, List.filter_cons_of_pos hhead, filter_range'_inside hf hpc ha (by omega) (by omega),
      Nat.sub_eq_zero_of_le (by omega), List.range'_zero, List.filter_nil]

end Listing

end Walk
