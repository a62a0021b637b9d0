import Mathlib

/-!
# An interval cut at the sections it meets

Numbers grouped in sections of `size`: section `t` holds `t * size` to `t * size + size - 1`.
A process that walks an interval `[a, b]` section by section (fetch what a section holds,
then look at its numbers that lie in the interval) sees `Sections.part size a b t` of each
section from `a / size` to `b / size`, and together these are the interval, in order
(`Sections.range'_eq_flatMap_part`). A walk that skips a stretch of numbers it knows the
filter rejects sees the same filtered interval (`Sections.filter_range'_skip`), and a walk
that drops the sections with nothing to emit emits what a walk over all of them would
(`Sections.flatten_mapM_filterMap`).
-/

namespace Sections

variable {size a b : Nat}

/-- The numbers of section `t`, the `size` numbers from `t * size`, that lie in `[a, b]`. -/
def part (size a b t : Nat) : List Nat :=
  let lo := max (t * size) a
  List.range' lo (min (t * size + size - 1) b + 1 - lo)

/-- The numbers of `[a, b]` from section `t` on. -/
def fromSection (size a b t : Nat) : List Nat :=
  List.range' (max (t * size) a) (b + 1 - max (t * size) a)

theorem fromSection_eq_part_append (hsize : 0 < size) (t : Nat) :
    fromSection size a b t = part size a b t ++ fromSection size a b (t + 1) := by
  unfold fromSection part
  dsimp only
  have hnext : (t + 1) * size = t * size + size := Nat.succ_mul t size
  rw [hnext]
  generalize t * size = x
  by_cases hend : x + size ≤ b + 1
  · by_cases ha : a ≤ x + size
    · -- the section ends inside the interval, where the next one starts
      rw [show max (x + size) a = x + size by omega, show min (x + size - 1) b + 1 = x + size by omega]
      have hsplit : List.range' (max x a) (x + size - max x a) ++
          List.range' (max x a + (x + size - max x a)) (b + 1 - (x + size)) =
          List.range' (max x a) (x + size - max x a + (b + 1 - (x + size))) :=
        List.range'_append_1
      rw [show max x a + (x + size - max x a) = x + size by omega,
        show x + size - max x a + (b + 1 - (x + size)) = b + 1 - max x a by omega] at hsplit
      exact hsplit.symm
    · -- the interval starts past the section
      rw [show max (x + size) a = a by omega, show max x a = a by omega,
        show min (x + size - 1) b + 1 - a = 0 by omega, List.range'_zero, List.nil_append]
  · -- the interval ends inside the section
    rw [show min (x + size - 1) b = b by omega, show b + 1 - max (x + size) a = 0 by omega,
      List.range'_zero, List.append_nil]

theorem fromSection_eq_flatMap (hsize : 0 < size) :
    ∀ (c t : Nat), b < (t + c) * size → fromSection size a b t = (List.range' t c).flatMap (part size a b)
  | 0, t, hpast => by
    -- section `t` starts past the interval
    rw [fromSection, show b + 1 - max (t * size) a = 0 by rw [Nat.add_zero] at hpast; omega]
    rfl
  | c + 1, t, hpast => by
    rw [fromSection_eq_part_append hsize t, fromSection_eq_flatMap hsize c (t + 1) (by rwa [Nat.add_right_comm]),
      List.range'_succ, List.flatMap_cons]

theorem mem_part (hsize : 0 < size) {k t : Nat} :
    k ∈ part size a b t ↔ t * size ≤ k ∧ k < t * size + size ∧ a ≤ k ∧ k ≤ b := by
  unfold part
  dsimp only
  rw [List.mem_range'_1]
  omega

theorem part_eq_nil_of_lt (hba : b < a) (t : Nat) : part size a b t = [] := by
  unfold part
  dsimp only
  rw [show min (t * size + size - 1) b + 1 - max (t * size) a = 0 by omega, List.range'_zero]

/-- **An interval is its parts in the sections it meets**, from section `a / size` to section
`b / size`, in order. -/
theorem range'_eq_flatMap_part (hsize : 0 < size) :
    List.range' a (b + 1 - a) =
      (List.range' (a / size) (b / size + 1 - a / size)).flatMap (part size a b) := by
  rcases Nat.lt_or_ge b a with hba | hab
  · -- an empty interval, and so is each of its parts
    rw [show b + 1 - a = 0 by omega, List.range'_zero, eq_comm, List.flatMap_eq_nil_iff]
    exact fun t _ => part_eq_nil_of_lt hba t
  have hfrom : fromSection size a b (a / size) = List.range' a (b + 1 - a) := by
    rw [fromSection, max_eq_right (Nat.div_mul_le_self a size)]
  rw [← hfrom]
  apply fromSection_eq_flatMap hsize
  -- the last section ends past `b`
  have hdiv : a / size ≤ b / size := Nat.div_le_div_right hab
  rw [show a / size + (b / size + 1 - a / size) = b / size + 1 by omega, Nat.mul_comm]
  exact Nat.lt_mul_div_succ b hsize

theorem range'_eq_cons {i n : Nat} (h : i ≤ n) :
    List.range' i (n + 1 - i) = i :: List.range' (i + 1) (n + 1 - (i + 1)) := by
  rw [show n + 1 - i = n + 1 - (i + 1) + 1 by omega, List.range'_succ]

/-- Numbers a filter rejects can be skipped at the start of a range. -/
theorem filter_range'_skip {p : Nat → Bool} {i j n : Nat} (hij : i ≤ j)
    (hskip : ∀ k, i ≤ k → k < j → p k = false) :
    (List.range' i (n + 1 - i)).filter p = (List.range' j (n + 1 - j)).filter p := by
  by_cases hj : j ≤ n + 1
  · have hsplit : List.range' i (j - i) ++ List.range' (i + (j - i)) (n + 1 - j) =
        List.range' i (j - i + (n + 1 - j)) := List.range'_append_1
    rw [show i + (j - i) = j by omega, show j - i + (n + 1 - j) = n + 1 - i by omega] at hsplit
    rw [← hsplit, List.filter_append, List.filter_eq_nil_iff.mpr, List.nil_append]
    intro k hk
    rw [List.mem_range'_1] at hk
    simp [hskip k hk.1 (by omega)]
  · rw [show n + 1 - j = 0 by omega, List.range'_zero, List.filter_nil, List.filter_eq_nil_iff]
    intro k hk
    rw [List.mem_range'_1] at hk
    simp [hskip k hk.1 (by omega)]

/-- **A walk over the sections that drops some and emits a list for each one it keeps** emits,
in all, the lists of all the sections, a dropped one counting as empty. -/
theorem flatten_mapM_filterMap {α β γ : Type} {f : α → Option β} {g : β → Option (List γ)}
    {h : α → List γ} :
    ∀ (l : List α), (∀ x ∈ l, (f x = none ∧ h x = []) ∨ ∃ y, f x = some y ∧ g y = some (h x)) →
      List.flatten <$> (l.filterMap f).mapM g = some (l.flatMap h)
  | [], _ => rfl
  | x :: l, hl => by
    have ih := flatten_mapM_filterMap l fun x' hx' => hl x' (List.mem_cons_of_mem _ hx')
    rcases hl x List.mem_cons_self with ⟨hf, hh⟩ | ⟨y, hf, hg⟩
    · rw [List.filterMap_cons_none hf, List.flatMap_cons, hh, List.nil_append]
      exact ih
    · -- the kept section's list comes first
      obtain ⟨ys, hys, hflat⟩ := Option.map_eq_some_iff.mp ih
      rw [List.filterMap_cons_some hf, List.mapM_cons, hg, hys, List.flatMap_cons, ← hflat]
      rfl

end Sections
