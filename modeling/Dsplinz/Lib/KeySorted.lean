import Mathlib

/-!
# Lists strictly increasing in a key

A list of records whose keys are distinct has one order in which the keys increase
strictly, and every sort by key yields it. This file collects what such a list allows:

* `KeySorted.Increasing.eq_of_perm` – two increasing arrangements of the same records are
  equal, so an increasing list is determined by its records;
* `KeySorted.increasing_mergeSort` – sorting records of distinct keys makes them increasing;
* `KeySorted.Increasing.takeWhile_eq_filter`, `KeySorted.Increasing.dropWhile_eq_filter` –
  in an increasing list, the records of a property closed downwards in the key form a
  prefix;
* `KeySorted.Increasing.head?_eq_of_le` – the record of the least key comes first;
* `KeySorted.Increasing.lt_of_mem_take_of_mem_drop` – the records after a cut have the
  higher keys.
-/

namespace KeySorted

variable {α β : Type*} [LinearOrder β]

/-- `l` is strictly increasing in `key`. -/
def Increasing (key : α → β) (l : List α) : Prop :=
  l.Pairwise fun a b => key a < key b

variable {key : α → β} {l l₁ l₂ : List α}

theorem increasing_nil : Increasing key ([] : List α) := List.Pairwise.nil

theorem increasing_cons {a : α} :
    Increasing key (a :: l) ↔ (∀ b ∈ l, key a < key b) ∧ Increasing key l :=
  List.pairwise_cons

theorem Increasing.sublist (h : Increasing key l₂) (hs : l₁.Sublist l₂) : Increasing key l₁ :=
  List.Pairwise.sublist hs h

theorem Increasing.filter (h : Increasing key l) (p : α → Bool) : Increasing key (l.filter p) :=
  List.Pairwise.filter p h

/-- The keys of an increasing list are distinct. -/
theorem Increasing.nodup_map (h : Increasing key l) : (l.map key).Nodup := by
  rw [List.Nodup, List.pairwise_map]
  exact h.imp fun hab => ne_of_lt hab

/-- **An increasing list is determined by its records.** -/
theorem Increasing.eq_of_perm (h₁ : Increasing key l₁) (h₂ : Increasing key l₂)
    (hp : l₁.Perm l₂) : l₁ = l₂ :=
  hp.eq_of_pairwise (fun _ _ _ _ hab hba => absurd (lt_trans hab hba) (lt_irrefl _)) h₁ h₂

/-- **Sorting records of distinct keys by key makes them increasing.** -/
theorem increasing_mergeSort (hnd : (l.map key).Nodup) :
    Increasing key (l.mergeSort fun a b => decide (key a ≤ key b)) := by
  have hle : (l.mergeSort fun a b => decide (key a ≤ key b)).Pairwise
      fun a b => decide (key a ≤ key b) = true :=
    List.pairwise_mergeSort
      (by intro a b c hab hbc; simp only [decide_eq_true_eq] at *; exact le_trans hab hbc)
      (by intro a b; simp only [Bool.or_eq_true, decide_eq_true_eq]; exact le_total _ _) l
  have hne : (l.mergeSort fun a b => decide (key a ≤ key b)).Pairwise fun a b => key a ≠ key b := by
    rw [← List.pairwise_map (R := (· ≠ ·))]
    exact ((List.mergeSort_perm _ _).map key).nodup_iff.mpr hnd
  exact (hle.and hne).imp fun ⟨hab, hne⟩ => lt_of_le_of_ne (by simpa using hab) hne

section Prefix

variable {p : α → Bool}

/-- **The records of a property closed downwards in the key are a prefix** of an increasing
list: `takeWhile` finds them all. -/
theorem Increasing.takeWhile_eq_filter (h : Increasing key l)
    (hp : ∀ a b, key a < key b → p b = true → p a = true) : l.takeWhile p = l.filter p := by
  induction l with
  | nil => rfl
  | cons a l ih =>
    obtain ⟨hlt, hl⟩ := increasing_cons.mp h
    by_cases ha : p a = true
    · rw [List.takeWhile_cons_of_pos ha, List.filter_cons_of_pos ha, ih hl]
    · -- nothing after `a` has the property either
      rw [List.takeWhile_cons_of_neg ha, List.filter_cons_of_neg ha, eq_comm, List.filter_eq_nil_iff]
      exact fun b hb hpb => ha (hp a b (hlt b hb) hpb)

/-- What `dropWhile` leaves of an increasing list is the rest of the records. -/
theorem Increasing.dropWhile_eq_filter (h : Increasing key l)
    (hp : ∀ a b, key a < key b → p b = true → p a = true) :
    l.dropWhile p = l.filter fun a => !p a := by
  induction l with
  | nil => rfl
  | cons a l ih =>
    obtain ⟨hlt, hl⟩ := increasing_cons.mp h
    by_cases ha : p a = true
    · rw [List.dropWhile_cons_of_pos ha, List.filter_cons_of_neg (by simp [ha]), ih hl]
    · -- from `a` on, nothing has the property
      rw [List.dropWhile_cons_of_neg ha, eq_comm, List.filter_eq_self]
      intro b hb
      rcases List.mem_cons.mp hb with rfl | hb
      · simpa using ha
      · simpa using fun hpb => ha (hp a b (hlt b hb) hpb)

end Prefix

/-- The record of the least key of an increasing list is its head. -/
theorem Increasing.head?_eq_of_le (h : Increasing key l) {a : α} (ha : a ∈ l)
    (hmin : ∀ b ∈ l, key a ≤ key b) : l.head? = some a := by
  cases l with
  | nil => cases ha
  | cons c l =>
    obtain ⟨hlt, -⟩ := increasing_cons.mp h
    rcases List.mem_cons.mp ha with rfl | ha'
    · rfl
    · exact absurd (hmin c List.mem_cons_self) (not_le.mpr (hlt a ha'))

/-- The records after a cut of an increasing list have the higher keys. -/
theorem Increasing.lt_of_mem_take_of_mem_drop (h : Increasing key l) {k : Nat} {a b : α}
    (ha : a ∈ l.take k) (hb : b ∈ l.drop k) : key a < key b := by
  rw [← List.take_append_drop k l] at h
  exact (List.pairwise_append.mp h).2.2 a ha b hb

end KeySorted

