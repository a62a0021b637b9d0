import Mathlib

/-!
# Go maps as association lists: sums over the values

A Go `map[K]V` is an `AList` here, its entries in the order a `range` over it visits them.
Code that keeps a counter by hand beside a map is checked against a sum over the map's
values, `AList.sumValues c m`; `AList.valueAt c m a` is what the key `a` adds to it. The laws
are those of the map's writes:

* `AList.sumValues_insert` – `m[a] = b` puts `c b` in place of what `a` held;
* `AList.sumValues_erase` – `delete(m, a)` takes away what `a` held, nothing if it held
  nothing.
-/

namespace AList

variable {α β : Type} [DecidableEq α]

/-- The sum of `c` over the values of `m`. -/
def sumValues (c : β → Nat) (m : AList fun _ : α => β) : Nat :=
  (m.entries.map fun e => c e.2).sum

/-- What the key `a` adds to `sumValues c m`: `c` of its value, `0` without one. -/
def valueAt (c : β → Nat) (m : AList fun _ : α => β) (a : α) : Nat :=
  ((m.lookup a).map c).getD 0

variable {c : β → Nat} {m : AList fun _ : α => β}

omit [DecidableEq α] in
@[simp] theorem sumValues_empty : sumValues c (∅ : AList fun _ : α => β) = 0 := rfl

@[simp] theorem valueAt_of_lookup {a : α} {b : β} (h : m.lookup a = some b) :
    valueAt c m a = c b := by
  rw [valueAt, h]
  rfl

@[simp] theorem valueAt_of_lookup_none {a : α} (h : m.lookup a = none) : valueAt c m a = 0 := by
  rw [valueAt, h]
  rfl

/-- Erasing a key takes away what it held. -/
theorem sumValues_erase (a : α) : sumValues c (m.erase a) + valueAt c m a = sumValues c m := by
  rcases hl : m.lookup a with _ | b
  · -- no entry: erasing leaves the entries
    have hk : a ∉ m.entries.keys := AList.mem_keys.not.mp (AList.lookup_eq_none.mp hl)
    rw [valueAt_of_lookup_none hl, Nat.add_zero]
    change ((m.entries.kerase a).map fun e => c e.2).sum = _
    rw [List.kerase_of_notMem_keys hk]
    rfl
  · have hk : a ∈ m.entries.keys := AList.mem_keys.mp (AList.lookup_isSome.mp (by rw [hl]; rfl))
    obtain ⟨b', l₁, l₂, -, heq, hker⟩ := List.exists_of_kerase hk
    -- the entry of `a` holds `b`
    have hb : b' = b := by
      have hmem : (⟨a, b'⟩ : Σ _ : α, β) ∈ m.entries := by
        rw [heq]
        exact List.mem_append_right l₁ List.mem_cons_self
      rw [← AList.mem_lookup_iff, hl, Option.mem_def, Option.some.injEq] at hmem
      exact hmem.symm
    subst hb
    rw [valueAt_of_lookup hl]
    change ((m.entries.kerase a).map fun e => c e.2).sum + c b' = (m.entries.map fun e => c e.2).sum
    rw [hker, heq, List.map_append, List.map_append, List.map_cons, List.sum_append,
      List.sum_append, List.sum_cons]
    dsimp only
    omega

/-- Writing a key puts its new value in place of what it held. -/
theorem sumValues_insert (a : α) (b : β) :
    sumValues c (m.insert a b) = c b + sumValues c (m.erase a) := by
  change ((⟨a, b⟩ :: m.entries.kerase a).map fun e => c e.2).sum = _
  rw [List.map_cons, List.sum_cons]
  rfl

/-- Writing a key that held nothing adds its value. -/
theorem sumValues_insert_of_lookup_none {a : α} (h : m.lookup a = none) (b : β) :
    sumValues c (m.insert a b) = c b + sumValues c m := by
  have herase := sumValues_erase (c := c) (m := m) a
  rw [valueAt_of_lookup_none h, Nat.add_zero] at herase
  rw [sumValues_insert, herase]

end AList
