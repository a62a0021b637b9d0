import Mathlib

/-!
# Undo logs

A journal records, for every change made to a state, an entry whose undoing takes the
change back. A snapshot is a position in the journal; reverting to it undoes the entries
after it, the last first, and forgets them. This file gives the general facts such a design
rests on.

* `UndoLog.undoAll` – undoing a list of entries, the last first (an undo step may fail);
* `UndoLog.Restores rev view es s v` – undoing `es` from `s` succeeds, in a state of view
  `v`; `UndoLog.restores_append` composes two batches of changes;
* `UndoLog.Marks` – the invariant of a stack of snapshots: undoing the entries after each
  position restores the view the state had when the snapshot was taken. It survives new
  snapshots (`Marks.snapshot`), new changes (`Marks.append`) and reverting to one of the
  snapshots (`Marks.revert`), which restores that snapshot's view.

An undo step is only asked to act on views: two states of one view undo to states of one
view (`UndoLog.Congruent`). What the view leaves out (caches, bookkeeping, the journal
itself) may differ freely.
-/

namespace UndoLog

variable {σ E V : Type} (rev : E → σ → Option σ) (view : σ → V)

/-- Undoing the entries `es`, the last first. -/
def undoAll (es : List E) (s : σ) : Option σ :=
  es.foldr (fun e acc => acc.bind (rev e)) (some s)

/-- Undoing `es` from `s` succeeds, in a state of view `v`. -/
def Restores (es : List E) (s : σ) (v : V) : Prop :=
  ∃ s', undoAll rev es s = some s' ∧ view s' = v

/-- Undoing acts on views: from two states of one view, an undo step fails on both or
gives states of one view. -/
def Congruent : Prop :=
  ∀ e s₁ s₂, view s₁ = view s₂ → (rev e s₁).map view = (rev e s₂).map view

/-- The snapshots `marks`, each a position in the journal `es` and the view the state had
when it was taken: the positions rise along the stack and stay within the journal, and
undoing the entries after a position restores its view. -/
structure Marks (es : List E) (s : σ) (marks : List (Nat × V)) : Prop where
  sorted : marks.Pairwise fun a b => a.1 ≤ b.1
  le_length : ∀ m ∈ marks, m.1 ≤ es.length
  restores : ∀ m ∈ marks, Restores rev view (es.drop m.1) s m.2

variable {rev view}

/-! ### Undoing -/

@[simp] theorem undoAll_nil (s : σ) : undoAll rev [] s = some s := rfl

@[simp] theorem undoAll_cons (e : E) (es : List E) (s : σ) :
    undoAll rev (e :: es) s = (undoAll rev es s).bind (rev e) := rfl

/-- Undoing from the result of an undoing that may have failed. -/
theorem foldr_bind (es : List E) (x : Option σ) :
    es.foldr (fun e acc => acc.bind (rev e)) x = x.bind (undoAll rev es) := by
  induction es with
  | nil => cases x <;> rfl
  | cons e es ih =>
    simp only [List.foldr_cons, ih, Option.bind_assoc]
    rfl

/-- Undoing two batches: the later one first. -/
theorem undoAll_append (l₁ l₂ : List E) (s : σ) :
    undoAll rev (l₁ ++ l₂) s = (undoAll rev l₂ s).bind (undoAll rev l₁) := by
  rw [undoAll, List.foldr_append, foldr_bind]
  rfl

theorem undoAll_congr (hc : Congruent rev view) (es : List E) {s₁ s₂ : σ}
    (h : view s₁ = view s₂) : (undoAll rev es s₁).map view = (undoAll rev es s₂).map view := by
  induction es with
  | nil => simp [h]
  | cons e es ih =>
    simp only [undoAll_cons]
    -- the undoings of `es` fail together or end in states of one view
    rcases h₁ : undoAll rev es s₁ with _ | t₁ <;> rcases h₂ : undoAll rev es s₂ with _ | t₂ <;>
      rw [h₁, h₂] at ih
    · simp at ih
    · simp at ih
    · rw [Option.map_some, Option.map_some, Option.some.injEq] at ih
      rw [Option.bind_some, Option.bind_some]
      exact hc e t₁ t₂ ih

/-! ### Restoring a view -/

theorem restores_nil (s : σ) : Restores rev view [] s (view s) := ⟨s, rfl, rfl⟩

theorem restores_congr (hc : Congruent rev view) {es : List E} {s₁ s₂ : σ} {v : V}
    (h : view s₁ = view s₂) (h₁ : Restores rev view es s₁ v) : Restores rev view es s₂ v := by
  obtain ⟨t₁, ht₁, hv⟩ := h₁
  have hmap := undoAll_congr hc es h
  rw [ht₁] at hmap
  rcases h₂ : undoAll rev es s₂ with _ | t₂
  · rw [h₂] at hmap
    cases hmap
  · rw [h₂, Option.map_some, Option.map_some, Option.some.injEq] at hmap
    exact ⟨t₂, h₂, hmap ▸ hv⟩

/-- Two batches of changes, `l₁` from `t` and then `l₂`: undoing `l₂` restores the view of
`t`, from which undoing `l₁` restores `v`. -/
theorem restores_append (hc : Congruent rev view) {l₁ l₂ : List E} {s t : σ} {v : V}
    (h₂ : Restores rev view l₂ s (view t)) (h₁ : Restores rev view l₁ t v) :
    Restores rev view (l₁ ++ l₂) s v := by
  obtain ⟨t', ht', hv⟩ := h₂
  obtain ⟨u, hu, huv⟩ := restores_congr hc hv.symm h₁
  exact ⟨u, by rw [undoAll_append, ht', Option.bind_some, hu], huv⟩

theorem restores_singleton {e : E} {s s' : σ} (h : rev e s = some s') :
    Restores rev view [e] s (view s') :=
  ⟨s', by rw [undoAll_cons, undoAll_nil, Option.bind_some, h], rfl⟩

/-! ### Snapshots -/

namespace Marks

variable {es : List E} {s : σ} {marks : List (Nat × V)}

theorem nil (es : List E) (s : σ) : Marks rev view es s [] :=
  ⟨List.Pairwise.nil, fun _ h => absurd h List.not_mem_nil, fun _ h => absurd h List.not_mem_nil⟩

/-- The snapshots see the state through its view only. -/
theorem congr (hc : Congruent rev view) (h : Marks rev view es s marks) {s' : σ}
    (hs : view s = view s') : Marks rev view es s' marks :=
  ⟨h.sorted, h.le_length, fun m hm => restores_congr hc hs (h.restores m hm)⟩

/-- A snapshot marks the end of the journal and the current view. -/
theorem snapshot (h : Marks rev view es s marks) :
    Marks rev view es s (marks ++ [(es.length, view s)]) := by
  refine ⟨?_, ?_, ?_⟩
  · refine List.pairwise_append.mpr ⟨h.sorted, List.pairwise_singleton _ _, ?_⟩
    intro a ha b hb
    rw [List.mem_singleton.mp hb]
    exact h.le_length a ha
  · intro m hm
    rcases List.mem_append.mp hm with hm | hm
    · exact h.le_length m hm
    · obtain rfl := List.mem_singleton.mp hm
      exact Nat.le_refl _
  · intro m hm
    rcases List.mem_append.mp hm with hm | hm
    · exact h.restores m hm
    · rw [List.mem_singleton.mp hm, List.drop_length]
      exact restores_nil s

/-- A change from `s` to `s'` that appends the entries `new`, whose undoing restores the
view of `s`, keeps every snapshot. -/
theorem append (hc : Congruent rev view) (h : Marks rev view es s marks) {new : List E}
    {s' : σ} (hnew : Restores rev view new s' (view s)) :
    Marks rev view (es ++ new) s' marks := by
  refine ⟨h.sorted, fun m hm => ?_, fun m hm => ?_⟩
  · have := h.le_length m hm
    rw [List.length_append]
    omega
  · rw [List.drop_append_of_le_length (h.le_length m hm)]
    exact restores_append hc hnew (h.restores m hm)

/-- Reverting to the snapshot at index `k` of the stack: undoing the entries after its
position gives a state `s'` of its view; the snapshots below it remain, over the journal
cut at that position, in any state `t` of the same view as `s'`. -/
theorem revert (hc : Congruent rev view) (h : Marks rev view es s marks) {k : Nat}
    (hk : k < marks.length) {s' t : σ}
    (hs' : undoAll rev (es.drop (marks[k].1)) s = some s') (ht : view t = view s') :
    view t = marks[k].2 ∧ Marks rev view (es.take marks[k].1) t (marks.take k) := by
  have hmem : marks[k] ∈ marks := List.getElem_mem hk
  obtain ⟨s'', hs'', hv⟩ := h.restores _ hmem
  rw [hs', Option.some.injEq] at hs''
  subst hs''
  refine ⟨ht.trans hv, (h.sorted.sublist (List.take_sublist k marks)), ?_, ?_⟩
  · intro m hm
    obtain ⟨i, hi, rfl⟩ := List.getElem_of_mem hm
    have hik : i < k := by simp at hi; omega
    have hle : marks[i].1 ≤ marks[k].1 := by
      have := List.pairwise_iff_getElem.mp h.sorted i k (by omega) hk hik
      simpa using this
    simp only [List.getElem_take, List.length_take]
    have := h.le_length _ hmem
    omega
  · intro m hm
    obtain ⟨i, hi, rfl⟩ := List.getElem_of_mem hm
    have hik : i < k := by simp at hi; omega
    simp only [List.getElem_take]
    have hle : marks[i].1 ≤ marks[k].1 :=
      List.pairwise_iff_getElem.mp h.sorted i k (by omega) hk hik
    have hlen := h.le_length _ hmem
    -- the entries after the lower position: those up to the reverted one, then the rest
    have hsplit : es.drop marks[i].1 =
        (es.take marks[k].1).drop marks[i].1 ++ es.drop marks[k].1 := by
      conv_lhs => rw [← List.take_append_drop marks[k].1 es]
      rw [List.drop_append_of_le_length (by simp; omega)]
    obtain ⟨u, hu, huv⟩ := h.restores marks[i] (List.getElem_mem (by omega))
    rw [hsplit, undoAll_append, hs', Option.bind_some] at hu
    exact restores_congr hc ht.symm ⟨u, hu, huv⟩

end Marks

end UndoLog
