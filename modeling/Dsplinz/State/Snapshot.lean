import Dsplinz.Lib.GoSort
import Dsplinz.State.Journal

/-!
# Snapshots restore the state

`RevertToSnapshot(id)` finds by binary search the revision `Snapshot()` recorded for `id`,
undoes the journal down to its position, and drops the later entries and revisions. This
file proves that this gives back what every getter returned when `Snapshot()` returned
`id`, for every run of the journaled operations and of nested snapshots and reverts; that
the snapshots taken before `id` stay good; and that those taken after it are invalid.

A run keeps a stack of snapshots (`State.Op.track`), each with its id and the state
`Snapshot()` returned. The invariant `State.Tracks` says that they are the last valid
revisions and that undoing the journal after each one's position restores the view of its
state (`UndoLog.Marks`). Every journaled operation keeps it, since its entries undo it
(`State.Tracks.journaled`); so do `Snapshot()` (`State.Tracks.snapshot`) and
`RevertToSnapshot` (`State.Tracks.revert`, `State.Tracks.revert_any`), which rest on the
search finding the revision of a kept id (`GoSort.search_key_eq`) and on undoing keeping a
well-formed state (`State.StateDB.revertEntries_spec`).

* `State.snapshot_revert_restores` – from a well-formed state whose revisions are as the
  code keeps them (as every state `New` builds), the snapshots a run keeps satisfy
  `State.Restorable`.

Well-formedness asks, among others, that a deleted live object have no account in the trie.
The journaled operations keep it, but `Commit` does not (`Dsplinz.State.Commit`).
-/

namespace State

open Common UndoLog

section Keccak

variable {keccak256 : List UInt8 → Hash}

namespace StateDB

variable {s : StateDB}

/-! ### Undoing the journal -/

theorem toOption_revertEntries (es : List JournalEntry) (s : StateDB) :
    (revertEntries es s).toOption = undoAll rev es s := by
  induction es with
  | nil => rfl
  | cons e es ih =>
    rw [revertEntries, undoAll_cons, ← ih]
    cases revertEntries es s <;> rfl

theorem withObject_ok {a : Address} {m : StateObject → StateObject} {t : StateDB}
    (hr : s.withObject a m = .ok t) :
    ∃ o, (s.getStateObject a).1 = some o ∧ t = (s.getStateObject a).2.setStateObject (m o) := by
  unfold withObject at hr
  rcases hg : s.getStateObject a with ⟨_ | o, s₁⟩ <;> rw [hg] at hr
  · cases hr
  · cases hr
    exact ⟨o, rfl, rfl⟩

end StateDB

/-- What undoing entries keeps: a well-formed state, the journal's entries and the
revisions. -/
structure Reverted (s t : StateDB) : Prop where
  wellFormed : WellFormed t
  entries : t.journal.entries = s.journal.entries
  validRevisions : t.validRevisions = s.validRevisions
  nextRevisionId : t.nextRevisionId = s.nextRevisionId

theorem Reverted.refl {s : StateDB} (h : WellFormed s) : Reverted s s := ⟨h, rfl, rfl, rfl⟩

theorem Reverted.trans {s t u : StateDB} (h₁ : Reverted s t) (h₂ : Reverted t u) : Reverted s u :=
  ⟨h₂.wellFormed, h₂.entries.trans h₁.entries, h₂.validRevisions.trans h₁.validRevisions,
    h₂.nextRevisionId.trans h₁.nextRevisionId⟩

namespace StateDB

variable {s : StateDB}

/-- Loading an account, seen as a step of undoing. -/
theorem reverted_getStateObject (h : WellFormed s) (a : Address) :
    Reverted s (s.getStateObject a).2 :=
  ⟨h.getStateObject a, by rw [journal_getStateObject], validRevisions_getStateObject s a,
    nextRevisionId_getStateObject s a⟩

/-- Changing the object of `a` by a method that keeps its deletion flag. -/
theorem reverted_withObject (h : WellFormed s) {a : Address} {m : StateObject → StateObject}
    {t : StateDB} (hr : s.withObject a m = .ok t) (hm : ∀ o, (m o).deleted = o.deleted) :
    Reverted s t := by
  obtain ⟨o, ho, rfl⟩ := withObject_ok hr
  have hl := reverted_getStateObject h a
  have hd : (m o).deleted = false := by rw [hm, deleted_of_getStateObject ho]
  exact ⟨hl.wellFormed.setStateObject hd, hl.entries, hl.validRevisions, hl.nextRevisionId⟩

/-- **Undoing an entry keeps a well-formed state**, when the object the entry would put
back is not deleted. -/
theorem revertEntry_spec (h : WellFormed s) {e : JournalEntry}
    (he : ∀ prev, e = .resetObjectChange prev → prev.deleted = false) {t : StateDB}
    (hr : s.revertEntry e = .ok t) : Reverted s t := by
  -- the entries that only touch the counters
  have hcounters : ∀ t : StateDB, t.stateObjects = s.stateObjects → t.trie = s.trie →
      t.journal = s.journal → t.validRevisions = s.validRevisions →
      t.nextRevisionId = s.nextRevisionId → Reverted s t := by
    intro t hobj htrie hj hvr hnr
    refine ⟨⟨?_, ?_, ?_⟩, by rw [hj], hvr, hnr⟩
    · rw [hobj]
      exact h.address
    · rw [hobj, htrie]
      exact h.deleted
    · rw [hj]
      exact h.entries
  cases e with
  | createObjectChange a =>
    -- the live object of `a` is dropped
    cases hr
    refine ⟨⟨fun b o hb => ?_, fun b o hb => ?_, h.entries⟩, rfl, rfl, rfl⟩
    · by_cases hba : b = a
      · subst hba
        simp at hb
      · simp only [Function.update_of_ne hba] at hb
        exact h.address b o hb
    · by_cases hba : b = a
      · subst hba
        simp at hb
      · simp only [Function.update_of_ne hba] at hb
        exact h.deleted b o hb
  | resetObjectChange prev =>
    cases hr
    exact ⟨h.setStateObject (he prev rfl), rfl, rfl, rfl⟩
  | suicideChange a prev prevbalance =>
    have hl := reverted_getStateObject h a
    simp only [revertEntry] at hr
    rcases hg : s.getStateObject a with ⟨_ | o, s₁⟩ <;> rw [hg] at hr hl <;> cases hr
    · exact hl
    · have hd : o.deleted = false := deleted_of_getStateObject (s := s) (by rw [hg])
      exact ⟨hl.wellFormed.setStateObject hd, hl.entries, hl.validRevisions, hl.nextRevisionId⟩
  | touchChange => cases hr; exact Reverted.refl h
  | balanceChange => exact reverted_withObject h hr fun _ => rfl
  | nonceChange => exact reverted_withObject h hr fun _ => rfl
  | codeChange => exact reverted_withObject h hr fun _ => rfl
  | storageChange => exact reverted_withObject h hr fun _ => rfl
  | refundChange => cases hr; exact hcounters _ rfl rfl rfl rfl rfl
  | addLogChange txhash =>
    simp only [revertEntry] at hr
    split_ifs at hr <;> cases hr <;> exact hcounters _ rfl rfl rfl rfl rfl
  | addPreimageChange => cases hr; exact hcounters _ rfl rfl rfl rfl rfl

theorem revertOne_spec (h : WellFormed s) {e : JournalEntry}
    (he : ∀ prev, e = .resetObjectChange prev → prev.deleted = false) {t : StateDB}
    (hr : revertOne e s = .ok t) : Reverted s t := by
  unfold revertOne at hr
  rcases he' : s.revertEntry e with p | s₁ <;> rw [he'] at hr
  · cases hr
  · have h₁ := revertEntry_spec h he he'
    -- then only the journal's dirty counters change
    simp only [bind, Except.bind, pure, Except.pure, Except.ok.injEq] at hr
    subst hr
    split
    · exact ⟨⟨h₁.wellFormed.address, h₁.wellFormed.deleted, h₁.wellFormed.entries⟩, h₁.entries,
        h₁.validRevisions, h₁.nextRevisionId⟩
    · exact h₁

/-- **Undoing entries keeps a well-formed state**, when the objects they would put back are
not deleted. -/
theorem revertEntries_spec {es : List JournalEntry} (h : WellFormed s)
    (hes : ∀ prev, JournalEntry.resetObjectChange prev ∈ es → prev.deleted = false) {t : StateDB}
    (hr : revertEntries es s = .ok t) : Reverted s t := by
  induction es generalizing t with
  | nil =>
    cases hr
    exact Reverted.refl h
  | cons e es ih =>
    rw [revertEntries] at hr
    rcases h₁ : revertEntries es s with p | s₁ <;> rw [h₁] at hr
    · cases hr
    · have r₁ := ih (fun prev hp => hes prev (List.mem_cons_of_mem e hp)) h₁
      have he : ∀ prev, e = .resetObjectChange prev → prev.deleted = false := fun prev hp =>
        hes prev (hp ▸ List.mem_cons_self)
      exact r₁.trans (revertOne_spec r₁.wellFormed he hr)

/-! ### Revisions -/

/-- `RevertToSnapshot` of an id found by the search, at a revision of that id. -/
theorem revertToSnapshot_found {revid : Int} {r : Revision}
    (hget : s.validRevisions[GoSort.search s.validRevisions.length fun i =>
        decide (revid ≤ (s.validRevisions.getD i ⟨0, 0⟩).id)]? = some r) (hid : r.id = revid) :
    s.revertToSnapshot revid =
      (revertEntries (s.journal.entries.drop r.journalIndex) s).map fun s' =>
        { s' with
          journal := { s'.journal with entries := s'.journal.entries.take r.journalIndex }
          validRevisions := s'.validRevisions.take (GoSort.search s.validRevisions.length fun i =>
            decide (revid ≤ (s.validRevisions.getD i ⟨0, 0⟩).id)) } := by
  simp only [revertToSnapshot, hget, hid, ne_eq, not_true_eq_false, if_false, revertJournal]
  cases revertEntries (s.journal.entries.drop r.journalIndex) s <;> rfl

/-- A successful `RevertToSnapshot` found a revision of the id. -/
theorem revertToSnapshot_ok {revid : Int} {t : StateDB} (hr : s.revertToSnapshot revid = .ok t) :
    ∃ r, s.validRevisions[GoSort.search s.validRevisions.length fun i =>
      decide (revid ≤ (s.validRevisions.getD i ⟨0, 0⟩).id)]? = some r ∧ r.id = revid := by
  unfold revertToSnapshot at hr
  dsimp only at hr
  split at hr
  · cases hr
  · rename_i r hget
    by_cases hid : r.id = revid
    · exact ⟨r, hget, hid⟩
    · simp [hid] at hr

/-- An id above those of all revisions is no revision's: reverting to it panics. -/
theorem revertToSnapshot_invalid {revid : Int} (hx : ∀ r ∈ s.validRevisions, r.id < revid) :
    s.revertToSnapshot revid = .error (.invalidRevision revid) := by
  have hsearch : GoSort.search s.validRevisions.length
      (fun i => decide (revid ≤ (s.validRevisions.getD i ⟨0, 0⟩).id)) = s.validRevisions.length :=
    GoSort.search_key_eq_length fun i hi => by
      rw [List.getD_eq_getElem _ _ hi]
      exact hx _ (List.getElem_mem hi)
  simp only [revertToSnapshot, hsearch, List.getElem?_eq_none (Nat.le_refl _)]

end StateDB

/-- The revisions as the code keeps them: their ids rise and stay below the next id, and
their positions rise and stay within the journal. -/
structure Revisions (s : StateDB) : Prop where
  ids : s.validRevisions.Pairwise fun r r' => r.id < r'.id
  lt_next : ∀ r ∈ s.validRevisions, r.id < s.nextRevisionId
  positions : s.validRevisions.Pairwise fun r r' => r.journalIndex ≤ r'.journalIndex
  le_length : ∀ r ∈ s.validRevisions, r.journalIndex ≤ s.journal.entries.length

namespace Revisions

variable {s : StateDB}

/-- The ids rise along the revisions, read as the search reads them. -/
theorem id_lt (h : Revisions s) {a b : Nat} (hab : a < b) (hb : b < s.validRevisions.length) :
    (s.validRevisions.getD a ⟨0, 0⟩).id < (s.validRevisions.getD b ⟨0, 0⟩).id := by
  rw [List.getD_eq_getElem _ _ (by omega), List.getD_eq_getElem _ _ hb]
  exact List.pairwise_iff_getElem.mp h.ids a b (by omega) hb hab

/-- The ids of the first `k` revisions are below that of the revision at `m ≥ k`. -/
theorem id_lt_of_mem_take (h : Revisions s) {k m : Nat} (hkm : k ≤ m)
    (hm : m < s.validRevisions.length) :
    ∀ r ∈ s.validRevisions.take k, r.id < s.validRevisions[m].id := by
  intro r hr
  obtain ⟨i, hi, rfl⟩ := List.mem_iff_getElem.mp hr
  rw [List.getElem_take]
  have hik : i < k := by
    rw [List.length_take] at hi
    omega
  exact List.pairwise_iff_getElem.mp h.ids i m (by omega) hm (by omega)

/-- **Reverting to the revision at `idx`** keeps the revisions as the code keeps them: the
journal undone into `s'` is cut at the revision's position, and the revisions at its index. -/
theorem truncate (h : Revisions s) {s' : StateDB} (hR : Reverted s s') {idx : Nat}
    (hidx : idx < s.validRevisions.length) {t : StateDB}
    (ht : t = { s' with
      journal := { s'.journal with
        entries := s'.journal.entries.take s.validRevisions[idx].journalIndex }
      validRevisions := s'.validRevisions.take idx }) :
    WellFormed t ∧ Revisions t := by
  subst ht
  have hw := hR.wellFormed
  have hp : s.validRevisions[idx].journalIndex ≤ s.journal.entries.length :=
    h.le_length _ (List.getElem_mem hidx)
  refine ⟨⟨hw.address, hw.deleted, fun prev hm => hw.entries prev (List.mem_of_mem_take hm)⟩,
    ?_, ?_, ?_, ?_⟩
  · rw [hR.validRevisions]
    exact h.ids.sublist (List.take_sublist _ _)
  · intro r hr
    rw [hR.validRevisions] at hr
    rw [hR.nextRevisionId]
    exact h.lt_next r (List.mem_of_mem_take hr)
  · rw [hR.validRevisions]
    exact h.positions.sublist (List.take_sublist _ _)
  · -- a revision below `idx` lies before the position the journal is cut at
    intro r hr
    rw [hR.validRevisions] at hr
    obtain ⟨i, hi, rfl⟩ := List.mem_iff_getElem.mp hr
    rw [List.length_take] at hi
    have hle : s.validRevisions[i].journalIndex ≤ s.validRevisions[idx].journalIndex :=
      List.pairwise_iff_getElem.mp h.positions i idx (by omega) hidx (by omega)
    simp only [List.getElem_take, List.length_take, hR.entries]
    omega

end Revisions

/-! ### Snapshots kept along a run -/

variable (keccak256)

/-- The snapshots `st` a run has taken and not reverted, each with the id `Snapshot()`
returned and the state it returned it in: they are the last of the valid revisions, and
undoing the journal after the position of each gives back the view of its state. -/
structure Tracks (s : StateDB) (st : List (Int × StateDB)) : Prop where
  wellFormed : WellFormed s
  revisions : Revisions s
  tracked : ∃ old new, s.validRevisions = old ++ new ∧ new.map Revision.id = st.map Prod.fst ∧
    Marks rev (StateDB.view keccak256) s.journal.entries s
      (List.zipWith (fun r x => (r.journalIndex, x.2.view keccak256)) new st)

variable {keccak256}

namespace Tracks

variable {s t : StateDB} {st : List (Int × StateDB)}

/-- A state as the code builds it keeps no snapshot yet. -/
theorem nil (h : WellFormed s) (hr : Revisions s) : Tracks keccak256 s [] :=
  ⟨h, hr, s.validRevisions, [], by rw [List.append_nil], rfl, Marks.nil _ _⟩

/-- **A journaled step keeps every snapshot.** -/
theorem journaled (h : Tracks keccak256 s st) (hj : Journaled keccak256 s t) :
    Tracks keccak256 t st := by
  obtain ⟨old, new, hvr, hids, hm⟩ := h.tracked
  obtain ⟨es, hes, hres⟩ := hj.undoes
  have hr := h.revisions
  refine ⟨hj.wellFormed, ⟨?_, ?_, ?_, ?_⟩, old, new, by rw [hj.validRevisions, hvr], hids, ?_⟩
  · rw [hj.validRevisions]
    exact hr.ids
  · rw [hj.validRevisions, hj.nextRevisionId]
    exact hr.lt_next
  · rw [hj.validRevisions]
    exact hr.positions
  · intro r hrm
    rw [hj.validRevisions] at hrm
    rw [hes, List.length_append]
    have := hr.le_length r hrm
    omega
  · rw [hes]
    exact hm.append (congruent keccak256) hres

/-- **`Snapshot()` adds a snapshot** of the state it returns, at the end of the journal. -/
theorem snapshot (h : Tracks keccak256 s st) :
    Tracks keccak256 s.snapshot.2 (st ++ [s.snapshot]) := by
  obtain ⟨old, new, hvr, hids, hm⟩ := h.tracked
  have hr := h.revisions
  have hv : s.snapshot.2.view keccak256 = s.view keccak256 := StateDB.view_of_objects rfl rfl rfl
  have hlen : new.length = st.length := by simpa using congrArg List.length hids
  let r : Revision := ⟨s.nextRevisionId, s.journal.entries.length⟩
  have hvr' : s.snapshot.2.validRevisions = s.validRevisions ++ [r] := rfl
  refine ⟨⟨h.wellFormed.address, h.wellFormed.deleted, h.wellFormed.entries⟩,
    ⟨?_, ?_, ?_, ?_⟩, old, new ++ [r], by rw [hvr', hvr, List.append_assoc], ?_, ?_⟩
  · -- the new id is above the others
    rw [hvr']
    exact List.pairwise_append.mpr ⟨hr.ids, List.pairwise_singleton _ _,
      fun a ha b hb => (List.mem_singleton.mp hb) ▸ hr.lt_next a ha⟩
  · intro a ha
    rw [hvr'] at ha
    rcases List.mem_append.mp ha with ha | ha
    · have := hr.lt_next a ha
      exact Int.lt_trans this (Int.lt_succ _)
    · rw [List.mem_singleton.mp ha]
      exact Int.lt_succ _
  · rw [hvr']
    exact List.pairwise_append.mpr ⟨hr.positions, List.pairwise_singleton _ _,
      fun a ha b hb => (List.mem_singleton.mp hb) ▸ hr.le_length a ha⟩
  · intro a ha
    rw [hvr'] at ha
    rcases List.mem_append.mp ha with ha | ha
    · exact hr.le_length a ha
    · obtain rfl := List.mem_singleton.mp ha
      exact Nat.le_refl _
  · rw [List.map_append, List.map_append, hids]
    rfl
  · -- the new mark is the end of the journal, with the view the state had
    simp only [List.zipWith_append hlen, List.zipWith_cons_cons, List.zipWith_nil_left, hv]
    exact hm.snapshot.congr (congruent keccak256) hv.symm

open StateDB

/-- **Reverting to any revision** leaves a well-formed state with revisions as the code
keeps them. -/
theorem revert_any (h : Tracks keccak256 s st) {revid : Int} {t : StateDB}
    (hr : s.revertToSnapshot revid = .ok t) : Tracks keccak256 t [] := by
  obtain ⟨r, hget, hid⟩ := revertToSnapshot_ok hr
  rw [revertToSnapshot_found hget hid] at hr
  rcases he : revertEntries (s.journal.entries.drop r.journalIndex) s with p | s' <;> rw [he] at hr
  · cases hr
  · cases hr
    obtain ⟨hidx, rfl⟩ := List.getElem?_eq_some_iff.mp hget
    have hR := revertEntries_spec h.wellFormed
      (fun prev hp => h.wellFormed.entries prev (List.mem_of_mem_drop hp)) he
    obtain ⟨hw, hrv⟩ := h.revisions.truncate hR hidx rfl
    exact Tracks.nil hw hrv

/-- **Reverting to a kept snapshot** gives back the view of the state it was taken in, and
keeps the snapshots taken before it; the ids of the later ones are above every revision
left. -/
theorem revert (h : Tracks keccak256 s st) {j : Nat} (hj : j < st.length) :
    ∃ t, s.revertToSnapshot st[j].1 = .ok t ∧ t.view keccak256 = st[j].2.view keccak256 ∧
      Tracks keccak256 t (st.take j) ∧
      ∀ i (hi : i < st.length), j ≤ i → ∀ r ∈ t.validRevisions, r.id < st[i].1 := by
  obtain ⟨old, new, hvr, hids, hm⟩ := h.tracked
  have hlen : new.length = st.length := by simpa using congrArg List.length hids
  -- the snapshot `st[i]` is the revision at index `old.length + i`
  have hat : ∀ i (hi : i < st.length), ∃ (hin : i < new.length)
      (hi' : old.length + i < s.validRevisions.length),
      s.validRevisions[old.length + i] = new[i] ∧ s.validRevisions[old.length + i].id = st[i].1 := by
    intro i hi
    have hin : i < new.length := by omega
    have hi' : old.length + i < s.validRevisions.length := by
      rw [hvr, List.length_append]
      omega
    have hnew : s.validRevisions[old.length + i] = new[i] := by
      simp only [hvr, List.getElem_append_right (Nat.le_add_right _ _), Nat.add_sub_cancel_left]
    have hid : new[i].id = st[i].1 := by
      have := congrArg (fun l => l[i]?) hids
      simpa [hin, hi] using this
    exact ⟨hin, hi', hnew, hnew ▸ hid⟩
  obtain ⟨hjn, hidx, hnj, hrj⟩ := hat j hj
  -- the search for the id finds that revision
  have hkey : (s.validRevisions.getD (old.length + j) ⟨0, 0⟩).id = st[j].1 := by
    rw [List.getD_eq_getElem _ _ hidx, hrj]
  have hsearch : GoSort.search s.validRevisions.length
      (fun i => decide (st[j].1 ≤ (s.validRevisions.getD i ⟨0, 0⟩).id)) = old.length + j := by
    rw [← hkey]
    exact GoSort.search_key_eq (fun a b hab hb => h.revisions.id_lt hab hb) hidx
  have hget : s.validRevisions[GoSort.search s.validRevisions.length
      (fun i => decide (st[j].1 ≤ (s.validRevisions.getD i ⟨0, 0⟩).id))]? =
      some s.validRevisions[old.length + j] := by
    rw [hsearch, List.getElem?_eq_getElem hidx]
  -- undoing the journal after its position restores the view of `st[j].2`
  let marks := List.zipWith (fun r x => (r.journalIndex, x.2.view keccak256)) new st
  have hmk : j < marks.length := by simp [marks, hlen, hj]
  have hmj : marks[j] = (s.validRevisions[old.length + j].journalIndex, st[j].2.view keccak256) := by
    simp [marks, hnj]
  obtain ⟨s', hs', hv'⟩ := hm.restores marks[j] (List.getElem_mem hmk)
  rw [hmj] at hs' hv'
  have he : revertEntries (s.journal.entries.drop s.validRevisions[old.length + j].journalIndex) s =
      .ok s' := by
    have := toOption_revertEntries (s.journal.entries.drop s.validRevisions[old.length + j].journalIndex) s
    rw [hs'] at this
    rcases hre : revertEntries (s.journal.entries.drop s.validRevisions[old.length + j].journalIndex) s
      with p | s''
    · rw [hre] at this
      cases this
    · rw [hre] at this
      cases this
      rfl
  have hR := revertEntries_spec h.wellFormed
    (fun prev hp => h.wellFormed.entries prev (List.mem_of_mem_drop hp)) he
  let t : StateDB := { s' with
    journal := { s'.journal with
      entries := s'.journal.entries.take s.validRevisions[old.length + j].journalIndex }
    validRevisions := s'.validRevisions.take (old.length + j) }
  have hvt : t.view keccak256 = s'.view keccak256 := view_of_objects rfl rfl rfl
  have hvrt : t.validRevisions = s.validRevisions.take (old.length + j) := by
    simp only [t, hR.validRevisions]
  obtain ⟨hw, hrv⟩ := h.revisions.truncate hR hidx rfl
  refine ⟨t, ?_, hvt.trans hv', ⟨hw, hrv, old, new.take j, ?_, ?_, ?_⟩, ?_⟩
  · rw [revertToSnapshot_found hget hrj, he, hsearch]
    rfl
  · rw [hvrt, hvr, List.take_append, List.take_of_length_le (by omega), Nat.add_sub_cancel_left]
  · rw [List.map_take, List.map_take, hids]
  · -- the marks below `j`, over the journal cut at its position
    obtain ⟨-, hmt⟩ := hm.revert (congruent keccak256) hmk (by rw [hmj]; exact hs') hvt
    rw [List.take_zipWith] at hmt
    simpa [hmj, t, hR.entries, hnj] using hmt
  · intro i hi hji r hr
    obtain ⟨hin, hidx', -, hri⟩ := hat i hi
    rw [hvrt] at hr
    have := h.revisions.id_lt_of_mem_take (by omega) hidx' r hr
    rw [hri] at this
    exact this

end Tracks

namespace StateDB

/-- A state `New` builds is well formed, with no revision. -/
theorem wellFormed_new (db : Database) (trie : Address → Option Account) :
    WellFormed (StateDB.new db trie) :=
  ⟨(fun _ _ h => nomatch h), (fun _ _ h => nomatch h), fun _ h => nomatch h⟩

theorem revisions_new (db : Database) (trie : Address → Option Account) :
    Revisions (StateDB.new db trie) :=
  ⟨List.Pairwise.nil, (fun _ h => nomatch h), List.Pairwise.nil, fun _ h => nomatch h⟩

end StateDB

/-! ### Runs -/

/-- The operations of a run: the journaled methods of `StateDB`, `Snapshot` and
`RevertToSnapshot`. -/
inductive Op where
  | addBalance (addr : Address) (amount : Int)
  | subBalance (addr : Address) (amount : Int)
  | setBalance (addr : Address) (amount : Int)
  | setNonce (addr : Address) (nonce : UInt64)
  | setCode (addr : Address) (code : List UInt8)
  | setState (addr : Address) (key value : Hash)
  | suicide (addr : Address)
  | createAccount (addr : Address)
  | addLog (log : Log)
  | addRefund (gas : UInt64)
  | addPreimage (hash : Hash) (preimage : List UInt8)
  | snapshot
  | revertToSnapshot (revid : Int)

variable (keccak256)

/-- Calling one operation; what `Suicide` and `Snapshot` return is dropped. -/
def Op.exec (s : StateDB) : Op → Except Panic StateDB
  | .addBalance addr amount => .ok (s.addBalance keccak256 addr amount)
  | .subBalance addr amount => .ok (s.subBalance keccak256 addr amount)
  | .setBalance addr amount => .ok (s.setBalance keccak256 addr amount)
  | .setNonce addr nonce => .ok (s.setNonce keccak256 addr nonce)
  | .setCode addr code => .ok (s.setCode keccak256 addr code)
  | .setState addr key value => .ok (s.setState keccak256 addr key value)
  | .suicide addr => .ok (s.suicide addr).2
  | .createAccount addr => .ok (s.createAccount keccak256 addr)
  | .addLog log => .ok (s.addLog log)
  | .addRefund gas => .ok (s.addRefund gas)
  | .addPreimage hash preimage => .ok (s.addPreimage hash preimage)
  | .snapshot => .ok s.snapshot.2
  | .revertToSnapshot revid => s.revertToSnapshot revid

/-- The snapshots a run keeps after `op` from `s`, each with the id `Snapshot()` returned and
the state it returned: a snapshot adds one, and reverting to one drops it and the later
ones (all of them, for an id the run did not take). -/
def Op.track (s : StateDB) (st : List (Int × StateDB)) : Op → List (Int × StateDB)
  | .snapshot => st ++ [s.snapshot]
  | .revertToSnapshot revid =>
    match st.findIdx? (·.1 == revid) with
    | some j => st.take j
    | none => []
  | _ => st

/-- A run of operations from `s`, with the snapshots it keeps; it stops at a panic. -/
def run : List Op → StateDB → List (Int × StateDB) →
    Except Panic (StateDB × List (Int × StateDB))
  | [], s, st => .ok (s, st)
  | op :: ops, s, st => (op.exec keccak256 s).bind fun t => run ops t (op.track s st)

/-- What the kept snapshots `st` promise: reverting to any of them succeeds and gives back
what every getter returned when `Snapshot()` returned its id; the later snapshots are then
invalid, and the earlier ones keep the same promise. -/
def Restorable (s : StateDB) (st : List (Int × StateDB)) : Prop :=
  ∀ j (hj : j < st.length), ∃ t, s.revertToSnapshot st[j].1 = .ok t ∧
    t.observe keccak256 = st[j].2.observe keccak256 ∧
    (∀ i (hi : i < st.length), j ≤ i →
      t.revertToSnapshot st[i].1 = .error (.invalidRevision st[i].1)) ∧
    Restorable t (st.take j)
termination_by st.length
decreasing_by
  rw [List.length_take]
  omega

variable {keccak256}

namespace Tracks

variable {s t : StateDB} {st : List (Int × StateDB)}

/-- **Every operation keeps the snapshots**, as `Op.track` keeps them. -/
theorem step (h : Tracks keccak256 s st) {op : Op} (hx : op.exec keccak256 s = .ok t) :
    Tracks keccak256 t (op.track s st) := by
  have hw := h.wellFormed
  cases op with
  | addBalance a v => cases hx; exact h.journaled (StateDB.journaled_addBalance hw a v)
  | subBalance a v => cases hx; exact h.journaled (StateDB.journaled_subBalance hw a v)
  | setBalance a v => cases hx; exact h.journaled (StateDB.journaled_setBalance hw a v)
  | setNonce a n => cases hx; exact h.journaled (StateDB.journaled_setNonce hw a n)
  | setCode a c => cases hx; exact h.journaled (StateDB.journaled_setCode hw a c)
  | setState a k v => cases hx; exact h.journaled (StateDB.journaled_setState hw a k v)
  | suicide a => cases hx; exact h.journaled (StateDB.journaled_suicide hw a)
  | createAccount a => cases hx; exact h.journaled (StateDB.journaled_createAccount hw a)
  | addLog log => cases hx; exact h.journaled (StateDB.journaled_addLog hw log)
  | addRefund gas => cases hx; exact h.journaled (StateDB.journaled_addRefund hw gas)
  | addPreimage hash p => cases hx; exact h.journaled (StateDB.journaled_addPreimage hw hash p)
  | snapshot => cases hx; exact h.snapshot
  | revertToSnapshot revid =>
    have hx' : s.revertToSnapshot revid = .ok t := hx
    simp only [Op.track]
    split
    · -- a kept snapshot: the earlier ones stay
      rename_i j hfind
      obtain ⟨hj, hid, -⟩ := List.findIdx?_eq_some_iff_getElem.mp hfind
      have hid' : st[j].1 = revid := by simpa using hid
      obtain ⟨t', ht', -, htr, -⟩ := h.revert hj
      rw [hid', hx'] at ht'
      cases ht'
      exact htr
    · exact h.revert_any hx'

/-- **A whole run keeps the snapshots.** -/
theorem run (h : Tracks keccak256 s st) {ops : List Op} {st' : List (Int × StateDB)}
    (hr : run keccak256 ops s st = .ok (t, st')) : Tracks keccak256 t st' := by
  induction ops generalizing s st with
  | nil =>
    cases hr
    exact h
  | cons op ops ih =>
    rw [State.run] at hr
    rcases hx : op.exec keccak256 s with p | s₁ <;> rw [hx] at hr
    · cases hr
    · exact ih (h.step hx) hr

/-- The snapshots kept keep their promise. -/
theorem restorable (h : Tracks keccak256 s st) : Restorable keccak256 s st := by
  -- by induction on the number of snapshots kept
  induction hn : st.length using Nat.strong_induction_on generalizing s st with
  | _ n ih =>
    rw [Restorable]
    intro j hj
    obtain ⟨t, ht, hv, htr, hids⟩ := h.revert hj
    refine ⟨t, ht, by rw [StateDB.observe_eq, StateDB.observe_eq, hv],
      fun i hi hji => StateDB.revertToSnapshot_invalid (hids i hi hji), ?_⟩
    exact ih _ (by rw [List.length_take]; omega) htr rfl

end Tracks

/-- **Snapshot and revert restore the state.** From a well-formed state whose revisions are
as the code keeps them, after any run of the journaled operations, snapshots and reverts,
every snapshot kept can be reverted to, giving back every getter's value when `Snapshot()`
returned its id; the earlier snapshots stay revertable so, and the later ones are
invalid. -/
theorem snapshot_revert_restores {s₀ : StateDB} (h₀ : WellFormed s₀) (hr₀ : Revisions s₀)
    {ops : List Op} {s : StateDB} {st : List (Int × StateDB)}
    (hrun : run keccak256 ops s₀ [] = .ok (s, st)) : Restorable keccak256 s st :=
  ((Tracks.nil h₀ hr₀).run hrun).restorable

/-- Two nested snapshots around a balance, a nonce and a new account. -/
def someOps : List Op :=
  [.addBalance 1 5, .snapshot, .setNonce 1 3, .snapshot, .createAccount 2]

/-- The state and the snapshots `someOps` leaves, from a state `New` built. -/
def afterSomeOps : StateDB × List (Int × StateDB) :=
  match run (fun _ => 0) someOps (StateDB.new ⟨fun _ _ => 0, fun _ => []⟩ fun _ => none) [] with
  | .ok r => r
  | .error _ => (StateDB.new ⟨fun _ _ => 0, fun _ => []⟩ fun _ => none, [])

theorem snapshot_revert_restores_someOps :
    WellFormed (StateDB.new ⟨fun _ _ => 0, fun _ => []⟩ fun _ => none) ∧
      Revisions (StateDB.new ⟨fun _ _ => 0, fun _ => []⟩ fun _ => none) ∧
      run (fun _ => 0) someOps (StateDB.new ⟨fun _ _ => 0, fun _ => []⟩ fun _ => none) [] =
        .ok afterSomeOps ∧
      Restorable (fun _ => 0) afterSomeOps.1 afterSomeOps.2 := by
  have hrun : run (fun _ => 0) someOps (StateDB.new ⟨fun _ _ => 0, fun _ => []⟩ fun _ => none) [] =
      .ok afterSomeOps := rfl
  exact ⟨StateDB.wellFormed_new _ _, StateDB.revisions_new _ _, hrun,
    snapshot_revert_restores (StateDB.wellFormed_new _ _) (StateDB.revisions_new _ _) hrun⟩

/-- The run keeps both snapshots. -/
example : afterSomeOps.2.length = 2 := by decide +kernel

end Keccak

end State
