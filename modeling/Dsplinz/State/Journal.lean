import Dsplinz.Lib.UndoLog
import Dsplinz.State.View

/-!
# Every operation is undone by its journal entries

Each journaled method of `StateDB` (`AddBalance`, `SubBalance`, `SetBalance`, `SetNonce`,
`SetCode`, `SetState`, `Suicide`, `CreateAccount`, `AddLog`, `AddRefund`, `AddPreimage`)
appends entries to the journal whose undoing, the last first, gives back the view the
state had before it (`State.Undoes`). The undo step is `journal.revert`'s loop body; it acts
on views (`State.StateDB.view_revertOne`), so the undoing can be followed on views, where
each entry changes back one account or one counter.

That an operation's entries undo it rests on two facts about the state, which
`State.WellFormed` collects, and which every operation keeps (`State.Journaled`). A deleted
live object has no account in the trie: undoing `createObjectChange` drops the live object,
and the account is read from the trie again. An object stored by `resetObjectChange` is not
deleted.

* `State.StateDB.journaled_set` – a journaled change of one live object, undone by its
  entry; `SetBalance`, `SetNonce`, `SetCode`, `SetState` and `Suicide` are of this kind;
* `State.StateDB.createObject_entry` – `createObject`'s entry puts back the account of its
  address whatever stands there, which also undoes the balance `CreateAccount` carries
  over without an entry;
* `State.StateDB.journaled_addBalance`, …, `State.StateDB.journaled_addPreimage` – every
  operation is a journaled step.
-/

namespace State

open Common UndoLog

section Keccak

variable (keccak256 : List UInt8 → Hash)

/-- An undo step of the journal: one round of the loop of `journal.revert`, a panic being
a failure. -/
def rev (e : JournalEntry) (s : StateDB) : Option StateDB := (StateDB.revertOne e s).toOption

theorem congruent : Congruent rev (StateDB.view keccak256) := by
  intro e s₁ s₂ h
  simp only [rev, StateDB.view_revertOne, h]

/-- The state `t` came from `s` by appending entries to the journal whose undoing restores
the view of `s`. -/
def Undoes (s t : StateDB) : Prop :=
  ∃ new, t.journal.entries = s.journal.entries ++ new ∧
    Restores rev (StateDB.view keccak256) new t (s.view keccak256)

/-- The facts about a state database that undoing relies on: every live object is stored
at its own address; a deleted one has no account in the trie; and the objects the journal
would put back are not deleted. -/
structure WellFormed (s : StateDB) : Prop where
  address : ∀ a o, s.stateObjects a = some o → o.address = a
  deleted : ∀ a o, s.stateObjects a = some o → o.deleted = true → s.trie a = none
  entries : ∀ prev, JournalEntry.resetObjectChange prev ∈ s.journal.entries → prev.deleted = false

/-- A step from `s` to `t` as snapshots need it: `t` is well formed, undoing the entries the
step appended gives back the view of `s`, and the revisions are left alone. -/
structure Journaled (s t : StateDB) : Prop where
  wellFormed : WellFormed t
  undoes : Undoes keccak256 s t
  validRevisions : t.validRevisions = s.validRevisions
  nextRevisionId : t.nextRevisionId = s.nextRevisionId

variable {keccak256}

/-! ### Composing undoable steps -/

theorem undoes_of_view {s t : StateDB} (hj : t.journal.entries = s.journal.entries)
    (hv : t.view keccak256 = s.view keccak256) : Undoes keccak256 s t :=
  ⟨[], by rw [hj, List.append_nil], hv ▸ restores_nil t⟩

theorem Undoes.trans {s t u : StateDB} (h₁ : Undoes keccak256 s t) (h₂ : Undoes keccak256 t u) :
    Undoes keccak256 s u := by
  obtain ⟨n₁, hj₁, hr₁⟩ := h₁
  obtain ⟨n₂, hj₂, hr₂⟩ := h₂
  exact ⟨n₁ ++ n₂, by rw [hj₂, hj₁, List.append_assoc], restores_append (congruent keccak256) hr₂ hr₁⟩

/-- One appended entry, whose undoing on views gives back the view of `s`. -/
theorem undoes_of_revert {s t : StateDB} {e : JournalEntry}
    (hj : t.journal.entries = s.journal.entries ++ [e])
    (hv : (t.view keccak256).revert keccak256 e = some (s.view keccak256)) :
    Undoes keccak256 s t := by
  have h := @StateDB.view_revertOne keccak256 t e
  rw [hv] at h
  rcases hr : (StateDB.revertOne e t).toOption with _ | t'
  · rw [hr] at h
    cases h
  · rw [hr, Option.map_some, Option.some.injEq] at h
    exact ⟨[e], hj, h ▸ restores_singleton hr⟩

/-- Writing back the account a view already has at `a` changes nothing. -/
theorem View.update_eq_self {v : View} {a : Address} {x : Option AccountView}
    (hx : v.accounts a = x) : ({ v with accounts := Function.update v.accounts a x } : View) = v := by
  rw [← hx, Function.update_eq_self]

/-- Undoing a change made to the account of `a` in the view, when the change keeps the
account's address and undoing it gives back the account. -/
theorem View.modify_update {v : View} {a : Address} {w w' : AccountView}
    (hw : v.accounts a = some w) (haddr : w'.address = a) (mv : AccountView → AccountView)
    (hmv : mv w' = w) :
    ({ v with accounts := Function.update v.accounts a (some w') } : View).modify a mv =
      some v := by
  simp only [View.modify, Function.update_self, Option.map_some, haddr, hmv,
    Function.update_idem, Option.some.injEq]
  exact View.update_eq_self hw

/-- An entry whose undoing puts back the account of `a`, whatever stands there. -/
theorem undoes_of_overwrite {s t : StateDB} {a : Address} {e : JournalEntry}
    (hj : t.journal.entries = s.journal.entries ++ [e])
    (hrev : ∀ y, ({ t.view keccak256 with
      accounts := Function.update (t.view keccak256).accounts a y } : View).revert keccak256 e =
        some (s.view keccak256)) :
    Undoes keccak256 s t := by
  refine undoes_of_revert hj ?_
  have h := hrev ((t.view keccak256).accounts a)
  rwa [View.update_eq_self rfl] at h

/-! ### Well-formed states -/

namespace WellFormed

variable {s : StateDB}

theorem setStateObject (h : WellFormed s) {o : StateObject} (hd : o.deleted = false) :
    WellFormed (s.setStateObject o) := by
  refine ⟨fun b p hp => ?_, fun b p hp hpd => ?_, h.entries⟩
  · by_cases hb : b = o.address
    · subst hb
      simp only [StateDB.setStateObject, Function.update_self, Option.some.injEq] at hp
      rw [← hp]
    · simp only [StateDB.setStateObject, Function.update_of_ne hb] at hp
      exact h.address b p hp
  · by_cases hb : b = o.address
    · subst hb
      simp only [StateDB.setStateObject, Function.update_self, Option.some.injEq] at hp
      rw [← hp, hd] at hpd
      cases hpd
    · simp only [StateDB.setStateObject, Function.update_of_ne hb] at hp
      exact h.deleted b p hp hpd

theorem append (h : WellFormed s) {e : JournalEntry}
    (he : ∀ prev, e = .resetObjectChange prev → prev.deleted = false) :
    WellFormed (s.append e) := by
  refine ⟨h.address, h.deleted, fun prev hp => ?_⟩
  rcases List.mem_append.mp hp with hp | hp
  · exact h.entries prev hp
  · exact he prev (List.mem_singleton.mp hp).symm

theorem dirty (h : WellFormed s) (a : Address) : WellFormed (s.dirty a) :=
  ⟨h.address, h.deleted, h.entries⟩

theorem getStateObject (h : WellFormed s) (a : Address) : WellFormed (s.getStateObject a).2 := by
  unfold StateDB.getStateObject
  split
  · split <;> exact h
  · split
    · exact h
    · exact h.setStateObject rfl

end WellFormed

theorem Journaled.refl {s : StateDB} (h : WellFormed s) : Journaled keccak256 s s :=
  ⟨h, undoes_of_view rfl rfl, rfl, rfl⟩

theorem Journaled.trans {s t u : StateDB} (h₁ : Journaled keccak256 s t)
    (h₂ : Journaled keccak256 t u) : Journaled keccak256 s u :=
  ⟨h₂.wellFormed, h₁.undoes.trans h₂.undoes, h₂.validRevisions.trans h₁.validRevisions,
    h₂.nextRevisionId.trans h₁.nextRevisionId⟩

/-! ### Loading and creating objects -/

namespace StateDB

variable {s : StateDB}

/-- Loading an account changes the live objects only. -/
theorem getStateObject_snd (s : StateDB) (a : Address) :
    (s.getStateObject a).2 = { s with stateObjects := (s.getStateObject a).2.stateObjects } := by
  unfold getStateObject
  split
  · split <;> rfl
  · split <;> rfl

theorem journal_getStateObject (s : StateDB) (a : Address) :
    (s.getStateObject a).2.journal = s.journal := by
  rw [getStateObject_snd]

theorem validRevisions_getStateObject (s : StateDB) (a : Address) :
    (s.getStateObject a).2.validRevisions = s.validRevisions := by
  rw [getStateObject_snd]

theorem nextRevisionId_getStateObject (s : StateDB) (a : Address) :
    (s.getStateObject a).2.nextRevisionId = s.nextRevisionId := by
  rw [getStateObject_snd]

/-- Loading an account is a step with no entry. -/
theorem journaled_getStateObject (h : WellFormed s) (a : Address) :
    Journaled keccak256 s (s.getStateObject a).2 :=
  ⟨h.getStateObject a, undoes_of_view (by rw [journal_getStateObject]) (view_getStateObject s a),
    validRevisions_getStateObject s a, nextRevisionId_getStateObject s a⟩

/-- The object `getStateObject` returns is live at its address. -/
theorem live_of_getStateObject (h : WellFormed s) {a : Address} {o : StateObject}
    {s₁ : StateDB} (hg : s.getStateObject a = (some o, s₁)) :
    s₁.stateObjects a = some o ∧ o.address = a ∧ o.deleted = false := by
  have hd : o.deleted = false := deleted_of_getStateObject (by rw [hg])
  unfold getStateObject at hg
  split at hg
  · rename_i obj hobj
    split at hg
    · cases hg
    · simp only [Prod.mk.injEq, Option.some.injEq] at hg
      obtain ⟨rfl, rfl⟩ := hg
      exact ⟨hobj, h.address a _ hobj, hd⟩
  · split at hg
    · cases hg
    · simp only [Prod.mk.injEq, Option.some.injEq] at hg
      obtain ⟨rfl, rfl⟩ := hg
      exact ⟨by simp [setStateObject, StateObject.new], rfl, rfl⟩

/-- No object: none in the trie either. -/
theorem trie_of_getStateObject (h : WellFormed s) {a : Address}
    (hg : (s.getStateObject a).1 = none) : s.trie a = none := by
  rw [getStateObject_fst] at hg
  rcases hlive : s.stateObjects a with _ | obj
  · rw [hlive] at hg
    simpa using hg
  · rw [hlive] at hg
    by_cases hd : obj.deleted
    · exact h.deleted a obj hlive hd
    · simp [hd] at hg

theorem view_accounts_getStateObject (s : StateDB) (a : Address) :
    (s.view keccak256).accounts a = (s.getStateObject a).1.map (StateObject.view keccak256 s.db) :=
  rfl

theorem getStateObject_of_live {a : Address} {o : StateObject} (hlive : s.stateObjects a = some o)
    (hd : o.deleted = false) : s.getStateObject a = (some o, s) := by
  simp [getStateObject, hlive, hd]

/-- **`createObject` appends one entry, which puts back the account of `a` as it was**,
whatever is stored at `a` after it. -/
theorem createObject_entry (h : WellFormed s) {a : Address} {n : StateObject}
    {prev : Option StateObject} {t : StateDB}
    (hc : s.createObject keccak256 a = ((n, prev), t)) :
    ∃ e, t.journal.entries = s.journal.entries ++ [e] ∧
      ∀ y, ({ t.view keccak256 with
        accounts := Function.update (t.view keccak256).accounts a y } : View).revert keccak256 e =
          some (s.view keccak256) := by
  unfold createObject at hc
  rcases hg : s.getStateObject a with ⟨p, s₁⟩
  rw [hg] at hc
  simp only [Prod.mk.injEq] at hc
  obtain ⟨⟨rfl, rfl⟩, rfl⟩ := hc
  have hj₁ : s₁.journal = s.journal := by simpa [hg] using journal_getStateObject s a
  have hv₁ : s₁.view keccak256 = s.view keccak256 := by simpa [hg] using view_getStateObject s a
  cases p with
  | none =>
    -- the account is read from the trie again, and there is none
    refine ⟨.createObjectChange a, by simp [setStateObject, append, hj₁], fun y => ?_⟩
    have hnone : (s.view keccak256).accounts a = none := by
      rw [view_accounts_getStateObject, hg]
      rfl
    have htrie : (s.view keccak256).trie a = none := trie_of_getStateObject h (by rw [hg])
    rw [view_setStateObject]
    simp only [View.revert, view_append, hv₁, StateObject.address_setNonce,
      StateObject.address_new, Function.update_idem]
    rw [htrie, Option.map_none, View.update_eq_self hnone]
  | some o =>
    -- the previous object is put back
    have hlive := live_of_getStateObject h hg
    refine ⟨.resetObjectChange o, by simp [setStateObject, append, hj₁], fun y => ?_⟩
    have hsome : (s.view keccak256).accounts a = some (o.view keccak256 s.db) := by
      rw [view_accounts_getStateObject, hg]
      rfl
    rw [view_setStateObject]
    simp only [View.revert, view_append, hv₁, hlive.2.1, hlive.2.2, StateObject.address_setNonce,
      StateObject.address_new, Function.update_idem, Bool.false_eq_true, if_false]
    exact congrArg some (View.update_eq_self hsome)

/-- **`createObject` is a journaled step** that leaves the new object live. -/
theorem createObject_spec (h : WellFormed s) {a : Address} {n : StateObject}
    {prev : Option StateObject} {t : StateDB}
    (hc : s.createObject keccak256 a = ((n, prev), t)) :
    Journaled keccak256 s t ∧ t.stateObjects a = some n ∧ n.address = a ∧ n.deleted = false := by
  obtain ⟨e, hj, hrev⟩ := createObject_entry h hc
  have hu := undoes_of_overwrite hj hrev
  unfold createObject at hc
  rcases hg : s.getStateObject a with ⟨p, s₁⟩
  rw [hg] at hc
  simp only [Prod.mk.injEq] at hc
  obtain ⟨⟨rfl, rfl⟩, rfl⟩ := hc
  have h₁ : Journaled keccak256 s s₁ := by simpa [hg] using journaled_getStateObject h a
  refine ⟨?_, by simp [setStateObject, StateObject.new, StateObject.setNonce], rfl, rfl⟩
  cases p with
  | none =>
    exact ⟨(h₁.wellFormed.append (by simp)).setStateObject rfl, hu, h₁.validRevisions,
      h₁.nextRevisionId⟩
  | some o =>
    have hlive := live_of_getStateObject h hg
    exact ⟨(h₁.wellFormed.append (by simp [hlive.2.2])).setStateObject rfl, hu, h₁.validRevisions,
      h₁.nextRevisionId⟩

/-- **`GetOrNewStateObject` is undone by its entries**, and leaves a live object. -/
theorem getOrNewStateObject_spec (h : WellFormed s) {a : Address} {o : StateObject} {t : StateDB}
    (hg : s.getOrNewStateObject keccak256 a = (o, t)) :
    Journaled keccak256 s t ∧ t.stateObjects a = some o ∧ o.address = a ∧ o.deleted = false := by
  unfold getOrNewStateObject at hg
  rcases hget : s.getStateObject a with ⟨p, s₁⟩
  rw [hget] at hg
  have h₁ : Journaled keccak256 s s₁ := by simpa [hget] using journaled_getStateObject h a
  cases p with
  | some o' =>
    have hlive := live_of_getStateObject h hget
    simp only [hlive.2.2, Option.filter_some, Bool.not_false, if_true, Prod.mk.injEq] at hg
    obtain ⟨rfl, rfl⟩ := hg
    exact ⟨h₁, hlive⟩
  | none =>
    simp only [Option.filter_none] at hg
    rcases hc : s₁.createObject keccak256 a with ⟨⟨n, prev⟩, t'⟩
    rw [hc] at hg
    simp only [Prod.mk.injEq] at hg
    obtain ⟨rfl, rfl⟩ := hg
    obtain ⟨hJ, hrest⟩ := createObject_spec h₁.wellFormed hc
    exact ⟨h₁.trans hJ, hrest⟩

/-! ### Journaled changes of one object -/

/-- **A journaled change of a live object** `o` into `o'`: undoing the entry `e` changes
the view's account back by `mv`. -/
theorem journaled_set (h : WellFormed s) {o o' : StateObject} {e : JournalEntry}
    (hlive : s.stateObjects o.address = some o) (hd : o.deleted = false)
    (haddr' : o'.address = o.address) (hd' : o'.deleted = false)
    (he : ∀ prev, e = .resetObjectChange prev → prev.deleted = false)
    (mv : AccountView → AccountView)
    (hrev : ∀ (v w : View), v.db = s.db → v.modify o.address mv = some w →
      v.revert keccak256 e = some w)
    (hmv : mv (o'.view keccak256 s.db) = o.view keccak256 s.db) :
    Journaled keccak256 s ((s.append e).setStateObject o') := by
  refine ⟨(h.append he).setStateObject hd', undoes_of_revert (e := e) (by simp [setStateObject, append]) ?_,
    rfl, rfl⟩
  have hw : (s.view keccak256).accounts o.address = some (o.view keccak256 s.db) := by
    rw [view_accounts_getStateObject, getStateObject_of_live hlive hd]
    rfl
  refine hrev _ _ rfl ?_
  rw [view_setStateObject, view_append, hd', haddr']
  exact View.modify_update hw haddr' mv hmv

/-- `touch` appends an entry that undoing ignores. -/
theorem journaled_touch (h : WellFormed s) (o : StateObject) : Journaled keccak256 s (s.touch o) := by
  have hj : (s.touch o).journal.entries = s.journal.entries ++ [.touchChange o.address false false] := by
    unfold touch
    split <;> rfl
  have hv : (s.touch o).view keccak256 = s.view keccak256 := by
    unfold touch
    split <;> simp
  have hwf : WellFormed (s.touch o) := by
    have h₁ := h.append (e := .touchChange o.address false false) (by simp)
    unfold touch
    split
    · exact h₁.dirty _
    · exact h₁
  refine ⟨hwf, undoes_of_revert hj (by rw [hv]; rfl), ?_, ?_⟩ <;>
    · unfold touch
      split <;> rfl

theorem journaled_setBalanceOf (h : WellFormed s) {o : StateObject}
    (hlive : s.stateObjects o.address = some o) (hd : o.deleted = false) (amount : Int) :
    Journaled keccak256 s (s.setBalanceOf o amount) :=
  journaled_set h hlive hd rfl hd (by simp)
    (fun w => { w with data := { w.data with balance := o.data.balance } })
    (fun _ _ _ hw => hw) (by rw [StateObject.view_setBalance]; rfl)

/-! ### The journaled operations -/

theorem journaled_addBalance (h : WellFormed s) (a : Address) (amount : Int) :
    Journaled keccak256 s (s.addBalance keccak256 a amount) := by
  unfold addBalance
  rcases hg : s.getOrNewStateObject keccak256 a with ⟨o, s₁⟩
  obtain ⟨h₁, hlive, rfl, hd⟩ := getOrNewStateObject_spec h hg
  dsimp only
  -- no amount only touches an empty account
  split_ifs
  · exact h₁.trans (journaled_touch h₁.wellFormed o)
  · exact h₁
  · exact h₁.trans (journaled_setBalanceOf h₁.wellFormed hlive hd _)

theorem journaled_subBalance (h : WellFormed s) (a : Address) (amount : Int) :
    Journaled keccak256 s (s.subBalance keccak256 a amount) := by
  unfold subBalance
  rcases hg : s.getOrNewStateObject keccak256 a with ⟨o, s₁⟩
  obtain ⟨h₁, hlive, rfl, hd⟩ := getOrNewStateObject_spec h hg
  dsimp only
  split_ifs
  · exact h₁
  · exact h₁.trans (journaled_setBalanceOf h₁.wellFormed hlive hd _)

theorem journaled_setBalance (h : WellFormed s) (a : Address) (amount : Int) :
    Journaled keccak256 s (s.setBalance keccak256 a amount) := by
  unfold setBalance
  rcases hg : s.getOrNewStateObject keccak256 a with ⟨o, s₁⟩
  obtain ⟨h₁, hlive, rfl, hd⟩ := getOrNewStateObject_spec h hg
  exact h₁.trans (journaled_setBalanceOf h₁.wellFormed hlive hd _)

theorem journaled_setNonce (h : WellFormed s) (a : Address) (nonce : UInt64) :
    Journaled keccak256 s (s.setNonce keccak256 a nonce) := by
  unfold setNonce
  rcases hg : s.getOrNewStateObject keccak256 a with ⟨o, s₁⟩
  obtain ⟨h₁, hlive, rfl, hd⟩ := getOrNewStateObject_spec h hg
  exact h₁.trans (journaled_set h₁.wellFormed hlive hd rfl hd (by simp)
    (fun w => { w with data := { w.data with nonce := o.data.nonce } })
    (fun _ _ _ hw => hw) (by rw [StateObject.view_setNonce]; rfl))

theorem journaled_setCode (h : WellFormed s) (a : Address) (code : List UInt8) :
    Journaled keccak256 s (s.setCode keccak256 a code) := by
  unfold setCode
  rcases hg : s.getOrNewStateObject keccak256 a with ⟨o, s₁⟩
  obtain ⟨h₁, hlive, rfl, hd⟩ := getOrNewStateObject_spec h hg
  dsimp only
  rcases hc : o.Code keccak256 s₁.db with ⟨prevcode, o₂⟩
  dsimp only
  -- loading the code changes neither the view nor the flags of the object
  have hv₂ : o₂.view keccak256 s₁.db = o.view keccak256 s₁.db := by
    have := @StateObject.view_Code keccak256 s₁.db o
    rwa [hc] at this
  have hd₂ : o₂.deleted = o.deleted := by
    have := StateObject.deleted_Code keccak256 s₁.db o
    rwa [hc] at this
  have haddr₂ : o₂.address = o.address := congrArg AccountView.address hv₂
  have hdata₂ : o₂.data = o.data := congrArg AccountView.data hv₂
  have hprev : effectiveCode keccak256 s₁.db o.data.codeHash prevcode =
      (o.view keccak256 s₁.db).code := by
    have := StateObject.effectiveCode_Code keccak256 s₁.db o
    rw [hc] at this
    exact this
  let mv : AccountView → AccountView := fun w =>
    { w with
      data := { w.data with codeHash := o.data.codeHash }
      code := effectiveCode keccak256 s₁.db o.data.codeHash prevcode }
  refine h₁.trans (journaled_set h₁.wellFormed hlive hd (by simp [haddr₂]) (by simp [hd₂, hd])
    (by simp) mv ?_ ?_)
  · intro v w hdb hw
    simp only [View.revert, hdb, haddr₂, hdata₂]
    exact hw
  · rw [StateObject.view_setCode, hv₂, hdata₂]
    simp only [mv, hprev]
    rfl

theorem journaled_setState (h : WellFormed s) (a : Address) (key value : Hash) :
    Journaled keccak256 s (s.setState keccak256 a key value) := by
  unfold setState
  rcases hg : s.getOrNewStateObject keccak256 a with ⟨o, s₁⟩
  obtain ⟨h₁, hlive, rfl, hd⟩ := getOrNewStateObject_spec h hg
  dsimp only
  rcases hs : o.getState s₁.db key with ⟨prevalue, o₂⟩
  dsimp only
  -- reading the value caches it, which the view does not see
  have hv₂ : o₂.view keccak256 s₁.db = o.view keccak256 s₁.db := by
    have := @StateObject.view_getState keccak256 s₁.db o key
    rwa [hs] at this
  have hd₂ : o₂.deleted = o.deleted := by
    have := StateObject.deleted_getState s₁.db o key
    rwa [hs] at this
  have haddr₂ : o₂.address = o.address := congrArg AccountView.address hv₂
  have hprev : prevalue = (o.view keccak256 s₁.db).storage key := by
    have := StateObject.getState_fst s₁.db o key
    rw [hs] at this
    exact this
  refine h₁.trans (journaled_set h₁.wellFormed hlive hd (by simp [haddr₂]) (by simp [hd₂, hd])
    (by simp) (fun w => { w with storage := Function.update w.storage key prevalue }) ?_ ?_)
  · intro v w _ hw
    simp only [View.revert, haddr₂]
    exact hw
  · rw [StateObject.view_setState, hv₂]
    dsimp only
    rw [Function.update_idem, hprev, Function.update_eq_self]

theorem journaled_suicide (h : WellFormed s) (a : Address) :
    Journaled keccak256 s (s.suicide a).2 := by
  unfold suicide
  have h₁ := @journaled_getStateObject keccak256 s h a
  rcases hg : s.getStateObject a with ⟨_ | o, s₁⟩
  · -- no account: nothing but the loading
    simpa [hg] using h₁
  · rw [hg] at h₁
    obtain ⟨hlive, rfl, hd⟩ := live_of_getStateObject h hg
    exact h₁.trans (journaled_set h₁.wellFormed hlive hd rfl hd (by simp)
      (fun w => { w with suicided := o.suicided, data := { w.data with balance := o.data.balance } })
      (fun _ _ _ hw => by simp only [View.revert, hw, Option.getD_some]) rfl)

/-- `CreateAccount` carries the old balance over with no entry of its own: undoing
`createObject` puts back the whole account of the address anyway. -/
theorem journaled_createAccount (h : WellFormed s) (a : Address) :
    Journaled keccak256 s (s.createAccount keccak256 a) := by
  unfold createAccount
  rcases hc : s.createObject keccak256 a with ⟨⟨n, prev⟩, t⟩
  obtain ⟨e, hj, hrev⟩ := createObject_entry h hc
  obtain ⟨hJ, -, hna, hnd⟩ := createObject_spec h hc
  dsimp only
  cases prev with
  | none => exact hJ
  | some p =>
    refine ⟨hJ.wellFormed.setStateObject (by simpa using hnd), undoes_of_revert (by exact hj) ?_,
      hJ.validRevisions, hJ.nextRevisionId⟩
    rw [view_setStateObject, StateObject.address_setBalance, hna]
    exact hrev _

theorem journaled_addRefund (h : WellFormed s) (gas : UInt64) :
    Journaled keccak256 s (s.addRefund gas) := by
  have hv : (s.addRefund gas).view keccak256 = { s.view keccak256 with refund := s.refund + gas } :=
    view_of_objects rfl rfl rfl
  refine ⟨⟨h.address, h.deleted, (h.append (by simp)).entries⟩, undoes_of_revert rfl ?_, rfl, rfl⟩
  rw [hv]
  rfl

theorem journaled_addLog (h : WellFormed s) (log : Log) :
    Journaled keccak256 s (s.addLog log) := by
  let log' : Log := { log with txHash := s.thash, blockHash := s.bhash, txIndex := s.txIndex,
                               index := s.logSize }
  have hv : (s.addLog log).view keccak256 = { s.view keccak256 with
      logs := Function.update s.logs s.thash (s.logs s.thash ++ [log']),
      logSize := s.logSize + 1 } :=
    view_of_objects rfl rfl rfl
  refine ⟨⟨h.address, h.deleted, (h.append (by simp)).entries⟩, undoes_of_revert rfl ?_, rfl, rfl⟩
  rw [hv]
  simp only [View.revert, Function.update_self, List.length_append, List.length_singleton,
    Function.update_idem, UInt64.add_sub_cancel, Nat.add_eq_zero_iff, one_ne_zero, and_false,
    if_false]
  split_ifs with h1
  · -- the transaction's first log: its list was empty
    have hnil : s.logs s.thash = [] := List.eq_nil_of_length_eq_zero (by omega)
    rw [← hnil, Function.update_eq_self]
    rfl
  · rw [List.dropLast_concat, Function.update_eq_self]
    rfl

theorem journaled_addPreimage (h : WellFormed s) (hash : Hash) (preimage : List UInt8) :
    Journaled keccak256 s (s.addPreimage hash preimage) := by
  unfold addPreimage
  split
  · exact Journaled.refl h
  · rename_i hnone
    let t : StateDB := s.append (.addPreimageChange hash)
    have hv : ({ t with preimages := Function.update t.preimages hash (some preimage) } :
        StateDB).view keccak256 =
        { s.view keccak256 with preimages := Function.update s.preimages hash (some preimage) } :=
      view_of_objects rfl rfl rfl
    refine ⟨⟨h.address, h.deleted, (h.append (by simp)).entries⟩, undoes_of_revert rfl ?_, rfl, rfl⟩
    dsimp only at hv ⊢
    rw [hv]
    simp only [View.revert, Function.update_idem]
    rw [← hnone, Function.update_eq_self]
    rfl

end StateDB

end Keccak

end State
