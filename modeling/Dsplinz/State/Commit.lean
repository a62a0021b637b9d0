import Dsplinz.State.Snapshot

/-!
# Finalising and committing the state

`Finalise(deleteEmptyObjects)` ends a transaction: for every address the journal marks
dirty, it deletes the live object if it suicided or, when asked, is empty, and otherwise
writes its storage and its account to the tries; then it drops the journal, the revisions
and the refund. `Commit(deleteEmptyObjects)` ends a block the same way over every live
object, deleting only the dirty ones that are empty when asked.

The two disagree on a deleted object. `Finalise` marks it deleted and removes its account
from the trie, but keeps it among the live objects, dirty; a `Commit` that is not asked to
delete empty objects then writes its account back to the trie. The state then holds a
deleted live object over an account of the trie, which `State.WellFormed` rules out and no
journaled operation builds, and a `RevertToSnapshot` of a `CreateAccount` brings the
deleted account back (`State.commit_revert_resurrects`).

The maps the loops range over are given as lists of their keys. The root of a storage trie
after the dirty slots are written is a parameter, `storageRoot`; the root hash `Commit`
returns and the references it adds to the trie database are left out.
-/

namespace State

open Common

section Keccak

variable (keccak256 : List UInt8 → Hash) (storageRoot : Hash → (Hash → Option Hash) → Hash)

/-- `stateObject.updateRoot(db)`, and `CommitTrie(db)`, which writes the same trie: the dirty
slots written to the storage trie (`updateTrie`), and the trie's root. -/
def StateObject.updateRoot (o : StateObject) : StateObject :=
  { o with data := { o.data with root := storageRoot o.data.root o.dirtyStorage },
           dirtyStorage := fun _ => none }

namespace StateDB

/-- `updateStateObject(obj)`: the object's account written to the trie. -/
def updateStateObject (s : StateDB) (o : StateObject) : StateDB :=
  { s with trie := Function.update s.trie o.address (some o.data) }

/-- `deleteStateObject(obj)`: the object marked deleted, and its account removed from the
trie. -/
def deleteStateObject (s : StateDB) (o : StateObject) : StateDB :=
  { s.setStateObject { o with deleted := true } with
    trie := Function.update s.trie o.address none }

/-- `clearJournalAndRefund()`. -/
def clearJournalAndRefund (s : StateDB) : StateDB :=
  { s with journal := ⟨[], fun _ => 0⟩, validRevisions := [], refund := 0 }

/-- The body of `Finalise`'s loop, for the dirty address `addr`. -/
def finaliseAddr (deleteEmptyObjects : Bool) (s : StateDB) (addr : Address) : StateDB :=
  match s.stateObjects addr with
  -- a `touch` of RIPEMD stays dirty when its object is reverted away
  | none => s
  | some o =>
    let s :=
      if o.suicided || (deleteEmptyObjects && o.empty keccak256) then s.deleteStateObject o
      else
        let o := o.updateRoot storageRoot
        (s.setStateObject o).updateStateObject o
    { s with stateObjectsDirty := Function.update s.stateObjectsDirty addr true }

/-- `Finalise(deleteEmptyObjects)`, with `dirties` the addresses `journal.dirties` holds. -/
def finalise (deleteEmptyObjects : Bool) (dirties : List Address) (s : StateDB) : StateDB :=
  (dirties.foldl (finaliseAddr keccak256 storageRoot deleteEmptyObjects) s).clearJournalAndRefund

/-- `Commit`'s write of a dirty object's code to the code database. -/
def commitCode (s : StateDB) (o : StateObject) : StateDB × StateObject :=
  match o.code with
  | some code =>
    if o.dirtyCode then
      ({ s with db := { s.db with
          contractCode := Function.update s.db.contractCode o.data.codeHash code } },
        { o with dirtyCode := false })
    else (s, o)
  | none => (s, o)

/-- The body of `Commit`'s loop, for the live object of `addr`. -/
def commitAddr (deleteEmptyObjects : Bool) (s : StateDB) (addr : Address) : StateDB :=
  match s.stateObjects addr with
  | none => s
  | some o =>
    let isDirty := s.stateObjectsDirty addr
    let s :=
      if o.suicided || (isDirty && deleteEmptyObjects && o.empty keccak256) then
        s.deleteStateObject o
      else if isDirty then
        let (s, o) := s.commitCode o
        let o := o.updateRoot storageRoot
        (s.setStateObject o).updateStateObject o
      else s
    { s with stateObjectsDirty := Function.update s.stateObjectsDirty addr false }

/-- `Commit(deleteEmptyObjects)`, with `dirties` the addresses `journal.dirties` holds and
`objects` those `stateObjects` holds. -/
def commit (deleteEmptyObjects : Bool) (dirties objects : List Address) (s : StateDB) :
    StateDB :=
  let s := { s with stateObjectsDirty := fun a => s.stateObjectsDirty a || decide (a ∈ dirties) }
  (objects.foldl (commitAddr keccak256 storageRoot deleteEmptyObjects) s).clearJournalAndRefund

end StateDB

end Keccak

/-! ### A deleted account comes back -/

section Resurrect

/-- The state after a block that touches the empty account of `1`: `AddBalance(1, 0)`,
`Finalise(true)`, which deletes it, and `Commit(false)`, which writes it back to the trie.
Every hash is `0`, so the account's code hash is that of no code, and a storage root is
kept as it is. -/
def touchedCommitted : StateDB :=
  (((StateDB.new ⟨fun _ _ => 0, fun _ => []⟩ fun a => if a = 1 then some ⟨0, 0, 0, 0⟩ else none
    ).addBalance (fun _ => 0) 1 0).finalise (fun _ => 0) (fun root _ => root) true [1]).commit
    (fun _ => 0) (fun root _ => root) false [] [1]

/-- **`RevertToSnapshot` can bring back a deleted account**, in a state the code builds. After
`Finalise(true)` and `Commit(false)`, the account of `1` is deleted among the live objects
and stored in the trie, so the state is not well formed though its revisions are; `Exist(1)`
is false. `CreateAccount(1)` after a snapshot appends `createObjectChange`, whose undoing
drops the live object, and the account is read from the trie again: reverting to the
snapshot does not give back what `Exist(1)` returned when it was taken. -/
theorem commit_revert_resurrects :
    ¬ WellFormed touchedCommitted ∧ Revisions touchedCommitted ∧
      touchedCommitted.snapshot.2.exist 1 = false ∧
      run (fun _ => 0) [.snapshot, .createAccount 1] touchedCommitted [] =
        .ok (touchedCommitted.snapshot.2.createAccount (fun _ => 0) 1, [touchedCommitted.snapshot]) ∧
      ¬ Restorable (fun _ => 0) (touchedCommitted.snapshot.2.createAccount (fun _ => 0) 1)
        [touchedCommitted.snapshot] := by
  have hgone : touchedCommitted.snapshot.2.exist 1 = false := by decide +kernel
  -- `Finalise` and `Commit` leave no revision
  have hrev : Revisions touchedCommitted :=
    ⟨List.Pairwise.nil, (fun _ h => absurd h List.not_mem_nil), List.Pairwise.nil,
      (fun _ h => absurd h List.not_mem_nil)⟩
  refine ⟨fun hwf => ?_, hrev, hgone, rfl, fun h => ?_⟩
  · -- the live object of `1` is deleted, and its account is in the trie
    have hstored : (touchedCommitted.trie 1).isSome = true := by decide +kernel
    rw [hwf.deleted 1 _ rfl rfl] at hstored
    exact Bool.noConfusion hstored
  rw [Restorable] at h
  obtain ⟨t, ht, hobs, -⟩ := h 0 (by decide)
  -- after the revert the account of `1` exists; at the snapshot it did not
  have hback : t.exist 1 = true := by
    have hrun : ((touchedCommitted.snapshot.2.createAccount (fun _ => 0) 1).revertToSnapshot
        [touchedCommitted.snapshot][0].1).toOption.map (StateDB.exist · 1) = some true := by
      decide +kernel
    rw [ht] at hrun
    exact Option.some.inj hrun
  have hsame : t.exist 1 = touchedCommitted.snapshot.2.exist 1 := congrArg (fun o => o.exist 1) hobs
  rw [hback, hgone] at hsame
  exact Bool.noConfusion hsame

end Resurrect

end State
