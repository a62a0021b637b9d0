import Dsplinz.Common.Basic
import Dsplinz.Lib.GoSort

/-!
# The state database and its journal

`core/state` keeps the world state of a block in a `StateDB`. The accounts live in an
account trie, and the ones in use are held as *state objects*, which cache their code
and storage and are changed in place. Besides these, the state database holds the refund
counter, the logs of each transaction and the preimages.

Every change is recorded in a *journal* (`journal.go`) as an entry that can undo it. A
snapshot is a position in the journal, and `RevertToSnapshot` undoes the entries after
that position, the last first. Some entries undo a change field by field, such as a
balance, a nonce, a code or a storage slot. Some put a whole object back
(`resetObjectChange`). One deletes the live object, so that the account is read from the
trie again (`createObjectChange`).

This file is the faithful model. Objects are values: the state database holds one object
per address and nothing else points to it. So changing an object in place is, here,
storing a changed copy. The tries and the code database are finite maps that
`core/state` only reads, and reading them cannot fail. A Go panic is an `Except Panic`.
-/

namespace State

open Common

/-- `Account`: the consensus fields of an account, as the trie holds them. Every code hash
the code stores is 32 bytes, a `Hash`. -/
structure Account where
  nonce : UInt64
  balance : Int
  root : Hash
  codeHash : Hash

/-- The database under the state: the storage trie of each root, and the code of each code
hash. -/
structure Database where
  storage : Hash → Hash → Hash
  contractCode : Hash → List UInt8

/-- `types.Log`. -/
structure Log where
  address : Address
  topics : List Hash
  data : List UInt8
  blockNumber : UInt64
  txHash : Hash
  txIndex : Nat
  blockHash : Hash
  index : UInt64
  removed : Bool

/-- `stateObject`. A nil code is `none`. The storage trie handle and the memoized error are
left out: the trie is read through the `Database`, and reading it does not fail. -/
structure StateObject where
  address : Address
  data : Account
  code : Option (List UInt8)
  cachedStorage : Hash → Option Hash
  dirtyStorage : Hash → Option Hash
  dirtyCode : Bool
  suicided : Bool
  deleted : Bool

/-- The entries of the journal, each holding what its `revert` needs. -/
inductive JournalEntry where
  | createObjectChange (account : Address)
  | resetObjectChange (prev : StateObject)
  | suicideChange (account : Address) (prev : Bool) (prevbalance : Int)
  | balanceChange (account : Address) (prev : Int)
  | nonceChange (account : Address) (prev : UInt64)
  | storageChange (account : Address) (key prevalue : Hash)
  | codeChange (account : Address) (prevcode : Option (List UInt8)) (prevhash : Hash)
  | refundChange (prev : UInt64)
  | addLogChange (txhash : Hash)
  | addPreimageChange (hash : Hash)
  | touchChange (account : Address) (prev prevDirty : Bool)

/-- `journal`: the entries, and the number of entries that dirtied each address (zero for
an address the map does not hold). -/
structure Journal where
  entries : List JournalEntry
  dirties : Address → Int

/-- `revision`. -/
structure Revision where
  id : Int
  journalIndex : Nat

/-- `StateDB`. The memoized database error and the lock are left out. -/
structure StateDB where
  db : Database
  trie : Address → Option Account
  stateObjects : Address → Option StateObject
  stateObjectsDirty : Address → Bool
  refund : UInt64
  thash : Hash
  bhash : Hash
  txIndex : Nat
  logs : Hash → List Log
  logSize : UInt64
  preimages : Hash → Option (List UInt8)
  journal : Journal
  validRevisions : List Revision
  nextRevisionId : Int

/-- The panics of the state database. -/
inductive Panic where
  /-- A journal entry's `revert` calls a method on the nil object of an address. -/
  | nilObject
  /-- `logs[:len(logs)-1]` on no logs. -/
  | sliceBounds
  /-- `RevertToSnapshot`: "revision id %v cannot be reverted". -/
  | invalidRevision (id : Int)

/-- `ripemd`, the address `0x…03`, which `touch` marks dirty explicitly. -/
def ripemd : Address := 3

/-- `New(root, db)`, with the account trie `db.OpenTrie(root)` opened: no live object, no
log, an empty journal and no revision. -/
def StateDB.new (db : Database) (trie : Address → Option Account) : StateDB :=
  ⟨db, trie, fun _ => none, fun _ => false, 0, 0, 0, 0, fun _ => [], 0, fun _ => none,
    ⟨[], fun _ => 0⟩, [], 0⟩

/-! ### State objects -/

section Keccak

-- `crypto.Keccak256Hash`
variable (keccak256 : List UInt8 → Hash)

/-- `emptyCodeHash`: the hash of no code. -/
def emptyCodeHash : Hash := keccak256 []

namespace StateObject

/-- `newObject(db, address, data)`, for an account with a balance and a code hash. -/
def new (address : Address) (data : Account) : StateObject :=
  ⟨address, data, none, fun _ => none, fun _ => none, false, false, false⟩

/-- `empty()`: no nonce, no balance and no code. -/
def empty (o : StateObject) : Bool :=
  o.data.nonce = 0 && o.data.balance = 0 && o.data.codeHash = emptyCodeHash keccak256

/-- `GetState(db, key)`: the cached value, or the storage trie's, which is then cached. -/
def getState (db : Database) (o : StateObject) (key : Hash) : Hash × StateObject :=
  match o.cachedStorage key with
  | some value => (value, o)
  | none =>
    let value := db.storage o.data.root key
    (value, { o with cachedStorage := Function.update o.cachedStorage key (some value) })

/-- `setState(key, value)`. -/
def setState (o : StateObject) (key value : Hash) : StateObject :=
  { o with cachedStorage := Function.update o.cachedStorage key (some value),
           dirtyStorage := Function.update o.dirtyStorage key (some value) }

/-- `Code(db)`: the code, loaded from the database and kept unless the code hash is that
of no code. -/
def Code (db : Database) (o : StateObject) : Option (List UInt8) × StateObject :=
  match o.code with
  | some code => (some code, o)
  | none =>
    if o.data.codeHash = emptyCodeHash keccak256 then (none, o)
    else
      let code := db.contractCode o.data.codeHash
      (some code, { o with code := some code })

/-- `setCode(codeHash, code)`. -/
def setCode (o : StateObject) (codeHash : Hash) (code : Option (List UInt8)) : StateObject :=
  { o with code := code, data := { o.data with codeHash := codeHash }, dirtyCode := true }

theorem deleted_getState (db : Database) (o : StateObject) (key : Hash) :
    (o.getState db key).2.deleted = o.deleted := by
  unfold getState
  split <;> rfl

theorem deleted_Code (db : Database) (o : StateObject) :
    (o.Code keccak256 db).2.deleted = o.deleted := by
  unfold Code
  split
  · rfl
  · split <;> rfl

/-- `setBalance(amount)`. -/
def setBalance (o : StateObject) (amount : Int) : StateObject :=
  { o with data := { o.data with balance := amount } }

/-- `setNonce(nonce)`. -/
def setNonce (o : StateObject) (nonce : UInt64) : StateObject :=
  { o with data := { o.data with nonce := nonce } }

/-! The setters keep the address and the deletion flag. -/

@[simp] theorem address_new (address : Address) (data : Account) :
    (new address data).address = address := rfl

@[simp] theorem deleted_new (address : Address) (data : Account) :
    (new address data).deleted = false := rfl

@[simp] theorem address_setBalance (o : StateObject) (amount : Int) :
    (o.setBalance amount).address = o.address := rfl

@[simp] theorem deleted_setBalance (o : StateObject) (amount : Int) :
    (o.setBalance amount).deleted = o.deleted := rfl

@[simp] theorem address_setNonce (o : StateObject) (nonce : UInt64) :
    (o.setNonce nonce).address = o.address := rfl

@[simp] theorem deleted_setNonce (o : StateObject) (nonce : UInt64) :
    (o.setNonce nonce).deleted = o.deleted := rfl

@[simp] theorem address_setCode (o : StateObject) (codeHash : Hash) (code : Option (List UInt8)) :
    (o.setCode codeHash code).address = o.address := rfl

@[simp] theorem deleted_setCode (o : StateObject) (codeHash : Hash) (code : Option (List UInt8)) :
    (o.setCode codeHash code).deleted = o.deleted := rfl

@[simp] theorem address_setState (o : StateObject) (key value : Hash) :
    (o.setState key value).address = o.address := rfl

@[simp] theorem deleted_setState (o : StateObject) (key value : Hash) :
    (o.setState key value).deleted = o.deleted := rfl

end StateObject

/-! ### The journal -/

/-- `dirtied()`: the address an entry changes, if any. -/
def JournalEntry.dirtied : JournalEntry → Option Address
  | .createObjectChange a | .suicideChange a _ _ | .balanceChange a _ | .nonceChange a _
  | .storageChange a _ _ | .codeChange a _ _ | .touchChange a _ _ => some a
  | .resetObjectChange _ | .refundChange _ | .addLogChange _ | .addPreimageChange _ => none

namespace StateDB

/-- `journal.append(entry)`. -/
def append (s : StateDB) (entry : JournalEntry) : StateDB :=
  { s with journal :=
      { entries := s.journal.entries ++ [entry],
        dirties := match entry.dirtied with
          | some a => Function.update s.journal.dirties a (s.journal.dirties a + 1)
          | none => s.journal.dirties } }

/-- `journal.dirty(addr)`. -/
def dirty (s : StateDB) (addr : Address) : StateDB :=
  { s with journal := { s.journal with
      dirties := Function.update s.journal.dirties addr (s.journal.dirties addr + 1) } }

/-- `setStateObject(object)`. -/
def setStateObject (s : StateDB) (o : StateObject) : StateDB :=
  { s with stateObjects := Function.update s.stateObjects o.address (some o) }

/-- `getStateObject(addr)`: the live object unless it is deleted, or the account of the
trie, loaded as a live object. -/
def getStateObject (s : StateDB) (addr : Address) : Option StateObject × StateDB :=
  match s.stateObjects addr with
  | some obj => if obj.deleted then (none, s) else (some obj, s)
  | none =>
    match s.trie addr with
    | none => (none, s)
    | some data =>
      let obj := StateObject.new addr data
      (some obj, s.setStateObject obj)

/-- `createObject(addr)`: a new object in place of the previous one, which is returned. -/
def createObject (s : StateDB) (addr : Address) :
    (StateObject × Option StateObject) × StateDB :=
  let (prev, s) := s.getStateObject addr
  -- `Account{}`, completed by `newObject` with a zero balance and `emptyCodeHash`
  let newobj := (StateObject.new addr ⟨0, 0, 0, emptyCodeHash keccak256⟩).setNonce 0
  let s := match prev with
    | none => s.append (.createObjectChange addr)
    | some prev => s.append (.resetObjectChange prev)
  ((newobj, prev), s.setStateObject newobj)

/-- `GetOrNewStateObject(addr)`. -/
def getOrNewStateObject (s : StateDB) (addr : Address) : StateObject × StateDB :=
  let (stateObject, s) := s.getStateObject addr
  -- `stateObject == nil || stateObject.deleted`
  match stateObject.filter (!·.deleted) with
  | some o => (o, s)
  | none => let ((o, _), s) := s.createObject keccak256 addr; (o, s)

/-! ### Object methods that journal -/

/-- `stateObject.touch()` on the live object `o`. -/
def touch (s : StateDB) (o : StateObject) : StateDB :=
  let s := s.append (.touchChange o.address false false)
  if o.address = ripemd then s.dirty o.address else s

/-- `stateObject.SetBalance(amount)` on the live object `o`. -/
def setBalanceOf (s : StateDB) (o : StateObject) (amount : Int) : StateDB :=
  (s.append (.balanceChange o.address o.data.balance)).setStateObject (o.setBalance amount)

/-! ### Setters -/

/-- `AddBalance(addr, amount)`. -/
def addBalance (s : StateDB) (addr : Address) (amount : Int) : StateDB :=
  let (o, s) := s.getOrNewStateObject keccak256 addr
  -- `stateObject.AddBalance`: no amount only touches an empty account
  if amount = 0 then (if o.empty keccak256 then s.touch o else s)
  else s.setBalanceOf o (o.data.balance + amount)

/-- `SubBalance(addr, amount)`. -/
def subBalance (s : StateDB) (addr : Address) (amount : Int) : StateDB :=
  let (o, s) := s.getOrNewStateObject keccak256 addr
  if amount = 0 then s else s.setBalanceOf o (o.data.balance - amount)

/-- `SetBalance(addr, amount)`. -/
def setBalance (s : StateDB) (addr : Address) (amount : Int) : StateDB :=
  let (o, s) := s.getOrNewStateObject keccak256 addr
  s.setBalanceOf o amount

/-- `SetNonce(addr, nonce)`. -/
def setNonce (s : StateDB) (addr : Address) (nonce : UInt64) : StateDB :=
  let (o, s) := s.getOrNewStateObject keccak256 addr
  (s.append (.nonceChange o.address o.data.nonce)).setStateObject (o.setNonce nonce)

/-- `SetCode(addr, code)`: the previous code is loaded first, to be journaled. -/
def setCode (s : StateDB) (addr : Address) (code : List UInt8) : StateDB :=
  let (o, s) := s.getOrNewStateObject keccak256 addr
  let (prevcode, o) := o.Code keccak256 s.db
  (s.append (.codeChange o.address prevcode o.data.codeHash)).setStateObject
    (o.setCode (keccak256 code) (some code))

/-- `SetState(addr, key, value)`: the previous value is read first, to be journaled. -/
def setState (s : StateDB) (addr : Address) (key value : Hash) : StateDB :=
  let (o, s) := s.getOrNewStateObject keccak256 addr
  let (prevalue, o) := o.getState s.db key
  (s.append (.storageChange o.address key prevalue)).setStateObject (o.setState key value)

/-- `Suicide(addr)`: marks the account and clears its balance. -/
def suicide (s : StateDB) (addr : Address) : Bool × StateDB :=
  match s.getStateObject addr with
  | (none, s) => (false, s)
  | (some o, s) =>
    let s := s.append (.suicideChange addr o.suicided o.data.balance)
    (true, s.setStateObject { o with suicided := true, data := { o.data with balance := 0 } })

/-- `CreateAccount(addr)`: a new account, which keeps the balance of the one it replaces. -/
def createAccount (s : StateDB) (addr : Address) : StateDB :=
  let ((new, prev), s) := s.createObject keccak256 addr
  match prev with
  | some prev => s.setStateObject (new.setBalance prev.data.balance)
  | none => s

end StateDB

end Keccak

namespace StateDB

/-- `AddLog(log)`. -/
def addLog (s : StateDB) (log : Log) : StateDB :=
  let s := s.append (.addLogChange s.thash)
  let log := { log with txHash := s.thash, blockHash := s.bhash, txIndex := s.txIndex,
                        index := s.logSize }
  { s with logs := Function.update s.logs s.thash (s.logs s.thash ++ [log]),
           logSize := s.logSize + 1 }

/-- `AddPreimage(hash, preimage)`: only a new preimage is recorded. -/
def addPreimage (s : StateDB) (hash : Hash) (preimage : List UInt8) : StateDB :=
  match s.preimages hash with
  | some _ => s
  | none =>
    let s := s.append (.addPreimageChange hash)
    { s with preimages := Function.update s.preimages hash (some preimage) }

/-- `AddRefund(gas)`. -/
def addRefund (s : StateDB) (gas : UInt64) : StateDB :=
  let s := s.append (.refundChange s.refund)
  { s with refund := s.refund + gas }

/-! ### Reverting -/

/-- `s.getStateObject(addr).m(...)`: a method of the object of `addr`, which panics when
there is none. -/
def withObject (s : StateDB) (addr : Address) (m : StateObject → StateObject) :
    Except Panic StateDB :=
  match s.getStateObject addr with
  | (none, _) => .error .nilObject
  | (some o, s) => .ok (s.setStateObject (m o))

/-- `journalEntry.revert(statedb)`. -/
def revertEntry (s : StateDB) : JournalEntry → Except Panic StateDB
  | .createObjectChange a =>
    .ok { s with stateObjects := Function.update s.stateObjects a none,
                 stateObjectsDirty := Function.update s.stateObjectsDirty a false }
  | .resetObjectChange prev => .ok (s.setStateObject prev)
  | .suicideChange a prev prevbalance =>
    match s.getStateObject a with
    | (none, s) => .ok s
    | (some o, s) => .ok (s.setStateObject ({ o with suicided := prev }.setBalance prevbalance))
  | .touchChange _ _ _ => .ok s
  | .balanceChange a prev => s.withObject a fun o => o.setBalance prev
  | .nonceChange a prev => s.withObject a fun o => o.setNonce prev
  | .codeChange a prevcode prevhash => s.withObject a fun o => o.setCode prevhash prevcode
  | .storageChange a key prevalue => s.withObject a fun o => o.setState key prevalue
  | .refundChange prev => .ok { s with refund := prev }
  | .addLogChange txhash =>
    let logs := s.logs txhash
    if logs.length = 1 then
      .ok { s with logs := Function.update s.logs txhash [], logSize := s.logSize - 1 }
    else if logs.length = 0 then .error .sliceBounds
    else .ok { s with logs := Function.update s.logs txhash logs.dropLast,
                      logSize := s.logSize - 1 }
  | .addPreimageChange hash => .ok { s with preimages := Function.update s.preimages hash none }

/-- One round of the loop of `journal.revert`: undo the entry, then drop the dirtying it
recorded. -/
def revertOne (entry : JournalEntry) (s : StateDB) : Except Panic StateDB := do
  let s ← s.revertEntry entry
  pure <| match entry.dirtied with
    | some a => { s with journal := { s.journal with
        dirties := Function.update s.journal.dirties a (s.journal.dirties a - 1) } }
    | none => s

/-- The loop of `journal.revert` over the entries `es`, the last first. -/
def revertEntries : List JournalEntry → StateDB → Except Panic StateDB
  | [], s => .ok s
  | e :: es, s => (revertEntries es s).bind (revertOne e)

/-- `journal.revert(statedb, snapshot)`: undo the entries from `snapshot` on, and drop
them. -/
def revertJournal (s : StateDB) (snapshot : Nat) : Except Panic StateDB := do
  let s' ← revertEntries (s.journal.entries.drop snapshot) s
  pure { s' with journal := { s'.journal with entries := s'.journal.entries.take snapshot } }

/-- `Snapshot()`: a new revision at the end of the journal. -/
def snapshot (s : StateDB) : Int × StateDB :=
  let id := s.nextRevisionId
  (id, { s with nextRevisionId := id + 1,
                validRevisions := s.validRevisions ++ [⟨id, s.journal.entries.length⟩] })

/-- `RevertToSnapshot(revid)`: find the revision by binary search, undo the journal down to
it, and drop it and the later revisions. -/
def revertToSnapshot (s : StateDB) (revid : Int) : Except Panic StateDB :=
  let idx := GoSort.search s.validRevisions.length fun i =>
    decide (revid ≤ (s.validRevisions.getD i ⟨0, 0⟩).id)
  match s.validRevisions[idx]? with
  | none => .error (.invalidRevision revid)
  | some r =>
    if r.id ≠ revid then .error (.invalidRevision revid)
    else do
      let s ← s.revertJournal r.journalIndex
      pure { s with validRevisions := s.validRevisions.take idx }

/-! ### Getters -/

section Keccak

variable (keccak256 : List UInt8 → Hash)

/-- `Exist(addr)`: also true for a suicided account. -/
def exist (s : StateDB) (addr : Address) : Bool := (s.getStateObject addr).1.isSome

/-- `Empty(addr)`: no account, or an empty one. -/
def empty (s : StateDB) (addr : Address) : Bool :=
  match (s.getStateObject addr).1 with
  | none => true
  | some o => o.empty keccak256

/-- `GetBalance(addr)`. -/
def getBalance (s : StateDB) (addr : Address) : Int :=
  match (s.getStateObject addr).1 with
  | none => 0
  | some o => o.data.balance

/-- `GetNonce(addr)`. -/
def getNonce (s : StateDB) (addr : Address) : UInt64 :=
  match (s.getStateObject addr).1 with
  | none => 0
  | some o => o.data.nonce

/-- `GetCode(addr)`. -/
def getCode (s : StateDB) (addr : Address) : List UInt8 :=
  match (s.getStateObject addr).1 with
  | none => []
  | some o => ((o.Code keccak256 s.db).1).getD []

/-- `GetCodeHash(addr)`. -/
def getCodeHash (s : StateDB) (addr : Address) : Hash :=
  match (s.getStateObject addr).1 with
  | none => 0
  | some o => o.data.codeHash

/-- `GetState(addr, key)`. -/
def getState (s : StateDB) (addr : Address) (key : Hash) : Hash :=
  match (s.getStateObject addr).1 with
  | none => 0
  | some o => (o.getState s.db key).1

/-- `HasSuicided(addr)`. -/
def hasSuicided (s : StateDB) (addr : Address) : Bool :=
  match (s.getStateObject addr).1 with
  | none => false
  | some o => o.suicided

end Keccak

end StateDB

end State
