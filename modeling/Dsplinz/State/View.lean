import Dsplinz.State.StateDB

/-!
# What a state database shows

The getters of `StateDB` (`Exist`, `Empty`, `GetBalance`, `GetNonce`, `GetCode`,
`GetCodeHash`, `GetState`, `HasSuicided`, `GetRefund`, the logs and the preimages) read the
state through `getStateObject`, which loads accounts into the live set and caches code and
storage as it goes. This file gives the *view* of a state: for every address the account
these getters see, with its effective code and storage, and the other counters.

* `State.StateDB.observe_eq` – every getter reads the view: two states of one view answer
  every getter alike;
* `State.StateDB.view_getStateObject` – loading an account does not change the view;
* `State.StateDB.view_setStateObject` – storing an object changes the view at its address
  only;
* `State.StateDB.view_revertOne` – undoing a journal entry acts on views
  (`State.View.revert`), so that two states of one view undo to states of one view.
-/

namespace State

open Common

section Keccak

variable (keccak256 : List UInt8 → Hash)

/-- What the getters read of an account: its own address, its fields, the code `Code`
returns and the value `GetState` returns for every key. -/
structure AccountView where
  address : Address
  data : Account
  code : List UInt8
  storage : Hash → Hash
  suicided : Bool

/-- What the getters read of a state database, with the tries and the code database,
which nothing here writes. -/
@[ext] structure View where
  db : Database
  trie : Address → Option Account
  accounts : Address → Option AccountView
  refund : UInt64
  logs : Hash → List Log
  logSize : UInt64
  preimages : Hash → Option (List UInt8)

/-- The code `Code(db)` returns for a code hash and a code, nil or not. -/
def effectiveCode (db : Database) (codeHash : Hash) : Option (List UInt8) → List UInt8
  | some code => code
  | none => if codeHash = emptyCodeHash keccak256 then [] else db.contractCode codeHash

/-- The view of an object: a storage value is the cached one or the trie's. -/
def StateObject.view (db : Database) (o : StateObject) : AccountView :=
  ⟨o.address, o.data, effectiveCode keccak256 db o.data.codeHash o.code,
    fun key => (o.cachedStorage key).getD (db.storage o.data.root key), o.suicided⟩

/-- The view of a state database. -/
def StateDB.view (s : StateDB) : View :=
  ⟨s.db, s.trie, fun a => (s.getStateObject a).1.map (StateObject.view keccak256 s.db),
    s.refund, s.logs, s.logSize, s.preimages⟩

/-! ### Getters read the view -/

/-- What the getters return, for every address and key. -/
structure Observation where
  exist : Address → Bool
  empty : Address → Bool
  balance : Address → Int
  nonce : Address → UInt64
  code : Address → List UInt8
  codeHash : Address → Hash
  state : Address → Hash → Hash
  suicided : Address → Bool
  refund : UInt64
  logs : Hash → List Log
  logSize : UInt64
  preimages : Hash → Option (List UInt8)

/-- The getters of a state database. -/
def StateDB.observe (s : StateDB) : Observation :=
  ⟨s.exist, s.empty keccak256, s.getBalance, s.getNonce, s.getCode keccak256, s.getCodeHash,
    s.getState, s.hasSuicided, s.refund, s.logs, s.logSize, s.preimages⟩

/-- The getters, read off a view. -/
def View.observe (v : View) : Observation :=
  ⟨fun a => (v.accounts a).isSome,
   fun a => match v.accounts a with
     | none => true
     | some o => o.data.nonce = 0 && o.data.balance = 0 &&
         o.data.codeHash = emptyCodeHash keccak256,
   fun a => ((v.accounts a).map (·.data.balance)).getD 0,
   fun a => ((v.accounts a).map (·.data.nonce)).getD 0,
   fun a => ((v.accounts a).map (·.code)).getD [],
   fun a => ((v.accounts a).map (·.data.codeHash)).getD 0,
   fun a key => ((v.accounts a).map (·.storage key)).getD 0,
   fun a => ((v.accounts a).map (·.suicided)).getD false,
   v.refund, v.logs, v.logSize, v.preimages⟩

theorem StateObject.code_view (db : Database) (o : StateObject) :
    ((o.Code keccak256 db).1).getD [] = effectiveCode keccak256 db o.data.codeHash o.code := by
  cases h : o.code with
  | some code => simp [StateObject.Code, effectiveCode, h]
  | none =>
    by_cases he : o.data.codeHash = emptyCodeHash keccak256 <;>
      simp [StateObject.Code, effectiveCode, h, he]

/-- The code `Code` returns, taken as a code again, is the one the view shows. -/
theorem StateObject.effectiveCode_Code (db : Database) (o : StateObject) :
    effectiveCode keccak256 db o.data.codeHash (o.Code keccak256 db).1 =
      effectiveCode keccak256 db o.data.codeHash o.code := by
  cases h : o.code with
  | some code => simp [StateObject.Code, h]
  | none =>
    by_cases he : o.data.codeHash = emptyCodeHash keccak256 <;>
      simp [StateObject.Code, effectiveCode, h, he]

theorem StateObject.getState_fst (db : Database) (o : StateObject) (key : Hash) :
    (o.getState db key).1 = (o.cachedStorage key).getD (db.storage o.data.root key) := by
  cases h : o.cachedStorage key <;> simp [StateObject.getState, h]

theorem StateDB.observe_eq (s : StateDB) :
    s.observe keccak256 = (s.view keccak256).observe keccak256 := by
  unfold StateDB.observe View.observe
  -- one goal per getter, over every address (and every key, for the storage)
  congr 1 <;> funext a <;> try funext key
  all_goals
    simp only [StateDB.exist, StateDB.empty, StateDB.getBalance, StateDB.getNonce,
      StateDB.getCode, StateDB.getCodeHash, StateDB.getState, StateDB.hasSuicided, StateDB.view]
    cases (s.getStateObject a).1 <;>
      simp [StateObject.view, StateObject.empty, StateObject.code_view, StateObject.getState_fst]

/-! ### Loading and storing objects -/

namespace StateObject

variable {keccak256} (db : Database)

theorem view_setBalance (o : StateObject) (amount : Int) :
    (o.setBalance amount).view keccak256 db =
      { o.view keccak256 db with data := { o.data with balance := amount } } := by
  simp [view, setBalance]

theorem view_setNonce (o : StateObject) (nonce : UInt64) :
    (o.setNonce nonce).view keccak256 db =
      { o.view keccak256 db with data := { o.data with nonce := nonce } } := by
  simp [view, setNonce]

theorem view_setCode (o : StateObject) (codeHash : Hash) (code : Option (List UInt8)) :
    (o.setCode codeHash code).view keccak256 db =
      { o.view keccak256 db with data := { o.data with codeHash := codeHash },
                                 code := effectiveCode keccak256 db codeHash code } := by
  simp [view, setCode]

theorem view_setState (o : StateObject) (key value : Hash) :
    (o.setState key value).view keccak256 db =
      { o.view keccak256 db with
        storage := Function.update (o.view keccak256 db).storage key value } := by
  simp only [view, setState, AccountView.mk.injEq, true_and, and_true]
  funext k
  by_cases hk : k = key
  · subst hk; simp
  · simp [Function.update_of_ne hk]

/-- Caching a storage value does not change what `GetState` returns. -/
theorem view_getState (o : StateObject) (key : Hash) :
    (o.getState db key).2.view keccak256 db = o.view keccak256 db := by
  cases h : o.cachedStorage key with
  | some v => simp [getState, h]
  | none =>
    simp only [view, getState, h, AccountView.mk.injEq, true_and, and_true]
    funext k
    by_cases hk : k = key
    · subst hk; simp [h]
    · simp [Function.update_of_ne hk]

/-- Caching the code does not change what `Code` returns. -/
theorem view_Code (o : StateObject) : (o.Code keccak256 db).2.view keccak256 db = o.view keccak256 db := by
  cases h : o.code with
  | some c => simp [Code, h]
  | none =>
    by_cases he : o.data.codeHash = emptyCodeHash keccak256
    · simp [Code, h, he]
    · simp [Code, h, he, view, effectiveCode]

end StateObject

namespace StateDB

variable {keccak256}

/-- The object `getStateObject` returns, as a function of the state. -/
theorem getStateObject_fst (s : StateDB) (b : Address) :
    (s.getStateObject b).1 = match s.stateObjects b with
      | some obj => if obj.deleted then none else some obj
      | none => (s.trie b).map (StateObject.new b) := by
  rcases h : s.stateObjects b with _ | obj
  · rcases ht : s.trie b with _ | data <;> simp [getStateObject, h, ht]
  · by_cases hd : obj.deleted <;> simp [getStateObject, h, hd]

theorem getStateObject_setStateObject (s : StateDB) (o : StateObject) (b : Address) :
    (getStateObject (s.setStateObject o) b).1 =
      if b = o.address then (if o.deleted then none else some o) else (getStateObject s b).1 := by
  rw [getStateObject_fst, getStateObject_fst]
  by_cases hb : b = o.address
  · subst hb
    simp [setStateObject]
  · simp [setStateObject, hb]

/-- `getStateObject` returns no deleted object. -/
theorem deleted_of_getStateObject {s : StateDB} {a : Address} {o : StateObject}
    (h : (s.getStateObject a).1 = some o) : o.deleted = false := by
  unfold getStateObject at h
  split at h
  · split at h
    · cases h
    · rename_i hd
      cases h
      simpa using hd
  · split at h
    · cases h
    · cases h
      rfl

theorem view_setStateObject (s : StateDB) (o : StateObject) :
    (s.setStateObject o).view keccak256 =
      { s.view keccak256 with accounts := (Function.update (s.view keccak256).accounts o.address
          (if o.deleted then none else some (o.view keccak256 s.db))) } := by
  -- only the accounts differ
  apply View.ext <;> try rfl
  funext b
  simp only [view]
  rw [getStateObject_setStateObject]
  by_cases hb : b = o.address
  · subst hb
    by_cases hd : o.deleted <;> simp [hd, setStateObject]
  · simp [hb, setStateObject]

/-- Loading an account into the live set does not change the view. -/
theorem view_getStateObject (s : StateDB) (a : Address) :
    (s.getStateObject a).2.view keccak256 = s.view keccak256 := by
  rcases hlive : s.stateObjects a with _ | obj
  · rcases htrie : s.trie a with _ | data
    · simp [getStateObject, hlive, htrie]
    · -- the loaded object is the one the view already reads at `a`
      have hget : s.getStateObject a =
          (some (StateObject.new a data), s.setStateObject (StateObject.new a data)) := by
        simp [getStateObject, hlive, htrie]
      rw [hget, view_setStateObject]
      apply View.ext <;> try rfl
      funext b
      by_cases hb : b = a
      · subst hb
        simp [view, hget, StateObject.new]
      · simp [StateObject.new, Function.update_of_ne hb]
  · simp only [getStateObject, hlive]
    split <;> rfl

@[simp] theorem view_append (s : StateDB) (e : JournalEntry) :
    (s.append e).view keccak256 = s.view keccak256 := by
  simp only [view, getStateObject_fst]
  rfl

@[simp] theorem view_dirty (s : StateDB) (a : Address) :
    (s.dirty a).view keccak256 = s.view keccak256 := by
  simp only [view, getStateObject_fst]
  rfl

/-- A change that leaves the live objects, the trie and the code database alone changes
the view in its counters only. -/
theorem view_of_objects {s t : StateDB} (hdb : t.db = s.db) (htrie : t.trie = s.trie)
    (hobj : t.stateObjects = s.stateObjects) :
    t.view keccak256 =
      { s.view keccak256 with
        refund := t.refund, logs := t.logs, logSize := t.logSize, preimages := t.preimages } := by
  simp only [view, getStateObject_fst, hdb, htrie, hobj]

end StateDB

/-! ### Undoing acts on views -/

/-- An account of the view, changed by `m` at its own address; nothing if there is
none. -/
def View.modify (v : View) (a : Address) (m : AccountView → AccountView) : Option View :=
  (v.accounts a).map fun o =>
    { v with accounts := Function.update v.accounts o.address (some (m o)) }

/-- What undoing an entry does to the view. -/
def View.revert (v : View) : JournalEntry → Option View
  | .createObjectChange a =>
    -- the account is read from the trie again
    some { v with accounts := (Function.update v.accounts a
      ((v.trie a).map fun data => (StateObject.new a data).view keccak256 v.db)) }
  | .resetObjectChange prev =>
    some { v with accounts := (Function.update v.accounts prev.address
      (if prev.deleted then none else some (prev.view keccak256 v.db))) }
  | .suicideChange a prev prevbalance =>
    -- nothing to undo when there is no account
    some ((v.modify a fun o =>
      { o with suicided := prev, data := { o.data with balance := prevbalance } }).getD v)
  | .touchChange _ _ _ => some v
  | .balanceChange a prev => v.modify a fun o => { o with data := { o.data with balance := prev } }
  | .nonceChange a prev => v.modify a fun o => { o with data := { o.data with nonce := prev } }
  | .codeChange a prevcode prevhash => v.modify a fun o =>
    { o with data := { o.data with codeHash := prevhash },
             code := effectiveCode keccak256 v.db prevhash prevcode }
  | .storageChange a key prevalue => v.modify a fun o =>
    { o with storage := Function.update o.storage key prevalue }
  | .refundChange prev => some { v with refund := prev }
  | .addLogChange txhash =>
    let logs := v.logs txhash
    if logs.length = 1 then
      some { v with logs := Function.update v.logs txhash [], logSize := v.logSize - 1 }
    else if logs.length = 0 then none
    else some { v with logs := Function.update v.logs txhash logs.dropLast,
                       logSize := v.logSize - 1 }
  | .addPreimageChange hash => some { v with preimages := Function.update v.preimages hash none }

namespace StateDB

variable {keccak256}

/-- The view's account of `a`, changed by `mv`, is the view after changing the object
`getStateObject` returns by `m`, when `m` does to views what `mv` does. -/
theorem modify_view_of_getStateObject {s s₁ : StateDB} {a : Address} {o : StateObject}
    (h : s.getStateObject a = (some o, s₁)) (m : StateObject → StateObject)
    (mv : AccountView → AccountView) (hm : (m o).address = o.address ∧ (m o).deleted = o.deleted ∧
      (m o).view keccak256 s.db = mv (o.view keccak256 s.db)) :
    (s.view keccak256).modify a mv = some ((s₁.setStateObject (m o)).view keccak256) := by
  have hd : o.deleted = false := deleted_of_getStateObject (by rw [h])
  have hv : s₁.view keccak256 = s.view keccak256 := by
    have := @view_getStateObject keccak256 s a
    rwa [h] at this
  have hdb : s₁.db = s.db := congrArg View.db hv
  obtain ⟨haddr, hdel, hview⟩ := hm
  rw [view_setStateObject, hv, hdb, hdel, hd, if_neg (by simp), hview, haddr]
  simp [View.modify, view, h, StateObject.view]

theorem modify_view_of_getStateObject_none {s : StateDB} {a : Address}
    (h : (s.getStateObject a).1 = none) (mv : AccountView → AccountView) :
    (s.view keccak256).modify a mv = none := by
  simp [View.modify, view, h]

theorem view_withObject (s : StateDB) (a : Address) (m : StateObject → StateObject)
    (mv : AccountView → AccountView) (hm : ∀ o : StateObject, (m o).address = o.address ∧
      (m o).deleted = o.deleted ∧ (m o).view keccak256 s.db = mv (o.view keccak256 s.db)) :
    (s.withObject a m).toOption.map (view keccak256) = (s.view keccak256).modify a mv := by
  unfold withObject
  rcases h : s.getStateObject a with ⟨_ | o, s₁⟩
  · rw [modify_view_of_getStateObject_none (by rw [h])]
    rfl
  · rw [modify_view_of_getStateObject h m mv (hm o)]
    rfl

/-- **Undoing an entry acts on views.** -/
theorem view_revertEntry (s : StateDB) (e : JournalEntry) :
    (s.revertEntry e).toOption.map (view keccak256) = (s.view keccak256).revert keccak256 e := by
  cases e with
  | createObjectChange a =>
    simp only [revertEntry, View.revert, Except.toOption, Option.map_some]
    congr 1
    apply View.ext <;> try rfl
    funext b
    by_cases hb : b = a
    · subst hb
      simp [view, getStateObject_fst, Function.comp_def]
    · simp [view, getStateObject_fst, Function.update_of_ne hb]
  | resetObjectChange prev =>
    simp only [revertEntry, View.revert, Except.toOption, Option.map_some, view_setStateObject]
    rfl
  | suicideChange a prev prevbalance =>
    simp only [revertEntry, View.revert]
    rcases h : s.getStateObject a with ⟨_ | o, s₁⟩
    · rw [modify_view_of_getStateObject_none (by rw [h])]
      have hv := @view_getStateObject keccak256 s a
      rw [h] at hv
      simp [Except.toOption, hv]
    · rw [modify_view_of_getStateObject h (fun o => { o with suicided := prev }.setBalance prevbalance)
        (fun o => { o with suicided := prev, data := { o.data with balance := prevbalance } })
        ⟨rfl, rfl, by simp [StateObject.view, StateObject.setBalance]⟩]
      rfl
  | touchChange _ _ _ => rfl
  | balanceChange a prev =>
    exact view_withObject s a _ _ fun o => ⟨rfl, rfl, StateObject.view_setBalance s.db o prev⟩
  | nonceChange a prev =>
    exact view_withObject s a _ _ fun o => ⟨rfl, rfl, StateObject.view_setNonce s.db o prev⟩
  | codeChange a prevcode prevhash =>
    exact view_withObject s a _ _ fun o =>
      ⟨rfl, rfl, StateObject.view_setCode s.db o prevhash prevcode⟩
  | storageChange a key prevalue =>
    exact view_withObject s a _ _ fun o =>
      ⟨rfl, rfl, StateObject.view_setState s.db o key prevalue⟩
  | refundChange prev =>
    simp only [revertEntry, View.revert, Except.toOption, Option.map_some]
    simp only [view, getStateObject_fst]
  | addLogChange txhash =>
    have hlogs : (s.view keccak256).logs = s.logs := rfl
    have hsize : (s.view keccak256).logSize = s.logSize := rfl
    simp only [revertEntry, View.revert, hlogs, hsize]
    split_ifs <;> simp [Except.toOption, view, getStateObject_fst]
  | addPreimageChange hash =>
    simp only [revertEntry, View.revert, Except.toOption, Option.map_some]
    simp only [view, getStateObject_fst]

/-- The bookkeeping of the dirtied addresses is not in the view. -/
theorem view_revertOne (s : StateDB) (e : JournalEntry) :
    (revertOne e s).toOption.map (view keccak256) = (s.view keccak256).revert keccak256 e := by
  rw [← view_revertEntry]
  unfold revertOne
  rcases s.revertEntry e with p | s'
  · rfl
  · simp only [Except.toOption, bind, Except.bind, pure, Except.pure, Option.map_some]
    split <;> simp only [view, getStateObject_fst]

end StateDB

end Keccak

end State
