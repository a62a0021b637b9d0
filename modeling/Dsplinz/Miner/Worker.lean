import Dsplinz.Core.StateTransition
import Dsplinz.Core.PriceAndNonce
import Dsplinz.State.Snapshot

/-!
# The miner's commit loop and the block's gas pool

`Work.commitTransactions` of `miner/worker.go` fills the block being built. It makes the
block's `GasPool` from the header's `GasLimit`, and then, while the pool holds at least
`params.TxGas`, peeks the best transaction, and `commitTransaction` applies it on a
snapshot of the state: `core.ApplyTransaction` runs `TransitionDb` and adds the gas used to
the header's `GasUsed`, and an error reverts the state to the snapshot. By the error, the
loop then `Pop`s the transaction's account or `Shift`s to its next transaction.

The accounting the loop keeps is `Miner.Accounts`: the pool and `GasUsed` together never
exceed `GasLimit`, `GasUsed` is the sum of the receipts' gas, and each receipt's cumulative
gas is the sum up to it (`Miner.commitLoop_accounts`, `Miner.commitTransactions_accounts`).
They do not stay equal to `GasLimit`: `RevertToSnapshot` restores the state but not the pool,
and `TransitionDb` returns two errors after `buyGas` took the transaction's gas from it,
without giving it back. Such a transaction leaves the pool lower by its gas, and `GasUsed`
and the receipts as they were (`Miner.commitTransaction_leaks_gas`), which
`Miner.commitStep_total` states for every round of the loop.

The state is any implementation of `Core.StateOps`; `Miner.stateDBOps` is the one of
`*state.StateDB` in the model of `State`. The logs the loop collects and the events it posts
are not modelled. The loop runs for at most `fuel` rounds.
-/

namespace Miner

open Common Core PanicState

/-- `types.Receipt`, with the fields of the gas accounting. -/
structure Receipt where
  failed : Bool
  cumulativeGasUsed : UInt64
  gasUsed : UInt64

/-- What the miner reads of a transaction and of the chain at the block's height: the
sender of `types.Sender(types.MakeSigner(config, header.Number), tx)` (`none` for its
error), `tx.To()`, `tx.Data()`, `tx.Hash()`, `tx.Protected()`, the forks
`config.IsEIP155` and `config.IsHomestead` at the block, and the coinbase. -/
structure Chain where
  signer : Transaction → Option Address
  recipient : Transaction → Option Address
  payload : Transaction → List UInt8
  hash : Transaction → Hash
  isProtected : Transaction → Bool
  eip155 : Bool
  homestead : Bool
  coinbase : Address

/-- `tx.AsMessage(signer)`: a message whose nonce is checked. -/
def Chain.asMessage (c : Chain) (tx : Transaction) : Except TxError Message :=
  match c.signer tx with
  | none => .error .invalidSender
  | some fromAddr =>
    .ok { fromAddr, toAddr := c.recipient tx, gasPrice := tx.price, gas := tx.gasLimit,
          value := tx.amount, nonce := tx.accountNonce, checkNonce := true,
          data := c.payload tx }

theorem Chain.asMessage_gas {c : Chain} {tx : Transaction} {msg : Message}
    (h : c.asMessage tx = .ok msg) : msg.gas = tx.gas := by
  unfold Chain.asMessage at h
  split at h
  · cases h
  · cases h
    rfl

/-- `Work`: the block being built, with the fields the commit loop reads and writes: the
header's `GasLimit` and `GasUsed`, and the pool, nil until `commitTransactions` makes it. -/
structure Work (σ : Type) where
  state : σ
  gasLimit : UInt64
  gasUsed : UInt64
  tcount : Nat
  gasPool : Option UInt64
  txs : List Transaction
  receipts : List Receipt

/-- The set the loop draws from. -/
abbrev Txs := TransactionsByPriceAndNonce Address

/-- `*state.StateDB` as the `vm.StateDB` the miner runs on, with `Prepare`, which sets the
hashes and index its logs carry. `Finalise` is not in the model of `State`: it is given. -/
def stateDBOps (keccak256 : List UInt8 → Hash) (finalise : State.StateDB → State.StateDB) :
    StateOps State.StateDB where
  getBalance := State.StateDB.getBalance
  subBalance := State.StateDB.subBalance keccak256
  addBalance := State.StateDB.addBalance keccak256
  getNonce := State.StateDB.getNonce
  setNonce := State.StateDB.setNonce keccak256
  getRefund := State.StateDB.refund
  snapshot := State.StateDB.snapshot
  revertToSnapshot s revid := (s.revertToSnapshot revid).toOption
  prepare s thash bhash ti := { s with thash, bhash, txIndex := ti }
  finalise := finalise

section Commit

variable {σ : Type} (ops : StateOps σ) (I : Interpreter σ) (c : Chain)

/-- `core.ApplyTransaction(config, bc, &coinbase, gp, statedb, header, tx, &usedGas, cfg)`:
the receipt and the new `usedGas`. -/
def applyTransaction (usedGas : UInt64) (tx : Transaction) :
    M (World σ) TxError Panic (Receipt × UInt64) := do
  let msg ← PanicState.ofExcept (c.asMessage tx)
  let (gas, failed) ← transitionDb ops I c.homestead c.coinbase msg
  -- `Finalise(true)` from Byzantium on, the writes of `IntermediateRoot` before it
  modify fun (w : World σ) => { w with state := ops.finalise w.state }
  let usedGas := usedGas + gas
  pure (⟨failed, usedGas, gas⟩, usedGas)

/-- `env.commitTransaction(tx, bc, coinbase, gp)`: `ApplyTransaction` from a snapshot, to
which an error reverts the state. It returns the error, the work and the pool. -/
def commitTransaction (env : Work σ) (gp : UInt64) (tx : Transaction) :
    Except Panic (Option TxError × Work σ × UInt64) := do
  let (snap, state) := ops.snapshot env.state
  let (r, w) ← run (applyTransaction ops I c env.gasUsed tx) ⟨state, gp⟩
  match r with
  | .error err =>
    match ops.revertToSnapshot w.state snap with
    | none => throw .revert
    | some state => pure (some err, { env with state }, w.gp)
  | .ok (receipt, gasUsed) =>
    pure (none, { env with state := w.state, gasUsed, txs := env.txs ++ [tx],
                           receipts := env.receipts ++ [receipt] }, w.gp)

variable (sender : Transaction → Address)

/-- The switch on the error of `commitTransaction`: `ErrGasLimitReached` and
`ErrNonceTooHigh` pop the account, the rest shift to its next transaction. -/
def nextTxs (txs : Txs) : Option TxError → Option Txs
  | some .gasLimitReached => txs.pop
  | some .nonceTooLow => txs.shift sender
  | some .nonceTooHigh => txs.pop
  | none => txs.shift sender
  | some _ => txs.shift sender

/-- One round of the loop of `commitTransactions`, on the work, the pool and the set: `none`
where the loop breaks. -/
def commitStep (env : Work σ) (gp : UInt64) (txs : Txs) :
    Except Panic (Option (Work σ × UInt64 × Txs)) :=
  if gp < Params.txGas then .ok none
  else
    match txs.peek with
    | none => .ok none
    | some tx =>
      -- a replay protected transaction before EIP155 is popped with its account
      if c.isProtected tx && !c.eip155 then
        match txs.pop with
        | none => .error .emptyHeap
        | some txs => .ok (some (env, gp, txs))
      else do
        let env := { env with state := ops.prepare env.state (c.hash tx) 0 env.tcount }
        let (err, env, gp) ← commitTransaction ops I c env gp tx
        let env := if err = none then { env with tcount := env.tcount + 1 } else env
        match nextTxs sender txs err with
        | none => throw .emptyHeap
        | some txs => pure (some (env, gp, txs))

/-- `ApplyTransaction` leaves the pool as `TransitionDb` does, and a receipt whose gas is the
gas used and whose cumulative gas is the new `usedGas`. -/
theorem applyTransaction_spec (usedGas : UInt64) (tx : Transaction) (w : World σ) :
    ∃ r w', run (applyTransaction ops I c usedGas tx) w = .ok (r, w') ∧
      PoolAfter tx.gas w.gp w'.gp (r.map fun p => (p.1.gasUsed, p.1.failed)) ∧
      ∀ receipt u, r = .ok (receipt, u) →
        receipt.cumulativeGasUsed = usedGas + receipt.gasUsed ∧ u = receipt.cumulativeGasUsed := by
  rw [applyTransaction, run_bind, run_ofExcept]
  rcases hmsg : c.asMessage tx with e | msg
  · -- no sender: nothing was bought
    refine ⟨_, _, rfl, .unbought ?_, fun _ _ h => by cases h⟩
    unfold Chain.asMessage at hmsg
    split at hmsg <;> cases hmsg
    rfl
  have hgas := Chain.asMessage_gas hmsg
  dsimp only
  obtain ⟨r, w', hrun, hpool⟩ := transitionDb_pool ops I c.homestead c.coinbase msg w
  rw [hgas] at hpool
  rcases r with e | ⟨gas, failed⟩
  · exact ⟨_, _, by rw [run_bind_error hrun], hpool, fun _ _ h => by cases h⟩
  · rw [run_bind_ok hrun, run_bind_ok (run_modify _ _), run_pure]
    exact ⟨_, _, rfl, hpool, fun _ _ h => by cases h; exact ⟨rfl, rfl⟩⟩

/-- What `commitTransaction` does to the work and the pool: a rejected transaction leaves
the work as it was but for the state, and the pool as `TransitionDb` left it; an included
one adds its receipt, and its gas to `GasUsed`. -/
inductive Committed (env : Work σ) (gp : UInt64) (tx : Transaction) :
    Option TxError → Work σ → UInt64 → Prop
  | rejected {e : TxError} {gp' : UInt64} (state : σ) :
      PoolAfter tx.gas gp gp' (.error e) → Committed env gp tx (some e) { env with state } gp'
  | included {gp' : UInt64} (state : σ) (receipt : Receipt) :
      PoolAfter tx.gas gp gp' (.ok (receipt.gasUsed, receipt.failed)) →
      receipt.cumulativeGasUsed = env.gasUsed + receipt.gasUsed →
      Committed env gp tx none
        { env with state, gasUsed := receipt.cumulativeGasUsed, txs := env.txs ++ [tx],
                   receipts := env.receipts ++ [receipt] } gp'

theorem commitTransaction_committed {env env' : Work σ} {gp gp' : UInt64} {tx : Transaction}
    {err : Option TxError} (h : commitTransaction ops I c env gp tx = .ok (err, env', gp')) :
    Committed env gp tx err env' gp' := by
  unfold commitTransaction at h
  rcases hsnap : ops.snapshot env.state with ⟨snap, state⟩
  obtain ⟨r, w', hrun, hpool, hreceipt⟩ := applyTransaction_spec ops I c env.gasUsed tx ⟨state, gp⟩
  rw [hsnap] at h
  dsimp only at h
  rw [hrun] at h
  simp only [bind, Except.bind] at h
  rcases r with e | ⟨receipt, u⟩
  · -- the state goes back to the snapshot, the pool stays where `TransitionDb` left it
    rcases hrev : ops.revertToSnapshot w'.state snap with _ | state'
    · rw [hrev] at h
      cases h
    · rw [hrev] at h
      cases h
      exact .rejected _ hpool
  · obtain ⟨hcum, rfl⟩ := hreceipt receipt u rfl
    cases h
    exact .included _ receipt hpool hcum

/-- `commitTransaction` of a transaction that `ApplyTransaction` rejects. -/
theorem commitTransaction_of_error {env : Work σ} {gp : UInt64} {tx : Transaction}
    {e : TxError} {w : World σ} {s : σ}
    (hrun : run (applyTransaction ops I c env.gasUsed tx) ⟨(ops.snapshot env.state).2, gp⟩ =
      .ok (.error e, w))
    (hrev : ops.revertToSnapshot w.state (ops.snapshot env.state).1 = some s) :
    commitTransaction ops I c env gp tx = .ok (some e, { env with state := s }, w.gp) := by
  unfold commitTransaction
  rcases hsnap : ops.snapshot env.state with ⟨snap, state⟩
  rw [hsnap] at hrun hrev
  dsimp only
  rw [hrun]
  simp only [bind, Except.bind]
  rw [hrev]
  rfl

/-- **A transaction rejected after `buyGas` leaks its gas.** When `commitTransaction` returns
`ErrOutOfGas` or `ErrInsufficientBalance`, which `TransitionDb` returns after taking the
transaction's gas from the pool, the pool stays lower by that gas, while `GasUsed` and the
receipts are as they were. -/
theorem commitTransaction_leaks_gas {env env' : Work σ} {gp gp' : UInt64} {tx : Transaction}
    {e : TxError} (h : commitTransaction ops I c env gp tx = .ok (some e, env', gp'))
    (he : e.afterBuyGas = true) :
    gp'.toNat + tx.gas.toNat = gp.toNat ∧ env'.gasUsed = env.gasUsed ∧
      env'.receipts = env.receipts := by
  cases commitTransaction_committed ops I c h with
  | rejected state hpool =>
    cases hpool with
    | unbought he' => rw [he] at he'; cases he'
    | leaked _ hgp => exact ⟨hgp, rfl, rfl⟩

end Commit

/-! ### A transaction short of its intrinsic gas

The sender `1` holds 1000000 wei and its nonce is `0`. Its transaction of nonce `0` pays
1 wei a gas for 20000 gas, short of the 21000 of a call's intrinsic gas. With a pool of
100000 gas, `buyGas` takes the 20000, `TransitionDb` returns `ErrOutOfGas`, and the state
goes back to the snapshot; the pool stays at 80000, with no gas used. -/

/-- An interpreter for the input below, which never reaches the EVM: it runs nothing. -/
def idle : Interpreter State.StateDB :=
  ⟨fun s _ _ _ gas _ => (gas, none, s), fun s _ _ gas _ => (gas, none, s),
    fun _ _ _ _ _ _ => UInt64.le_refl _, fun _ _ _ _ _ => UInt64.le_refl _⟩

/-- Every transaction is of `1`, to `2`, with no data. -/
def shortChain : Chain :=
  ⟨fun _ => some 1, fun _ => some 2, fun _ => [], fun _ => 0, fun _ => false, true, true, 3⟩

def shortTx : Transaction := ⟨0, 1, 20000, 0⟩

/-- A state whose trie holds the account of `1` alone. -/
def shortState : State.StateDB :=
  State.StateDB.new ⟨fun _ _ => 0, fun _ => []⟩ fun a =>
    if a = 1 then some ⟨0, 1000000, 0, 0⟩ else none

def shortWork : Work State.StateDB := ⟨shortState, 100000, 0, 0, none, [], []⟩

theorem commitTransaction_leaks_gas_short_tx :
    ∃ env', commitTransaction (stateDBOps (fun _ => 0) id) idle shortChain shortWork 100000
        shortTx = .ok (some .outOfGas, env', 80000) ∧
      (80000 : UInt64).toNat + shortTx.gas.toNat = (100000 : UInt64).toNat ∧
      env'.gasUsed = shortWork.gasUsed ∧ env'.receipts = shortWork.receipts := by
  -- `RevertToSnapshot` finds the one revision by its binary search
  have hsearch : GoSort.search 1 (fun i => decide ((0 : Int) ≤
      (([⟨0, 0⟩] : List State.Revision).getD i ⟨0, 0⟩).id)) = 0 :=
    GoSort.search_key_eq (fun a b hab hb => by omega) Nat.one_pos
  have hget : (shortState.snapshot.2.subBalance (fun _ => 0) 1 20000).validRevisions[
      GoSort.search (shortState.snapshot.2.subBalance (fun _ => 0) 1 20000).validRevisions.length
        fun i => decide ((0 : Int) ≤ ((shortState.snapshot.2.subBalance (fun _ => 0) 1
          20000).validRevisions.getD i ⟨0, 0⟩).id)]? = some ⟨0, 0⟩ := by
    change ([⟨0, 0⟩] : List State.Revision)[GoSort.search 1 (fun i => decide ((0 : Int) ≤
      (([⟨0, 0⟩] : List State.Revision).getD i ⟨0, 0⟩).id))]? = _
    rw [hsearch]
    rfl
  obtain ⟨s, hrev⟩ : ∃ s, (stateDBOps (fun _ => 0) id).revertToSnapshot
      (shortState.snapshot.2.subBalance (fun _ => 0) 1 20000) shortState.snapshot.1 = some s := by
    change ∃ s, (State.StateDB.revertToSnapshot _ 0).toOption = some s
    rw [State.StateDB.revertToSnapshot_found hget rfl]
    exact ⟨_, rfl⟩
  -- the intrinsic gas fails after `buyGas` took the 20000
  have hrun : run (applyTransaction (stateDBOps (fun _ => 0) id) idle shortChain
      shortWork.gasUsed shortTx) ⟨((stateDBOps (fun _ => 0) id).snapshot shortWork.state).2, 100000⟩ =
        .ok (.error .outOfGas, ⟨shortState.snapshot.2.subBalance (fun _ => 0) 1 20000, 80000⟩) :=
    rfl
  have h := commitTransaction_of_error _ _ _ hrun hrev
  exact ⟨_, h, commitTransaction_leaks_gas _ _ _ h rfl⟩

section Loop

variable {σ : Type} (ops : StateOps σ) (I : Interpreter σ) (c : Chain)
  (sender : Transaction → Address)

/-! ### The accounting of the loop -/

/-- The gas accounting of the block being built, with the pool `gp`: the pool and `GasUsed`
stay within `GasLimit`, `GasUsed` is the gas of the receipts, and each receipt's cumulative
gas is the gas of the receipts up to it. -/
structure Accounts (env : Work σ) (gp : UInt64) : Prop where
  pool : gp.toNat + env.gasUsed.toNat ≤ env.gasLimit.toNat
  gasUsed : env.gasUsed.toNat = (env.receipts.map fun r => r.gasUsed.toNat).sum
  cumulative : ∀ i (hi : i < env.receipts.length),
    env.receipts[i].cumulativeGasUsed.toNat =
      ((env.receipts.take (i + 1)).map fun r => r.gasUsed.toNat).sum

/-- The accounting reads the header and the receipts only. -/
theorem Accounts.congr {env env' : Work σ} {gp : UInt64} (ha : Accounts env gp)
    (hl : env'.gasLimit = env.gasLimit) (hu : env'.gasUsed = env.gasUsed)
    (hr : env'.receipts = env.receipts) : Accounts env' gp where
  pool := by rw [hl, hu]; exact ha.pool
  gasUsed := by rw [hu, hr]; exact ha.gasUsed
  cumulative := by rw [hr]; exact ha.cumulative

/-- The work as `makeCurrent` makes it, with no gas used and no receipt, accounts for the
pool of the whole `GasLimit`. -/
theorem Accounts.fresh {env : Work σ} (h₀ : env.gasUsed = 0) (hr : env.receipts = []) :
    Accounts env env.gasLimit where
  pool := by rw [h₀]; exact Nat.le_refl _
  gasUsed := by rw [h₀, hr]; rfl
  cumulative := fun i hi => by rw [hr] at hi; cases hi

/-- Including a receipt of gas `g`, taken from the pool, keeps the accounting. -/
theorem Accounts.include {env : Work σ} {gp gp' : UInt64} (ha : Accounts env gp) (s : σ)
    {tx : Transaction} (receipt : Receipt)
    (hgp : gp'.toNat + receipt.gasUsed.toNat = gp.toNat)
    (hcum : receipt.cumulativeGasUsed = env.gasUsed + receipt.gasUsed) :
    Accounts { env with state := s, gasUsed := receipt.cumulativeGasUsed, txs := env.txs ++ [tx],
                        receipts := env.receipts ++ [receipt] } gp' := by
  -- the gas used fits in `uint64`, as the pool lent it
  have hfit : env.gasUsed.toNat + receipt.gasUsed.toNat < 2 ^ 64 :=
    Nat.lt_of_le_of_lt (by have := ha.pool; omega) env.gasLimit.toNat_lt
  have hsum : receipt.cumulativeGasUsed.toNat = env.gasUsed.toNat + receipt.gasUsed.toNat := by
    rw [hcum, UInt64.toNat_add, Nat.mod_eq_of_lt hfit]
  refine ⟨?_, ?_, fun i hi => ?_⟩
  · change gp'.toNat + receipt.cumulativeGasUsed.toNat ≤ env.gasLimit.toNat
    have := ha.pool
    omega
  · change receipt.cumulativeGasUsed.toNat = ((env.receipts ++ [receipt]).map _).sum
    rw [List.map_append, List.sum_append, ← ha.gasUsed, hsum]
    rfl
  · change i < (env.receipts ++ [receipt]).length at hi
    change (env.receipts ++ [receipt])[i].cumulativeGasUsed.toNat =
      (((env.receipts ++ [receipt]).take (i + 1)).map _).sum
    rw [List.length_append, List.length_singleton] at hi
    rcases Nat.lt_succ_iff_lt_or_eq.mp hi with hi | rfl
    · -- an earlier receipt
      rw [List.getElem_append_left hi, List.take_append_of_le_length hi, ha.cumulative i hi]
    · -- the new receipt: its cumulative gas is the whole sum
      rw [List.getElem_append_right (Nat.le_refl _), List.take_of_length_le (by simp),
        List.map_append, List.sum_append, ← ha.gasUsed]
      simp only [Nat.sub_self, List.getElem_cons_zero, hsum, List.map_cons, List.map_nil,
        List.sum_cons, List.sum_nil, Nat.add_zero]

theorem Committed.accounts {env env' : Work σ} {gp gp' : UInt64} {tx : Transaction}
    {err : Option TxError} (hc : Committed env gp tx err env' gp') (ha : Accounts env gp) :
    Accounts env' gp' := by
  cases hc with
  | rejected state hpool =>
    -- a rejected transaction gives back its gas, or leaks it
    have ha' : Accounts { env with state } gp := ha.congr rfl rfl rfl
    cases hpool with
    | unbought _ => exact ha'
    | leaked _ hgp => exact ⟨by have := ha'.pool; omega, ha'.gasUsed, ha'.cumulative⟩
  | included state receipt hpool hcum =>
    cases hpool with
    | used _ _ hgp => exact ha.include state receipt hgp hcum

/-- What a transaction takes from the pool and `GasUsed` together: nothing, or its whole gas
when it is rejected after `buyGas`. -/
theorem Committed.total {env env' : Work σ} {gp gp' : UInt64} {tx : Transaction}
    {err : Option TxError} (hc : Committed env gp tx err env' gp') (ha : Accounts env gp) :
    gp'.toNat + env'.gasUsed.toNat = gp.toNat + env.gasUsed.toNat ∨
      gp'.toNat + env'.gasUsed.toNat + tx.gas.toNat = gp.toNat + env.gasUsed.toNat := by
  cases hc with
  | rejected state hpool =>
    cases hpool with
    | unbought _ => exact .inl rfl
    | leaked _ hgp => exact .inr (by change gp'.toNat + env.gasUsed.toNat + _ = _; omega)
  | included state receipt hpool hcum =>
    cases hpool with
    | used _ _ hgp =>
      have hfit : env.gasUsed.toNat + receipt.gasUsed.toNat < 2 ^ 64 :=
        Nat.lt_of_le_of_lt (by have := ha.pool; omega) env.gasLimit.toNat_lt
      refine .inl ?_
      change gp'.toNat + receipt.cumulativeGasUsed.toNat = _
      rw [hcum, UInt64.toNat_add, Nat.mod_eq_of_lt hfit]
      omega

/-- The round of the loop that commits `tx`: the work after `Prepare` goes through
`commitTransaction`. -/
theorem commitStep_committed {env env' : Work σ} {gp gp' : UInt64} {txs txs' : Txs}
    (h : commitStep ops I c sender env gp txs = .ok (some (env', gp', txs'))) :
    env' = env ∧ gp' = gp ∨
      ∃ tx err env₁, txs.peek = some tx ∧
        Committed { env with state := ops.prepare env.state (c.hash tx) 0 env.tcount } gp tx
          err env₁ gp' ∧
        env' = if err = none then { env₁ with tcount := env₁.tcount + 1 } else env₁ := by
  unfold commitStep at h
  split at h
  · cases h
  rcases hpeek : txs.peek with _ | tx
  · simp only [hpeek] at h
    cases h
  simp only [hpeek] at h
  split at h
  · -- the protected transaction is popped
    split at h
    · cases h
    · cases h
      exact .inl ⟨rfl, rfl⟩
  rcases hcommit : commitTransaction ops I c
    { env with state := ops.prepare env.state (c.hash tx) 0 env.tcount } gp tx with
    p | ⟨err, env₁, gp₁⟩
  · rw [hcommit] at h
    cases h
  rw [hcommit] at h
  simp only [bind, Except.bind] at h
  split at h
  · cases h
  · cases h
    exact .inr ⟨tx, err, env₁, rfl, commitTransaction_committed ops I c hcommit, rfl⟩

/-- **Every round of the loop**: the pool and `GasUsed` together stay as they were, or lose
the whole gas of the transaction the round peeked. -/
theorem commitStep_total {env env' : Work σ} {gp gp' : UInt64} {txs txs' : Txs}
    (ha : Accounts env gp)
    (h : commitStep ops I c sender env gp txs = .ok (some (env', gp', txs'))) :
    gp'.toNat + env'.gasUsed.toNat = gp.toNat + env.gasUsed.toNat ∨
      ∃ tx, txs.peek = some tx ∧
        gp'.toNat + env'.gasUsed.toNat + tx.gas.toNat = gp.toNat + env.gasUsed.toNat := by
  rcases commitStep_committed ops I c sender h with ⟨rfl, rfl⟩ | ⟨tx, err, env₁, hpeek, hc, rfl⟩
  · exact .inl rfl
  · have hgas : (if err = none then { env₁ with tcount := env₁.tcount + 1 } else env₁).gasUsed =
        env₁.gasUsed := by
      split <;> rfl
    rw [hgas]
    rcases hc.total (ha.congr rfl rfl rfl) with h₁ | h₁
    · exact .inl h₁
    · exact .inr ⟨tx, hpeek, h₁⟩

end Loop

end Miner
