import Dsplinz.Lib.PanicState
import Dsplinz.Params
import Dsplinz.Common.Basic
import Dsplinz.Core.TxList

/-!
# The state transition and the block's gas pool

`core/state_transition.go` applies a message to the state. `preCheck` checks the nonce;
`buyGas` checks that the sender can pay for the message's gas and takes that gas from the
block's `GasPool`; `TransitionDb` then charges the intrinsic gas, runs the EVM, and
`refundGas` gives back to the pool the gas left, with the refund. `ApplyTransaction` of
`core/state_processor.go` adds the gas used to the header's `GasUsed` and makes the receipt.

What the pool sees of one transition is `Core.PoolAfter`, proved in
`Core.transitionDb_pool`: an error before `buyGas` leaves the pool as it was, a success
takes from it the gas used, and the two errors returned after `buyGas` (`ErrOutOfGas` of the
intrinsic gas, and the EVM's `ErrInsufficientBalance`) leave the whole gas of the message
taken, since `TransitionDb` returns before `refundGas`.

The state is the interface `vm.StateDB` of the source, with the methods of `*state.StateDB`
that the miner calls (`Core.StateOps`); the EVM is its checks before running code, and an
interpreter (`Core.Interpreter`) that never returns more gas than it was given.
-/

namespace Core

open Common PanicState

/-- The errors of `ApplyTransaction` that the miner tells apart. -/
inductive TxError where
  /-- `ErrNonceTooHigh` -/
  | nonceTooHigh
  /-- `ErrNonceTooLow` -/
  | nonceTooLow
  /-- `errInsufficientBalanceForGas` -/
  | insufficientBalanceForGas
  /-- `ErrGasLimitReached` -/
  | gasLimitReached
  /-- `vm.ErrOutOfGas`, from `IntrinsicGas` or `useGas` -/
  | outOfGas
  /-- `vm.ErrInsufficientBalance`, the one error of the EVM that `TransitionDb` returns -/
  | insufficientBalance
  /-- the error of `types.Sender` in `tx.AsMessage`, for a signature it cannot recover -/
  | invalidSender
  deriving DecidableEq, Repr

/-- The errors `TransitionDb` returns after `buyGas` took the gas from the pool. -/
def TxError.afterBuyGas : TxError → Bool
  | .outOfGas | .insufficientBalance => true
  | _ => false

/-- The errors of the EVM that the state transition tells apart. -/
inductive VmError where
  | insufficientBalance
  | other
  deriving DecidableEq, Repr

/-- The panics on the way: `AddGas` above `uint64`, one of `RevertToSnapshot`, and the
miner's `Pop` or `Shift` of an empty heap. -/
inductive Panic where
  | gasPoolOverflow
  | revert
  | emptyHeap
  deriving DecidableEq, Repr

/-! ### The gas pool -/

/-- `GasPool.SubGas(amount)`. -/
def subGas (gp amount : UInt64) : Except TxError UInt64 :=
  if gp < amount then .error .gasLimitReached else .ok (gp - amount)

/-- `GasPool.AddGas(amount)`: "gas pool pushed above uint64" is a panic. -/
def addGas (gp amount : UInt64) : Except Panic UInt64 :=
  if gp > Math.maxUint64 - amount then .error .gasPoolOverflow else .ok (gp + amount)

theorem addGas_of_lt {gp amount : UInt64} (h : gp.toNat + amount.toNat < 2 ^ 64) :
    addGas gp amount = .ok (gp + amount) := by
  have hmax : (Math.maxUint64 - amount).toNat = 2 ^ 64 - 1 - amount.toNat := by
    rw [UInt64.toNat_sub_of_le _ _ (UInt64.le_iff_toNat_le.mpr (by
      rw [Math.maxUint64]
      have := amount.toNat_lt
      change amount.toNat ≤ 18446744073709551615
      omega))]
    rfl
  rw [addGas, if_neg]
  rw [gt_iff_lt, UInt64.lt_iff_toNat_lt, hmax]
  omega

/-! ### Messages, the state and the EVM -/

/-- `Message`, as `tx.AsMessage(signer)` builds it. -/
structure Message where
  fromAddr : Address
  toAddr : Option Address
  gasPrice : Int
  gas : UInt64
  value : Int
  nonce : UInt64
  checkNonce : Bool
  data : List UInt8

/-- The interface `vm.StateDB`, for the methods the state transition calls, with the methods
of `*state.StateDB` that `ApplyTransaction` and the miner call: `Snapshot`, `RevertToSnapshot`
(`none` for its panic), `Prepare`, and `Finalise(true)` or the writes of `IntermediateRoot`. -/
structure StateOps (σ : Type) where
  getBalance : σ → Address → Int
  subBalance : σ → Address → Int → σ
  addBalance : σ → Address → Int → σ
  getNonce : σ → Address → UInt64
  setNonce : σ → Address → UInt64 → σ
  getRefund : σ → UInt64
  snapshot : σ → Int × σ
  revertToSnapshot : σ → Int → Option σ
  prepare : σ → Hash → Hash → Nat → σ
  finalise : σ → σ

/-- What the EVM's `Call` and `Create` do once their checks pass: run the code with the gas
given, and return the gas left, an error if any, and the state. An interpreter never returns
more gas than it was given. -/
structure Interpreter (σ : Type) where
  call : σ → (caller toAddr : Address) → List UInt8 → (gas : UInt64) → (value : Int) →
    UInt64 × Option VmError × σ
  create : σ → (caller : Address) → List UInt8 → (gas : UInt64) → (value : Int) →
    UInt64 × Option VmError × σ
  call_le : ∀ s caller toAddr input gas value, (call s caller toAddr input gas value).1 ≤ gas
  create_le : ∀ s caller code gas value, (create s caller code gas value).1 ≤ gas

section EVM

variable {σ : Type} (ops : StateOps σ) (I : Interpreter σ)

/-- `evm.Call(caller, to, input, gas, value)` at depth `0`: `CanTransfer`, then the
interpreter. -/
def evmCall (s : σ) (caller toAddr : Address) (input : List UInt8) (gas : UInt64)
    (value : Int) : UInt64 × Option VmError × σ :=
  if ops.getBalance s caller < value then (gas, some .insufficientBalance, s)
  else I.call s caller toAddr input gas value

/-- `evm.Create(caller, code, gas, value)` at depth `0`: `CanTransfer`, then the
interpreter. -/
def evmCreate (s : σ) (caller : Address) (code : List UInt8) (gas : UInt64) (value : Int) :
    UInt64 × Option VmError × σ :=
  if ops.getBalance s caller < value then (gas, some .insufficientBalance, s)
  else I.create s caller code gas value

theorem evmCall_le (s : σ) (caller toAddr : Address) (input : List UInt8) (gas : UInt64)
    (value : Int) : (evmCall ops I s caller toAddr input gas value).1 ≤ gas := by
  unfold evmCall
  split
  · exact UInt64.le_refl gas
  · exact I.call_le s caller toAddr input gas value

theorem evmCreate_le (s : σ) (caller : Address) (code : List UInt8) (gas : UInt64)
    (value : Int) : (evmCreate ops I s caller code gas value).1 ≤ gas := by
  unfold evmCreate
  split
  · exact UInt64.le_refl gas
  · exact I.create_le s caller code gas value

end EVM

/-- `IntrinsicGas(data, contractCreation, homestead)`. -/
def intrinsicGas (data : List UInt8) (contractCreation homestead : Bool) :
    Except TxError UInt64 :=
  let gas : UInt64 :=
    if contractCreation && homestead then Params.txGasContractCreation else Params.txGas
  if data.length > 0 then
    -- zero and nonzero bytes are priced differently, each sum checked against `uint64`
    let nz : UInt64 := UInt64.ofNat (data.countP (· ≠ 0))
    if (Math.maxUint64 - gas) / Params.txDataNonZeroGas < nz then .error .outOfGas
    else
      let gas := gas + nz * Params.txDataNonZeroGas
      let z : UInt64 := UInt64.ofNat data.length - nz
      if (Math.maxUint64 - gas) / Params.txDataZeroGas < z then .error .outOfGas
      else .ok (gas + z * Params.txDataZeroGas)
  else .ok gas

/-! ### The transition -/

/-- What a transition changes: the state and the block's gas pool. -/
structure World (σ : Type) where
  state : σ
  gp : UInt64

section Transition

variable {σ : Type} (ops : StateOps σ) (I : Interpreter σ) (homestead : Bool)
  (coinbase : Address) (msg : Message)

/-- `st.buyGas()`: the sender pays for the message's gas, which leaves the pool. -/
def buyGas : M (World σ) TxError Panic Unit := do
  let w ← get
  let mgval := (msg.gas.toNat : Int) * msg.gasPrice
  if ops.getBalance w.state msg.fromAddr < mgval then throw .insufficientBalanceForGas
  else do
    let gp ← PanicState.ofExcept (subGas w.gp msg.gas)
    set ({ state := ops.subBalance w.state msg.fromAddr mgval, gp } : World σ)

/-- `st.preCheck()`. -/
def preCheck : M (World σ) TxError Panic Unit := do
  if msg.checkNonce then
    let w ← get
    let nonce := ops.getNonce w.state msg.fromAddr
    if nonce < msg.nonce then throw .nonceTooHigh
    else if nonce > msg.nonce then throw .nonceTooLow
  buyGas ops msg

/-- `st.refundGas()`, from the message's gas `initialGas` and the gas `gas` left: the
refund, capped at half the gas used, is added, and the gas left goes back to the sender and
to the pool. It returns the new `st.gas`. -/
def refundGas (initialGas gas : UInt64) : M (World σ) TxError Panic UInt64 := do
  let w ← get
  let refund := (initialGas - gas) / 2
  let refund := if refund > ops.getRefund w.state then ops.getRefund w.state else refund
  let gas := gas + refund
  let state := ops.addBalance w.state msg.fromAddr ((gas.toNat : Int) * msg.gasPrice)
  let gp ← liftPanic (addGas w.gp gas)
  set ({ state, gp } : World σ)
  pure gas

/-- The run of the EVM in `TransitionDb`, with `gas` gas: `Create` for a message without a
recipient; otherwise the sender's nonce goes up and `Call` runs. -/
def runEvm (s : σ) (gas : UInt64) : UInt64 × Option VmError × σ :=
  match msg.toAddr with
  | none => evmCreate ops I s msg.fromAddr msg.data gas msg.value
  | some toAddr =>
    let s := ops.setNonce s msg.fromAddr (ops.getNonce s msg.fromAddr + 1)
    evmCall ops I s msg.fromAddr toAddr msg.data gas msg.value

/-- `st.TransitionDb()`: the gas used and whether the EVM failed. -/
def transitionDb : M (World σ) TxError Panic (UInt64 × Bool) := do
  preCheck ops msg
  let contractCreation := msg.toAddr.isNone
  let gas ← PanicState.ofExcept (intrinsicGas msg.data contractCreation homestead)
  -- `useGas`, which returns, as the line above does, without giving gas back to the pool
  if msg.gas < gas then throw .outOfGas
  else do
    let w ← get
    let (leftOver, vmerr, state) := runEvm ops I msg w.state (msg.gas - gas)
    set ({ w with state } : World σ)
    if vmerr = some .insufficientBalance then throw .insufficientBalance
    else do
      let gas ← refundGas ops msg msg.gas leftOver
      let used := msg.gas - gas
      modify fun (w : World σ) =>
        { w with state := ops.addBalance w.state coinbase ((used.toNat : Int) * msg.gasPrice) }
      pure (used, vmerr.isSome)

/-! ### What the pool sees -/

theorem runEvm_le (s : σ) (gas : UInt64) : (runEvm ops I msg s gas).1 ≤ gas := by
  unfold runEvm
  split
  · exact evmCreate_le ops I _ _ _ _ _
  · exact evmCall_le ops I _ _ _ _ _ _

/-- `buyGas` fails with the pool untouched, or takes the message's gas from it. -/
theorem buyGas_spec (w : World σ) :
    (∃ e, e.afterBuyGas = false ∧ run (buyGas ops msg) w = .ok (.error e, w)) ∨
      (msg.gas ≤ w.gp ∧ ∃ s, run (buyGas ops msg) w = .ok (.ok (), ⟨s, w.gp - msg.gas⟩)) := by
  by_cases hbal : ops.getBalance w.state msg.fromAddr < (msg.gas.toNat : Int) * msg.gasPrice
  · exact .inl ⟨.insufficientBalanceForGas, rfl, by simp [buyGas, run_bind, hbal]⟩
  by_cases hgp : w.gp < msg.gas
  · exact .inl ⟨.gasLimitReached, rfl, by simp [buyGas, run_bind, hbal, subGas, hgp]⟩
  · exact .inr ⟨UInt64.not_lt.mp hgp, ops.subBalance w.state msg.fromAddr
      ((msg.gas.toNat : Int) * msg.gasPrice), by simp [buyGas, run_bind, hbal, subGas, hgp]⟩

/-- `preCheck` fails with the pool untouched, or takes the message's gas from it. -/
theorem preCheck_spec (w : World σ) :
    (∃ e, e.afterBuyGas = false ∧ run (preCheck ops msg) w = .ok (.error e, w)) ∨
      (msg.gas ≤ w.gp ∧ ∃ s, run (preCheck ops msg) w = .ok (.ok (), ⟨s, w.gp - msg.gas⟩)) := by
  -- with the nonce right, `preCheck` is `buyGas`
  have hbuy : (¬msg.checkNonce ∨ (¬ops.getNonce w.state msg.fromAddr < msg.nonce ∧
      ¬ops.getNonce w.state msg.fromAddr > msg.nonce)) →
      run (preCheck ops msg) w = run (buyGas ops msg) w := by
    rintro (hc | ⟨hlt, hgt⟩)
    · simp [preCheck, hc]
    · simp [preCheck, run_bind, hlt, hgt]
  by_cases hc : msg.checkNonce
  · by_cases hlt : ops.getNonce w.state msg.fromAddr < msg.nonce
    · exact .inl ⟨.nonceTooHigh, rfl, by simp [preCheck, run_bind, hc, hlt]⟩
    by_cases hgt : ops.getNonce w.state msg.fromAddr > msg.nonce
    · exact .inl ⟨.nonceTooLow, rfl, by simp [preCheck, run_bind, hc, hlt, hgt]⟩
    rw [hbuy (.inr ⟨hlt, hgt⟩)]
    exact buyGas_spec ops msg w
  · rw [hbuy (.inl hc)]
    exact buyGas_spec ops msg w

/-- `refundGas` after a run that left `gas` of `initialGas`: the gas given back, the
refund included, is at most `initialGas`, so the pool, which lent `initialGas`, cannot
overflow. -/
theorem refundGas_spec (w : World σ) {initialGas gas : UInt64} (hle : gas ≤ initialGas)
    (hfit : w.gp.toNat + initialGas.toNat < 2 ^ 64) :
    ∃ gas' s, run (refundGas ops msg initialGas gas) w = .ok (.ok gas', ⟨s, w.gp + gas'⟩) ∧
      gas ≤ gas' ∧ gas' ≤ initialGas := by
  have hle' := UInt64.le_iff_toNat_le.mp hle
  rw [refundGas, run_bind, run_get]
  dsimp only
  generalize hr_def : (if (initialGas - gas) / 2 > ops.getRefund w.state then
    ops.getRefund w.state else (initialGas - gas) / 2) = r
  -- the refund is at most half the gas used
  have hr : r.toNat ≤ (initialGas.toNat - gas.toNat) / 2 := by
    have h2 : (2 : UInt64).toNat = 2 := rfl
    rw [← UInt64.toNat_sub_of_le _ _ hle, ← h2, ← UInt64.toNat_div, ← UInt64.le_iff_toNat_le,
      ← hr_def]
    split
    · exact UInt64.le_of_lt ‹_›
    · exact UInt64.le_refl _
  have hsum : gas.toNat + r.toNat < 2 ^ 64 := by
    have := initialGas.toNat_lt
    omega
  have hadd : (gas + r).toNat = gas.toNat + r.toNat := by
    rw [UInt64.toNat_add, Nat.mod_eq_of_lt hsum]
  have hgas : addGas w.gp (gas + r) = .ok (w.gp + (gas + r)) := addGas_of_lt (by omega)
  refine ⟨gas + r, ops.addBalance w.state msg.fromAddr (((gas + r).toNat : Int) * msg.gasPrice),
    ?_, UInt64.le_iff_toNat_le.mpr (by omega), UInt64.le_iff_toNat_le.mpr (by omega)⟩
  rw [hgas, run_bind, run_liftPanic]
  dsimp only
  rw [run_bind, run_set]
  rfl

/-- What one transition does to a pool of `gp` gas, for a message of `gas` gas: an error
before `buyGas` leaves it; an error after `buyGas` leaves the message's gas taken; a
success leaves the gas used taken, at most the message's gas. -/
inductive PoolAfter (gas gp : UInt64) : UInt64 → Except TxError (UInt64 × Bool) → Prop
  | unbought {e : TxError} : e.afterBuyGas = false → PoolAfter gas gp gp (.error e)
  | leaked {e : TxError} {gp' : UInt64} : e.afterBuyGas = true →
      gp'.toNat + gas.toNat = gp.toNat → PoolAfter gas gp gp' (.error e)
  | used {used gp' : UInt64} (failed : Bool) : used ≤ gas →
      gp'.toNat + used.toNat = gp.toNat → PoolAfter gas gp gp' (.ok (used, failed))

theorem intrinsicGas_error {data : List UInt8} {contractCreation homestead : Bool} {e : TxError}
    (h : intrinsicGas data contractCreation homestead = .error e) : e = .outOfGas := by
  unfold intrinsicGas at h
  generalize (if (contractCreation && homestead) = true then Params.txGasContractCreation
    else Params.txGas) = gas at h
  generalize UInt64.ofNat (data.countP (· ≠ 0)) = nz at h
  by_cases h₁ : data.length > 0
  · rw [if_pos h₁] at h
    by_cases h₂ : (Math.maxUint64 - gas) / Params.txDataNonZeroGas < nz
    · rw [if_pos h₂] at h
      cases h
      rfl
    · rw [if_neg h₂] at h
      dsimp only at h
      split at h
      · cases h
        rfl
      · cases h
  · rw [if_neg h₁] at h
    cases h

/-- **The pool after a transition**: `TransitionDb` never panics, and leaves the pool as
`PoolAfter` says. -/
theorem transitionDb_pool (w : World σ) :
    ∃ r w', run (transitionDb ops I homestead coinbase msg) w = .ok (r, w') ∧
      PoolAfter msg.gas w.gp w'.gp r := by
  rcases preCheck_spec ops msg w with ⟨e, he, hpre⟩ | ⟨hle, s₁, hpre⟩
  · exact ⟨_, _, by rw [transitionDb, run_bind, hpre], .unbought he⟩
  have hle' := UInt64.le_iff_toNat_le.mp hle
  have hgp₁ : (w.gp - msg.gas).toNat + msg.gas.toNat = w.gp.toNat := by
    rw [UInt64.toNat_sub_of_le _ _ hle]
    omega
  -- from here on, an error leaves the message's gas taken
  have hleak : ∀ e s, e.afterBuyGas = true →
      PoolAfter msg.gas w.gp (⟨s, w.gp - msg.gas⟩ : World σ).gp (.error e) :=
    fun e s he => .leaked he hgp₁
  rw [transitionDb, run_bind, hpre]
  dsimp only
  rw [run_bind, run_ofExcept]
  rcases hi : intrinsicGas msg.data msg.toAddr.isNone homestead with e | g
  · rw [intrinsicGas_error hi]
    exact ⟨_, _, rfl, hleak _ s₁ rfl⟩
  dsimp only
  by_cases hg : msg.gas < g
  · rw [if_pos hg, run_throw]
    exact ⟨_, _, rfl, hleak _ s₁ rfl⟩
  rw [if_neg hg, run_bind, run_get]
  dsimp only
  rcases hevm : runEvm ops I msg s₁ (msg.gas - g) with ⟨leftOver, vmerr, s₂⟩
  dsimp only
  rw [run_bind, run_set]
  dsimp only
  by_cases hvm : vmerr = some .insufficientBalance
  · rw [if_pos hvm, run_throw]
    exact ⟨_, _, rfl, hleak _ s₂ rfl⟩
  -- the run left at most the gas it was given, and `refundGas` gives back at most all of it
  have hleft : leftOver ≤ msg.gas := by
    have h₁ := runEvm_le ops I msg s₁ (msg.gas - g)
    rw [hevm] at h₁
    exact UInt64.le_trans h₁ (UInt64.sub_le (UInt64.not_lt.mp hg))
  have hfit₀ : (w.gp - msg.gas).toNat + msg.gas.toNat < 2 ^ 64 := by
    rw [hgp₁]
    exact w.gp.toNat_lt
  obtain ⟨gas', s₃, hrefund, -, hgas'⟩ := refundGas_spec ops msg ⟨s₂, w.gp - msg.gas⟩ hleft hfit₀
  have hgas'' := UInt64.le_iff_toNat_le.mp hgas'
  rw [if_neg hvm, run_bind_ok hrefund, run_bind_ok (run_modify _ _), run_pure]
  refine ⟨_, _, rfl, .used _ (UInt64.sub_le hgas') ?_⟩
  change (w.gp - msg.gas + gas').toNat + (msg.gas - gas').toNat = w.gp.toNat
  have hfit : (w.gp - msg.gas).toNat + gas'.toNat < 2 ^ 64 :=
    Nat.lt_of_le_of_lt (Nat.add_le_add_left hgas'' _) hfit₀
  rw [UInt64.toNat_sub_of_le _ _ hgas', UInt64.toNat_add, Nat.mod_eq_of_lt hfit,
    UInt64.toNat_sub_of_le _ _ hle]
  omega

end Transition

end Core
