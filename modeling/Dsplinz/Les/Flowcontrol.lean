import Mathlib

/-!
# The flow control of the light protocol

A server of `les` lends each client a buffer of `BufLimit` cost units that recharges at
`MinRecharge` units per millisecond. `les/flowcontrol/control.go` keeps it on both ends:

* the server's `ClientNode` holds the buffer value `bufValue`: `AcceptRequest` recharges it
  and reports it, and the handler refuses a request that costs more; `RequestProcessed`
  recharges it again and takes the cost out;
* the client's `ServerNode` holds an estimate `bufEstimate` of the same buffer: `CanSend`
  recharges it and says how long to wait before a request of a given maximum cost,
  `QueueRequest` takes that cost out, and `GotReply` resets the estimate from the value the
  server reports, less the cost of the requests sent after it.

| stage | what it gives | theorem |
|---|---|---|
| a recharge | at most `BufLimit`, and no less than before | `Flowcontrol.recalc_le`, `Flowcontrol.le_recalc` |
| an accepted request | the cost comes out of a buffer that holds it | `Flowcontrol.ClientNode.cost_le_requestProcessed` |
| a request sent after a zero wait | the cost comes out of an estimate that holds it | `Flowcontrol.ServerNode.maxCost_le_canSend` |
| every run | both values within `[0, BufLimit]` | `Flowcontrol.ClientNode.reachable_le`, `Flowcontrol.ServerNode.reachable_le` |

The values are `uint64`, with Go's wrapping arithmetic. A recharge adds less than `2 ^ 45`,
so the sums stay exact while `BufLimit ≤ 2 ^ 63`. On the client's side more is needed: a
zero wait from `CanSend` says the estimate holds the cost only when a deficit of one unit
waits at least a nanosecond, that is when `MinRecharge` is at most `fcTimeConst` and the
deficit in nanoseconds does not wrap. Otherwise the wait rounds to zero and `QueueRequest`
takes the estimate below zero (`Flowcontrol.queueRequest_wraps`).

The clock `mclock.AbsTime` is an `int64` of nanoseconds, and no bound depends on its
readings. The `ClientManager` that schedules the requests of all clients is not modelled:
whether it accepts a request, and the recharge value `rcValue` it reports, are inputs.
-/

namespace Flowcontrol

/-! ### The model -/

/-- `mclock.AbsTime`. -/
abbrev AbsTime := Int64

/-- `fcTimeConst`: a millisecond, in nanoseconds. -/
def fcTimeConst : UInt64 := 1000000

/-- `safetyMargin`: a millisecond, in nanoseconds. -/
def safetyMargin : UInt64 := 1000000

/-- `ServerParams`. -/
structure ServerParams where
  BufLimit : UInt64
  MinRecharge : UInt64

/-- The recharge since `lastTime`: `MinRecharge * dt / fcTimeConst`, with `dt` the time
since then, or `0` if the clock went back. -/
def recharge (params : ServerParams) (lastTime time : AbsTime) : UInt64 :=
  let dt : UInt64 := if time < lastTime then 0 else (time - lastTime).toUInt64
  params.MinRecharge * dt / fcTimeConst

/-- The cap "if v > BufLimit { v = BufLimit }" that the file applies to the buffer values,
to the cost `canSend` checks, and to the value a server reports. -/
def capBufLimit (params : ServerParams) (value : UInt64) : UInt64 :=
  if value > params.BufLimit then params.BufLimit else value

/-- The body of `recalcBV` and `recalcBLE`: the value recharged, and capped at `BufLimit`. -/
def recalc (params : ServerParams) (value : UInt64) (lastTime time : AbsTime) : UInt64 :=
  capBufLimit params (value + recharge params lastTime time)

/-- `ClientNode`, the server's account of a client, without the lock and the manager. -/
structure ClientNode where
  bufValue : UInt64
  lastTime : AbsTime

namespace ClientNode

variable (params : ServerParams)

/-- `NewClientNode`. -/
def new (now : AbsTime) : ClientNode := ⟨params.BufLimit, now⟩

/-- `ClientNode.recalcBV(time)`. -/
def recalcBV (peer : ClientNode) (time : AbsTime) : ClientNode :=
  ⟨recalc params peer.bufValue peer.lastTime time, time⟩

/-- `ClientNode.AcceptRequest()` at `time`: the buffer value it returns. -/
def acceptRequest (peer : ClientNode) (time : AbsTime) : UInt64 × ClientNode :=
  let peer := peer.recalcBV params time
  (peer.bufValue, peer)

/-- `ClientNode.RequestProcessed(cost)` at `time`, with the recharge value `rcValue` of the
client manager: the buffer value it returns. -/
def requestProcessed (peer : ClientNode) (time : AbsTime) (cost rcValue : UInt64) :
    UInt64 × ClientNode :=
  let peer := peer.recalcBV params time
  let peer := { peer with bufValue := peer.bufValue - cost }
  let peer := peer.recalcBV params time
  let bufValue :=
    if rcValue < params.BufLimit then
      let bv := params.BufLimit - rcValue
      if bv > peer.bufValue then bv else peer.bufValue
    else peer.bufValue
  (bufValue, { peer with bufValue })

end ClientNode

/-- `ServerNode`, a client's account of a server, without the lock; the map `pending` holds
the sum of costs sent when each pending request was queued. -/
structure ServerNode where
  bufEstimate : UInt64
  lastTime : AbsTime
  sumCost : UInt64
  pending : UInt64 → Option UInt64

namespace ServerNode

variable (params : ServerParams)

/-- `NewServerNode`. -/
def new (now : AbsTime) : ServerNode := ⟨params.BufLimit, now, 0, fun _ => none⟩

/-- `ServerNode.recalcBLE(time)`. -/
def recalcBLE (peer : ServerNode) (time : AbsTime) : ServerNode :=
  { peer with bufEstimate := recalc params peer.bufEstimate peer.lastTime time, lastTime := time }

/-- `ServerNode.canSend(maxCost)` at `time`: the time to wait, as a `time.Duration`, and the
node it recharged; `none` for the division by a zero `MinRecharge`. (The estimated buffer
level it also returns is not modelled.) -/
def canSend (peer : ServerNode) (time : AbsTime) (maxCost : UInt64) :
    Option (Int64 × ServerNode) :=
  let peer := peer.recalcBLE params time
  let maxCost := capBufLimit params (maxCost + safetyMargin * params.MinRecharge / fcTimeConst)
  if peer.bufEstimate ≥ maxCost then some (0, peer)
  else if params.MinRecharge = 0 then none
  else some (((maxCost - peer.bufEstimate) * fcTimeConst / params.MinRecharge).toInt64, peer)

/-- `ServerNode.QueueRequest(reqID, maxCost)`. -/
def queueRequest (peer : ServerNode) (reqID maxCost : UInt64) : ServerNode :=
  { peer with
    bufEstimate := peer.bufEstimate - maxCost
    sumCost := peer.sumCost + maxCost
    pending := Function.update peer.pending reqID (some (peer.sumCost + maxCost)) }

/-- `ServerNode.GotReply(reqID, bv)` at `time`. -/
def gotReply (peer : ServerNode) (time : AbsTime) (reqID bv : UInt64) : ServerNode :=
  let bv := capBufLimit params bv
  match peer.pending reqID with
  | none => peer
  | some sc =>
    let cc := peer.sumCost - sc
    { peer with
      pending := Function.update peer.pending reqID none
      bufEstimate := if bv > cc then bv - cc else 0
      lastTime := time }

end ServerNode

/-! ### A recharge -/

section Recharge

variable {params : ServerParams}

/-- What is divided by `fcTimeConst` is less than `2 ^ 45`: a recharge, or the margin of
`canSend`. -/
theorem toNat_div_fcTimeConst_lt (x : UInt64) : (x / fcTimeConst).toNat < 2 ^ 45 := by
  have h := x.toNat_lt
  rw [UInt64.toNat_div]
  simp only [fcTimeConst, UInt64.reduceToNat]
  omega

/-- A recharge adds less than `2 ^ 45`. -/
theorem toNat_recharge_lt (lastTime time : AbsTime) :
    (recharge params lastTime time).toNat < 2 ^ 45 :=
  toNat_div_fcTimeConst_lt _

theorem capBufLimit_le (value : UInt64) : capBufLimit params value ≤ params.BufLimit := by
  rw [capBufLimit]
  split_ifs with h
  · exact UInt64.le_refl _
  · exact UInt64.not_lt.mp h

/-- The cap keeps what is below both `BufLimit` and the value capped. -/
theorem le_capBufLimit {v value : UInt64} (hv : v ≤ params.BufLimit) (hle : v ≤ value) :
    v ≤ capBufLimit params value := by
  rw [capBufLimit]
  split_ifs
  · exact hv
  · exact hle

/-- Adding less than `2 ^ 45` to a value up to `BufLimit ≤ 2 ^ 63` does not wrap. -/
theorem toNat_add_of_le {value x : UInt64} (hv : value ≤ params.BufLimit)
    (hBL : params.BufLimit.toNat ≤ 2 ^ 63) (hx : x.toNat < 2 ^ 45) :
    (value + x).toNat = value.toNat + x.toNat := by
  have hv' := UInt64.le_iff_toNat_le.mp hv
  rw [UInt64.toNat_add]
  exact Nat.mod_eq_of_lt (by omega)

/-- **A recharge never goes past `BufLimit`.** -/
theorem recalc_le (value : UInt64) (lastTime time : AbsTime) :
    recalc params value lastTime time ≤ params.BufLimit :=
  capBufLimit_le _

/-- **A recharge never takes a value below `BufLimit` down**, while the sum is exact. -/
theorem le_recalc {value : UInt64} (hv : value ≤ params.BufLimit)
    (hBL : params.BufLimit.toNat ≤ 2 ^ 63) (lastTime time : AbsTime) :
    value ≤ recalc params value lastTime time := by
  have hrc : (recharge params lastTime time).toNat < 2 ^ 45 := toNat_recharge_lt lastTime time
  have hsum := toNat_add_of_le hv hBL hrc
  refine le_capBufLimit hv ?_
  rw [UInt64.le_iff_toNat_le, hsum]
  omega

end Recharge

/-! ### The server's account of a client -/

namespace ClientNode

variable {params : ServerParams}

/-- `AcceptRequest` reports at most `BufLimit`. -/
theorem acceptRequest_le (peer : ClientNode) (time : AbsTime) :
    (peer.acceptRequest params time).1 ≤ params.BufLimit :=
  recalc_le _ _ _

/-- **The cost of an accepted request comes out of a buffer that holds it**: the recharge
before the subtraction in `RequestProcessed` only adds to the value `AcceptRequest` reported,
so the subtraction does not wrap. -/
theorem cost_le_requestProcessed {peer : ClientNode} {cost : UInt64} {t₁ t₂ : AbsTime}
    (hBL : params.BufLimit.toNat ≤ 2 ^ 63)
    (hcost : cost ≤ (peer.acceptRequest params t₁).1) :
    cost ≤ (((peer.acceptRequest params t₁).2).recalcBV params t₂).bufValue := by
  have hacc : (peer.acceptRequest params t₁).1 ≤ params.BufLimit := acceptRequest_le peer t₁
  exact UInt64.le_trans hcost (le_recalc hacc hBL _ _)

/-- `RequestProcessed` leaves at most `BufLimit`: the second recharge caps whatever the
subtraction left, and the value of the client manager is below `BufLimit`. -/
theorem requestProcessed_le (peer : ClientNode) (time : AbsTime) (cost rcValue : UInt64) :
    (peer.requestProcessed params time cost rcValue).2.bufValue ≤ params.BufLimit := by
  have hcap : recalc params ((peer.recalcBV params time).bufValue - cost) time time ≤
      params.BufLimit := recalc_le _ _ _
  dsimp only [requestProcessed]
  split
  · -- the manager's value sets a floor below `BufLimit`
    rename_i hrc
    split
    · exact UInt64.sub_le (UInt64.le_of_lt hrc)
    · exact hcap
  · exact hcap

end ClientNode

/-! ### The client's account of a server -/

namespace ServerNode

variable {params : ServerParams}

/-- `GotReply` for a request that is not pending leaves the node as it is. -/
theorem gotReply_of_pending_none {peer : ServerNode} {reqID : UInt64} (time : AbsTime)
    (bv : UInt64) (h : peer.pending reqID = none) : peer.gotReply params time reqID bv = peer := by
  simp [gotReply, h]

/-- `GotReply` answers a request once: it is no longer pending after. -/
theorem pending_gotReply (peer : ServerNode) (time : AbsTime) (reqID bv : UInt64) :
    (peer.gotReply params time reqID bv).pending reqID = none := by
  cases h : peer.pending reqID <;> simp [gotReply, h]

/-- `GotReply` sets an estimate of at most `BufLimit`. -/
theorem gotReply_le {peer : ServerNode} (hle : peer.bufEstimate ≤ params.BufLimit)
    (time : AbsTime) (reqID bv : UInt64) :
    (peer.gotReply params time reqID bv).bufEstimate ≤ params.BufLimit := by
  cases h : peer.pending reqID with
  | none => simpa [gotReply, h] using hle
  | some sc =>
    have hbv : capBufLimit params bv ≤ params.BufLimit := capBufLimit_le bv
    simp only [gotReply, h]
    split_ifs with hcc
    · exact UInt64.le_trans (UInt64.sub_le (UInt64.le_of_lt hcc)) hbv
    · exact UInt64.zero_le

/-- `canSend` only recharges: the node it leaves holds at most `BufLimit`. -/
theorem canSend_le {peer peer' : ServerNode} {time : AbsTime} {maxCost : UInt64} {wait : Int64}
    (h : peer.canSend params time maxCost = some (wait, peer')) :
    peer'.bufEstimate ≤ params.BufLimit := by
  have hle : recalc params peer.bufEstimate peer.lastTime time ≤ params.BufLimit :=
    recalc_le _ _ _
  dsimp only [canSend] at h
  split at h
  · cases h
    exact hle
  · split at h
    · cases h
    · cases h
      exact hle

/-- The wait for a deficit is not zero while the deficit in nanoseconds is exact and a
millisecond recharges at most `fcTimeConst`: the division rounds down to at least one. -/
theorem wait_ne_zero {deficit : UInt64} (hpos : 0 < deficit.toNat)
    (hexact : deficit.toNat * 1000000 < 2 ^ 64) (hMR0 : ¬params.MinRecharge = 0)
    (hMR : params.MinRecharge.toNat ≤ 1000000) :
    (deficit * fcTimeConst / params.MinRecharge).toInt64 ≠ 0 := by
  intro h
  have hmr : 0 < params.MinRecharge.toNat := by
    rcases Nat.eq_zero_or_pos params.MinRecharge.toNat with h0 | h0
    · exact absurd (UInt64.toNat_inj.mp (h0.trans UInt64.toNat_zero.symm)) hMR0
    · exact h0
  have h0 : (deficit * fcTimeConst / params.MinRecharge).toNat = 0 := by
    have := congrArg Int64.toUInt64 h
    rw [UInt64.toUInt64_toInt64] at this
    rw [this]
    rfl
  rw [UInt64.toNat_div, UInt64.toNat_mul] at h0
  simp only [fcTimeConst, UInt64.reduceToNat] at h0
  rw [Nat.mod_eq_of_lt hexact] at h0
  have hq : 0 < deficit.toNat * 1000000 / params.MinRecharge.toNat := Nat.div_pos (by omega) hmr
  omega

/-- **A request sent after a zero wait comes out of an estimate that holds it**, for a cost
up to `BufLimit` as `GetRequestCost` gives: `canSend` checks the cost with the margin added,
and a shortfall of a cost unit waits a whole number of nanoseconds when the deficit in
nanoseconds is exact and `MinRecharge` is at most `fcTimeConst`. -/
theorem maxCost_le_canSend {peer peer' : ServerNode} {time : AbsTime} {maxCost : UInt64}
    (hBL : params.BufLimit.toNat * 1000000 < 2 ^ 64) (hMR : params.MinRecharge.toNat ≤ 1000000)
    (hc : maxCost ≤ params.BufLimit) (h : peer.canSend params time maxCost = some (0, peer')) :
    maxCost ≤ peer'.bufEstimate := by
  have hBL' : params.BufLimit.toNat ≤ 2 ^ 63 := by omega
  -- the margin is added without wrapping, so the capped cost is at least `maxCost`
  have hcap : maxCost ≤
      capBufLimit params (maxCost + safetyMargin * params.MinRecharge / fcTimeConst) := by
    have hsum := toNat_add_of_le hc hBL'
      (toNat_div_fcTimeConst_lt (safetyMargin * params.MinRecharge))
    refine le_capBufLimit hc ?_
    rw [UInt64.le_iff_toNat_le, hsum]
    omega
  have hle : capBufLimit params (maxCost + safetyMargin * params.MinRecharge / fcTimeConst) ≤
      params.BufLimit := capBufLimit_le _
  dsimp only [canSend] at h
  generalize capBufLimit params (maxCost + safetyMargin * params.MinRecharge / fcTimeConst) = M
    at h hcap hle
  split at h
  · -- no wait: the recharged estimate covers the capped cost
    rename_i hge
    cases h
    exact UInt64.le_trans hcap hge
  · split at h
    · cases h
    · -- a deficit of at least one unit and at most `BufLimit` never waits zero
      rename_i hlt hMR0
      generalize (peer.recalcBLE params time).bufEstimate = be at hlt h
      have hlt' := UInt64.not_le.mp hlt
      have hM := UInt64.le_iff_toNat_le.mp hle
      have hdef := UInt64.toNat_sub_of_le M be (UInt64.le_of_lt hlt')
      have hpos : 0 < (M - be).toNat := by
        have := UInt64.lt_iff_toNat_lt.mp hlt'
        omega
      have hexact : (M - be).toNat * 1000000 < 2 ^ 64 := by
        have hdle : (M - be).toNat ≤ params.BufLimit.toNat := by omega
        exact Nat.lt_of_le_of_lt (Nat.mul_le_mul_right 1000000 hdle) hBL
      obtain ⟨hw, -⟩ := Prod.mk.inj (Option.some.inj h)
      exact absurd hw (wait_ne_zero hpos hexact hMR0 hMR)

/-- The other way round: a deficit that recharges in under a nanosecond waits zero, the
division rounding it down. -/
theorem wait_eq_zero {deficit : UInt64}
    (hround : (deficit * fcTimeConst).toNat < params.MinRecharge.toNat) :
    (deficit * fcTimeConst / params.MinRecharge).toInt64 = 0 := by
  have hq : deficit * fcTimeConst / params.MinRecharge = 0 := by
    apply UInt64.toNat_inj.mp
    rw [UInt64.toNat_div, Nat.div_eq_of_lt hround]
    rfl
  rw [hq]
  rfl

/-- **A zero wait does not mean that the estimate holds the cost.** When the recharged
estimate is short of the capped cost by less than a nanosecond of recharge, `canSend`
reports a zero wait all the same: the margin it adds is capped at `BufLimit` with the cost,
and the wait is rounded down. -/
theorem canSend_of_short_deficit {peer : ServerNode} {time : AbsTime} {maxCost : UInt64}
    (hlow : (peer.recalcBLE params time).bufEstimate <
      capBufLimit params (maxCost + safetyMargin * params.MinRecharge / fcTimeConst))
    (hround : ((capBufLimit params (maxCost + safetyMargin * params.MinRecharge / fcTimeConst) -
      (peer.recalcBLE params time).bufEstimate) * fcTimeConst).toNat < params.MinRecharge.toNat) :
    peer.canSend params time maxCost = some (0, peer.recalcBLE params time) := by
  have hMR0 : ¬params.MinRecharge = 0 := by
    intro h
    rw [h, UInt64.toNat_zero] at hround
    exact Nat.not_lt_zero _ hround
  dsimp only [canSend]
  rw [if_neg (UInt64.not_le.mpr hlow), if_neg hMR0, wait_eq_zero hround]

/-- `QueueRequest` of a cost the estimate holds keeps the estimate within `BufLimit`. -/
theorem queueRequest_le {peer : ServerNode} {maxCost : UInt64}
    (hle : peer.bufEstimate ≤ params.BufLimit) (hc : maxCost ≤ peer.bufEstimate) (reqID : UInt64) :
    (peer.queueRequest reqID maxCost).bufEstimate ≤ params.BufLimit :=
  UInt64.le_trans (UInt64.sub_le hc) hle

end ServerNode

/-! ### Runs

A run of the server's account is a sequence of requests as the handler of `les` serves
them, and a run of the client's account a sequence of the calls its request distributor and
its reading loop make. Every queued cost is at most `BufLimit`, as `GetRequestCost` caps it,
and `QueueRequest` follows the `CanSend` that reported a zero wait for the same cost. -/

/-- `defParams` of the `les` server. -/
def defParams : ServerParams := ⟨300000000, 50000⟩

namespace ClientNode

variable {params : ServerParams}

/-- A request as the handler serves it: `AcceptRequest`, and either a refusal or, for a cost
of at most the value it returned, `RequestProcessed` later. -/
inductive Step (params : ServerParams) : ClientNode → ClientNode → Prop
  | refuse (peer : ClientNode) (time : AbsTime) : Step params peer (peer.acceptRequest params time).2
  | serve (peer : ClientNode) (t₁ t₂ : AbsTime) (cost rcValue : UInt64)
      (hcost : cost ≤ (peer.acceptRequest params t₁).1) :
      Step params peer ((peer.acceptRequest params t₁).2.requestProcessed params t₂ cost rcValue).2

/-- The nodes a run from `NewClientNode` reaches. -/
def Reachable (params : ServerParams) (peer : ClientNode) : Prop :=
  ∃ now, Relation.ReflTransGen (Step params) (new params now) peer

/-- Every request leaves at most `BufLimit`, whatever the value before it. -/
theorem Step.le {peer peer' : ClientNode} (h : Step params peer peer') :
    peer'.bufValue ≤ params.BufLimit := by
  cases h with
  | refuse => exact recalc_le _ _ _
  | serve => exact requestProcessed_le _ _ _ _

/-- **The buffer value of a client stays within `BufLimit`** along every run. -/
theorem reachable_le {peer : ClientNode} (h : peer.Reachable params) :
    peer.bufValue ≤ params.BufLimit := by
  obtain ⟨now, hrun⟩ := h
  cases hrun with
  | refl => exact UInt64.le_refl _
  | tail _ hstep => exact hstep.le

end ClientNode

namespace ServerNode

variable {params : ServerParams}

/-- A call on the client's account of a server: `CanSend`, whatever it reports; `CanSend`
reporting a zero wait for a cost of at most `BufLimit`, and `QueueRequest` of that cost;
or `GotReply`. -/
inductive Step (params : ServerParams) : ServerNode → ServerNode → Prop
  | canSend {peer peer' : ServerNode} (time : AbsTime) (maxCost : UInt64) (wait : Int64)
      (h : peer.canSend params time maxCost = some (wait, peer')) : Step params peer peer'
  | send {peer peer' : ServerNode} (time : AbsTime) (reqID maxCost : UInt64)
      (hc : maxCost ≤ params.BufLimit) (h : peer.canSend params time maxCost = some (0, peer')) :
      Step params peer (peer'.queueRequest reqID maxCost)
  | gotReply (peer : ServerNode) (time : AbsTime) (reqID bv : UInt64) :
      Step params peer (peer.gotReply params time reqID bv)

/-- The nodes a run from `NewServerNode` reaches. -/
def Reachable (params : ServerParams) (peer : ServerNode) : Prop :=
  ∃ now, Relation.ReflTransGen (Step params) (new params now) peer

section Bounds

variable (hBL : params.BufLimit.toNat * 1000000 < 2 ^ 64)
  (hMR : params.MinRecharge.toNat ≤ 1000000)
include hBL hMR

/-- Every call keeps the estimate within `BufLimit`. -/
theorem Step.le {peer peer' : ServerNode} (hle : peer.bufEstimate ≤ params.BufLimit)
    (h : Step params peer peer') : peer'.bufEstimate ≤ params.BufLimit := by
  cases h with
  | canSend _ _ _ h => exact canSend_le h
  | send _ reqID _ hc h => exact queueRequest_le (canSend_le h) (maxCost_le_canSend hBL hMR hc h) reqID
  | gotReply => exact gotReply_le hle _ _ _

/-- **The estimate of a server's buffer stays within `BufLimit`** along every run. -/
theorem reachable_le {peer : ServerNode} (h : peer.Reachable params) :
    peer.bufEstimate ≤ params.BufLimit := by
  obtain ⟨now, hrun⟩ := h
  induction hrun with
  | refl => exact UInt64.le_refl _
  | tail _ hstep ih => exact hstep.le hBL hMR ih

end Bounds

end ServerNode

/-- Both accounts of the buffer stay within `[0, BufLimit]`, the cost subtractions do not
wrap, and `GotReply` for a request that is not pending, never sent or already answered,
changes nothing. -/
theorem buffers_within_limit {params : ServerParams}
    (hBL : params.BufLimit.toNat * 1000000 < 2 ^ 64) (hMR : params.MinRecharge.toNat ≤ 1000000) :
    (∀ peer : ClientNode, peer.Reachable params → peer.bufValue ≤ params.BufLimit ∧
      ∀ (t₁ t₂ : AbsTime) (cost : UInt64), cost ≤ (peer.acceptRequest params t₁).1 →
        cost ≤ ((peer.acceptRequest params t₁).2.recalcBV params t₂).bufValue) ∧
    (∀ node : ServerNode, node.Reachable params → node.bufEstimate ≤ params.BufLimit ∧
      ∀ (time : AbsTime) (maxCost : UInt64) (node' : ServerNode), maxCost ≤ params.BufLimit →
        node.canSend params time maxCost = some (0, node') → maxCost ≤ node'.bufEstimate) ∧
    (∀ (node : ServerNode) (time : AbsTime) (reqID bv : UInt64), node.pending reqID = none →
      node.gotReply params time reqID bv = node) ∧
    (∀ (node : ServerNode) (time time' : AbsTime) (reqID bv bv' : UInt64),
      (node.gotReply params time reqID bv).gotReply params time' reqID bv' =
        node.gotReply params time reqID bv) := by
  have hBL' : params.BufLimit.toNat ≤ 2 ^ 63 := by omega
  refine ⟨fun peer hpeer => ⟨ClientNode.reachable_le hpeer, ?_⟩,
    fun node hnode => ⟨ServerNode.reachable_le hBL hMR hnode, ?_⟩, ?_, ?_⟩
  · intro t₁ t₂ cost hcost
    exact ClientNode.cost_le_requestProcessed hBL' hcost
  · intro time maxCost node' hc h
    exact ServerNode.maxCost_le_canSend hBL hMR hc h
  · intro node time reqID bv h
    exact ServerNode.gotReply_of_pending_none time bv h
  · intro node time time' reqID bv bv'
    exact ServerNode.gotReply_of_pending_none time' bv' (ServerNode.pending_gotReply _ _ _ _)

theorem buffers_within_limit_defParams :
    defParams.BufLimit.toNat * 1000000 < 2 ^ 64 ∧ defParams.MinRecharge.toNat ≤ 1000000 ∧
    ((∀ peer : ClientNode, peer.Reachable defParams → peer.bufValue ≤ defParams.BufLimit ∧
      ∀ (t₁ t₂ : AbsTime) (cost : UInt64), cost ≤ (peer.acceptRequest defParams t₁).1 →
        cost ≤ ((peer.acceptRequest defParams t₁).2.recalcBV defParams t₂).bufValue) ∧
    (∀ node : ServerNode, node.Reachable defParams → node.bufEstimate ≤ defParams.BufLimit ∧
      ∀ (time : AbsTime) (maxCost : UInt64) (node' : ServerNode), maxCost ≤ defParams.BufLimit →
        node.canSend defParams time maxCost = some (0, node') → maxCost ≤ node'.bufEstimate) ∧
    (∀ (node : ServerNode) (time : AbsTime) (reqID bv : UInt64), node.pending reqID = none →
      node.gotReply defParams time reqID bv = node) ∧
    (∀ (node : ServerNode) (time time' : AbsTime) (reqID bv bv' : UInt64),
      (node.gotReply defParams time reqID bv).gotReply defParams time' reqID bv' =
        node.gotReply defParams time reqID bv)) :=
  ⟨by decide, by decide, @buffers_within_limit defParams (by decide) (by decide)⟩

/-- **A zero wait can send the estimate below zero.** With `BufLimit` `100` and
`MinRecharge` `2 * fcTimeConst`, a request of cost `1` at a full buffer leaves the estimate
at `99`; `CanSend(100)` then reports a zero wait, its margin capped away and the wait of
one unit rounded down, and the `QueueRequest(2, 100)` this allows wraps the estimate to
`2 ^ 64 - 1`. -/
theorem canSend_zero_wait_wraps :
    ServerNode.Reachable ⟨100, 2000000⟩ ((ServerNode.new ⟨100, 2000000⟩ 0).queueRequest 1 1) ∧
      ((ServerNode.new ⟨100, 2000000⟩ 0).queueRequest 1 1).bufEstimate = 99 ∧
      ((ServerNode.new ⟨100, 2000000⟩ 0).queueRequest 1 1).canSend ⟨100, 2000000⟩ 0 100 =
        some (0, (ServerNode.new ⟨100, 2000000⟩ 0).queueRequest 1 1) ∧
      ServerNode.Reachable ⟨100, 2000000⟩
        (((ServerNode.new ⟨100, 2000000⟩ 0).queueRequest 1 1).queueRequest 2 100) ∧
      (((ServerNode.new ⟨100, 2000000⟩ 0).queueRequest 1 1).queueRequest 2 100).bufEstimate.toNat =
        2 ^ 64 - 1 := by
  -- no time passes, so every `CanSend` leaves the node as it was
  have hwait : ((ServerNode.new ⟨100, 2000000⟩ 0).queueRequest 1 1).canSend ⟨100, 2000000⟩ 0 100 =
      some (0, (ServerNode.new ⟨100, 2000000⟩ 0).queueRequest 1 1) :=
    ServerNode.canSend_of_short_deficit (by decide) (by decide)
  have h₁ : ServerNode.Step ⟨100, 2000000⟩ (ServerNode.new ⟨100, 2000000⟩ 0)
      ((ServerNode.new ⟨100, 2000000⟩ 0).queueRequest 1 1) :=
    ServerNode.Step.send 0 1 1 (by decide) rfl
  have h₂ : ServerNode.Step ⟨100, 2000000⟩ ((ServerNode.new ⟨100, 2000000⟩ 0).queueRequest 1 1)
      (((ServerNode.new ⟨100, 2000000⟩ 0).queueRequest 1 1).queueRequest 2 100) :=
    ServerNode.Step.send 0 2 100 (by decide) hwait
  exact ⟨⟨0, .single h₁⟩, rfl, hwait, ⟨0, (Relation.ReflTransGen.single h₁).tail h₂⟩,
    by decide⟩

end Flowcontrol
