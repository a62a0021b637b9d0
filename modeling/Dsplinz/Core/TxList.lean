import Dsplinz.Lib.GoHeap

/-!
# The transaction lists of the pool

`core/tx_list.go` keeps the transactions of one account in two structures.

* `txSortedMap` holds them three ways: a Go map from nonce to transaction (`items`), a heap
  of the nonces (`index`, Go's `container/heap`, modelled in `Dsplinz.Lib.GoHeap`), and,
  between two changes, the transactions sorted by nonce (`cache`). `Forward`, `Cap` and
  `Ready` read the heap, `Filter` the map, and `Forward` and `Cap` trim the cache rather
  than drop it.
* `txList` adds the strictness of the nonces and two caps, the highest cost and the highest
  gas of a transaction it accepted, which `Filter` compares with the limits before it looks
  at the transactions.

The Go map is Mathlib's `AList`, a list of entries with distinct keys, and a `range` over
it runs over that list: Go's order is unspecified, so no statement about the model depends
on it. `sort.Sort` is `List.mergeSort`: on the distinct nonces of a map every sort gives the
same list. Where Go appends `m.items[nonce]` for a nonce of the heap, the model appends the
transaction of the map if there is one; a nonce of the heap missing from the map, for which
Go would append `nil`, never occurs (`Dsplinz.Core.TxListSpec`).

The one panic of the file that a caller can reach is `Cap` with a negative threshold, which
indexes the heap at `-1`: `Core.TxSortedMap.cap` returns `none` there.
-/

namespace Core

/-- A transaction, with the fields of `txdata` that the lists read. -/
structure Transaction where
  accountNonce : UInt64
  price : Int
  gasLimit : UInt64
  amount : Int
  deriving DecidableEq, Repr

namespace Transaction

/-- `tx.Nonce()`. -/
def nonce (tx : Transaction) : UInt64 := tx.accountNonce

/-- `tx.GasPrice()`. -/
def gasPrice (tx : Transaction) : Int := tx.price

/-- `tx.Gas()`. -/
def gas (tx : Transaction) : UInt64 := tx.gasLimit

/-- `tx.Cost()`: `Price * GasLimit + Amount`. -/
def cost (tx : Transaction) : Int := tx.price * tx.gasLimit.toNat + tx.amount

end Transaction

/-- `sort.Sort(types.TxByNonce(txs))`. -/
def sortByNonce (txs : List Transaction) : List Transaction :=
  txs.mergeSort fun a b => decide (a.nonce ≤ b.nonce)

/-- The Go map `map[uint64]*types.Transaction`. -/
abbrev TxMap := AList fun _ : UInt64 => Transaction

/-- The transactions of a map, in the order a `range` visits them. -/
def TxMap.values (items : TxMap) : List Transaction :=
  items.entries.map Sigma.snd

/-! ### `txSortedMap` -/

/-- `txSortedMap`: a nonce→transaction map with a heap of its nonces and, between two
changes, the transactions sorted by nonce. -/
structure TxSortedMap where
  items : TxMap
  index : List UInt64
  cache : Option (List Transaction)

/-- `newTxSortedMap()`. -/
def newTxSortedMap : TxSortedMap := ⟨∅, [], none⟩

namespace TxSortedMap

/-- `Get`: the transaction of a nonce. -/
def get (m : TxSortedMap) (nonce : UInt64) : Option Transaction :=
  m.items.lookup nonce

/-- `Len`. -/
def len (m : TxSortedMap) : Nat := m.items.entries.length

/-- `Put`: store a transaction under its nonce, pushing the nonce on the heap if it is new,
and drop the cache. -/
def put (m : TxSortedMap) (tx : Transaction) : TxSortedMap :=
  let nonce := tx.nonce
  let index := if m.items.lookup nonce = none then GoHeap.push m.index nonce else m.index
  { items := m.items.insert nonce tx, index := index, cache := none }

/-- The loop of `Forward`: pop the heap while its least nonce is below `threshold`. -/
def forwardLoop (threshold : UInt64) (items : TxMap) (index : List UInt64)
    (removed : List Transaction) : TxMap × List UInt64 × List Transaction :=
  match index[0]? with
  | none => (items, index, removed)
  | some least =>
    if least < threshold then
      match _hp : GoHeap.pop index with
      | some (nonce, index') =>
        forwardLoop threshold (items.erase nonce) index' (removed ++ (items.lookup nonce).toList)
      | none => (items, index, removed)
    else (items, index, removed)
termination_by index.length
decreasing_by
  have := GoHeap.length_of_pop _hp
  omega

/-- `Forward`: remove and return the transactions of a nonce below `threshold`, and shift the
front of the cache. -/
def forward (m : TxSortedMap) (threshold : UInt64) : List Transaction × TxSortedMap :=
  let (items, index, removed) := forwardLoop threshold m.items m.index []
  (removed, { items := items, index := index, cache := m.cache.map (·.drop removed.length) })

/-- The loop of `Filter` over the entries of the map: remove the transactions `filter` holds
of. -/
def filterLoop (filter : Transaction → Bool) :
    List (Σ _ : UInt64, Transaction) → TxMap → List Transaction → TxMap × List Transaction
  | [], items, removed => (items, removed)
  | ⟨nonce, tx⟩ :: rest, items, removed =>
    if filter tx then filterLoop filter rest (items.erase nonce) (removed ++ [tx])
    else filterLoop filter rest items removed

/-- `Filter`: remove and return the transactions `filter` holds of. If there were any, the
heap is rebuilt from the nonces left and the cache is dropped. -/
def filter (m : TxSortedMap) (filter : Transaction → Bool) : List Transaction × TxSortedMap :=
  let (items, removed) := filterLoop filter m.items.entries m.items []
  if removed.length > 0 then
    (removed, { items := items, index := GoHeap.init items.keys, cache := none })
  else (removed, { m with items := items })

/-- The loop of `Cap`, over the sorted nonces: drop the transaction of the nonce at
`size - 1` while `size` is above `threshold`. At `size = 0` Go indexes the slice at `-1` and
panics, here `none`. -/
def capLoop (index : List UInt64) (threshold : Int) :
    Nat → TxMap → List Transaction → Option (TxMap × List Transaction)
  | 0, items, drops => if (0 : Int) > threshold then none else some (items, drops)
  | size + 1, items, drops =>
    if ((size + 1 : Nat) : Int) > threshold then
      match index[size]? with
      | some nonce =>
        capLoop index threshold size (items.erase nonce) (drops ++ (items.lookup nonce).toList)
      | none => none
    else some (items, drops)

/-- `Cap`: keep at most `threshold` transactions, dropping and returning those of the highest
nonces, and shift the back of the cache. It panics on a negative `threshold`. -/
def cap (m : TxSortedMap) (threshold : Int) : Option (List Transaction × TxSortedMap) :=
  -- Short circuit if the number of items is under the limit
  if (m.len : Int) ≤ threshold then some ([], m)
  else
    let index := m.index.mergeSort fun a b => decide (a ≤ b)
    match capLoop index threshold m.len m.items [] with
    | none => none
    | some (items, drops) =>
      some (drops, { items := items, index := GoHeap.init (index.take threshold.toNat),
                     cache := m.cache.map fun c => c.take (c.length - drops.length) })

/-- `Remove`: delete the transaction of a nonce, and its nonce from the heap, found by a
linear search; say whether there was one. -/
def remove (m : TxSortedMap) (nonce : UInt64) : Bool × TxSortedMap :=
  -- Short circuit if no transaction is present
  if m.items.lookup nonce = none then (false, m)
  else
    let index :=
      match m.index.findIdx? (· = nonce) with
      | some i =>
        match GoHeap.remove m.index i with
        | some (_, index') => index'
        | none => m.index
      | none => m.index
    (true, { items := m.items.erase nonce, index := index, cache := none })

/-- The loop of `Ready`: pop the heap while its least nonce is `next`, counting `next` up. -/
def readyLoop (items : TxMap) (index : List UInt64) (next : UInt64)
    (ready : List Transaction) : TxMap × List UInt64 × List Transaction :=
  match index[0]? with
  | none => (items, index, ready)
  | some least =>
    if least = next then
      match _hp : GoHeap.pop index with
      | some (_, index') =>
        readyLoop (items.erase next) index' (next + 1) (ready ++ (items.lookup next).toList)
      | none => (items, index, ready)
    else (items, index, ready)
termination_by index.length
decreasing_by
  have := GoHeap.length_of_pop _hp
  omega

/-- `Ready`: remove and return the run of consecutive nonces that starts at the least one,
if that one is at most `start`. -/
def ready (m : TxSortedMap) (start : UInt64) : List Transaction × TxSortedMap :=
  match m.index[0]? with
  | none => ([], m)
  | some least =>
    if least > start then ([], m)
    else
      let (items, index, ready) := readyLoop m.items m.index least []
      (ready, { items := items, index := index, cache := none })

/-- `Flatten`: the transactions sorted by nonce, sorted once and cached until the next
change. -/
def flatten (m : TxSortedMap) : List Transaction × TxSortedMap :=
  match m.cache with
  | some cache => (cache, m)
  | none =>
    let cache := sortByNonce m.items.values
    (cache, { m with cache := some cache })

end TxSortedMap

/-! ### `txList` -/

/-- `txList`: the transactions of an account, the strictness of their nonces, and the caps
of cost and gas of what it accepted. -/
structure TxList where
  strict : Bool
  txs : TxSortedMap
  costcap : Int
  gascap : UInt64

/-- `newTxList(strict)`. -/
def newTxList (strict : Bool) : TxList := ⟨strict, newTxSortedMap, 0, 0⟩

namespace TxList

/-- `Overlaps`: there is a transaction of the same nonce. -/
def overlaps (l : TxList) (tx : Transaction) : Bool :=
  (l.txs.get tx.nonce).isSome

/-- The price a replacement has to reach in `Add`: `old * (100 + priceBump) / 100`, where
`100 + int64(priceBump)` is computed in `int64`. -/
def bumpThreshold (oldPrice : Int) (priceBump : UInt64) : Int :=
  oldPrice * ((100 : Int64) + priceBump.toInt64).toInt / 100

/-- `Add`: insert a transaction unless one of the same nonce is there and the new one is not
priced above it by the bump; say whether it was inserted, and what it replaced. -/
def add (l : TxList) (tx : Transaction) (priceBump : UInt64) :
    Bool × Option Transaction × TxList :=
  let old := l.txs.get tx.nonce
  -- If there's an older better transaction, abort
  let abort : Bool :=
    match old with
    | some old => decide (old.gasPrice ≥ tx.gasPrice ∨ bumpThreshold old.gasPrice priceBump > tx.gasPrice)
    | none => false
  if abort then (false, none, l)
  else
    let costcap := if l.costcap < tx.cost then tx.cost else l.costcap
    let gascap := if l.gascap < tx.gas then tx.gas else l.gascap
    (true, old, { l with txs := l.txs.put tx, costcap := costcap, gascap := gascap })

/-- `Forward`. -/
def forward (l : TxList) (threshold : UInt64) : List Transaction × TxList :=
  let (removed, txs) := l.txs.forward threshold
  (removed, { l with txs := txs })

/-- The least nonce of `removed`, from `MaxUint64` down. -/
def lowestNonce (removed : List Transaction) : UInt64 :=
  removed.foldl (fun lowest tx => if lowest > tx.nonce then tx.nonce else lowest)
    (UInt64.ofNat (2 ^ 64 - 1))

/-- `Filter`: unless the caps are within the limits, lower them to the limits and remove the
transactions above them; in a strict list, also those of a nonce above the least removed
one, returned apart. -/
def filter (l : TxList) (costLimit : Int) (gasLimit : UInt64) :
    List Transaction × List Transaction × TxList :=
  -- If all transactions are below the threshold, short circuit
  if l.costcap ≤ costLimit ∧ l.gascap ≤ gasLimit then ([], [], l)
  else
    let (removed, txs) := l.txs.filter fun tx => decide (tx.cost > costLimit ∨ tx.gas > gasLimit)
    let l' := { l with txs := txs, costcap := costLimit, gascap := gasLimit }
    if l.strict ∧ removed.length > 0 then
      let lowest := lowestNonce removed
      let (invalids, txs') := txs.filter fun tx => decide (tx.nonce > lowest)
      (removed, invalids, { l' with txs := txs' })
    else (removed, [], l')

/-- `Cap`. -/
def cap (l : TxList) (threshold : Int) : Option (List Transaction × TxList) :=
  (l.txs.cap threshold).map fun (drops, txs) => (drops, { l with txs := txs })

/-- `Remove`: delete the transaction of the nonce of `tx`; in a strict list, also those of a
higher nonce, returned. -/
def remove (l : TxList) (tx : Transaction) : Bool × List Transaction × TxList :=
  let nonce := tx.nonce
  let (removed, txs) := l.txs.remove nonce
  if !removed then (false, [], l)
  -- In strict mode, filter out non-executable transactions
  else if l.strict then
    let (invalids, txs') := txs.filter fun tx => decide (tx.nonce > nonce)
    (true, invalids, { l with txs := txs' })
  else (true, [], { l with txs := txs })

/-- `Ready`. -/
def ready (l : TxList) (start : UInt64) : List Transaction × TxList :=
  let (ready, txs) := l.txs.ready start
  (ready, { l with txs := txs })

/-- `Len`. -/
def len (l : TxList) : Nat := l.txs.len

/-- `Empty`. -/
def empty (l : TxList) : Bool := l.len = 0

/-- `Flatten`. -/
def flatten (l : TxList) : List Transaction × TxList :=
  let (txs, m) := l.txs.flatten
  (txs, { l with txs := m })

end TxList

end Core
