import Dsplinz.Core.BloomBits

/-!
# Log filters

`dsp/filters/filter.go`: a `Filter` gathers the logs of a range of blocks that match an
address and topic criteria. Where the backend has bloom-bits sections, the blocks of the
indexed prefix of the range come from a session of the bloom-bits matcher
(`indexedLogs`); the blocks after it are scanned one by one against their header bloom
(`unindexedLogs`). Either way, `checkMatches` reads the logs of a candidate block and keeps
those `filterLogs` accepts. `f.begin` is the cursor the two share.

The backend is the record of the calls the filter makes: `HeaderByNumber`, `GetReceipts`
and `GetLogs` may fail with an error of type `ε`, and a nil header is `none`. `New` builds the
bloom-bits matcher (`BloomBits.newMatcher`) of the criteria, and `indexedLogs` runs a session
of it (`BloomBits.start`) whose retrievals `ServiceFilter` serves: the backend answers each
with the vector of a bloom bit in a section (`Backend.retrieve`). The answers do not fail,
so `session.Error()` is nil; a panic of the session's loop is `none`. The context is never
cancelled. The `int64` and `uint64` conversions are
`Filters.toUint64` and `Filters.toInt64`, and `sections * size` is reduced modulo
`2 ^ 64`. Go's `end` is named `stop`, for `end` is a keyword in Lean.

The results are in `Dsplinz.Dsp.FilterSpec`.
-/

namespace Filters

open Common Core

/-- `rpc.LatestBlockNumber`. -/
def latestBlockNumber : Int := -1

/-- `uint64(x)` of an `int64`. -/
def toUint64 (x : Int) : Nat := (x % 2 ^ 64).toNat

/-- `int64(n)` of a `uint64`. -/
def toInt64 (n : Nat) : Int := if n < 2 ^ 63 then n else (n : Int) - 2 ^ 64

/-- `types.Header`, as far as the filter reads it. -/
structure Header where
  number : Nat
  bloom : Nat
  hash : Hash

/-- The calls a `Filter` makes of its `Backend`. -/
structure Backend (ε : Type) where
  /-- `HeaderByNumber` of an `rpc.BlockNumber`. -/
  headerByNumber : Int → Except ε (Option Header)
  getReceipts : Hash → Except ε (List Receipt)
  getLogs : Hash → Except ε (List (List State.Log))
  /-- `BloomStatus()`: the section size and the number of indexed sections. -/
  bloomStatus : Nat × Nat
  /-- `ServiceFilter`'s answer to a retrieval of a session: the vector of bloom bit `bit`
  in section `sec`. -/
  retrieve : Nat → Nat → List UInt8

/-- `Filter`. -/
structure Filter where
  begin : Int
  stop : Int
  addresses : List Address
  topics : List (List Hash)
  matcher : BloomBits.Matcher

/-- The `filters` of `New`: the address and topic criteria flattened into the matcher's
filters. Since the bloom bits are not positional, every set of topics is one filter. -/
def filters (addresses : List Address) (topics : List (List Hash)) : List (List (List UInt8)) :=
  (if addresses.isEmpty then [] else [addresses.map addressBytes]) ++
    topics.map fun topicList => topicList.map hashBytes

/-- `New`: the filter, with the matcher of the flattened criteria over sections of the size
`BloomStatus` reports. No entry of the filters is nil. -/
def new (keccak : List UInt8 → List UInt8) {ε : Type} (B : Backend ε) (begin stop : Int)
    (addresses : List Address) (topics : List (List Hash)) : Filter :=
  -- `size, _ := backend.BloomStatus()`
  let size := B.bloomStatus.1
  { begin, stop, addresses, topics,
    matcher := BloomBits.newMatcher keccak size ((filters addresses topics).map (List.map some)) }

/-! ### Matching logs -/

/-- `includes`. -/
def includes (addresses : List Address) (a : Address) : Bool := addresses.any (· == a)

/-- The topic test of `filterLogs` on a log with enough topics: the `i`-th topic of the log
is in the `i`-th set, an empty set matching any topic. -/
def topicsMatch : List (List Hash) → List Hash → Bool
  | [], _ => true
  | sub :: subs, t :: ts => (sub.isEmpty || sub.any (t == ·)) && topicsMatch subs ts
  | _ :: _, [] => false

/-- The test `filterLogs` makes of each log. -/
def keeps (fromBlock toBlock : Option Int) (addresses : List Address)
    (topics : List (List Hash)) (log : State.Log) : Bool :=
  !(fromBlock.any fun b => 0 ≤ b && toUint64 b > log.blockNumber.toNat) &&
    !(toBlock.any fun b => 0 ≤ b && toUint64 b < log.blockNumber.toNat) &&
    (addresses.isEmpty || includes addresses log.address) &&
    -- if the to filtered topics is greater than the amount of topics in logs, skip
    decide (topics.length ≤ log.topics.length) && topicsMatch topics log.topics

/-- `filterLogs`. -/
def filterLogs (logs : List State.Log) (fromBlock toBlock : Option Int)
    (addresses : List Address) (topics : List (List Hash)) : List State.Log :=
  logs.filter (keeps fromBlock toBlock addresses topics)

section Backend

variable (keccak : List UInt8 → List UInt8)

/-- `bloomFilter`: the header bloom may hold a log of one of the addresses with, for each
set of topics, one of them. -/
def bloomFilter (bloom : Nat) (addresses : List Address) (topics : List (List Hash)) : Bool :=
  (addresses.isEmpty || addresses.any fun addr => bloomLookup keccak bloom (addressBytes addr)) &&
    topics.all fun sub => sub.isEmpty || sub.any fun topic => bloomLookup keccak bloom (hashBytes topic)

variable {ε : Type} (B : Backend ε)

/-- `checkMatches`: the logs of the block that match, or the backend's error. -/
def checkMatches (f : Filter) (header : Header) : Except ε (List State.Log) := do
  -- get the logs of the block
  let logsList ← B.getLogs header.hash
  let logs := filterLogs logsList.flatten none none f.addresses f.topics
  match logs with
  | [] => pure []
  | first :: _ =>
    -- we have matching logs, check if we need to resolve full logs via the light client
    if first.txHash = 0 then
      let receipts ← B.getReceipts header.hash
      pure (filterLogs (receipts.flatMap Receipt.logs) none none f.addresses f.topics)
    else pure logs

/-- The loop of `indexedLogs` over the block numbers the session delivers, with the logs
gathered so far; `sessionErr` is `session.Error()` once they are all read. -/
def indexedLoop (stop : Nat) (sessionErr : Option ε) :
    Filter → List Nat → List State.Log → (List State.Log × Option ε) × Filter
  | f, [], logs =>
    -- all matches have been fulfilled
    match sessionErr with
    | none => ((logs, none), { f with begin := toInt64 stop + 1 })
    | some e => ((logs, some e), f)
  | f, number :: rest, logs =>
    let f := { f with begin := toInt64 number + 1 }
    -- retrieve the suggested block and pull any truly matching logs
    match B.headerByNumber (toInt64 number) with
    | .error e => ((logs, some e), f)
    | .ok none => ((logs, none), f)
    | .ok (some header) =>
      match checkMatches B f header with
      | .error e => ((logs, some e), f)
      | .ok found => indexedLoop stop sessionErr f rest (logs ++ found)

/-- `indexedLogs`: the logs of the blocks from `f.begin` to `stop` that a session of the
matcher delivers, its retrievals served by the backend. -/
def indexedLogs (f : Filter) (stop : Nat) : Option ((List State.Log × Option ε) × Filter) :=
  (BloomBits.start B.retrieve f.matcher (toUint64 f.begin) stop).map fun delivered =>
    -- every retrieval is answered, so `session.Error()` is nil
    indexedLoop B stop none f delivered []

/-- `unindexedLogs`, from `f.begin` on, with the logs gathered so far. -/
def unindexedLogs (stop : Nat) (f : Filter) (logs : List State.Log) :
    (List State.Log × Option ε) × Filter :=
  if f.begin ≤ toInt64 stop then
    match B.headerByNumber f.begin with
    | .error e => ((logs, some e), f)
    | .ok none => ((logs, none), f)
    | .ok (some header) =>
      if bloomFilter keccak header.bloom f.addresses f.topics then
        match checkMatches B f header with
        | .error e => ((logs, some e), f)
        | .ok found => unindexedLogs stop { f with begin := f.begin + 1 } (logs ++ found)
      else unindexedLogs stop { f with begin := f.begin + 1 } logs
  else ((logs, none), f)
termination_by (toInt64 stop + 1 - f.begin).toNat

/-- `Logs`: the matching logs of the filter's range, and the filter after it; `none` is a
panic of the matcher session. -/
def logs (f : Filter) : Option ((List State.Log × Option ε) × Filter) :=
  -- figure out the limits of the filter range
  match B.headerByNumber latestBlockNumber with
  | .ok (some header) => do
    let head := header.number
    let f := if f.begin = -1 then { f with begin := toInt64 head } else f
    let stop := if f.stop = -1 then head else toUint64 f.stop
    -- gather all indexed logs, and finish with non indexed ones
    let (size, sections) := B.bloomStatus
    let indexed := sections * size % 2 ^ 64
    let ((logs, err), f) ←
      if indexed > toUint64 f.begin then
        if indexed > stop then indexedLogs B f stop else indexedLogs B f (indexed - 1)
      else pure (([], none), f)
    match err with
    | some e => pure ((logs, some e), f)
    | none =>
      let ((rest, err), f) := unindexedLogs keccak B stop f []
      pure ((logs ++ rest, err), f)
  -- `header, _ := f.backend.HeaderByNumber(...)`: without a header, no logs
  | _ => pure (([], none), f)

end Backend

end Filters
