import Dsplinz.Common.Basic
import Dsplinz.Lib.GoMap

/-!
# The block fetcher

`dsp/fetcher/fetcher.go` gathers the blocks that peers announce. Its `loop` owns the state
and takes one event at a time: a `Notify` puts an announce in `announced`; when the fetch
timer fires, each announce old enough is moved to `fetching` and its header requested; the
header filter moves a fetched header on to `fetched` (or straight to `completing` for an
empty block), the complete timer moves it to `completing` and requests the body, and the
body filter assembles the block and queues it for import (`enqueue`). `forgetHash` and
`forgetBlock` drop every trace of a hash, and `done` reports that an import finished.

Beside the maps the fetcher keeps two counters per peer against denial of service:
`announces`, checked against `hashLimit` by `Notify`, and `queues`, checked against
`blockLimit` by `enqueue`. Both are Go maps of `int` whose entries are deleted at zero, so
reading one gives `0` for an absent peer: they are functions here.

A round of the loop (`Dsp.Fetcher.step`) first forgets the fetches that timed out and
imports what the queue holds up to the chain's height, and then handles one event. What the
round reads of the world is `Dsp.Chain`: the clock, the chain's height and which blocks it
holds, read once for the round. The requests sent to peers, the imports run in their
goroutines, the meters, the hooks and the timers' resets are not modelled; a timer firing is
an event, which may come at any round.

The import queue is the `prque` of the source, a priority queue by `-float32(number)`: it is
the list of its operations by ascending number here, which orders blocks whose numbers the
`float32` conversion rounds together by arrival.
-/

namespace Dsp

open Common

/-- `arriveTimeout`, 500 ms, in nanoseconds, as `time.Duration` counts. -/
def arriveTimeout : Int := 500000000

/-- `gatherSlack`, 100 ms. -/
def gatherSlack : Int := 100000000

/-- `fetchTimeout`, 5 s. -/
def fetchTimeout : Int := 5000000000

/-- `maxUncleDist`, an untyped constant: `uint64` or `int64` where it is used. -/
def maxUncleDist : Nat := 7

/-- `maxQueueDist`. -/
def maxQueueDist : Nat := 32

/-- `hashLimit`: the announces a peer may have outstanding. -/
def hashLimit : Int := 256

/-- `blockLimit`: the blocks a peer may have queued. -/
def blockLimit : Int := 64

/-- `types.Header`, with the fields the fetcher reads. -/
structure Header where
  number : UInt64
  txHash : Hash
  uncleHash : Hash

/-- The hashes the fetcher computes: `header.Hash()`, `types.DeriveSha` of a block's
transactions and `types.CalcUncleHash` of its uncles. -/
structure Hasher (Tx : Type) where
  headerHash : Header → Hash
  deriveSha : List Tx → Hash
  calcUncleHash : List Header → Hash

/-- `types.Block`: a header and a body. `block.Hash()` is the hash of its header. -/
structure Block (Tx : Type) where
  header : Header
  transactions : List Tx
  uncles : List Header

/-- `announce`. The callbacks that request the header and the bodies are not modelled. -/
structure Announce where
  hash : Hash
  number : UInt64
  header : Option Header
  time : Int
  origin : String

/-- `inject`: a block to import, and the peer it came from. -/
structure Inject (Tx : Type) where
  origin : String
  block : Block Tx

/-- `Fetcher`, with its announce states and its block cache. -/
structure Fetcher (Tx : Type) where
  announces : String → Int
  announced : AList fun _ : Hash => List Announce
  fetching : AList fun _ : Hash => Announce
  fetched : AList fun _ : Hash => List Announce
  completing : AList fun _ : Hash => Announce
  queue : List (Inject Tx)
  queues : String → Int
  queued : AList fun _ : Hash => Inject Tx

/-- What a round of the loop reads of the world: `time.Now()`, `f.chainHeight()`, and
whether `f.getBlock(hash)` finds a block. -/
structure Chain where
  now : Int
  height : UInt64
  known : Hash → Bool

/-- The events `loop` selects on: `Notify`, `Enqueue`, `done`, the two timers, with the
draws of `rand.Intn` for each hash they visit, and the two filters. -/
inductive Event (Tx : Type) where
  | notify (peer : String) (hash : Hash) (number : UInt64) (time : Int)
  | inject (origin : String) (block : Block Tx)
  | done (hash : Hash)
  | fetchTimer (rand : Hash → Nat)
  | completeTimer (rand : Hash → Nat)
  | headerFilter (peer : String) (headers : List Header) (time : Int)
  | bodyFilter (peer : String) (transactions : List (List Tx)) (uncles : List (List Header))

namespace Fetcher

variable {Tx : Type}

/-- `New(...)`: every map empty. -/
def new : Fetcher Tx := ⟨fun _ => 0, ∅, ∅, ∅, ∅, [], fun _ => 0, ∅⟩

/-- `m[p]--` on a counter, which `delete` at zero leaves reading `0`. -/
def decrement (counts : String → Int) (p : String) : String → Int :=
  Function.update counts p (counts p - 1)

/-- The decrements of a `range` over a list of announces. -/
def decrementAll (counts : String → Int) (l : List Announce) : String → Int :=
  l.foldl (fun counts a => decrement counts a.origin) counts

/-- `f.forgetHash(hash)`: every announce of the hash goes, from the four maps, and its
origin's counter is decremented for each. -/
def forgetHash (hash : Hash) (f : Fetcher Tx) : Fetcher Tx :=
  let f := { f with announces := decrementAll f.announces ((f.announced.lookup hash).getD []),
                    announced := f.announced.erase hash }
  let f := match f.fetching.lookup hash with
    | some a => { f with announces := decrement f.announces a.origin,
                         fetching := f.fetching.erase hash }
    | none => f
  let f := { f with announces := decrementAll f.announces ((f.fetched.lookup hash).getD []),
                    fetched := f.fetched.erase hash }
  match f.completing.lookup hash with
  | some a => { f with announces := decrement f.announces a.origin,
                       completing := f.completing.erase hash }
  | none => f

/-- `f.forgetBlock(hash)`: the queued block of the hash goes, and its origin's counter is
decremented. -/
def forgetBlock (hash : Hash) (f : Fetcher Tx) : Fetcher Tx :=
  match f.queued.lookup hash with
  | some op => { f with queues := decrement f.queues op.origin, queued := f.queued.erase hash }
  | none => f

/-- The distance check of the announces and of `enqueue`: the block's number minus the
chain's height, in `int64`, below `-maxUncleDist` or above `maxQueueDist`. -/
def tooFar (number height : UInt64) : Bool :=
  let dist := number.toInt64 - height.toInt64
  dist < -Int64.ofNat maxUncleDist || dist > Int64.ofNat maxQueueDist

/-- The `notify` case of `loop`, for the announce `Notify` built. -/
def notify (height : UInt64) (a : Announce) (f : Fetcher Tx) : Fetcher Tx :=
  let count := f.announces a.origin + 1
  if count > hashLimit then f
  else if a.number > 0 && tooFar a.number height then f
  -- an announce of a block being downloaded is dropped
  else if (f.fetching.lookup a.hash).isSome then f
  else if (f.completing.lookup a.hash).isSome then f
  else { f with announces := Function.update f.announces a.origin count,
                announced := f.announced.insert a.hash ((f.announced.lookup a.hash).getD [] ++ [a]) }

/-- `f.queue.Push(op, -float32(number))`. -/
def push (op : Inject Tx) (queue : List (Inject Tx)) : List (Inject Tx) :=
  queue.orderedInsert (fun a b => a.block.header.number ≤ b.block.header.number) op

/-- One announced hash at a firing of the fetch timer: an announce old enough is drawn,
the hash forgotten, and the drawn announce fetched unless the block arrived. Go indexes
`announces[0]`; no list in `announced` is empty. -/
def fetchOne (now : Int) (known : Hash → Bool) (rand : Hash → Nat) (f : Fetcher Tx)
    (e : Σ _ : Hash, List Announce) : Fetcher Tx :=
  match e.2 with
  | [] => f
  | a :: rest =>
    if now - a.time > arriveTimeout - gatherSlack then
      let announce := (a :: rest).get ⟨rand e.1 % (rest.length + 1), Nat.mod_lt _ (Nat.succ_pos _)⟩
      let f := f.forgetHash e.1
      if known e.1 then f else { f with fetching := f.fetching.insert e.1 announce }
    else f

/-- The `fetchTimer` case of `loop`. -/
def fetchTimer (now : Int) (known : Hash → Bool) (rand : Hash → Nat) (f : Fetcher Tx) :
    Fetcher Tx :=
  f.announced.entries.foldl (fetchOne now known rand) f

/-- One fetched hash at a firing of the complete timer: an announce is drawn, the hash
forgotten, and the drawn announce completed unless the block arrived. -/
def completeOne (known : Hash → Bool) (rand : Hash → Nat) (f : Fetcher Tx)
    (e : Σ _ : Hash, List Announce) : Fetcher Tx :=
  match e.2 with
  | [] => f
  | a :: rest =>
    let announce := (a :: rest).get ⟨rand e.1 % (rest.length + 1), Nat.mod_lt _ (Nat.succ_pos _)⟩
    let f := f.forgetHash e.1
    if known e.1 then f else { f with completing := f.completing.insert e.1 announce }

/-- The `completeTimer` case of `loop`. -/
def completeTimer (known : Hash → Bool) (rand : Hash → Nat) (f : Fetcher Tx) : Fetcher Tx :=
  f.fetched.entries.foldl (completeOne known rand) f

/-- The head of a round: the fetches older than `fetchTimeout` are forgotten. -/
def expire (now : Int) (f : Fetcher Tx) : Fetcher Tx :=
  f.fetching.entries.foldl (fun f e => if now - e.2.time > fetchTimeout then f.forgetHash e.1 else f) f

section Hashing

variable (hs : Hasher Tx)

/-- `f.enqueue(peer, block)`. -/
def enqueue (height : UInt64) (peer : String) (block : Block Tx) (f : Fetcher Tx) :
    Fetcher Tx :=
  let hash := hs.headerHash block.header
  let count := f.queues peer + 1
  if count > blockLimit then f.forgetHash hash
  else if tooFar block.header.number height then f.forgetHash hash
  else
    match f.queued.lookup hash with
    | some _ => f
    | none =>
      let op : Inject Tx := ⟨peer, block⟩
      { f with queues := Function.update f.queues peer count, queued := f.queued.insert hash op,
               queue := push op f.queue }

/-- The import loop at the head of a round, over the queue: a block above the height goes
back and ends it; an old or known one is forgotten; any other is imported in a goroutine,
which later sends `done`. -/
def importLoop (height : UInt64) (known : Hash → Bool) :
    List (Inject Tx) → Fetcher Tx → Fetcher Tx
  | [], f => { f with queue := [] }
  | op :: rest, f =>
    let number := op.block.header.number
    if number > height + 1 then { f with queue := op :: rest }
    else
      let hash := hs.headerHash op.block.header
      if number + UInt64.ofNat maxUncleDist < height || known hash then
        importLoop height known rest (f.forgetBlock hash)
      else importLoop height known rest f

/-- What the header filter sorts a batch into: the headers it returns, the announces whose
bodies it will fetch, the empty blocks it completes, and the fetcher. -/
structure HeaderSplit (Tx : Type) where
  unknown : List Header
  incomplete : List Announce
  complete : List (Block Tx)
  fetcher : Fetcher Tx

/-- One header of the batch in the `headerFilter` case. -/
def filterHeader (peer : String) (time : Int) (known : Hash → Bool) (acc : HeaderSplit Tx)
    (header : Header) : HeaderSplit Tx :=
  let f := acc.fetcher
  let hash := hs.headerHash header
  match f.fetching.lookup hash with
  | some a =>
    if a.origin = peer && (f.fetched.lookup hash).isNone && (f.completing.lookup hash).isNone &&
        (f.queued.lookup hash).isNone then
      -- a header of another number than announced drops the announcer
      if header.number ≠ a.number then { acc with fetcher := f.forgetHash hash }
      else if known hash then { acc with fetcher := f.forgetHash hash }
      else
        -- the announce is completed in place, in `fetching`
        let a := { a with header := some header, time }
        let f := { f with fetching := f.fetching.insert hash a }
        if header.txHash = hs.deriveSha [] && header.uncleHash = hs.calcUncleHash [] then
          { acc with complete := acc.complete ++ [⟨header, [], []⟩],
                     fetcher := { f with completing := f.completing.insert hash a } }
        else { acc with incomplete := acc.incomplete ++ [a], fetcher := f }
    else { acc with unknown := acc.unknown ++ [header] }
  | none => { acc with unknown := acc.unknown ++ [header] }

/-- An announce of the header filter whose body is to be fetched. Go reads
`announce.header.Hash()`; every announce of `incomplete` has its header. -/
def scheduleIncomplete (f : Fetcher Tx) (a : Announce) : Fetcher Tx :=
  match a.header with
  | none => f
  | some header =>
    let hash := hs.headerHash header
    if (f.completing.lookup hash).isSome then f
    else { f with fetched := f.fetched.insert hash ((f.fetched.lookup hash).getD [] ++ [a]) }

/-- A block the filters completed, enqueued under the origin of its completing announce. -/
def enqueueComplete (height : UInt64) (f : Fetcher Tx) (block : Block Tx) : Fetcher Tx :=
  match f.completing.lookup (hs.headerHash block.header) with
  | some a => enqueue hs height a.origin block f
  | none => f

/-- The `headerFilter` case of `loop`: the headers returned to `FilterHeaders`, and the
fetcher. -/
def headerFilter (height : UInt64) (known : Hash → Bool) (peer : String) (headers : List Header)
    (time : Int) (f : Fetcher Tx) : List Header × Fetcher Tx :=
  let s := headers.foldl (filterHeader hs peer time known) ⟨[], [], [], f⟩
  let f := s.incomplete.foldl (scheduleIncomplete hs) s.fetcher
  let f := s.complete.foldl (enqueueComplete hs height) f
  (s.unknown, f)

/-- One completing announce against one body in the `bodyFilter` case: whether the body
matched so far, the blocks assembled, and the fetcher. Go reads `announce.header.TxHash`;
every completing announce has its header. -/
def matchOne (peer : String) (known : Hash → Bool) (body : List Tx × List Header)
    (acc : Bool × List (Block Tx) × Fetcher Tx) (e : Σ _ : Hash, Announce) :
    Bool × List (Block Tx) × Fetcher Tx :=
  let (matched, blocks, f) := acc
  if (f.queued.lookup e.1).isSome then (matched, blocks, f)
  else
    match e.2.header with
    | none => (matched, blocks, f)
    | some header =>
      if hs.deriveSha body.1 = header.txHash && hs.calcUncleHash body.2 = header.uncleHash &&
          e.2.origin = peer then
        if known e.1 then (true, blocks, f.forgetHash e.1)
        else (true, blocks ++ [⟨header, body.1, body.2⟩], f)
      else (matched, blocks, f)

/-- One body against every completing announce. -/
def matchBody (peer : String) (known : Hash → Bool) (body : List Tx × List Header)
    (f : Fetcher Tx) : Bool × List (Block Tx) × Fetcher Tx :=
  f.completing.entries.foldl (matchOne hs peer known body) (false, [], f)

/-- The loop over the bodies of the `bodyFilter` case: a matched body is taken out, the
others are returned. -/
def bodyLoop (peer : String) (known : Hash → Bool) :
    List (List Tx × List Header) → Fetcher Tx →
      List (List Tx × List Header) × List (Block Tx) × Fetcher Tx
  | [], f => ([], [], f)
  | body :: rest, f =>
    let (matched, blocks, f) := matchBody hs peer known body f
    let (kept, blocks', f) := bodyLoop peer known rest f
    (if matched then kept else body :: kept, blocks ++ blocks', f)

/-- The `bodyFilter` case of `loop`: the transactions and uncles returned to `FilterBodies`,
and the fetcher. -/
def bodyFilter (height : UInt64) (known : Hash → Bool) (peer : String)
    (transactions : List (List Tx)) (uncles : List (List Header)) (f : Fetcher Tx) :
    (List (List Tx) × List (List Header)) × Fetcher Tx :=
  let (kept, blocks, f) := bodyLoop hs peer known (transactions.zip uncles) f
  let f := blocks.foldl (enqueueComplete hs height) f
  ((kept.map Prod.fst ++ transactions.drop uncles.length,
    kept.map Prod.snd ++ uncles.drop transactions.length), f)

/-- The head of a round of `loop`. -/
def loopHead (c : Chain) (f : Fetcher Tx) : Fetcher Tx :=
  let f := expire c.now f
  importLoop hs c.height c.known f.queue f

/-- A round of `loop`: its head, then the event. -/
def step (c : Chain) (ev : Event Tx) (f : Fetcher Tx) : Fetcher Tx :=
  let f := loopHead hs c f
  match ev with
  | .notify peer hash number time => f.notify c.height ⟨hash, number, none, time, peer⟩
  | .inject origin block => enqueue hs c.height origin block f
  | .done hash => (f.forgetHash hash).forgetBlock hash
  | .fetchTimer rand => f.fetchTimer c.now c.known rand
  | .completeTimer rand => f.completeTimer c.known rand
  | .headerFilter peer headers time => (headerFilter hs c.height c.known peer headers time f).2
  | .bodyFilter peer transactions uncles =>
    (bodyFilter hs c.height c.known peer transactions uncles f).2

/-- The states of the fetcher between rounds of its loop. -/
def Reachable (f : Fetcher Tx) : Prop :=
  Relation.ReflTransGen (fun f f' => ∃ c ev, f' = step hs c ev f) new f

end Hashing

end Fetcher

end Dsp
