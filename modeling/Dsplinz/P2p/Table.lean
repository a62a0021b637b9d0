import Dsplinz.Common.Basic

/-!
# The Kademlia table of node discovery

`p2p/discover` keeps the nodes it knows in a `Table` of buckets, one for each range of log
distances from the local node's hash. A bucket holds at most `bucketSize` entries, the most
recently seen first, and at most `maxReplacements` replacements, nodes that wait for an
entry to fail. No subnet may take many places: each bucket, and the table as a whole,
counts the non-LAN IPs it holds in each /24 in a `netutil.DistinctNetSet`, and refuses a
node whose subnet is full.

Every change goes through a few functions. `add` bumps a node already in its bucket to the
front, or adds it if there is room, and else makes it a replacement. `stuff` adds nodes to
buckets that have room. `delete` removes a node. Revalidation pings the last entry of a
bucket and then bumps it, if it answered, or replaces it by a replacement, if it did not.

This file is the faithful model. A `*bucket` is the index of the bucket in the table, and a
write through it is a `Table.setBucket`. The random draw of `replace` is an argument. The
hash of a node, `crypto.Keccak256Hash` of its ID, and `netutil.IsLAN` are parameters.
-/

namespace Discover

open Common

/-- `discover.NodeID`: 512 bits. -/
abbrev NodeID := Fin (2 ^ 512)

/-- What a `NodeID` literal needs. -/
instance (priority := high) nodeID_neZero : NeZero (2 ^ 512 : Nat) := ⟨by positivity⟩

/-- `discover.Node`, with the fields the table reads: the ID and the IP. -/
structure Node where
  id : NodeID
  ip : List UInt8
  deriving DecidableEq

/-- Kademlia bucket size. -/
def bucketSize : Nat := 16

/-- Size of the replacement list of a bucket. -/
def maxReplacements : Nat := 10

/-- `len(common.Hash{}) * 8`. -/
def hashBits : Nat := 256

/-- The number of buckets. -/
def nBuckets : Nat := hashBits / 15

theorem nBuckets_pos : 0 < nBuckets := by decide

/-- The log distance of the closest bucket. -/
def bucketMinDistance : Nat := hashBits - nBuckets

/-- At most two addresses of one /24 in a bucket. -/
def bucketIPLimit : Nat := 2

def bucketSubnet : Nat := 24

/-- At most ten addresses of one /24 in the table. -/
def tableIPLimit : Nat := 10

def tableSubnet : Nat := 24

/-! ### Subnet counters -/

/-- `net.IP.To4`. -/
def to4 (ip : List UInt8) : Option (List UInt8) :=
  if ip.length = 4 then some ip
  else if ip.length = 16 ∧ (ip.take 10).all (· == 0) ∧ ip.getD 10 0 = 0xff ∧
      ip.getD 11 0 = 0xff then
    some (ip.drop 12)
  else none

/-- `netutil.DistinctNetSet`: the number of IPs held in each subnet, keyed as `key` gives.
A subnet missing from the Go map holds `0`. -/
structure DistinctNetSet where
  subnet : Nat
  limit : Nat
  members : List UInt8 → Nat

namespace DistinctNetSet

/-- An empty set of the given prefix length and limit. -/
def empty (subnet limit : Nat) : DistinctNetSet := ⟨subnet, limit, fun _ => 0⟩

/-- `DistinctNetSet.key`: the family of the IP (`'4'` or `'6'`) and its first `subnet` bits. -/
def key (s : DistinctNetSet) (ip : List UInt8) : List UInt8 :=
  let (typ, ip) : UInt8 × List UInt8 := match to4 ip with
    | some ip4 => (52, ip4)
    | none => (54, ip)
  let bits := min s.subnet (ip.length * 8)
  let nb := bits / 8
  let mask : UInt8 := ~~~((0xFF : UInt8) >>> (bits % 8).toUInt8)
  typ :: ip.take nb ++ (if nb < ip.length ∧ mask ≠ 0 then [ip.getD nb 0 &&& mask] else [])

/-- `DistinctNetSet.Add`: count the IP, unless its subnet is at the limit. -/
def add (s : DistinctNetSet) (ip : List UInt8) : Bool × DistinctNetSet :=
  let key := s.key ip
  let n := s.members key
  if n < s.limit then (true, { s with members := Function.update s.members key (n + 1) })
  else (false, s)

/-- `DistinctNetSet.Remove`: a count of one is deleted from the map and a greater one
decremented; an absent one stays absent. -/
def remove (s : DistinctNetSet) (ip : List UInt8) : DistinctNetSet :=
  let key := s.key ip
  { s with members := Function.update s.members key (s.members key - 1) }

end DistinctNetSet

/-! ### Buckets and node lists -/

/-- `bucket`. -/
structure Bucket where
  entries : List Node
  replacements : List Node
  ips : DistinctNetSet

/-- `Table`, with the state the bucket functions read and write. -/
structure Table where
  buckets : Fin nBuckets → Bucket
  self : Node
  ips : DistinctNetSet

/-- `logdist`: 256 less the number of leading zero bits of `a xor b`, which is the bit length
of `a xor b`. -/
def logdist (a b : Hash) : Nat := Nat.size (a.val ^^^ b.val)

theorem logdist_le (a b : Hash) : logdist a b ≤ hashBits :=
  Nat.size_le.mpr (Nat.xor_lt_two_pow a.isLt b.isLt)

/-- `pushNode`: `n` at the front of `list`, keeping at most `max` nodes, and the node pushed
out, if any. (The code calls it with a positive `max` only.) -/
def pushNode (list : List Node) (n : Node) (max : Nat) : List Node × Option Node :=
  if list.length < max then (n :: list, none) else (n :: list.dropLast, list.getLast?)

/-- `deleteNode`: `list` without its first node of the ID of `n`. -/
def deleteNode (list : List Node) (n : Node) : List Node :=
  match list.findIdx? (·.id == n.id) with
  | some i => list.eraseIdx i
  | none => list

/-- `bucket.bump`: the entry of the ID of `n`, if there is one, is replaced by `n` at the
front. -/
def Bucket.bump (b : Bucket) (n : Node) : Bool × Bucket :=
  match b.entries.findIdx? (·.id == n.id) with
  | some i => (true, { b with entries := n :: b.entries.eraseIdx i })
  | none => (false, b)

namespace Table

/-- A write through the `*bucket` at index `b`. -/
def setBucket (tab : Table) (b : Fin nBuckets) (bk : Bucket) : Table :=
  { tab with buckets := Function.update tab.buckets b bk }

/-- The empty table of `newTable`, before it loads its seed nodes. -/
def new (self : Node) : Table where
  buckets := fun _ => ⟨[], [], DistinctNetSet.empty bucketSubnet bucketIPLimit⟩
  self := self
  ips := DistinctNetSet.empty tableSubnet tableIPLimit

variable (nodeHash : NodeID → Hash)

/-- `Table.bucket`: the index of the bucket of a hash. -/
def bucket (tab : Table) (sha : Hash) : Fin nBuckets :=
  let d := logdist (nodeHash tab.self.id) sha
  if h : d ≤ bucketMinDistance then ⟨0, nBuckets_pos⟩
  else ⟨d - bucketMinDistance - 1, by
    have := logdist_le (nodeHash tab.self.id) sha
    simp only [bucketMinDistance, nBuckets, hashBits] at h this ⊢
    omega⟩

variable (isLAN : List UInt8 → Bool)

/-- `Table.addIP`: count a non-LAN IP in the table and in bucket `b`, unless either is full
for its subnet. -/
def addIP (tab : Table) (b : Fin nBuckets) (ip : List UInt8) : Bool × Table :=
  if isLAN ip then (true, tab)
  else
    let (ok, tabIps) := tab.ips.add ip
    if !ok then (false, tab)
    else
      let (ok, bIps) := (tab.buckets b).ips.add ip
      -- the bucket is full: take the IP back out of the table's count
      if !ok then (false, { tab with ips := tabIps.remove ip })
      else (true, { tab.setBucket b { tab.buckets b with ips := bIps } with ips := tabIps })

/-- `Table.removeIP`. -/
def removeIP (tab : Table) (b : Fin nBuckets) (ip : List UInt8) : Table :=
  if isLAN ip then tab
  else
    { tab.setBucket b { tab.buckets b with ips := (tab.buckets b).ips.remove ip } with
      ips := tab.ips.remove ip }

/-- `Table.addReplacement`. -/
def addReplacement (tab : Table) (b : Fin nBuckets) (n : Node) : Table :=
  if (tab.buckets b).replacements.any (·.id == n.id) then tab
  else
    let (ok, tab) := tab.addIP isLAN b n.ip
    if !ok then tab
    else
      let bk := tab.buckets b
      let (replacements, removed) := pushNode bk.replacements n maxReplacements
      let tab := tab.setBucket b { bk with replacements }
      match removed with
      | some r => tab.removeIP isLAN b r.ip
      | none => tab

/-- `Table.deleteInBucket`. -/
def deleteInBucket (tab : Table) (b : Fin nBuckets) (n : Node) : Table :=
  let bk := tab.buckets b
  (tab.setBucket b { bk with entries := deleteNode bk.entries n }).removeIP isLAN b n.ip

/-- `Table.replace`: if `last` is still the last entry of bucket `b`, the replacement of
index `pick` (the draw `tab.rand.Intn`, reduced below the number of replacements) takes its
place, or, with no replacements, `last` is deleted. Returns the replacement. -/
def replace (tab : Table) (b : Fin nBuckets) (last : Node) (pick : Nat) : Option Node × Table :=
  let bk := tab.buckets b
  match bk.entries.getLast? with
  | none => (none, tab)
  | some e =>
    if e.id ≠ last.id then (none, tab)
    else if h : bk.replacements = [] then (none, tab.deleteInBucket isLAN b last)
    else
      let r := bk.replacements.get
        ⟨pick % bk.replacements.length, Nat.mod_lt _ (List.length_pos_of_ne_nil h)⟩
      let bk := { bk with
        replacements := deleteNode bk.replacements r
        entries := bk.entries.set (bk.entries.length - 1) r }
      (some r, (tab.setBucket b bk).removeIP isLAN b last.ip)

/-- `Table.bumpOrAdd`: bump `n`, or add it at the front if the bucket has room and its
subnet counts do; true if `n` is then in the bucket. -/
def bumpOrAdd (tab : Table) (b : Fin nBuckets) (n : Node) : Bool × Table :=
  match (tab.buckets b).bump n with
  | (true, bk) => (true, tab.setBucket b bk)
  | (false, _) =>
    if bucketSize ≤ (tab.buckets b).entries.length then (false, tab)
    else
      let (ok, tab) := tab.addIP isLAN b n.ip
      if !ok then (false, tab)
      else
        let bk := tab.buckets b
        let (entries, _) := pushNode bk.entries n bucketSize
        (true, tab.setBucket b { bk with entries, replacements := deleteNode bk.replacements n })

/-- `Table.add`. -/
def add (tab : Table) (n : Node) : Table :=
  let b := tab.bucket nodeHash (nodeHash n.id)
  match tab.bumpOrAdd isLAN b n with
  | (true, tab) => tab
  | (false, tab) => tab.addReplacement isLAN b n

/-- `Table.stuff`. -/
def stuff (tab : Table) (nodes : List Node) : Table :=
  nodes.foldl (fun tab n =>
    -- the local node is never added
    if n.id = tab.self.id then tab
    else
      let b := tab.bucket nodeHash (nodeHash n.id)
      if (tab.buckets b).entries.length < bucketSize then (tab.bumpOrAdd isLAN b n).2 else tab)
    tab

/-- `Table.delete`. -/
def delete (tab : Table) (n : Node) : Table :=
  tab.deleteInBucket isLAN (tab.bucket nodeHash (nodeHash n.id)) n

/-- The end of `doRevalidate`, once the node `last`, chosen as the last entry of bucket `b`,
has been pinged: if it answered it is bumped, if not it is replaced. -/
def revalidate (tab : Table) (b : Fin nBuckets) (last : Node) (alive : Bool) (pick : Nat) :
    Table :=
  if alive then tab.setBucket b ((tab.buckets b).bump last).2
  else (tab.replace isLAN b last pick).2

end Table

/-- The calls that change the table. -/
inductive Op where
  | add (n : Node)
  | stuff (nodes : List Node)
  | delete (n : Node)
  | revalidate (b : Fin nBuckets) (last : Node) (alive : Bool) (pick : Nat)

variable (nodeHash : NodeID → Hash) (isLAN : List UInt8 → Bool)

/-- One call. -/
def Op.apply (tab : Table) : Op → Table
  | .add n => tab.add nodeHash isLAN n
  | .stuff nodes => tab.stuff nodeHash isLAN nodes
  | .delete n => tab.delete nodeHash isLAN n
  | .revalidate b last alive pick => tab.revalidate isLAN b last alive pick

/-- A sequence of calls. -/
def run (tab : Table) (ops : List Op) : Table := ops.foldl (Op.apply nodeHash isLAN) tab

end Discover
