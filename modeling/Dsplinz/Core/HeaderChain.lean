import Dsplinz.Common.Basic

/-!
# The header chain

`core/headerchain.go` keeps the headers of the chain in the database (`core/rawdb`) and
decides which of them are canonical. The database has three tables for it: the canonical
hash of each number, and the header and the total difficulty of each hash and number.

`WriteHeader` stores a header whose parent is stored, with the total difficulty of its
parent plus its own difficulty. If that total beats the current head's (or ties it and a
coin comes up), the header becomes the head and the canonical table is re-routed to its
ancestry, in two loops: the first deletes the canonical hashes above the new number, up to
the first number that has none; the second walks from the parent down, writing each
ancestor's hash, until an ancestor is canonical already. `SetHead` rewinds the head to a
lower number, deleting the headers above it along the head's ancestry and the canonical
hashes above it.

This file is the faithful model. The tables are functions; an absent entry is `none`, and
`ReadCanonicalHash` reads it as the zero hash, as the code does. The caches of the header
chain are left out: they are keyed by hash and only ever hold what the database holds at
that hash. The hash of a header (`Header.Hash`, the Keccak-256 of its RLP encoding) is a
parameter. A nil dereference, which panics in Go, is an error here, and so is a loop that
runs past the number of rounds the model gives it (`HeaderError.outOfFuel`), which the Go
loop would go on from; the spec shows that neither happens on the chains the code builds.
-/

namespace Core

open Common

/-- `types.Header`, with the fields the header chain reads. Its number is only read
through `Number.Uint64()`, so it is held as that `uint64`; `extra` stands for the fields
that only the hash reads (coinbase, roots, time, extra data, …). A header the database
holds is RLP-encodable, so its difficulty is not negative. -/
structure Header where
  parentHash : Hash
  difficulty : Nat
  number : UInt64
  extra : List UInt8
  deriving DecidableEq

/-- `WriteStatus`. -/
inductive WriteStatus where
  | nonStatTy
  | canonStatTy
  | sideStatTy
  deriving DecidableEq

/-- How a call of the header chain fails: the error `consensus.ErrUnknownAncestor`, a nil
pointer dereferenced (a Go panic), or a loop run past the model's bound. -/
inductive HeaderError where
  | unknownAncestor
  | nilDereference
  | outOfFuel
  deriving DecidableEq

/-- The header tables of the database: the canonical hash of each number, and the header
and the total difficulty of each hash and number. -/
structure ChainDb where
  canonical : UInt64 → Option Hash
  headers : Hash × UInt64 → Option Header
  tds : Hash × UInt64 → Option Nat

namespace ChainDb

/-- The database with no headers. -/
def empty : ChainDb := ⟨fun _ => none, fun _ => none, fun _ => none⟩

/-- `rawdb.ReadCanonicalHash`: the zero hash when there is none. -/
def readCanonicalHash (db : ChainDb) (number : UInt64) : Hash := (db.canonical number).getD 0

/-- `rawdb.WriteCanonicalHash`. -/
def writeCanonicalHash (db : ChainDb) (hash : Hash) (number : UInt64) : ChainDb :=
  { db with canonical := Function.update db.canonical number (some hash) }

/-- `rawdb.DeleteCanonicalHash`. -/
def deleteCanonicalHash (db : ChainDb) (number : UInt64) : ChainDb :=
  { db with canonical := Function.update db.canonical number none }

/-- `rawdb.ReadTd`. -/
def readTd (db : ChainDb) (hash : Hash) (number : UInt64) : Option Nat := db.tds (hash, number)

/-- `rawdb.WriteTd`. -/
def writeTd (db : ChainDb) (hash : Hash) (number : UInt64) (td : Nat) : ChainDb :=
  { db with tds := Function.update db.tds (hash, number) (some td) }

/-- `rawdb.DeleteTd`. -/
def deleteTd (db : ChainDb) (hash : Hash) (number : UInt64) : ChainDb :=
  { db with tds := Function.update db.tds (hash, number) none }

/-- `rawdb.ReadHeader`. -/
def readHeader (db : ChainDb) (hash : Hash) (number : UInt64) : Option Header :=
  db.headers (hash, number)

/-- `rawdb.HasHeader`. -/
def hasHeader (db : ChainDb) (hash : Hash) (number : UInt64) : Bool :=
  (db.headers (hash, number)).isSome

/-- `rawdb.WriteHeader`: the header under its own hash and number. -/
def writeHeader (hashOf : Header → Hash) (db : ChainDb) (header : Header) : ChainDb :=
  { db with headers := Function.update db.headers (hashOf header, header.number) (some header) }

/-- `rawdb.DeleteHeader`. -/
def deleteHeader (db : ChainDb) (hash : Hash) (number : UInt64) : ChainDb :=
  { db with headers := Function.update db.headers (hash, number) none }

/-! ### What each write changes -/

@[simp] theorem canonical_writeCanonicalHash (db : ChainDb) (hash : Hash) (number : UInt64) :
    (db.writeCanonicalHash hash number).canonical =
      Function.update db.canonical number (some hash) := rfl

@[simp] theorem headers_writeCanonicalHash (db : ChainDb) (hash : Hash) (number : UInt64) :
    (db.writeCanonicalHash hash number).headers = db.headers := rfl

@[simp] theorem tds_writeCanonicalHash (db : ChainDb) (hash : Hash) (number : UInt64) :
    (db.writeCanonicalHash hash number).tds = db.tds := rfl

@[simp] theorem canonical_deleteCanonicalHash (db : ChainDb) (number : UInt64) :
    (db.deleteCanonicalHash number).canonical = Function.update db.canonical number none := rfl

@[simp] theorem headers_deleteCanonicalHash (db : ChainDb) (number : UInt64) :
    (db.deleteCanonicalHash number).headers = db.headers := rfl

@[simp] theorem tds_deleteCanonicalHash (db : ChainDb) (number : UInt64) :
    (db.deleteCanonicalHash number).tds = db.tds := rfl

@[simp] theorem canonical_writeTd (db : ChainDb) (hash : Hash) (number : UInt64) (td : Nat) :
    (db.writeTd hash number td).canonical = db.canonical := rfl

@[simp] theorem headers_writeTd (db : ChainDb) (hash : Hash) (number : UInt64) (td : Nat) :
    (db.writeTd hash number td).headers = db.headers := rfl

@[simp] theorem tds_writeTd (db : ChainDb) (hash : Hash) (number : UInt64) (td : Nat) :
    (db.writeTd hash number td).tds = Function.update db.tds (hash, number) (some td) := rfl

@[simp] theorem canonical_writeHeader (hashOf : Header → Hash) (db : ChainDb) (header : Header) :
    (db.writeHeader hashOf header).canonical = db.canonical := rfl

@[simp] theorem headers_writeHeader (hashOf : Header → Hash) (db : ChainDb) (header : Header) :
    (db.writeHeader hashOf header).headers =
      Function.update db.headers (hashOf header, header.number) (some header) := rfl

@[simp] theorem tds_writeHeader (hashOf : Header → Hash) (db : ChainDb) (header : Header) :
    (db.writeHeader hashOf header).tds = db.tds := rfl

@[simp] theorem canonical_deleteHeader (db : ChainDb) (hash : Hash) (number : UInt64) :
    (db.deleteHeader hash number).canonical = db.canonical := rfl

@[simp] theorem headers_deleteHeader (db : ChainDb) (hash : Hash) (number : UInt64) :
    (db.deleteHeader hash number).headers = Function.update db.headers (hash, number) none := rfl

@[simp] theorem tds_deleteHeader (db : ChainDb) (hash : Hash) (number : UInt64) :
    (db.deleteHeader hash number).tds = db.tds := rfl

@[simp] theorem canonical_deleteTd (db : ChainDb) (hash : Hash) (number : UInt64) :
    (db.deleteTd hash number).canonical = db.canonical := rfl

@[simp] theorem headers_deleteTd (db : ChainDb) (hash : Hash) (number : UInt64) :
    (db.deleteTd hash number).headers = db.headers := rfl

@[simp] theorem tds_deleteTd (db : ChainDb) (hash : Hash) (number : UInt64) :
    (db.deleteTd hash number).tds = Function.update db.tds (hash, number) none := rfl

/-- The canonical table read through `ReadCanonicalHash`: an entry that holds a nonzero
hash is read as that hash. -/
theorem readCanonicalHash_eq_iff {db : ChainDb} {number : UInt64} {hash : Hash}
    (hash_ne : hash ≠ 0) : db.readCanonicalHash number = hash ↔ db.canonical number = some hash := by
  unfold readCanonicalHash
  cases db.canonical number with
  | none => exact ⟨fun h => absurd h.symm hash_ne, fun h => nomatch h⟩
  | some h => simp

theorem readCanonicalHash_eq_zero_iff {db : ChainDb} {number : UInt64}
    (hnz : ∀ h, db.canonical number = some h → h ≠ 0) :
    db.readCanonicalHash number = 0 ↔ db.canonical number = none := by
  unfold readCanonicalHash
  cases hc : db.canonical number with
  | none => simp
  | some h => simpa using hnz h hc

end ChainDb

/-! ### Block numbers

A block number is a `uint64`; the header chain steps it by one up and down. -/

theorem toNat_sub_one {n : UInt64} (h : n ≠ 0) : (n - 1).toNat = n.toNat - 1 := by
  have hn : n.toNat ≠ 0 := fun h0 => h (UInt64.toNat_inj.mp h0)
  rw [UInt64.toNat_sub_of_le _ _ (UInt64.le_iff_toNat_le.mpr (by simp; omega)), UInt64.toNat_one]

theorem toNat_add_one {n : UInt64} (h : n.toNat + 1 < 2 ^ 64) : (n + 1).toNat = n.toNat + 1 := by
  rw [UInt64.toNat_add, UInt64.toNat_one, Nat.mod_eq_of_lt h]

/-! ### The loops of `WriteHeader` and `SetHead` -/

/-- The first loop of a canonical `WriteHeader`: from `i` on, delete the canonical hashes
up to the first number that reads as none. It visits each number at most once before it
comes back to one it has deleted, so `2 ^ 64 + 1` rounds are enough for it. -/
def deleteCanonicalFrom (db : ChainDb) (i : UInt64) : Nat → Except HeaderError ChainDb
  | 0 => .error .outOfFuel
  | fuel + 1 =>
    if db.readCanonicalHash i = 0 then .ok db
    else deleteCanonicalFrom (db.deleteCanonicalHash i) (i + 1) fuel

/-- The second loop of a canonical `WriteHeader`: while the canonical hash of `headNumber`
is not `headHash`, write it, and go on to the parent of `headHeader`. -/
def rewriteCanonical (db : ChainDb) (headHash : Hash) (headNumber : UInt64)
    (headHeader : Option Header) : Nat → Except HeaderError ChainDb
  | 0 => .error .outOfFuel
  | fuel + 1 =>
    if db.readCanonicalHash headNumber ≠ headHash then
      match headHeader with
      | none => .error .nilDereference
      | some hdr =>
        let db := db.writeCanonicalHash headHash headNumber
        rewriteCanonical db hdr.parentHash (hdr.number - 1)
          (db.readHeader hdr.parentHash (hdr.number - 1)) fuel
    else .ok db

variable (hashOf : Header → Hash)

/-- The first loop of `SetHead`: while the header `hdr` is above `head`, delete it and its
total difficulty, and go on to its parent. Returns the header it stops at. -/
def deleteHeadersAbove (head : UInt64) (db : ChainDb) :
    Option Header → Nat → Except HeaderError (ChainDb × Option Header)
  | _, 0 => .error .outOfFuel
  | none, _ + 1 => .ok (db, none)
  | some hdr, fuel + 1 =>
    if head < hdr.number then
      let db := (db.deleteHeader (hashOf hdr) hdr.number).deleteTd (hashOf hdr) hdr.number
      deleteHeadersAbove head db (db.readHeader hdr.parentHash (hdr.number - 1)) fuel
    else .ok (db, some hdr)

/-- The second loop of `SetHead`: for `i` from `height` down to above `head`, delete the
canonical hash of `i`. -/
def deleteCanonicalRange (head : UInt64) (db : ChainDb) (i : UInt64) : ChainDb :=
  if head < i then deleteCanonicalRange head (db.deleteCanonicalHash i) (i - 1) else db
termination_by i.toNat
decreasing_by
  rename_i hlt
  have hlt := UInt64.lt_iff_toNat_lt.mp hlt
  rw [toNat_sub_one (fun h => by simp [h] at hlt)]
  omega

/-! ### The header chain -/

/-- `HeaderChain`, with the database's header tables. -/
structure HeaderChain where
  chainDb : ChainDb
  genesisHeader : Header
  currentHeader : Header
  currentHeaderHash : Hash

namespace HeaderChain

/-- `HeaderChain.GetTd`. -/
def getTd (hc : HeaderChain) (hash : Hash) (number : UInt64) : Option Nat :=
  hc.chainDb.readTd hash number

/-- `HeaderChain.GetHeader`. -/
def getHeader (hc : HeaderChain) (hash : Hash) (number : UInt64) : Option Header :=
  hc.chainDb.readHeader hash number

/-- `HeaderChain.HasHeader`. -/
def hasHeader (hc : HeaderChain) (hash : Hash) (number : UInt64) : Bool :=
  hc.chainDb.hasHeader hash number

/-- `HeaderChain.GetHeaderByNumber`. -/
def getHeaderByNumber (hc : HeaderChain) (number : UInt64) : Option Header :=
  let hash := hc.chainDb.readCanonicalHash number
  if hash = 0 then none else hc.getHeader hash number

/-- The header chain that `NewHeaderChain` opens over a database the genesis header `g`
was committed to (`Genesis.Commit`): the genesis header with its difficulty as total
difficulty, canonical at its number, and the head. -/
def ofGenesis (g : Header) : HeaderChain where
  chainDb := ((ChainDb.empty.writeTd (hashOf g) g.number g.difficulty).writeHeader hashOf g)
    |>.writeCanonicalHash (hashOf g) g.number
  genesisHeader := g
  currentHeader := g
  currentHeaderHash := hashOf g

/-- `HeaderChain.WriteHeader`. `coin` is the draw `mrand.Float64() < 0.5` that breaks a tie
of total difficulties. -/
def writeHeader (hc : HeaderChain) (header : Header) (coin : Bool) :
    Except HeaderError (WriteStatus × HeaderChain) :=
  let hash := hashOf header
  let number := header.number
  match hc.getTd header.parentHash (number - 1) with
  | none => .error .unknownAncestor
  | some ptd =>
    match hc.getTd hc.currentHeaderHash hc.currentHeader.number with
    -- `externTd.Cmp(localTd)` dereferences a nil `localTd`
    | none => .error .nilDereference
    | some localTd =>
      let externTd := header.difficulty + ptd
      let db := (hc.chainDb.writeTd hash number externTd).writeHeader hashOf header
      if localTd < externTd ∨ (externTd = localTd ∧ coin = true) then do
        let db ← deleteCanonicalFrom db (number + 1) (2 ^ 64 + 1)
        let db ← rewriteCanonical db header.parentHash (number - 1)
          (db.readHeader header.parentHash (number - 1)) number.toNat
        let db := db.writeCanonicalHash hash number
        .ok (.canonStatTy, { hc with chainDb := db, currentHeaderHash := hash, currentHeader := header })
      else .ok (.sideStatTy, { hc with chainDb := db })

/-- `HeaderChain.SetHead`, with no delete callback. -/
def setHead (hc : HeaderChain) (head : UInt64) : Except HeaderError HeaderChain := do
  let height := hc.currentHeader.number
  let (db, hdr) ← deleteHeadersAbove hashOf head hc.chainDb (some hc.currentHeader)
    (height.toNat + 1)
  let db := deleteCanonicalRange head db height
  let current := hdr.getD hc.genesisHeader
  .ok { hc with chainDb := db, currentHeader := current, currentHeaderHash := hashOf current }

end HeaderChain

end Core
