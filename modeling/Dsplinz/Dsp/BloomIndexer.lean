import Dsplinz.Core.ChainIndexer
import Dsplinz.Core.BloomBits
import Dsplinz.Bitutil.Compress
import Dsplinz.Dsp.Filter
import Dsplinz.Params

/-!
# The bloom-bits indexer and the bloom handlers

`dsp/bloombits.go`. The `BloomIndexer` is the backend through which a chain indexer
(`Core.ChainIndexer`) builds the bloom-bits index: `Reset` starts a `bloombits.Generator` for
the section, `Process` adds a header's bloom at its place in the section, and `Commit` writes
the section's 2048 rotated vectors, compressed, under the section, each bit and the hash of
the section's last header. The bloom handlers (`startBloomHandlers`) serve the matcher's
retrievals from those writes: the vector of a bit for a section is read under the canonical
hash of the section's last block, and decompressed to `BloomBitsBlocks / 8` bytes.

The bloom bits of the database are a function of bit, section and head (`Dsp.BloomBitsDb`),
and a batch is written in order. `Commit` computes the vectors of all 2048 bits before it
writes any, which is what its loop does to the database: it writes into a batch, and returns
on the first error before the batch is written. The error of `AddBloom` in `Process` is
dropped, as in the source, and the generator is then as it was. A nil generator panics
(`none`). The handlers' goroutines and the multiplexing of the matcher's requests are not
modelled; a handler's answer to one task is `Dsp.serveTask`.
-/

namespace Dsp

open Common Core BloomBits

/-- `types.Header`, as the chain indexer and the bloom indexer read it; `hash` is
`Header.Hash()`. -/
structure IndexedHeader where
  number : Nat
  parentHash : Hash
  bloom : Nat
  hash : Hash

/-- The bloom bits of the database: what `WriteBloomBits` stored under a bit, a section and
the hash of the section's last header. -/
abbrev BloomBitsDb : Type := Nat → Nat → Hash → Option (List UInt8)

/-- A `WriteBloomBits` in a batch: the bit, the section, the head and the compressed
vector. -/
structure BloomBitsWrite where
  bit : Nat
  sec : Nat
  head : Hash
  bits : List UInt8

/-- `rawdb.WriteBloomBits`. -/
def writeBloomBits (db : BloomBitsDb) (w : BloomBitsWrite) : BloomBitsDb :=
  fun bit sec head => if bit = w.bit ∧ sec = w.sec ∧ head = w.head then some w.bits else db bit sec head

/-- `batch.Write()`: the writes of the batch, in order. -/
def writeBatch (db : BloomBitsDb) (batch : List BloomBitsWrite) : BloomBitsDb :=
  batch.foldl writeBloomBits db

@[simp] theorem writeBatch_nil (db : BloomBitsDb) : writeBatch db [] = db := rfl

theorem writeBatch_cons (db : BloomBitsDb) (w : BloomBitsWrite) (batch : List BloomBitsWrite) :
    writeBatch db (w :: batch) = writeBatch (writeBloomBits db w) batch := rfl

/-- `BloomIndexer`, with the bloom bits of its database. -/
structure BloomIndexer where
  size : Nat
  db : BloomBitsDb
  gen : Option Generator
  sec : Nat
  head : Hash

namespace BloomIndexer

/-- `Reset(section, lastSectionHead)`: a generator for the new section, and the error of
`NewGenerator`. -/
def reset (b : BloomIndexer) (sec : Nat) (_lastSectionHead : Hash) : BloomIndexer × Option Error :=
  match newGenerator b.size with
  | .ok gen => ({ b with gen := some gen, sec := sec, head := 0 }, none)
  | .error err => ({ b with gen := none, sec := sec, head := 0 }, some err)

/-- `Process(header)`: the header's bloom at its place in the section, as a `uint`. -/
def process (b : BloomIndexer) (header : IndexedHeader) : Option BloomIndexer :=
  match b.gen with
  | none => none
  | some gen =>
    let gen := match gen.addBloom (Filters.toUint64 (header.number - b.sec * b.size)) header.bloom with
      | .ok added => added
      | .error _ => gen
    some { b with gen := some gen, head := header.hash }

section Steps

variable {b : BloomIndexer} {gen : Generator}

theorem reset_of_newGenerator_ok (h : newGenerator b.size = .ok gen) (sec : Nat) (lastHead : Hash) :
    b.reset sec lastHead = ({ b with gen := some gen, sec := sec, head := 0 }, none) := by
  rw [reset, h]

theorem reset_of_newGenerator_error {err : Error} (h : newGenerator b.size = .error err) (sec : Nat)
    (lastHead : Hash) : b.reset sec lastHead = ({ b with gen := none, sec := sec, head := 0 }, some err) := by
  rw [reset, h]

theorem process_of_gen_none (h : b.gen = none) (header : IndexedHeader) : b.process header = none := by
  rw [process, h]

theorem process_of_addBloom_ok {header : IndexedHeader} {added : Generator} (hgen : b.gen = some gen)
    (h : gen.addBloom (Filters.toUint64 (header.number - b.sec * b.size)) header.bloom = .ok added) :
    b.process header = some { b with gen := some added, head := header.hash } := by
  rw [process, hgen]
  dsimp only
  rw [h]

theorem process_of_addBloom_error {header : IndexedHeader} {err : Error} (hgen : b.gen = some gen)
    (h : gen.addBloom (Filters.toUint64 (header.number - b.sec * b.size)) header.bloom = .error err) :
    b.process header = some { b with gen := some gen, head := header.hash } := by
  rw [process, hgen]
  dsimp only
  rw [h]

end Steps

/-- The writes of `Commit()`, one per bloom bit, from the vectors of the bits. -/
def writes (b : BloomIndexer) (rows : List (List UInt8)) : List BloomBitsWrite :=
  rows.mapIdx fun i bits => ⟨i, b.sec, b.head, Bitutil.compressBytes bits⟩

/-- `Commit()`: the vectors of the 2048 bloom bits, compressed and written; or the first
error of `Bitset`, and nothing written. -/
def commit (b : BloomIndexer) : Option (BloomIndexer × Option Error) :=
  match b.gen with
  | none => none
  | some gen =>
    match ((List.range bloomBitLength).mapM gen.bitset).run with
    | none => none
    | some (.error err) => some (b, some err)
    | some (.ok rows) => some ({ b with db := writeBatch b.db (b.writes rows) }, none)

section Commit

variable {b : BloomIndexer} {gen : Generator}

theorem commit_of_gen_none (h : b.gen = none) : b.commit = none := by
  rw [commit, h]

theorem commit_of_rows {rows : List (List UInt8)} (hgen : b.gen = some gen)
    (h : ((List.range bloomBitLength).mapM gen.bitset).run = some (.ok rows)) :
    b.commit = some ({ b with db := writeBatch b.db (b.writes rows) }, none) := by
  rw [commit, hgen]
  dsimp only
  rw [h]

theorem commit_of_error {err : Error} (hgen : b.gen = some gen)
    (h : ((List.range bloomBitLength).mapM gen.bitset).run = some (.error err)) :
    b.commit = some (b, some err) := by
  rw [commit, hgen]
  dsimp only
  rw [h]

theorem commit_of_panic (hgen : b.gen = some gen)
    (h : ((List.range bloomBitLength).mapM gen.bitset).run = none) : b.commit = none := by
  rw [commit, hgen]
  dsimp only
  rw [h]

end Commit

/-- The bloom indexer as the backend of a chain indexer. -/
def backend : ChainIndexerBackend BloomIndexer Error IndexedHeader where
  reset := reset
  process := process
  commit := commit

end BloomIndexer

/-- `BloomStatus()` of the API backend: the blocks of a section and the sections the bloom
indexer has stored. -/
def bloomStatus (c : ChainIndexer BloomIndexer) : Nat × Nat :=
  (Params.bloomBitsBlocks, c.sections.1)

@[simp] theorem bloomStatus_fst (c : ChainIndexer BloomIndexer) : (bloomStatus c).1 = Params.bloomBitsBlocks :=
  rfl

@[simp] theorem bloomStatus_snd (c : ChainIndexer BloomIndexer) : (bloomStatus c).2 = c.storedSections := rfl

/-! ### The bloom handlers -/

/-- The errors of a retrieval. -/
inductive RetrievalError where
  /-- `ReadBloomBits` of a key that is not in the database. -/
  | notFound
  /-- The stored vector does not decompress. -/
  | decompress (err : Bitutil.DecompressError)

/-- A bloom handler's retrieval of the vector of `bit` for `sec`: read under the canonical
hash of the section's last block, and decompressed. -/
def retrieveSection (canonicalHash : Nat → Hash) (db : BloomBitsDb) (bit sec : Nat) :
    Except RetrievalError (List UInt8) :=
  let head := canonicalHash ((sec + 1) * Params.bloomBitsBlocks - 1)
  match db bit sec head with
  | none => .error .notFound
  | some compVector =>
    match Bitutil.decompressBytes compVector (Params.bloomBitsBlocks / 8) with
    | .ok blob => .ok blob
    | .error err => .error (.decompress err)

theorem retrieveSection_eq_ok {canonicalHash : Nat → Hash} {db : BloomBitsDb} {bit sec : Nat}
    {compVector blob : List UInt8}
    (hget : db bit sec (canonicalHash ((sec + 1) * Params.bloomBitsBlocks - 1)) = some compVector)
    (hblob : Bitutil.decompressBytes compVector (Params.bloomBitsBlocks / 8) = .ok blob) :
    retrieveSection canonicalHash db bit sec = .ok blob := by
  rw [retrieveSection, hget]
  simp only [hblob]

/-- A bloom handler's answer to a retrieval task of `bit` over `sections`: the vector of
each section, nil where its retrieval failed, and the last error. -/
def serveTask (canonicalHash : Nat → Hash) (db : BloomBitsDb) (bit : Nat) (sections : List Nat) :
    List (Option (List UInt8)) × Option RetrievalError :=
  sections.foldl (fun acc sec =>
    match retrieveSection canonicalHash db bit sec with
    | .ok blob => (acc.1 ++ [some blob], acc.2)
    | .error err => (acc.1 ++ [none], some err)) ([], none)

end Dsp
