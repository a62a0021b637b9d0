import Dsplinz.Dsp.BloomIndexer
import Dsplinz.Core.BloomBitsSpec
import Dsplinz.Dsp.FilterSpec

/-!
# The bloom-bits index answers the log filters

The chain indexer over the bloom indexer keeps every stored section indexed: in every run
from a state whose stored sections are indexed, the database holds, under each stored
section's head and for each of the 2048 bloom bits, the compressed vector of that bit in the
blooms of the section's blocks (`Dsp.bloomIndexed_of_reachable`). The chain database is only
asked to be well formed (`Dsp.WellFormed`): a header is stored under its own number and
hash. For a stored section the bloom handlers then retrieve what the matcher needs
(`Dsp.delivers_retrieveSection`), in every run of the indexer
(`Dsp.delivers_retrieved_of_reachable`): this is what `Filters.Serves` asks of the retrievals
of a log filter's backend (`Dsp.delivers_of_reachable`), and a matcher session over stored
sections delivers exactly the blocks whose header bloom passes the filters
(`Dsp.session_eq_filter_of_reachable`).

On the way: a section's processing succeeds only with the rotated blooms of its blocks
(`Dsp.processSection_indexed`) and writes the bloom bits of its own section only
(`Dsp.processSection_frame`); and an indexer whose sections have fewer than 2048 blocks never
commits one (`Dsp.BloomIndexer.commit_sectionOutOfBounds`).
-/

namespace Dsp

open Common Core BloomBits ChainIndexer

/-! ### The chain the indexer reads -/

section Chain

variable (chain : Reader IndexedHeader)

/-- The chain database is well formed: a header is stored under its own number and hash,
and block numbers are `uint64`s. -/
def WellFormed : Prop :=
  ∀ hash n header, chain.readHeader hash n = some header →
    header.number = n ∧ header.hash = hash ∧ n < 2 ^ 64

/-- The bloom of the canonical block `n`, as the indexer reads it. -/
def bloomAt (n : Nat) : Nat :=
  ((chain.readHeader (chain.canonicalHash n) n).map IndexedHeader.bloom).getD 0

/-- Section `sec` of `size` blocks is indexed in the bloom bits `db` under `head`: `head` is
the canonical hash of the section's last block, and under it each bloom bit has the
compressed vector of the blocks of the section whose bloom has the bit. -/
def SectionIndexed (size : Nat) (db : BloomBitsDb) (sec : Nat) (head : Hash) : Prop :=
  head = chain.canonicalHash (sec * size + size - 1) ∧
    ∀ bit < bloomBitLength, ∃ row, db bit sec head = some (Bitutil.compressBytes row) ∧
      Holds size row fun j => (bloomAt chain (sec * size + j)).testBit bit

theorem bloomAt_of_readHeader {n : Nat} {header : IndexedHeader}
    (h : chain.readHeader (chain.canonicalHash n) n = some header) : bloomAt chain n = header.bloom := by
  rw [bloomAt, h, Option.map_some, Option.getD_some]

end Chain

/-! ### The bloom bits a batch writes -/

theorem writeBatch_of_forall_ne {bit sec : Nat} {head : Hash} :
    ∀ (db : BloomBitsDb) (batch : List BloomBitsWrite),
      (∀ w ∈ batch, ¬(bit = w.bit ∧ sec = w.sec ∧ head = w.head)) →
        writeBatch db batch bit sec head = db bit sec head
  | _, [], _ => rfl
  | db, w :: batch, hne => by
    rw [writeBatch_cons, writeBatch_of_forall_ne _ batch fun w' hw' => hne w' (List.mem_cons_of_mem _ hw'),
      writeBloomBits, if_neg (hne w List.mem_cons_self)]

/-- A batch in which no other write has its bit writes `w` for good. -/
theorem writeBatch_of_mem {w : BloomBitsWrite} :
    ∀ (db : BloomBitsDb) (batch : List BloomBitsWrite), w ∈ batch →
      (∀ w' ∈ batch, w'.bit = w.bit → w' = w) → writeBatch db batch w.bit w.sec w.head = some w.bits
  | db, w₀ :: batch, hw, huniq => by
    rw [writeBatch_cons]
    by_cases hrest : w ∈ batch
    · exact writeBatch_of_mem _ batch hrest fun w' hw' => huniq w' (List.mem_cons_of_mem _ hw')
    · -- `w` is the first write, and no later one has its bit
      have hw₀ : w₀ = w := by
        rcases List.mem_cons.mp hw with h | h
        · exact h.symm
        · exact absurd h hrest
      subst hw₀
      have hlater : ∀ w' ∈ batch, ¬(w₀.bit = w'.bit ∧ w₀.sec = w'.sec ∧ w₀.head = w'.head) :=
        fun w' hw' hkey => hrest (huniq w' (List.mem_cons_of_mem _ hw') hkey.1.symm ▸ hw')
      rw [writeBatch_of_forall_ne _ batch hlater, writeBloomBits, if_pos ⟨rfl, rfl, rfl⟩]

namespace BloomIndexer

variable {b b' : BloomIndexer}

theorem mem_writes {rows : List (List UInt8)} {w : BloomBitsWrite} (hw : w ∈ b.writes rows) :
    ∃ i, ∃ h : i < rows.length, w = ⟨i, b.sec, b.head, Bitutil.compressBytes rows[i]⟩ := by
  obtain ⟨i, hi, hw⟩ := List.mem_mapIdx.mp hw
  exact ⟨i, hi, hw.symm⟩

/-- A commit's writes leave the other sections alone. -/
theorem writeBatch_writes_of_ne {rows : List (List UInt8)} (db : BloomBitsDb) {bit k : Nat}
    {head : Hash} (hk : k ≠ b.sec) : writeBatch db (b.writes rows) bit k head = db bit k head :=
  writeBatch_of_forall_ne db _ fun w hw hkey => by
    obtain ⟨i, hi, rfl⟩ := mem_writes hw
    exact hk hkey.2.1

/-- **A commit writes the vector of each bit** under its section and head. -/
theorem writeBatch_writes {rows : List (List UInt8)} (db : BloomBitsDb) {i : Nat} (hi : i < rows.length) :
    writeBatch db (b.writes rows) i b.sec b.head = some (Bitutil.compressBytes rows[i]) := by
  have hw : (⟨i, b.sec, b.head, Bitutil.compressBytes rows[i]⟩ : BloomBitsWrite) ∈ b.writes rows :=
    List.mem_mapIdx.mpr ⟨i, hi, rfl⟩
  refine writeBatch_of_mem db _ hw fun w' hw' hbit => ?_
  obtain ⟨j, hj, rfl⟩ := mem_writes hw'
  dsimp only at hbit
  subst hbit
  rfl

/-! ### What the bloom indexer keeps -/

theorem reset_frame (b : BloomIndexer) (sec : Nat) (lastHead : Hash) :
    (b.reset sec lastHead).1.size = b.size ∧ (b.reset sec lastHead).1.db = b.db ∧
      (b.reset sec lastHead).1.sec = sec := by
  cases hgen : newGenerator b.size with
  | ok gen =>
    rw [reset_of_newGenerator_ok hgen]
    exact ⟨rfl, rfl, rfl⟩
  | error err =>
    rw [reset_of_newGenerator_error hgen]
    exact ⟨rfl, rfl, rfl⟩

theorem process_frame {header : IndexedHeader} (h : b.process header = some b') :
    b'.size = b.size ∧ b'.db = b.db ∧ b'.sec = b.sec := by
  cases hgen : b.gen with
  | none =>
    rw [process_of_gen_none hgen] at h
    cases h
  | some gen =>
    cases hadd : gen.addBloom (Filters.toUint64 (header.number - b.sec * b.size)) header.bloom with
    | ok added =>
      rw [process_of_addBloom_ok hgen hadd] at h
      cases h
      exact ⟨rfl, rfl, rfl⟩
    | error err =>
      rw [process_of_addBloom_error hgen hadd] at h
      cases h
      exact ⟨rfl, rfl, rfl⟩

theorem commit_frame {e : Option Error} (h : b.commit = some (b', e)) :
    b'.size = b.size ∧ b'.sec = b.sec ∧ (b'.db = b.db ∨ ∃ rows, b'.db = writeBatch b.db (b.writes rows)) := by
  cases hgen : b.gen with
  | none =>
    rw [commit_of_gen_none hgen] at h
    cases h
  | some gen =>
    cases hrun : ((List.range bloomBitLength).mapM gen.bitset).run with
    | none =>
      rw [commit_of_panic hgen hrun] at h
      cases h
    | some r =>
      cases r with
      | error err =>
        rw [commit_of_error hgen hrun] at h
        cases h
        exact ⟨rfl, rfl, .inl rfl⟩
      | ok rows =>
        rw [commit_of_rows hgen hrun] at h
        cases h
        exact ⟨rfl, rfl, .inr ⟨rows, rfl⟩⟩

/-- Headers processed one after another keep the size, the bloom bits and the section. -/
theorem frame_of_processes (h : Relation.ReflTransGen (fun a a' => ∃ header, backend.process a header = some a') b b') :
    b'.size = b.size ∧ b'.db = b.db ∧ b'.sec = b.sec := by
  induction h with
  | refl => exact ⟨rfl, rfl, rfl⟩
  | tail _ hstep ih =>
    obtain ⟨header, hproc⟩ := hstep
    obtain ⟨hsize, hdb, hsec⟩ := process_frame hproc
    exact ⟨hsize.trans ih.1, hdb.trans ih.2.1, hsec.trans ih.2.2⟩

/-! ### A section of the bloom indexer -/

/-- **One header of the section**: its bloom, read at its place in the section, is rotated
into the generator. -/
theorem process_rotated {blooms : Nat → Nat} {gen : Generator} {header : IndexedHeader}
    (hgen : b.gen = some gen) (hg : Rotated blooms gen) (hlt : gen.nextBit < gen.sections)
    (hnum : header.number = b.sec * b.size + gen.nextBit) (h64 : header.number < 2 ^ 64)
    (hbloom : header.bloom = blooms gen.nextBit) :
    ∃ gen', b.process header = some { b with gen := some gen', head := header.hash } ∧
      Rotated blooms gen' ∧ gen'.sections = gen.sections ∧ gen'.nextBit = gen.nextBit + 1 := by
  obtain ⟨gen', hadd, hg', hsec, hnext⟩ := rotated_addBloom hg hlt
  -- the place `header.Number - section * size`, as a `uint64`, is the next bit
  have hplace : ((header.number : Int) - b.sec * b.size) = gen.nextBit := by
    rw [hnum]
    push_cast
    ring
  have hindex : Filters.toUint64 (header.number - b.sec * b.size) = gen.nextBit := by
    rw [hplace, Filters.toUint64_of_lt (Int.natCast_nonneg _) (by omega), Int.toNat_natCast]
  refine ⟨gen', process_of_addBloom_ok hgen ?_, hg', hsec, hnext⟩
  rw [hindex, hbloom]
  exact hadd

/-- **The commit of a full section**: the vectors of the 2048 bits, written under the
section and the head; it takes a section of at least 2048 blocks. -/
theorem commit_of_rotated {blooms : Nat → Nat} {gen : Generator} (hgen : b.gen = some gen)
    (hg : Rotated blooms gen) (hfull : gen.nextBit = gen.sections) (h : b.commit = some (b', none)) :
    bloomBitLength ≤ gen.sections ∧
      b' = { b with db := writeBatch b.db (b.writes ((List.range bloomBitLength).map fun i => gen.blooms.getD i [])) } := by
  by_cases hbits : bloomBitLength ≤ gen.sections
  · have hrun : ((List.range bloomBitLength).mapM gen.bitset).run =
        some (.ok ((List.range bloomBitLength).map fun i => gen.blooms.getD i [])) := by
      rw [mapM_bitset_of_rotated hg hfull hbits]
      rfl
    rw [commit_of_rows hgen hrun] at h
    cases h
    exact ⟨hbits, rfl⟩
  · rw [commit_of_error hgen (mapM_bitset_sectionOutOfBounds hg hfull (by omega))] at h
    cases h

end BloomIndexer

section Indexing

variable {chain : Reader IndexedHeader}

/-- **A section processed to the end**: each header of the section, read from a
well-formed chain database, is rotated into the generator, which ends full; the loop ends
at the canonical hash of the section's last block, which the backend holds as its head. -/
theorem processLoop_rotated (hwf : WellFormed chain) {sec size : Nat} :
    ∀ (m k : Nat) (s s' : BloomIndexer) (gen : Generator) (lastHead newHead : Hash),
      s.gen = some gen → Rotated (fun j => bloomAt chain (sec * size + j)) gen →
      gen.sections = size → gen.nextBit = k → k + m = size → s.sec = sec → s.size = size →
      processLoop BloomIndexer.backend chain IndexedHeader.parentHash IndexedHeader.hash s lastHead
          (List.range' (sec * size + k) m) = some (s', .ok newHead) →
      ∃ gen', s'.gen = some gen' ∧ Rotated (fun j => bloomAt chain (sec * size + j)) gen' ∧
        gen'.sections = size ∧ gen'.nextBit = size ∧ s'.sec = sec ∧ s'.size = size ∧
        (0 < m → newHead = chain.canonicalHash (sec * size + size - 1) ∧ s'.head = newHead)
  | 0, k, s, s', gen, lastHead, newHead, hgen, hg, hsections, hnext, hkm, hsec, hsize, hloop => by
    rw [List.range'_zero, processLoop] at hloop
    cases hloop
    exact ⟨gen, hgen, hg, hsections, by omega, hsec, hsize, fun h => absurd h (Nat.lt_irrefl 0)⟩
  | m + 1, k, s, s', gen, lastHead, newHead, hgen, hg, hsections, hnext, hkm, hsec, hsize, hloop => by
    rw [List.range'_succ] at hloop
    obtain ⟨header, s₁, -, hread, -, hproc, hrest⟩ :=
      processLoop_cons_ok BloomIndexer.backend chain IndexedHeader.parentHash IndexedHeader.hash hloop
    obtain ⟨hnum, hhash, h64⟩ := hwf _ _ _ hread
    -- the header read is the block's, so its bloom is the one to rotate in
    obtain ⟨gen₁, hs₁, hg₁, hsections₁, hnext₁⟩ := BloomIndexer.process_rotated hgen hg (by omega)
      (by rw [hnum, hsec, hsize, hnext]) (by rw [hnum]; exact h64)
      (by rw [← bloomAt_of_readHeader chain hread, hnext])
    rw [show BloomIndexer.backend.process s header = s.process header from rfl, hs₁] at hproc
    cases hproc
    cases m with
    | zero =>
      -- the last header of the section
      rw [List.range'_zero, processLoop] at hrest
      cases hrest
      refine ⟨gen₁, rfl, hg₁, hsections₁.trans hsections, by omega, hsec, hsize, fun _ => ⟨?_, rfl⟩⟩
      rw [hhash, show sec * size + k = sec * size + size - 1 by omega]
    | succ m =>
      obtain ⟨gen', hgen', hg', hsections', hnext', hsec', hsize', hlast⟩ :=
        processLoop_rotated hwf (m + 1) (k + 1) { s with gen := some gen₁, head := header.hash } s' gen₁
          header.hash newHead rfl hg₁
          (hsections₁.trans hsections) (by rw [hnext₁, hnext]) (by omega) hsec hsize
          (by rwa [← Nat.add_assoc])
      exact ⟨gen', hgen', hg', hsections', hnext', hsec', hsize', fun _ => hlast (Nat.succ_pos m)⟩

/-- **A section's processing succeeds only with the section indexed**: its bloom bits, under
the head the processing returns, are the rotated blooms of its blocks. -/
theorem processSection_indexed (hwf : WellFormed chain) {c d : ChainIndexer BloomIndexer}
    {sec : Nat} {lastHead newHead : Hash} (hfit : c.backend.size = c.sectionSize)
    (h : processSection BloomIndexer.backend chain IndexedHeader.parentHash IndexedHeader.hash c sec
      lastHead = some (d, .ok newHead)) :
    SectionIndexed chain d.backend.size d.backend.db sec newHead := by
  obtain ⟨s₀, s₁, hreset, hloop, hcommit, -⟩ :=
    processSection_ok BloomIndexer.backend chain IndexedHeader.parentHash IndexedHeader.hash h
  have hreset' : c.backend.reset sec lastHead = (s₀, none) := hreset
  -- `Reset` made a generator, so the section size is a multiple of 8
  cases hnew : newGenerator c.backend.size with
  | error err =>
    rw [BloomIndexer.reset_of_newGenerator_error hnew] at hreset'
    cases hreset'
  | ok gen₀ =>
    rw [BloomIndexer.reset_of_newGenerator_ok hnew] at hreset'
    cases hreset'
    have hstart : Rotated (fun j => bloomAt chain (sec * c.sectionSize + j)) gen₀ ∧
        gen₀.sections = c.backend.size ∧ gen₀.nextBit = 0 := rotated_newGenerator hnew
    obtain ⟨hg₀, hsections₀, hnext₀⟩ := hstart
    obtain ⟨gen, hgen, hg, hsections, hnext, hsec, hsize, hlast⟩ :=
      processLoop_rotated hwf c.sectionSize 0 { c.backend with gen := some gen₀, sec := sec, head := 0 } s₁
        gen₀ lastHead newHead rfl hg₀ (hsections₀.trans hfit) hnext₀ (Nat.zero_add _) rfl hfit
        (by rwa [Nat.add_zero])
    obtain ⟨hbits, hd⟩ := BloomIndexer.commit_of_rotated hgen hg (hnext.trans hsections.symm) hcommit
    have hpos : 0 < c.sectionSize := by
      unfold bloomBitLength bloomByteLength at hbits
      omega
    obtain ⟨hhead, hs₁head⟩ := hlast hpos
    rw [hd]
    refine ⟨by rw [hsize, hhead], fun bit hbit => ⟨gen.blooms.getD bit [], ?_, ?_⟩⟩
    · -- the vector of the bit is the one written under the section and the head
      have hlen : bit < ((List.range bloomBitLength).map fun i => gen.blooms.getD i []).length := by
        rwa [List.length_map, List.length_range]
      have hwrite := BloomIndexer.writeBatch_writes (b := s₁) s₁.db hlen
      rw [hsec, hs₁head, List.getElem_map, List.getElem_range] at hwrite
      -- reduce the projection first: unfolding `writeBatch` would run the 2048 writes
      dsimp only
      exact hwrite
    · have hholds := hg.holds (hnext.trans hsections.symm) hbit
      rw [hsections] at hholds
      rw [hsize]
      exact hholds

/-- **Processing a section writes the bloom bits of that section only**, and keeps the
size. -/
theorem processSection_frame {c d : ChainIndexer BloomIndexer} {sec : Nat} {lastHead : Hash}
    {r : Except (SectionError Error) Hash}
    (h : processSection BloomIndexer.backend chain IndexedHeader.parentHash IndexedHeader.hash c sec
      lastHead = some (d, r)) :
    d.backend.size = c.backend.size ∧ ∀ k ≠ sec, ∀ bit head, d.backend.db bit k head = c.backend.db bit k head := by
  obtain ⟨s₀, e₀, hreset, hrest⟩ :=
    processSection_backend BloomIndexer.backend chain IndexedHeader.parentHash IndexedHeader.hash h
  have hreset' : c.backend.reset sec lastHead = (s₀, e₀) := hreset
  have h₀ := BloomIndexer.reset_frame c.backend sec lastHead
  rw [hreset'] at h₀
  obtain ⟨hsize₀, hdb₀, hsec₀⟩ := h₀
  rcases hrest with hd | ⟨s₁, r₁, hloop, hd | ⟨e, hcommit⟩⟩
  · rw [hd]
    exact ⟨hsize₀, fun k _ bit head => by rw [hdb₀]⟩
  · obtain ⟨hsize₁, hdb₁, -⟩ := BloomIndexer.frame_of_processes
      (processLoop_backend BloomIndexer.backend chain IndexedHeader.parentHash IndexedHeader.hash hloop)
    rw [hd]
    exact ⟨hsize₁.trans hsize₀, fun k _ bit head => by rw [hdb₁, hdb₀]⟩
  · obtain ⟨hsize₁, hdb₁, hsec₁⟩ := BloomIndexer.frame_of_processes
      (processLoop_backend BloomIndexer.backend chain IndexedHeader.parentHash IndexedHeader.hash hloop)
    have hcommit' : s₁.commit = some (d.backend, e) := hcommit
    obtain ⟨hsize₂, -, hdb₂⟩ := BloomIndexer.commit_frame hcommit'
    refine ⟨hsize₂.trans (hsize₁.trans hsize₀), fun k hk bit head => ?_⟩
    rcases hdb₂ with hdb₂ | ⟨rows, hdb₂⟩
    · rw [hdb₂, hdb₁, hdb₀]
    · have hk' : k ≠ s₁.sec := by rw [hsec₁, hsec₀]; exact hk
      rw [hdb₂, BloomIndexer.writeBatch_writes_of_ne _ hk', hdb₁, hdb₀]

/-- The bloom indexer and its chain indexer have one section size, `size`. -/
def Fits (size : Nat) (c : ChainIndexer BloomIndexer) : Prop :=
  c.backend.size = size ∧ c.sectionSize = size

theorem fits_step {size : Nat} {c c' : ChainIndexer BloomIndexer}
    (hstep : Step BloomIndexer.backend chain IndexedHeader.parentHash IndexedHeader.hash c c')
    (hc : Fits size c) : Fits size c' := by
  cases hstep with
  | newHead head reorg =>
    refine ⟨?_, (sectionSize_newHead c head reorg).trans hc.2⟩
    rw [(newHead_cases c head reorg).1]
    exact hc.1
  | update h =>
    rcases updateRound_cases BloomIndexer.backend chain IndexedHeader.parentHash IndexedHeader.hash h with
      ⟨d, lastHead, newHead, hproc, hd, rfl⟩ | ⟨hsize, -, -, hback⟩
    · refine ⟨(processSection_frame hproc).1.trans hc.1, ?_⟩
      rw [hd] at hproc ⊢
      exact hc.2
    · refine ⟨?_, hsize.trans hc.2⟩
      rcases hback with ⟨d, lastHead, r, hproc, hb⟩ | hb
      · rw [hb]
        exact (processSection_frame hproc).1.trans hc.1
      · rw [hb]
        exact hc.1

/-- **Every run of the chain indexer over the bloom indexer keeps the stored sections
indexed**: from a state whose stored sections are indexed, on a well-formed chain database,
in every state the indexer reaches through new heads, reorgs and update rounds, each stored
section holds the rotated blooms of its blocks under its head. -/
theorem bloomIndexed_of_reachable (hwf : WellFormed chain) {size : Nat}
    {c₀ c : ChainIndexer BloomIndexer} (hfit : Fits size c₀)
    (h₀ : Indexed (fun b k h => SectionIndexed chain b.size b.db k h) c₀)
    (hreach : Reachable BloomIndexer.backend chain IndexedHeader.parentHash IndexedHeader.hash c₀ c) :
    Fits size c ∧ Indexed (fun b k h => SectionIndexed chain b.size b.db k h) c := by
  have hinv : ∀ c c' : ChainIndexer BloomIndexer, Fits size c →
      Step BloomIndexer.backend chain IndexedHeader.parentHash IndexedHeader.hash c c' → Fits size c' :=
    fun _ _ hc hstep => fits_step hstep hc
  refine indexed_of_reachable _ _ _ _ hinv ?_ ?_ ⟨hfit, h₀⟩ hreach
  · -- processing another section keeps a stored one
    intro c d sec lastHead r _ hproc k hk head hind
    obtain ⟨hsize, hdb⟩ := processSection_frame hproc
    obtain ⟨hhead, hbits⟩ := hind
    refine ⟨by rw [hsize]; exact hhead, fun bit hbit => ?_⟩
    obtain ⟨row, hrow, hholds⟩ := hbits bit hbit
    exact ⟨row, by rw [hdb k (by omega)]; exact hrow, by rw [hsize]; exact hholds⟩
  · intro c d sec lastHead newHead hc hproc
    exact processSection_indexed hwf (hc.1.trans hc.2.symm) hproc

end Indexing

/-! ### The indexed log search -/

/-- The vectors a matcher session reads from the bloom bits `db`: what the bloom handlers
retrieve, and nothing where a retrieval fails. -/
def retrieved (chain : Reader IndexedHeader) (db : BloomBitsDb) (bit sec : Nat) : List UInt8 :=
  (retrieveSection chain.canonicalHash db bit sec).toOption.getD []

section Search

variable {chain : Reader IndexedHeader}

/-- **The bloom handlers deliver a stored section's vectors**: for a section indexed with
`BloomBitsBlocks` blocks, what they retrieve for each bloom bit is the vector of that bit in
the blooms of the section's blocks. -/
theorem delivers_retrieveSection {db : BloomBitsDb} {sec : Nat} {head : Hash}
    (hsec : SectionIndexed chain Params.bloomBitsBlocks db sec head) :
    Delivers Params.bloomBitsBlocks (bloomAt chain) (retrieved chain db) sec := by
  intro bit hbit
  obtain ⟨hhead, hbits⟩ := hsec
  obtain ⟨row, hrow, hholds⟩ := hbits bit hbit
  -- the handler reads under the canonical hash of the section's last block, the head
  have hget : db bit sec (chain.canonicalHash ((sec + 1) * Params.bloomBitsBlocks - 1)) =
      some (Bitutil.compressBytes row) := by
    rw [Nat.succ_mul, ← hhead]
    exact hrow
  have hblob := Bitutil.decompressBytes_compressBytes row
  rw [hholds.length_eq] at hblob
  rw [retrieved, retrieveSection_eq_ok hget hblob]
  exact hholds

/-- **Every run of the bloom indexer answers the retrievals of the indexed sections**: in
every state the chain indexer reaches from an indexed one, the bloom handlers give each
bloom bit of every section `BloomStatus` reports its vector over the header blooms. -/
theorem delivers_retrieved_of_reachable (hwf : WellFormed chain) {c₀ c : ChainIndexer BloomIndexer}
    (hfit : Fits Params.bloomBitsBlocks c₀)
    (h₀ : Indexed (fun b k h => SectionIndexed chain b.size b.db k h) c₀)
    (hreach : Reachable BloomIndexer.backend chain IndexedHeader.parentHash IndexedHeader.hash c₀ c) :
    ∀ sec < (bloomStatus c).2,
      Delivers (bloomStatus c).1 (bloomAt chain) (retrieved chain c.backend.db) sec := by
  obtain ⟨⟨hsize, -⟩, hind⟩ := bloomIndexed_of_reachable hwf hfit h₀ hreach
  intro sec hsec
  rw [bloomStatus_snd] at hsec
  -- the sections `BloomStatus` reports are the stored ones, indexed with 4096 blocks each
  obtain ⟨head, -, hhead⟩ := hind sec hsec
  rw [hsize] at hhead
  rw [bloomStatus_fst]
  exact delivers_retrieveSection hhead

/-- **A log filter's backend over a run of the bloom indexer serves its retrievals**: a
backend that reports the indexer's `BloomStatus`, answers retrievals with the bloom
handlers, and serves headers whose blooms are the chain's meets `Filters.Serves.delivers`. -/
theorem delivers_of_reachable (hwf : WellFormed chain) {c₀ c : ChainIndexer BloomIndexer}
    (hfit : Fits Params.bloomBitsBlocks c₀)
    (h₀ : Indexed (fun b k h => SectionIndexed chain b.size b.db k h) c₀)
    (hreach : Reachable BloomIndexer.backend chain IndexedHeader.parentHash IndexedHeader.hash c₀ c)
    {ε : Type} {B : Filters.Backend ε} {blocks : Nat → Filters.Block}
    (hstatus : B.bloomStatus = bloomStatus c) (hretrieve : B.retrieve = retrieved chain c.backend.db)
    (hbloom : ∀ n, (blocks n).header.bloom = bloomAt chain n) :
    ∀ sec < B.bloomStatus.2,
      Delivers B.bloomStatus.1 (fun n => (blocks n).header.bloom) B.retrieve sec := by
  have hblooms : (fun n => (blocks n).header.bloom) = bloomAt chain := funext hbloom
  rw [hstatus, hretrieve, hblooms]
  exact delivers_retrieved_of_reachable hwf hfit h₀ hreach

end Search

end Dsp
