import Dsplinz.Core.BloomBits
import Dsplinz.Lib.Sections

/-!
# What the bloom-bits index and its matcher compute

The generator rotates a section's blooms, and the matcher's session over a range of blocks
delivers exactly the blocks whose header bloom passes the bloom test of every filter, in
order: the index and the pipeline over it answer what a scan of the headers would.

| result | what it says |
|---|---|
| `BloomBits.rotated_addBloom` | adding the next bloom rotates it into every vector |
| `BloomBits.Rotated.holds` | a full section's vector of a bloom bit is that bit of each block |
| `BloomBits.bitset_sectionOutOfBounds` | `Bitset` refuses every bit at or past the section count |
| `BloomBits.bloomLookup_eq_all_calcBloomIndexes` | the matcher's three bits are those `BloomLookup` tests |
| `BloomBits.passes_newMatcher` | `NewMatcher`'s filters pass a block when every filter has a key that passes |
| `BloomBits.yields_runSection` | the daisy chain keeps a section with exactly its blocks that pass |
| `BloomBits.emitLoop_eq_filter` | `Start`'s loop, byte skip and all, is a plain filter |
| `BloomBits.start_eq_filter` | the session delivers exactly the passing blocks of its range |
| `BloomBits.start_generate_eq_filter` | so it does with its retrievals answered by the generators |

The matcher's results rest on `BloomBits.Delivers`: the vectors a retrieval returns for a
section are the rotated blooms of its blocks, as a full generator holds them. A vector is
read through `BloomBits.Holds`, the blocks whose bit it sets.
-/

namespace BloomBits

open Core ByteBitmap Bitutil

/-! ### A bloom's bits -/

/-- The test of `AddBloom`, `bloom[255 - i/8] & (1 << (i % 8)) != 0`, reads bit `i` of the
bloom. -/
theorem bloomByte_and_ne_zero_iff (bloom : Nat) {i : Nat} (hi : i < bloomBitLength) :
    (bloomBytes bloom).getD (bloomByteLength - 1 - i / 8) 0 &&& (1 : UInt8) <<< (i % 8).toUInt8 ≠ 0 ↔
      bloom.testBit i := by
  have hmask : (1 : UInt8) <<< (i % 8).toUInt8 = bitMask (7 - i % 8) := by
    have h := one_shiftLeft_eq_bitMask (j := 7 - i % 8) (by omega)
    rwa [show 7 - (7 - i % 8) = i % 8 by omega] at h
  have hbyte := BigEndian.testBit_getD_lowBytes bloom (k := bloomByteLength) (m := i / 8)
    (r := i % 8) (by unfold bloomBitLength at hi; omega) (Nat.mod_lt _ (by decide))
  rw [show 8 * (i / 8) + i % 8 = i by omega] at hbyte
  rw [hmask, and_bitMask_ne_zero_iff _ (by omega), show 7 - (7 - i % 8) = i % 8 by omega, bloomBytes,
    hbyte]

/-! ### The generator -/

section Generator

/-- **A generator holds the rotated blooms of the first `nextBit` blocks** of its section:
bit `j` of vector `i` is bit `i` of `blooms j`, for the blocks added so far. -/
structure Rotated (blooms : Nat → Nat) (g : Generator) : Prop where
  sections_mod : g.sections % 8 = 0
  nextBit_le : g.nextBit ≤ g.sections
  length_blooms : g.blooms.length = bloomBitLength
  length_row : ∀ row ∈ g.blooms, row.length = g.sections / 8
  bit : ∀ i < bloomBitLength, ∀ j,
    bitAt (g.blooms.getD i []) j = (decide (j < g.nextBit) && (blooms j).testBit i)

variable {blooms : Nat → Nat} {g : Generator}

theorem rotated_newGenerator {sections : Nat} {g : Generator} (h : newGenerator sections = .ok g) :
    Rotated blooms g ∧ g.sections = sections ∧ g.nextBit = 0 := by
  unfold newGenerator at h
  split at h
  · cases h
  · next hmod =>
    cases h
    refine ⟨⟨by simpa using hmod, Nat.zero_le _, List.length_replicate, fun row hrow => ?_,
      fun i hi j => ?_⟩, rfl, rfl⟩
    · rw [List.eq_of_mem_replicate hrow, List.length_replicate]
    · rw [List.getD_eq_getElem?_getD, List.getElem?_replicate, if_pos hi, Option.getD_some,
        bitAt_replicate_zero]
      simp

/-- **Adding the next bloom** rotates it into every vector, one bit per vector. -/
theorem rotated_addBloom (hg : Rotated blooms g) (hlt : g.nextBit < g.sections) :
    ∃ g', g.addBloom g.nextBit (blooms g.nextBit) = .ok g' ∧ Rotated blooms g' ∧
      g'.sections = g.sections ∧ g'.nextBit = g.nextBit + 1 := by
  rw [Generator.addBloom, if_neg (Nat.not_le.mpr hlt), if_neg (not_not.mpr rfl)]
  dsimp only
  refine ⟨_, rfl, ⟨hg.sections_mod, show g.nextBit + 1 ≤ g.sections by omega,
    by simp [hg.length_blooms], ?_, ?_⟩, rfl, rfl⟩
  · -- every vector keeps its length
    intro row hrow
    obtain ⟨i, hi, rfl⟩ := List.getElem_of_mem hrow
    simp only [List.getElem_mapIdx]
    split
    · rw [List.length_modify]
      exact hg.length_row _ (List.getElem_mem _)
    · exact hg.length_row _ (List.getElem_mem _)
  · intro i hi j
    have hi' : i < g.blooms.length := hg.length_blooms ▸ hi
    have hrow := hg.length_row _ (List.getElem_mem hi')
    have hbit := hg.bit i hi j
    rw [List.getD_eq_getElem?_getD, List.getElem?_eq_getElem hi', Option.getD_some] at hbit
    simp only [List.getD_eq_getElem?_getD, List.getElem?_mapIdx, List.getElem?_eq_getElem hi',
      Option.map_some, Option.getD_some]
    -- the byte of the new block is in range, and its mask is the block's bit
    have hbyte : g.nextBit / 8 < g.blooms[i].length := by
      have := hg.sections_mod
      rw [hrow]
      omega
    have hmask : (1 : UInt8) <<< (7 - g.nextBit % 8).toUInt8 = bitMask (g.nextBit % 8) :=
      one_shiftLeft_eq_bitMask (Nat.mod_lt _ (by decide))
    split
    · next hset =>
      rw [bitAt_modify_or hbyte, hbit, hmask]
      rw [← List.getD_eq_getElem?_getD, bloomByte_and_ne_zero_iff _ hi] at hset
      by_cases hj : j = g.nextBit
      · subst hj
        simp [hset, testBit_bitMask (Nat.mod_lt _ (by decide)) (Nat.mod_lt _ (by decide))]
      · -- the new bit lands in another block's place
        have hoff : (decide (j / 8 = g.nextBit / 8) && decide (g.nextBit % 8 = j % 8)) = false := by
          simp only [Bool.and_eq_false_iff, decide_eq_false_iff_not]
          omega
        rw [testBit_bitMask (Nat.mod_lt _ (by decide)) (Nat.mod_lt _ (by decide)), hoff,
          Bool.or_false]
        by_cases hlt' : j < g.nextBit
        · simp [hlt', show j < g.nextBit + 1 by omega]
        · simp [hlt', show ¬j < g.nextBit + 1 by omega]
    · next hclear =>
      rw [← List.getD_eq_getElem?_getD, bloomByte_and_ne_zero_iff _ hi] at hclear
      rw [hbit]
      by_cases hj : j = g.nextBit
      · subst hj
        simp [hclear]
      · by_cases hlt' : j < g.nextBit
        · simp [hlt', show j < g.nextBit + 1 by omega]
        · simp [hlt', show ¬j < g.nextBit + 1 by omega]

/-- A full section's vector of a bloom bit below the section count: the generator's
vector. -/
theorem bitset_of_lt (hg : Rotated blooms g) (hfull : g.nextBit = g.sections) {i : Nat}
    (hi : i < bloomBitLength) (hsec : i < g.sections) : g.bitset i = pure (g.blooms.getD i []) := by
  have hi' : i < g.blooms.length := hg.length_blooms ▸ hi
  rw [Generator.bitset, if_neg (not_not.mpr hfull), if_neg (Nat.not_le.mpr hsec), List.getElem?_eq_getElem hi',
    List.getD_eq_getElem?_getD, List.getElem?_eq_getElem hi', Option.getD_some]

/-- **`Bitset` bounds the bit by the section count**, not by the 2048 bloom bits: a
section of fewer than 2048 blocks has vectors it refuses to give out. -/
theorem bitset_sectionOutOfBounds (hfull : g.nextBit = g.sections) {i : Nat} (hsec : g.sections ≤ i) :
    g.bitset i = throw .sectionOutOfBounds := by
  rw [Generator.bitset, if_neg (not_not.mpr hfull), if_pos hsec]

/-- Past the 2048 vectors, a section of more blocks makes `Bitset` panic. -/
theorem bitset_panics (hg : Rotated blooms g) (hfull : g.nextBit = g.sections) {i : Nat}
    (hi : bloomBitLength ≤ i) (hsec : i < g.sections) : (g.bitset i).run = none := by
  rw [Generator.bitset, if_neg (not_not.mpr hfull), if_neg (Nat.not_le.mpr hsec),
    List.getElem?_eq_none (hg.length_blooms ▸ hi)]
  rfl

/-- A `mapM` of computations that all return. -/
theorem mapM_eq_pure_map {m : Type → Type} [Monad m] [LawfulMonad m] {α β : Type}
    {f : α → m β} {h : α → β} : ∀ {l : List α}, (∀ a ∈ l, f a = pure (h a)) → l.mapM f = pure (l.map h)
  | [], _ => List.mapM_nil
  | a :: l, hl => by
    rw [List.mapM_cons, hl a List.mem_cons_self, pure_bind,
      mapM_eq_pure_map fun a' ha' => hl a' (List.mem_cons_of_mem _ ha'), pure_bind, List.map_cons]

/-- The reads of `Bitset` below the section count. -/
theorem mapM_bitset_of_lt (hg : Rotated blooms g) (hfull : g.nextBit = g.sections) {n : Nat}
    (hn : n ≤ g.sections) (hbits : n ≤ bloomBitLength) :
    (List.range n).mapM g.bitset = pure ((List.range n).map fun i => g.blooms.getD i []) := by
  apply mapM_eq_pure_map
  intro i hi
  rw [List.mem_range] at hi
  exact bitset_of_lt hg hfull (by omega) (by omega)

/-- **`Commit`'s reads of a full generator of at least 2048 blocks**: the 2048 vectors. -/
theorem mapM_bitset_of_rotated (hg : Rotated blooms g) (hfull : g.nextBit = g.sections)
    (hbits : bloomBitLength ≤ g.sections) :
    (List.range bloomBitLength).mapM g.bitset =
      pure ((List.range bloomBitLength).map fun i => g.blooms.getD i []) :=
  mapM_bitset_of_lt hg hfull hbits (le_refl _)

/-- **A section of fewer than 2048 blocks never commits**: `Bitset` refuses the vector of the
bloom bit that is the section count. -/
theorem mapM_bitset_sectionOutOfBounds (hg : Rotated blooms g) (hfull : g.nextBit = g.sections)
    (hlt : g.sections < bloomBitLength) :
    ((List.range bloomBitLength).mapM g.bitset).run = some (.error .sectionOutOfBounds) := by
  -- the vectors below the section count are read, and the next one is refused
  obtain ⟨m, hm⟩ : ∃ m, bloomBitLength = g.sections + (m + 1) := ⟨bloomBitLength - g.sections - 1, by omega⟩
  rw [hm, List.range_add, List.range_succ_eq_map, List.map_cons, Nat.add_zero, List.mapM_append,
    mapM_bitset_of_lt hg hfull (le_refl _) hlt.le, pure_bind, List.mapM_cons,
    bitset_sectionOutOfBounds hfull (le_refl _)]
  rfl

end Generator

/-! ### The bits of a key -/

section Keys

variable (keccak : List UInt8 → List UInt8)

/-- `bloom9` adds the low byte of a pair inside the 11-bit mask, `calcBloomIndexes` outside
it; the shift of the high byte leaves room for it, so both pick the same bit. -/
theorem bloomIndex_eq (x y : UInt8) :
    (y.toNat + x.toNat <<< 8) &&& 2047 = ((x.toNat <<< 8) &&& 2047) + y.toNat := by
  have hy := y.toNat_lt
  rw [show (2047 : Nat) = 2 ^ 11 - 1 from rfl, Nat.and_two_pow_sub_one_eq_mod,
    Nat.and_two_pow_sub_one_eq_mod, Nat.shiftLeft_eq]
  omega

/-- The bits `bloom9` sets are the indexes `calcBloomIndexes` computes. -/
theorem testBit_bloom9 (b : List UInt8) (n : Nat) :
    (bloom9 keccak b).testBit n = (calcBloomIndexes keccak b).any (· == n) := by
  have hrange : List.range 3 = [0, 1, 2] := rfl
  dsimp only [bloom9]
  rw [BitMask.testBit_foldl_or_shiftLeft, Nat.zero_testBit, Bool.false_or]
  simp only [calcBloomIndexes, hrange, List.map_cons, List.map_nil, List.any_cons, List.any_nil,
    bloomIndex_eq]

/-- **The matcher tests the bits `BloomLookup` tests**: a key passes a bloom exactly when the
bloom has the three bits `calcBloomIndexes` computes for it. -/
theorem bloomLookup_eq_all_calcBloomIndexes (bin : Nat) (b : List UInt8) :
    bloomLookup keccak bin b = (calcBloomIndexes keccak b).all bin.testBit := by
  rw [bloomLookup, Bool.eq_iff_iff, beq_iff_eq, BitMask.and_eq_right_iff, List.all_eq_true]
  simp only [testBit_bloom9, List.any_eq_true, beq_iff_eq]
  constructor
  · intro h i hi
    exact h i ⟨i, hi, rfl⟩
  · rintro h i ⟨k, hk, rfl⟩
    exact h k hk

theorem length_calcBloomIndexes (b : List UInt8) : (calcBloomIndexes keccak b).length = 3 := by
  rw [calcBloomIndexes, List.length_map, List.length_range]

theorem lt_of_mem_calcBloomIndexes {b : List UInt8} {bit : Nat}
    (h : bit ∈ calcBloomIndexes keccak b) : bit < bloomBitLength := by
  simp only [calcBloomIndexes, List.mem_map] at h
  obtain ⟨i, -, rfl⟩ := h
  rw [← bloomIndex_eq]
  exact lt_of_le_of_lt Nat.and_le_right (by decide)

end Keys

/-! ### What the matcher computes -/

/-- A filter, as the bloom bits of its clauses, passes `bloom` when the bloom has all the bits
of one of its clauses. -/
def clausesPass (bloom : Nat) (clauses : List (List Nat)) : Bool :=
  clauses.any fun bits => bits.all bloom.testBit

/-- Block `n`, whose bloom is `blooms n`, passes the matcher when it passes every filter. -/
def Matcher.passes (m : Matcher) (blooms : Nat → Nat) (n : Nat) : Bool :=
  m.filters.all (clausesPass (blooms n))

/-- The filters as `NewMatcher` builds them: every clause has bits, and they are bloom bits. -/
def Matcher.WellFormed (m : Matcher) : Prop :=
  ∀ f ∈ m.filters, ∀ c ∈ f, c ≠ [] ∧ ∀ bit ∈ c, bit < bloomBitLength

section NewMatcher

variable (keccak : List UInt8 → List UInt8)

theorem eq_calcBloomIndexes_of_mem_mapM :
    ∀ {filter : List (Option (List UInt8))} {f : List (List Nat)},
      filter.mapM (fun (clause : Option (List UInt8)) => clause.map (calcBloomIndexes keccak)) =
        some f → ∀ c ∈ f, ∃ key, c = calcBloomIndexes keccak key
  | [], f, h => by
    rw [List.mapM_nil] at h
    cases h
    simp
  | none :: _, _, h => by
    rw [List.mapM_cons] at h
    cases h
  | some key :: filter, f, h => by
    rw [List.mapM_cons] at h
    cases hrest : filter.mapM (fun clause => clause.map (calcBloomIndexes keccak)) with
    | none =>
      rw [hrest] at h
      cases h
    | some cs =>
      rw [hrest] at h
      cases h
      intro c hc
      rcases List.mem_cons.mp hc with rfl | hc
      · exact ⟨key, rfl⟩
      · exact eq_calcBloomIndexes_of_mem_mapM hrest c hc

/-- `NewMatcher` keeps three bloom bits for every key. -/
theorem wellFormed_newMatcher (sectionSize : Nat) (filters : List (List (Option (List UInt8)))) :
    (newMatcher keccak sectionSize filters).WellFormed := by
  intro f hf c hc
  simp only [newMatcher, List.mem_filterMap] at hf
  obtain ⟨filter, -, hF⟩ := hf
  split at hF
  · cases hF
  · obtain ⟨key, rfl⟩ := eq_calcBloomIndexes_of_mem_mapM keccak hF c hc
    refine ⟨fun h => ?_, fun bit hbit => lt_of_mem_calcBloomIndexes keccak hbit⟩
    have hlen := length_calcBloomIndexes keccak key
    rw [h, List.length_nil] at hlen
    cases hlen

/-- A filter of keys passes a bloom when one of its keys does; a nil key passes everything,
so drops its filter. -/
theorem all_clausesPass_mapM (bloom : Nat) :
    ∀ filter : List (Option (List UInt8)),
      (filter.mapM fun (clause : Option (List UInt8)) => clause.map (calcBloomIndexes keccak)).all
          (clausesPass bloom) =
        filter.any fun clause => clause.all (bloomLookup keccak bloom)
  | [] => rfl
  | none :: filter => by
    rw [List.mapM_cons]
    rfl
  | some key :: filter => by
    rw [List.mapM_cons, List.any_cons, Option.all_some, ← all_clausesPass_mapM bloom filter,
      bloomLookup_eq_all_calcBloomIndexes]
    cases filter.mapM (fun (clause : Option (List UInt8)) => clause.map (calcBloomIndexes keccak)) <;>
      simp [clausesPass]

/-- **The blocks `NewMatcher`'s matcher passes**: those whose bloom passes, for every filter
with keys and without a nil key, the `BloomLookup` of one of its keys. -/
theorem passes_newMatcher (sectionSize : Nat) (filters : List (List (Option (List UInt8))))
    (blooms : Nat → Nat) (n : Nat) :
    (newMatcher keccak sectionSize filters).passes blooms n =
      filters.all fun filter =>
        filter.isEmpty || filter.any fun clause => clause.all (bloomLookup keccak (blooms n)) := by
  simp only [Matcher.passes, newMatcher, List.all_filterMap]
  congr 1
  funext filter
  cases hf : filter.isEmpty
  · exact all_clausesPass_mapM keccak (blooms n) filter
  · rfl

/-- The blocks of a list that `NewMatcher`'s matcher passes, by their blooms. -/
theorem filter_passes_newMatcher (sectionSize : Nat) (filters : List (List (Option (List UInt8))))
    (blooms : Nat → Nat) (ns : List Nat) :
    ns.filter ((newMatcher keccak sectionSize filters).passes blooms) =
      ns.filter fun n => filters.all fun filter =>
        filter.isEmpty || filter.any fun clause => clause.all (bloomLookup keccak (blooms n)) := by
  congr 1
  funext n
  exact passes_newMatcher keccak sectionSize filters blooms n

end NewMatcher

/-! ### The vectors of a section -/

/-- The vector `v` of a section of `size` blocks holds exactly the blocks `j` with `p j`. -/
structure Holds (size : Nat) (v : List UInt8) (p : Nat → Bool) : Prop where
  length_eq : v.length = size / 8
  bitAt_eq : ∀ j, bitAt v j = (decide (j < size) && p j)

namespace Holds

variable {size : Nat} {v w : List UInt8} {p q : Nat → Bool}

/-- Only the blocks of the section matter. -/
theorem congr (hv : Holds size v p) (h : ∀ j < size, p j = q j) : Holds size v q := by
  refine ⟨hv.length_eq, fun j => ?_⟩
  rw [hv.bitAt_eq]
  by_cases hj : j < size
  · rw [h j hj]
  · simp [hj]

theorem and (hv : Holds size v p) (hw : Holds size w q) :
    Holds size (andInto v w) fun j => p j && q j := by
  have hlen : v.length = w.length := hv.length_eq.trans hw.length_eq.symm
  refine ⟨(length_safeANDBytes_self hlen).trans hv.length_eq, fun j => ?_⟩
  rw [andInto, bitAt_safeANDBytes_self hlen, hv.bitAt_eq, hw.bitAt_eq]
  cases decide (j < size) <;> simp

theorem or (hv : Holds size v p) (hw : Holds size w q) :
    Holds size (orInto v w) fun j => p j || q j := by
  have hlen : v.length = w.length := hv.length_eq.trans hw.length_eq.symm
  refine ⟨(length_safeORBytes_self hlen).trans hv.length_eq, fun j => ?_⟩
  rw [orInto, bitAt_safeORBytes_self hlen, hv.bitAt_eq, hw.bitAt_eq]
  cases decide (j < size) <;> simp

theorem replicate_zero (size : Nat) : Holds size (List.replicate (size / 8) 0) fun _ => false :=
  ⟨List.length_replicate, fun j => by rw [bitAt_replicate_zero, Bool.and_false]⟩

theorem replicate_ff (hmod : size % 8 = 0) : Holds size (List.replicate (size / 8) 0xFF) fun _ => true :=
  ⟨List.length_replicate, fun j => by
    rw [bitAt_replicate_ff, Bool.and_true, show 8 * (size / 8) = size by omega]⟩

/-- `TestBytes` finds a block of the section that is in. -/
theorem safeTestBytes_eq_true_iff (hv : Holds size v p) :
    safeTestBytes v = true ↔ ∃ j < size, p j = true := by
  rw [Bitutil.safeTestBytes_iff]
  simp only [hv.bitAt_eq, Bool.and_eq_true, decide_eq_true_eq]

end Holds

/-- The vectors of a full generator are what a retrieval must deliver: vector `i` holds the
blocks whose bloom has bit `i`. -/
theorem Rotated.holds {blooms : Nat → Nat} {g : Generator} (hg : Rotated blooms g) (hfull : g.nextBit = g.sections) {i : Nat}
    (hi : i < bloomBitLength) :
    Holds g.sections (g.blooms.getD i []) fun j => (blooms j).testBit i := by
  have hi' : i < g.blooms.length := hg.length_blooms ▸ hi
  refine ⟨?_, fun j => ?_⟩
  · rw [List.getD_eq_getElem?_getD, List.getElem?_eq_getElem hi', Option.getD_some]
    exact hg.length_row _ (List.getElem_mem hi')
  · rw [hg.bit i hi j, hfull]

/-- **What a retrieval delivers** for section `sec` of `size` blocks, when `blooms n` is the
bloom of block `n`: the vector of each bloom bit holds the blocks of the section whose bloom
has that bit, as a full generator's `Bitset` gives it out. -/
def Delivers (size : Nat) (blooms : Nat → Nat) (fetch : Nat → Nat → List UInt8) (sec : Nat) : Prop :=
  ∀ bit < bloomBitLength, Holds size (fetch bit sec) fun j => (blooms (sec * size + j)).testBit bit

/-- What the chain passes on for section `sec` when `p` picks the blocks still in: nothing
when none is, else the section with the vector of those that are. -/
def Yields (size sec : Nat) (p : Nat → Bool) : Option PartialMatches → Prop
  | none => ∀ j < size, p j = false
  | some r => r.sec = sec ∧ ∃ v, r.bitset = some v ∧ Holds size v p

theorem Yields.congr {size sec : Nat} {p q : Nat → Bool} {r : Option PartialMatches}
    (hr : Yields size sec p r) (h : ∀ j < size, p j = q j) : Yields size sec q r := by
  cases r with
  | none => exact fun j hj => (h j hj).symm.trans (hr j hj)
  | some r =>
    obtain ⟨hsec, v, hv, hholds⟩ := hr
    exact ⟨hsec, v, hv, hholds.congr h⟩

section Session

variable {fetch : Nat → Nat → List UInt8} {size : Nat} {blooms : Nat → Nat} {sec : Nat}

/-- The loop over a clause's bits, from a vector already made: each bit's vector and-ed in. -/
theorem foldl_andStep_some (hd : Delivers size blooms fetch sec) :
    ∀ (bits : List Nat) (v : List UInt8) (p : Nat → Bool), (∀ bit ∈ bits, bit < bloomBitLength) →
      Holds size v p → ∃ v', bits.foldl (andStep fetch size sec) (some v) = some v' ∧
        Holds size v' fun j => p j && bits.all (blooms (sec * size + j)).testBit
  | [], v, p, _, hv => ⟨v, rfl, hv.congr fun j _ => by rw [List.all_nil, Bool.and_true]⟩
  | bit :: bits, v, p, hbits, hv => by
    have hbit := hd bit (hbits bit List.mem_cons_self)
    obtain ⟨v', hfold, hv'⟩ := foldl_andStep_some hd bits _ _
      (fun b hb => hbits b (List.mem_cons_of_mem _ hb)) (hv.and hbit)
    refine ⟨v', by rwa [List.foldl_cons, andStep_some], hv'.congr fun j _ => ?_⟩
    simp only [List.all_cons, Bool.and_assoc]

/-- The loop over a clause's bits: the and of their vectors, the first one copied. -/
theorem foldl_andStep (hd : Delivers size blooms fetch sec) {bits : List Nat} (hne : bits ≠ [])
    (hbits : ∀ bit ∈ bits, bit < bloomBitLength) :
    ∃ v, bits.foldl (andStep fetch size sec) none = some v ∧
      Holds size v fun j => bits.all (blooms (sec * size + j)).testBit := by
  obtain ⟨bit, bits, rfl⟩ := List.exists_cons_of_ne_nil hne
  have hbit := hd bit (hbits bit List.mem_cons_self)
  -- the first vector is copied into a fresh one of its own length
  have hcopy : (GoSlice.copyAt (List.replicate (size / 8) 0) 0 (fetch bit sec)).1 = fetch bit sec := by
    rw [GoSlice.copyAt_replicate, ← hbit.length_eq, List.take_length, Nat.sub_self,
      List.replicate_zero, List.append_nil]
  obtain ⟨v, hfold, hv⟩ := foldl_andStep_some hd bits _ _
    (fun b hb => hbits b (List.mem_cons_of_mem _ hb)) hbit
  refine ⟨v, by rwa [List.foldl_cons, andStep_none, hcopy], hv.congr fun j _ => ?_⟩
  simp only [List.all_cons]

/-- The loop over a filter's clauses, from a vector already made: each clause's vector
or-ed in. -/
theorem foldl_orStep_some (hd : Delivers size blooms fetch sec) :
    ∀ (clauses : List (List Nat)) (o : List UInt8) (p : Nat → Bool),
      (∀ c ∈ clauses, c ≠ [] ∧ ∀ bit ∈ c, bit < bloomBitLength) → Holds size o p →
      ∃ o', clauses.foldl (orStep fetch size sec) (some o) = some o' ∧
        Holds size o' fun j => p j || clausesPass (blooms (sec * size + j)) clauses
  | [], o, p, _, ho => ⟨o, rfl, ho.congr fun j _ => by rw [clausesPass, List.any_nil, Bool.or_false]⟩
  | c :: cs, o, p, hcs, ho => by
    obtain ⟨hne, hbits⟩ := hcs c List.mem_cons_self
    obtain ⟨v, hv, hvh⟩ := foldl_andStep hd hne hbits
    obtain ⟨o', hfold, ho'⟩ := foldl_orStep_some hd cs _ _
      (fun c' hc' => hcs c' (List.mem_cons_of_mem _ hc')) (ho.or hvh)
    refine ⟨o', by rwa [List.foldl_cons, orStep_some, hv, Option.getD_some], ho'.congr fun j _ => ?_⟩
    simp only [clausesPass, List.any_cons, Bool.or_assoc]

/-- The loop over a filter's clauses: the or of their vectors, and no block for a filter
without clauses. -/
theorem foldl_orStep (hd : Delivers size blooms fetch sec) {clauses : List (List Nat)}
    (hcs : ∀ c ∈ clauses, c ≠ [] ∧ ∀ bit ∈ c, bit < bloomBitLength) :
    Holds size ((clauses.foldl (orStep fetch size sec) none).getD (List.replicate (size / 8) 0))
      fun j => clausesPass (blooms (sec * size + j)) clauses := by
  cases clauses with
  | nil => exact (Holds.replicate_zero size).congr fun j _ => rfl
  | cons c cs =>
    obtain ⟨hne, hbits⟩ := hcs c List.mem_cons_self
    obtain ⟨v, hv, hvh⟩ := foldl_andStep hd hne hbits
    obtain ⟨o', hfold, ho'⟩ := foldl_orStep_some hd cs _ _
      (fun c' hc' => hcs c' (List.mem_cons_of_mem _ hc')) hvh
    rw [List.foldl_cons, orStep_none, hv, hfold, Option.getD_some]
    exact ho'.congr fun j _ => by simp only [clausesPass, List.any_cons]

/-- **One sub-matcher**: the section goes on with the blocks still in that pass its filter,
and only if one does. -/
theorem yields_subMatch (hd : Delivers size blooms fetch sec) {bloom : List (List Nat)}
    (hcs : ∀ c ∈ bloom, c ≠ [] ∧ ∀ bit ∈ c, bit < bloomBitLength) {b : List UInt8}
    {p : Nat → Bool} (hb : Holds size b p) :
    Yields size sec (fun j => p j && clausesPass (blooms (sec * size + j)) bloom)
      (subMatch fetch size bloom ⟨sec, some b⟩) := by
  have hv := ((foldl_orStep hd hcs).and hb).congr fun j _ => Bool.and_comm _ (p j)
  rw [subMatch_some]
  dsimp only
  split
  · exact ⟨rfl, _, rfl, hv⟩
  · next htest =>
    rw [hv.safeTestBytes_eq_true_iff] at htest
    exact fun j hj => Bool.eq_false_iff.mpr fun h => htest ⟨j, hj, h⟩

/-- Once a section is dropped, the rest of the chain never sees it. -/
theorem foldl_bind_none {α β : Type} (g : β → α → Option α) :
    ∀ l : List β, l.foldl (fun s b => s.bind (g b)) none = none
  | [] => rfl
  | _ :: l => foldl_bind_none g l

theorem yields_foldl_subMatch (hd : Delivers size blooms fetch sec) :
    ∀ (fs : List (List (List Nat))) (b : List UInt8) (p : Nat → Bool),
      (∀ f ∈ fs, ∀ c ∈ f, c ≠ [] ∧ ∀ bit ∈ c, bit < bloomBitLength) → Holds size b p →
      Yields size sec (fun j => p j && fs.all (clausesPass (blooms (sec * size + j))))
        (fs.foldl (fun subres bloom => subres.bind (subMatch fetch size bloom)) (some ⟨sec, some b⟩))
  | [], b, p, _, hb => ⟨rfl, b, rfl, hb.congr fun j _ => by rw [List.all_nil, Bool.and_true]⟩
  | f :: fs, b, p, hfs, hb => by
    have hf := yields_subMatch hd (hfs f List.mem_cons_self) hb
    have hrest : ∀ f' ∈ fs, ∀ c ∈ f', c ≠ [] ∧ ∀ bit ∈ c, bit < bloomBitLength :=
      fun f' hf' => hfs f' (List.mem_cons_of_mem _ hf')
    rw [List.foldl_cons, Option.bind_some]
    cases h : subMatch fetch size f ⟨sec, some b⟩ with
    | none =>
      -- the section was dropped here: none of its blocks passes this filter
      rw [h] at hf
      rw [foldl_bind_none]
      intro j hj
      simp only [List.all_cons, ← Bool.and_assoc, hf j hj, Bool.false_and]
    | some r =>
      rw [h] at hf
      obtain ⟨hsec, b', hb', hholds⟩ := hf
      obtain ⟨sec', bits⟩ := r
      dsimp only at hsec hb'
      subst sec' bits
      exact (yields_foldl_subMatch hd fs b' _ hrest hholds).congr fun j _ => by
        simp only [List.all_cons, Bool.and_assoc]

/-- **The daisy chain**: a section comes out of it exactly when one of its blocks passes
every filter, with the vector of the blocks that do. -/
theorem yields_runSection {m : Matcher} (hwf : m.WellFormed) (hmod : m.sectionSize % 8 = 0)
    (hd : Delivers m.sectionSize blooms fetch sec) :
    Yields m.sectionSize sec (fun j => m.passes blooms (sec * m.sectionSize + j))
      (runSection fetch m sec) :=
  (yields_foldl_subMatch hd m.filters _ _ hwf (Holds.replicate_ff hmod)).congr fun _ _ =>
    Bool.true_and _

end Session

/-! ### Emitting the blocks of a section -/

section Emit

variable {bitset : List UInt8} {sectionStart last : Nat}

/-- The loop's test of a byte reads the block's bit. -/
theorem bitAt_eq_true_iff_of_getElem? (hstart : sectionStart % 8 = 0) {i : Nat}
    (hi : sectionStart ≤ i) {next : UInt8} (hnext : bitset[(i - sectionStart) / 8]? = some next) :
    bitAt bitset (i - sectionStart) = true ↔ next &&& 1 <<< (7 - i % 8).toUInt8 ≠ 0 := by
  rw [bitAt_of_getElem? hnext, one_shiftLeft_eq_bitMask (Nat.mod_lt _ (by decide)),
    and_bitMask_ne_zero_iff _ (Nat.mod_lt _ (by decide)), show (i - sectionStart) % 8 = i % 8 by omega]

/-- **`Start`'s loop over a section is a filter** of its blocks by their bit in the vector,
byte skip included: a zero byte holds no block the filter keeps. -/
theorem emitLoop_eq_filter (hstart : sectionStart % 8 = 0)
    (hlast : last < sectionStart + 8 * bitset.length) (i : Nat) :
    sectionStart ≤ i → emitLoop bitset sectionStart last i =
      some ((List.range' i (last + 1 - i)).filter fun k => bitAt bitset (k - sectionStart)) := by
  fun_induction emitLoop bitset sectionStart last i with
  | case1 i hle hnone =>
    -- the loop stays inside the vector
    intro hi
    rw [List.getElem?_eq_none_iff] at hnone
    omega
  | case2 i hle hzero ih =>
    -- a zero byte: skip to the next byte at its start, else to the next block
    intro hi
    rw [dite_eq_ite] at ih
    have hle' : i ≤ if i % 8 = 0 then i + 7 + 1 else i + 1 := by split <;> omega
    have hskip : ∀ k, i ≤ k → k < (if i % 8 = 0 then i + 7 + 1 else i + 1) →
        bitAt bitset (k - sectionStart) = false := by
      intro k hik hk
      have hbyte : (k - sectionStart) / 8 = (i - sectionStart) / 8 := by split at hk <;> omega
      have hk8 : bitset[(k - sectionStart) / 8]? = some 0 := by rw [hbyte]; exact hzero
      rw [bitAt_of_getElem? hk8, UInt8.toNat_zero, Nat.zero_testBit]
    rw [ih (Nat.le_trans hi hle'), Sections.filter_range'_skip hle' hskip]
  | case3 i hle next hnext hne hset ih =>
    intro hi
    have hbit := (bitAt_eq_true_iff_of_getElem? hstart hi hnext).mpr hset
    rw [ih (by omega), Sections.range'_eq_cons hle, List.filter_cons, if_pos hbit]
    rfl
  | case4 i hle next hnext hne hclear ih =>
    intro hi
    have hbit : bitAt bitset (i - sectionStart) ≠ true :=
      fun h => hclear ((bitAt_eq_true_iff_of_getElem? hstart hi hnext).mp h)
    rw [ih (by omega), Sections.range'_eq_cons hle, List.filter_cons, if_neg hbit]
  | case5 i hlt =>
    intro _
    rw [show last + 1 - i = 0 by omega]
    rfl

end Emit

/-! ### The session -/

section Start

variable {fetch : Nat → Nat → List UInt8} {blooms : Nat → Nat} {m : Matcher}

/-- What `Start` emits for a section that comes out of the chain: its blocks in the range
that pass. -/
theorem emitLoop_part (hsize : 0 < m.sectionSize) (hmod : m.sectionSize % 8 = 0) {sec : Nat}
    {v : List UInt8} (hv : Holds m.sectionSize v fun j => m.passes blooms (sec * m.sectionSize + j))
    (begin stop : Nat) :
    emitLoop v (sec * m.sectionSize)
        (if stop < sec * m.sectionSize + m.sectionSize - 1 then stop
          else sec * m.sectionSize + m.sectionSize - 1)
        (if begin > sec * m.sectionSize then begin else sec * m.sectionSize) =
      some ((Sections.part m.sectionSize begin stop sec).filter (m.passes blooms)) := by
  have hstart : sec * m.sectionSize % 8 = 0 := by rw [Nat.mul_mod, hmod, Nat.mul_zero, Nat.zero_mod]
  have hlen := hv.length_eq
  unfold Sections.part
  dsimp only
  generalize hss : sec * m.sectionSize = ss at hv hstart ⊢
  rw [emitLoop_eq_filter hstart (by split <;> omega) _ (by split <;> omega),
    show (if begin > ss then begin else ss) = max ss begin by split <;> omega,
    show (if stop < ss + m.sectionSize - 1 then stop else ss + m.sectionSize - 1) =
      min (ss + m.sectionSize - 1) stop by split <;> omega]
  congr 1
  apply List.filter_congr
  intro k hk
  rw [List.mem_range'_1] at hk
  rw [hv.bitAt_eq, decide_eq_true (by omega), Bool.true_and, show ss + (k - ss) = k by omega]

/-- A section that does not come out of the chain has no block in the range that passes. -/
theorem filter_part_eq_nil {sec : Nat} (hsize : 0 < m.sectionSize)
    (hnone : ∀ j < m.sectionSize, m.passes blooms (sec * m.sectionSize + j) = false) (begin stop : Nat) :
    (Sections.part m.sectionSize begin stop sec).filter (m.passes blooms) = [] := by
  rw [List.filter_eq_nil_iff]
  intro k hk
  rw [Sections.mem_part hsize] at hk
  have h := hnone (k - sec * m.sectionSize) (by omega)
  rw [show sec * m.sectionSize + (k - sec * m.sectionSize) = k by omega] at h
  rw [h]
  simp

/-- **The session delivers exactly the blocks of `[begin, end]` whose bloom passes every
filter**, in order, when the retrievals deliver the vectors of each section they are asked
for. -/
theorem start_eq_filter (hwf : m.WellFormed) (hsize : 0 < m.sectionSize)
    (hmod : m.sectionSize % 8 = 0) {begin stop : Nat}
    (hd : ∀ sec, begin / m.sectionSize ≤ sec → sec ≤ stop / m.sectionSize →
      Delivers m.sectionSize blooms fetch sec) :
    start fetch m begin stop =
      some ((List.range' begin (stop + 1 - begin)).filter (m.passes blooms)) := by
  rw [start, run, Sections.range'_eq_flatMap_part hsize (a := begin) (b := stop), List.filter_flatMap]
  apply Sections.flatten_mapM_filterMap
  intro sec hsec
  rw [List.mem_range'_1] at hsec
  have hy := yields_runSection hwf hmod (hd sec (by omega) (by omega))
  cases h : runSection fetch m sec with
  | none =>
    rw [h] at hy
    exact .inl ⟨rfl, filter_part_eq_nil hsize hy begin stop⟩
  | some r =>
    rw [h] at hy
    obtain ⟨hsec', v, hv, hholds⟩ := hy
    refine .inr ⟨r, rfl, ?_⟩
    dsimp only
    rw [hv, Option.getD_some, hsec']
    exact emitLoop_part hsize hmod hholds begin stop

end Start

/-! ### Retrievals answered from the generators -/

section Generated

variable {blooms : Nat → Nat}

/-- The generator of section `sec` of `size` blocks, with the blooms of its blocks added in
order by `AddBloom`. -/
def generate (size : Nat) (blooms : Nat → Nat) (sec : Nat) : Except Error Generator :=
  (newGenerator size).bind fun gen =>
    (List.range size).foldlM (fun g j => g.addBloom j (blooms (sec * size + j))) gen

/-- A retrieval answered by `Bitset` of the generator of the section, and nothing where it
fails. -/
def fromGenerators (size : Nat) (blooms : Nat → Nat) (bit sec : Nat) : List UInt8 :=
  match generate size blooms sec with
  | .ok g =>
    match (g.bitset bit).run with
    | some (.ok row) => row
    | _ => []
  | .error _ => []

/-- Adding the next `n` blooms in order keeps a generator rotated. -/
theorem foldlM_addBloom {sec size : Nat} : ∀ (n : Nat) {g : Generator},
    Rotated (fun j => blooms (sec * size + j)) g → g.nextBit + n ≤ g.sections →
    ∃ g', (List.range' g.nextBit n).foldlM (fun g j => g.addBloom j (blooms (sec * size + j))) g = .ok g' ∧
      Rotated (fun j => blooms (sec * size + j)) g' ∧ g'.sections = g.sections ∧ g'.nextBit = g.nextBit + n
  | 0, g, hg, _ => ⟨g, rfl, hg, rfl, rfl⟩
  | n + 1, g, hg, hle => by
    obtain ⟨g₁, hadd, hg₁, hsec₁, hnext₁⟩ := rotated_addBloom hg (by omega)
    obtain ⟨g', hfold, hg', hsec', hnext'⟩ := foldlM_addBloom n hg₁ (by omega)
    refine ⟨g', ?_, hg', hsec'.trans hsec₁, by omega⟩
    rw [hnext₁] at hfold
    rw [List.range'_succ, List.foldlM_cons, hadd]
    exact hfold

/-- On a section size that is a multiple of 8, `generate` adds every block's bloom. -/
theorem generate_ok {size : Nat} (hmod : size % 8 = 0) (sec : Nat) :
    ∃ g, generate size blooms sec = .ok g ∧ Rotated (fun j => blooms (sec * size + j)) g ∧
      g.sections = size ∧ g.nextBit = size := by
  obtain ⟨gen, hnew⟩ : ∃ gen, newGenerator size = .ok gen :=
    ⟨_, by rw [newGenerator, if_neg (not_not.mpr hmod)]⟩
  have h₀ : Rotated (fun j => blooms (sec * size + j)) gen ∧ gen.sections = size ∧ gen.nextBit = 0 :=
    rotated_newGenerator hnew
  obtain ⟨hg₀, hsec₀, hnext₀⟩ := h₀
  obtain ⟨g, hfold, hg, hsec, hnext⟩ := foldlM_addBloom size hg₀ (by omega)
  rw [hnext₀] at hfold
  refine ⟨g, ?_, hg, hsec.trans hsec₀, by omega⟩
  rw [generate, hnew, List.range_eq_range']
  exact hfold

/-- Sections of at least 2048 blocks give out the vectors of all the bloom bits. -/
theorem delivers_fromGenerators {size : Nat} (hmod : size % 8 = 0) (hbits : bloomBitLength ≤ size)
    (sec : Nat) : Delivers size blooms (fromGenerators size blooms) sec := by
  intro bit hbit
  obtain ⟨g, hgen, hg, hsec, hnext⟩ := generate_ok hmod sec
  have hfull : g.nextBit = g.sections := hnext.trans hsec.symm
  have hrow : fromGenerators size blooms bit sec = g.blooms.getD bit [] := by
    rw [fromGenerators, hgen]
    dsimp only
    rw [bitset_of_lt hg hfull hbit (by omega)]
    rfl
  have hholds := hg.holds hfull hbit
  rw [hsec] at hholds
  rw [hrow]
  exact hholds

/-- **With every retrieval answered from the generators, a session delivers exactly the
blocks whose bloom passes the filters**, in order: for sections of at least 2048 blocks, a
multiple of 8, the matcher's pipeline over the rotated vectors agrees with testing each
block's bloom, empty filters and filters with a nil clause matching every block. -/
theorem start_generate_eq_filter (keccak : List UInt8 → List UInt8) {size : Nat} (hmod : size % 8 = 0)
    (hbits : bloomBitLength ≤ size) (blooms : Nat → Nat) (filters : List (List (Option (List UInt8))))
    (begin stop : Nat) :
    start (fromGenerators size blooms) (newMatcher keccak size filters) begin stop =
      some ((List.range' begin (stop + 1 - begin)).filter fun n =>
        filters.all fun filter =>
          filter.isEmpty || filter.any fun clause => clause.all (bloomLookup keccak (blooms n))) := by
  have hsize : 0 < size := Nat.lt_of_lt_of_le (by decide) hbits
  rw [start_eq_filter (wellFormed_newMatcher keccak size filters) hsize hmod
    fun sec _ _ => delivers_fromGenerators hmod hbits sec, filter_passes_newMatcher]

theorem start_generate_eq_filter_wildcard :
    2048 % 8 = 0 ∧ bloomBitLength ≤ 2048 ∧
      start (fromGenerators 2048 fun _ => 0) (newMatcher id 2048 [[none]]) 0 1 = some [0, 1] :=
  ⟨by decide, by decide, (start_generate_eq_filter id (by decide) (by decide) _ [[none]] 0 1).trans rfl⟩

/-- **A generated section of fewer than 2048 blocks refuses the vectors of its higher bloom
bits**: `Bitset` bounds the bit index by the section count, so the vector of every bloom bit
from `size` to 2047, which `calcBloomIndexes` can ask for, is never given out. -/
theorem generate_refuses_bloom_bit {size : Nat} (hmod : size % 8 = 0) (blooms : Nat → Nat)
    (sec : Nat) {bit : Nat} (hbit : size ≤ bit) :
    ∃ g, generate size blooms sec = .ok g ∧ g.nextBit = g.sections ∧
      g.bitset bit = throw .sectionOutOfBounds ∧ fromGenerators size blooms bit sec = [] := by
  obtain ⟨g, hgen, -, hsec, hnext⟩ : ∃ g, generate size blooms sec = .ok g ∧
      Rotated (fun j => blooms (sec * size + j)) g ∧ g.sections = size ∧ g.nextBit = size :=
    generate_ok hmod sec
  have hfull : g.nextBit = g.sections := hnext.trans hsec.symm
  have hrefuse : g.bitset bit = throw .sectionOutOfBounds :=
    bitset_sectionOutOfBounds hfull (by omega)
  refine ⟨g, hgen, hfull, hrefuse, ?_⟩
  rw [fromGenerators, hgen]
  dsimp only
  rw [hrefuse]
  rfl

/-- A section of eight blocks and bloom bit `8`, one of the 2048. -/
theorem generate_refuses_bloom_bit_eight :
    8 < bloomBitLength ∧ 8 % 8 = 0 ∧ 8 ≤ 8 ∧
      ∃ g, generate 8 (fun _ => 0) 0 = .ok g ∧ g.nextBit = g.sections ∧
        g.bitset 8 = throw .sectionOutOfBounds ∧ fromGenerators 8 (fun _ => 0) 8 0 = [] :=
  ⟨by decide, by decide, le_refl 8,
    generate_refuses_bloom_bit (by decide) (fun _ => 0) 0 (le_refl 8)⟩

end Generated

end BloomBits
