import Dsplinz.Core.Bloom
import Dsplinz.Bitutil.Bytes
import Dsplinz.Lib.GoSlice

/-!
# The bloom-bits index and its matcher

`core/bloombits`: the header blooms of a section of `size` blocks are stored *rotated*, one
bit vector per bloom bit (`Generator`, in `generator.go`): bit `j` of vector `i` is bit `i`
of the bloom of block `j` of the section, most significant first in each byte. A log filter
then reads only the vectors of the bits its addresses and topics set (`Matcher`, in
`matcher.go`): for each filter it ands the three vectors of each key, ors the keys, and
ands the filters, and the blocks whose bit survives are the candidates.

In the source the matcher is a pipeline of goroutines: a scheduler per bit, a distributor
and retrievers that fetch vectors from the database, one sub-matcher per filter with its
channels. What it computes is sequential: `BloomBits.start` is that computation, with
`fetch bit section` the vector a retrieval delivers. The scheduling, the retrievals, their
failures and the session's cancellation are not modelled (so the session's error is always
nil). A Go slice that may be nil is an `Option`; a bloom is the number its 256 bytes denote,
as in `Core.Bloom`; Go's `section` is `sec` and `end` is `stop`, for both are keywords.
-/

namespace BloomBits

open Core ByteBitmap Bitutil

/-- The errors of the generator. -/
inductive Error where
  /-- `errSectionOutOfBounds`. -/
  | sectionOutOfBounds
  /-- `NewGenerator` on a section count that is not a multiple of 8. -/
  | sectionCountNotMultipleOf8
  /-- `AddBloom` on an index other than the next one. -/
  | unexpectedIndex
  /-- `Bitset` before the whole section is added. -/
  | notFullyGenerated
  deriving DecidableEq, Repr

/-- The text of each error. -/
def Error.text : Error → String
  | .sectionOutOfBounds => "section out of bounds"
  | .sectionCountNotMultipleOf8 => "section count not multiple of 8"
  | .unexpectedIndex => "bloom filter with unexpected index"
  | .notFullyGenerated => "bloom not fully generated yet"

/-! ### The generator -/

/-- `Generator`: `blooms` are the rotated blooms, one vector of `sections / 8` bytes per
bloom bit; `nextBit` is the block the next bloom is for. -/
structure Generator where
  blooms : List (List UInt8)
  sections : Nat
  nextBit : Nat

/-- `NewGenerator(sections)`. -/
def newGenerator (sections : Nat) : Except Error Generator :=
  if sections % 8 ≠ 0 then .error .sectionCountNotMultipleOf8
  else .ok
    { blooms := List.replicate bloomBitLength (List.replicate (sections / 8) 0)
      sections := sections
      nextBit := 0 }

/-- The 256 bytes of a bloom, `bloom[:]`. -/
def bloomBytes (bloom : Nat) : List UInt8 := BigEndian.lowBytes bloom bloomByteLength

/-- `AddBloom(index, bloom)`. Each bloom bit updates its own vector, so the loop over the
bits is a map over the vectors. -/
def Generator.addBloom (b : Generator) (index : Nat) (bloom : Nat) : Except Error Generator :=
  -- make sure we're not adding more bloom filters than our capacity
  if b.nextBit ≥ b.sections then .error .sectionOutOfBounds
  else if b.nextBit ≠ index then .error .unexpectedIndex
  else
    -- rotate the bloom and insert into our collection
    let byteIndex := b.nextBit / 8
    let bitMask : UInt8 := 1 <<< (7 - b.nextBit % 8).toUInt8
    let blooms := b.blooms.mapIdx fun i row =>
      let bloomByteIndex := bloomByteLength - 1 - i / 8
      let bloomBitMask : UInt8 := 1 <<< (i % 8).toUInt8
      if (bloomBytes bloom).getD bloomByteIndex 0 &&& bloomBitMask ≠ 0 then
        row.modify byteIndex (· ||| bitMask)
      else row
    .ok { b with blooms, nextBit := b.nextBit + 1 }

/-- `Bitset(idx)`. Its bound on `idx` is the section count, not the number of vectors: a
vector past the 2048 of them panics (`none`). -/
def Generator.bitset (b : Generator) (idx : Nat) : ExceptT Error Option (List UInt8) :=
  if b.nextBit ≠ b.sections then throw .notFullyGenerated
  else if idx ≥ b.sections then throw .sectionOutOfBounds
  else
    match b.blooms[idx]? with
    | some row => pure row
    | none => ExceptT.lift none

/-! ### The matcher -/

/-- `calcBloomIndexes(b)`: the three bloom bits of a key, from the first six bytes of its
hash. -/
def calcBloomIndexes (keccak : List UInt8 → List UInt8) (b : List UInt8) : List Nat :=
  let b := keccak b
  (List.range 3).map fun i =>
    (((b.getD (2 * i) 0).toNat <<< 8) &&& 2047) + (b.getD (2 * i + 1) 0).toNat

/-- `Matcher`, with the bloom bits of each clause of each filter. -/
structure Matcher where
  sectionSize : Nat
  filters : List (List (List Nat))

/-- `NewMatcher(sectionSize, filters)`, with a nil clause as `none`. -/
def newMatcher (keccak : List UInt8 → List UInt8) (sectionSize : Nat)
    (filters : List (List (Option (List UInt8)))) : Matcher :=
  { sectionSize := sectionSize
    filters := filters.filterMap fun filter =>
      -- an empty filter matches everything, and is skipped
      if filter.isEmpty then none
      -- a nil clause matches anything, and drops its whole filter
      else filter.mapM fun clause => clause.map (calcBloomIndexes keccak) }

/-- `partialMatches`: a section, and the vector of its blocks still in the running. -/
structure PartialMatches where
  sec : Nat
  bitset : Option (List UInt8)

/-- `bitutil.ANDBytes(v, v, data)`. -/
def andInto (v data : List UInt8) : List UInt8 :=
  ((safeANDBytes v v data).get (isSome_safeANDBytes_self v data)).1

/-- `bitutil.ORBytes(v, v, data)`. -/
def orInto (v data : List UInt8) : List UInt8 :=
  ((safeORBytes v v data).get (isSome_safeORBytes_self v data)).1

section Session

-- the vector a retrieval delivers for a bloom bit and a section
variable (fetch : Nat → Nat → List UInt8)

/-- One turn of the loop of `subMatch` over the bits of a clause: the vector of the bit,
copied into a fresh vector for the first bit and and-ed in for the others. -/
def andStep (sectionSize sec : Nat) (andVector : Option (List UInt8)) (bit : Nat) :
    Option (List UInt8) :=
  let data := fetch bit sec
  match andVector with
  | none => some (GoSlice.copyAt (List.replicate (sectionSize / 8) 0) 0 data).1
  | some v => some (andInto v data)

theorem andStep_none (sectionSize sec bit : Nat) :
    andStep fetch sectionSize sec none bit =
      some (GoSlice.copyAt (List.replicate (sectionSize / 8) 0) 0 (fetch bit sec)).1 := rfl

theorem andStep_some (sectionSize sec bit : Nat) (v : List UInt8) :
    andStep fetch sectionSize sec (some v) bit = some (andInto v (fetch bit sec)) := rfl

/-- One turn of the loop of `subMatch` over the clauses of a filter: the clause's
`andVector`, or-ed in. -/
def orStep (sectionSize sec : Nat) (orVector : Option (List UInt8)) (bloomBits : List Nat) :
    Option (List UInt8) :=
  let andVector := bloomBits.foldl (andStep fetch sectionSize sec) none
  match orVector with
  | none => andVector
  | some o => some (orInto o (andVector.getD []))

theorem orStep_none (sectionSize sec : Nat) (bloomBits : List Nat) :
    orStep fetch sectionSize sec none bloomBits = bloomBits.foldl (andStep fetch sectionSize sec) none :=
  rfl

theorem orStep_some (sectionSize sec : Nat) (o : List UInt8) (bloomBits : List Nat) :
    orStep fetch sectionSize sec (some o) bloomBits =
      some (orInto o ((bloomBits.foldl (andStep fetch sectionSize sec) none).getD [])) := rfl

/-- The merge of `subMatch` for one section: or over the filter's clauses of the and of the
vectors of their bits, and-ed into the vector of the sub-matchers before it. The section
goes on only if a block is left. -/
def subMatch (sectionSize : Nat) (bloom : List (List Nat)) (subres : PartialMatches) :
    Option PartialMatches :=
  -- gather all the sub-results and merge them together
  let orVector := bloom.foldl (orStep fetch sectionSize subres.sec) none
  let orVector := orVector.getD (List.replicate (sectionSize / 8) 0)
  let orVector := match subres.bitset with
    | some b => andInto orVector b
    | none => orVector
  if safeTestBytes orVector then some ⟨subres.sec, some orVector⟩ else none

/-- `subMatch` on a section still in the running, as the daisy chain always hands it one. -/
theorem subMatch_some (sectionSize : Nat) (bloom : List (List Nat)) (sec : Nat) (b : List UInt8) :
    subMatch fetch sectionSize bloom ⟨sec, some b⟩ =
      let orVector := andInto ((bloom.foldl (orStep fetch sectionSize sec) none).getD
        (List.replicate (sectionSize / 8) 0)) b
      if safeTestBytes orVector then some ⟨sec, some orVector⟩ else none := rfl

/-- A section through the daisy chain of `run`: it starts with every block in the running,
and each filter's sub-matcher may drop it. -/
def runSection (m : Matcher) (sec : Nat) : Option PartialMatches :=
  m.filters.foldl (fun subres bloom => subres.bind (subMatch fetch m.sectionSize bloom))
    (some ⟨sec, some (List.replicate (m.sectionSize / 8) 0xFF)⟩)

/-- `run(begin, end)`: the sections that come out of the chain, in order. -/
def run (m : Matcher) (begin stop : Nat) : List PartialMatches :=
  (List.range' (begin / m.sectionSize) (stop / m.sectionSize + 1 - begin / m.sectionSize)).filterMap
    (runSection fetch m)

/-- The loop of `Start` over the blocks `i` to `last` of a section that starts at
`sectionStart`: the blocks whose bit is set. Indexing past the vector panics (`none`). -/
def emitLoop (bitset : List UInt8) (sectionStart last i : Nat) : Option (List Nat) :=
  if i ≤ last then
    match bitset[(i - sectionStart) / 8]? with
    | none => none
    | some next =>
      -- skip the entire byte if no matches are found inside
      if next = 0 then emitLoop bitset sectionStart last (if i % 8 = 0 then i + 7 + 1 else i + 1)
      -- some bit is set, do the actual submatching
      else if next &&& 1 <<< (7 - i % 8).toUInt8 ≠ 0 then
        (i :: ·) <$> emitLoop bitset sectionStart last (i + 1)
      else emitLoop bitset sectionStart last (i + 1)
  else some []
termination_by last + 1 - i
decreasing_by all_goals (try split) <;> omega

/-- `Start(begin, end)`: the blocks the session sends on its results channel, in order. -/
def start (m : Matcher) (begin stop : Nat) : Option (List Nat) :=
  List.flatten <$> (run fetch m begin stop).mapM fun res =>
    -- calculate the first and last blocks of the section
    let sectionStart := res.sec * m.sectionSize
    let first := if begin > sectionStart then begin else sectionStart
    let last := if stop < sectionStart + m.sectionSize - 1 then stop
      else sectionStart + m.sectionSize - 1
    -- iterate over all the blocks in the section and return the matching ones
    emitLoop (res.bitset.getD []) sectionStart last first

end Session

end BloomBits
