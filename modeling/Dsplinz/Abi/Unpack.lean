import Dsplinz.Abi.Type
import Dsplinz.Lib.GoSlice
import Dsplinz.Lib.BigEndian

/-!
# Unpacking ABI data

`accounts/abi/unpack.go` and `Arguments.UnpackValues` of `accounts/abi/argument.go`: the
decoding of ABI-encoded data into Go values, one argument at a time, each by `toGoType` at
its word.

The data is a Go byte slice, a `GoSlice.View` with its capacity: a slice expression past
the capacity panics (`none`), and the only reslicing past the length of a slice is
`readFixedBytes`'s `word[0:t.Size]`. The computations run in `Abi.Unpack`: an
error is an `Abi.Error`, a panic is `none`. Go's `int`s are `Int`s: for types whose arrays
fit in memory and data that fits in memory, none of the sums and products here reaches
`2 ^ 63`.

`forEachUnpack` is given `toGoType` of the element type, which it calls for each element,
so that `toGoType` is structurally recursive on the type.
-/

namespace Abi

open GoSlice BigEndian

/-- The values `toGoType` returns, by their Go type. -/
inductive Value where
  /-- An integer of the given kind, from `readInteger`. -/
  | integer (kind : Kind) (v : Int)
  | bool (b : Bool)
  | string (s : List UInt8)
  /-- A `common.Address`. -/
  | address (a : List UInt8)
  /-- A `common.Hash`. -/
  | hash (h : List UInt8)
  | bytes (b : List UInt8)
  /-- A `[Size]byte` array. -/
  | fixedBytes (b : List UInt8)
  /-- The `[24]byte` of a function. -/
  | function (f : List UInt8)
  /-- The slice `forEachUnpack` makes. -/
  | slice (vs : List Value)
  /-- The array `forEachUnpack` makes. -/
  | array (vs : List Value)
  deriving Repr

/-- The errors of unpacking. -/
inductive Error where
  /-- `"cannot marshal input to array, size is negative (%d)"`. -/
  | negativeSize (size : Int)
  /-- `"abi: cannot marshal in to go array: offset %d would go over slice boundary (len=%d)"`. -/
  | arrayOverBoundary (len stop : Int)
  /-- `"abi: invalid type in array/slice unpacking stage"`. -/
  | invalidArrayType
  /-- `"abi: cannot marshal in to go type: length insufficient %d require %d"`. -/
  | lengthInsufficient (len need : Int)
  /-- `"abi: cannot marshal in to go slice: offset %v would go over slice boundary (len=%v)"`. -/
  | offsetOverBoundary (offsetEnd len : Nat)
  /-- `"abi offset larger than int64: %v"`. -/
  | offsetLargerThanInt64 (offsetEnd : Nat)
  /-- `"abi length larger than int64: %v"`. -/
  | lengthLargerThanInt64 (totalSize : Nat)
  /-- `errBadBool`. -/
  | badBool
  /-- `"abi: invalid type in call to make function type byte array"`. -/
  | invalidFunctionType
  /-- `"abi: got improperly encoded function type, got %v"`. -/
  | improperFunctionType (word : List UInt8)
  /-- `"abi: invalid type in call to make fixed byte array"`. -/
  | invalidFixedBytesType
  /-- `"abi: unknown type %v"`. -/
  | unknownType
  deriving DecidableEq, Repr

/-- Unpacking: an error, or a panic (`none`). -/
abbrev Unpack := ExceptT Error Option

/-- A slice expression or an index out of range: a panic. -/
def outOfRange {α : Type} : Unpack α := ExceptT.lift none

/-- The slice expression `v[lo:hi]`. -/
def sliceAt (v : View UInt8) (lo hi : Int) : Unpack (View UInt8) :=
  match v.reslice lo hi with
  | some w => pure w
  | none => outOfRange

/-! ### Words -/

/-- The big-endian value of the last `k` bytes of `b`: `binary.BigEndian.UintN(b[len(b)-k:])`,
or `b[len(b)-1]` for one byte. -/
def lastBytes (k : Nat) (b : List UInt8) : Nat := value (b.drop (b.length - k))

/-- Go's conversion of an unsigned value of `bits` bits to the signed type of that width. -/
def toSigned (bits u : Nat) : Int := if u < 2 ^ (bits - 1) then u else (u : Int) - 2 ^ bits

/-- `readInteger`, of a 32-byte word. -/
def readInteger (kind : Kind) (b : List UInt8) : Value :=
  .integer kind <| match kind with
    | .uint8 => lastBytes 1 b
    | .uint16 => lastBytes 2 b
    | .uint32 => lastBytes 4 b
    | .uint64 => lastBytes 8 b
    | .int8 => toSigned 8 (lastBytes 1 b)
    | .int16 => toSigned 16 (lastBytes 2 b)
    | .int32 => toSigned 32 (lastBytes 4 b)
    | .int64 => toSigned 64 (lastBytes 8 b)
    -- new(big.Int).SetBytes(b)
    | .ptr => value b

/-- `readBool`, of a 32-byte word. -/
def readBool (word : List UInt8) : Unpack Value :=
  if (word.take 31).any (· ≠ 0) then throw .badBool
  else match word.getD 31 0 with
    | 0 => pure (.bool false)
    | 1 => pure (.bool true)
    | _ => throw .badBool

/-- `readFunctionType`, of a 32-byte word: the address and selector, 24 bytes, with zeros
after them. -/
def readFunctionType (t : Ty) (word : List UInt8) : Unpack Value :=
  match t with
  | .function =>
    if value (slice word 24 32) ≠ 0 then throw (.improperFunctionType word)
    else pure (.function (slice word 0 24))
  | _ => throw .invalidFunctionType

/-- `readFixedBytes`: the first `t.Size` bytes from the word, copied into a `[Size]byte`. -/
def readFixedBytes (t : Ty) (word : View UInt8) : Unpack Value :=
  match t with
  | .fixedBytes size => do
    let bytes ← sliceAt word 0 size
    pure (.fixedBytes bytes.toList)
  | _ => throw .invalidFixedBytesType

/-- `common.BytesToAddress`: the last 20 bytes, zeros in front of fewer. -/
def bytesToAddress (b : List UInt8) : List UInt8 :=
  List.replicate (20 - b.length) 0 ++ b.drop (b.length - 20)

/-- `common.BytesToHash`: the last 32 bytes, zeros in front of fewer. -/
def bytesToHash (b : List UInt8) : List UInt8 :=
  List.replicate (32 - b.length) 0 ++ b.drop (b.length - 32)

/-! ### Decoding -/

/-- `requiresLengthPrefix`. -/
def requiresLengthPrefix : Ty → Bool
  | .string | .bytes | .slice _ => true
  | _ => false

/-- The product of the sizes of the arrays `t` nests, `t` itself included. -/
def nestedSize : Ty → Nat
  | .array size elem => size * nestedSize elem
  | _ => 1

/-- `getFullElemSize`: 32 bytes per element, each nested array counting its size. -/
def getFullElemSize (elem : Ty) : Nat := 32 * nestedSize elem

/-- `lengthPrefixPointsTo`: where the content of a value with a length prefix starts, and
its length. `BitLen() > 63` is `≥ 2 ^ 63`. -/
def lengthPrefixPointsTo (index : Int) (output : View UInt8) : Unpack (Int × Int) := do
  let word ← sliceAt output index (index + 32)
  let bigOffsetEnd := value word.toList + 32
  let outputLength := output.len
  if bigOffsetEnd > outputLength then throw (.offsetOverBoundary bigOffsetEnd outputLength)
  if bigOffsetEnd ≥ 2 ^ 63 then throw (.offsetLargerThanInt64 bigOffsetEnd)
  let offsetEnd : Int := bigOffsetEnd
  let lengthWord ← sliceAt output (offsetEnd - 32) offsetEnd
  let lengthBig := value lengthWord.toList
  let totalSize := bigOffsetEnd + lengthBig
  if totalSize ≥ 2 ^ 63 then throw (.lengthLargerThanInt64 totalSize)
  if totalSize > outputLength then throw (.lengthInsufficient outputLength totalSize)
  pure (bigOffsetEnd, lengthBig)

/-- The loop of `forEachUnpack`: the element at `i`, then the `n - 1` after it, `elemSize`
bytes apart. -/
def forEachElem (toGoTypeElem : Int → Unpack Value) (elemSize : Int) :
    Nat → Int → Unpack (List Value)
  | 0, _ => pure []
  | n + 1, i => do
    let inter ← toGoTypeElem i
    let rest ← forEachElem toGoTypeElem elemSize n (i + elemSize)
    pure (inter :: rest)

/-- `forEachUnpack`: the `size` elements of a slice or an array from `start`. -/
def forEachUnpack (t : Ty) (output : View UInt8) (start size : Int)
    (toGoTypeElem : Int → Unpack Value) : Unpack Value := do
  if size < 0 then throw (.negativeSize size)
  if start + 32 * size > output.len then throw (.arrayOverBoundary output.len (start + 32 * size))
  match t with
  | .slice _ => .slice <$> forEachElem toGoTypeElem 32 size.toNat start
  -- arrays have packed elements, resulting in longer unpack steps
  | .array _ elem => .array <$> forEachElem toGoTypeElem (getFullElemSize elem) size.toNat start
  | _ => throw .invalidArrayType

/-- `toGoType`: the value of type `t` at `index`. -/
def toGoType (index : Int) (t : Ty) (output : View UInt8) : Unpack Value := do
  if index + 32 > output.len then throw (.lengthInsufficient output.len (index + 32))
  -- if we require a length prefix, find the beginning word and size returned
  let (returnOutput, begin, size) ← if requiresLengthPrefix t then do
      let (begin, size) ← lengthPrefixPointsTo index output
      pure (View.ofList [], begin, size)
    else do
      let word ← sliceAt output index (index + 32)
      pure (word, 0, 0)
  match t with
  | .slice elem => forEachUnpack t output begin size (fun i => toGoType i elem output)
  | .array size elem => forEachUnpack t output index size (fun i => toGoType i elem output)
  | .string => do
    let s ← sliceAt output begin (begin + size)
    pure (.string s.toList)
  | .int kind _ | .uint kind _ => pure (readInteger kind returnOutput.toList)
  | .bool => readBool returnOutput.toList
  | .address => pure (.address (bytesToAddress returnOutput.toList))
  | .hash => pure (.hash (bytesToHash returnOutput.toList))
  | .bytes => do
    let s ← sliceAt output begin (begin + size)
    pure (.bytes s.toList)
  | .fixedBytes _ => readFixedBytes t returnOutput
  | .function => readFunctionType t returnOutput.toList
  | .fixedPoint => throw .unknownType

/-! ### Arguments -/

/-- An `Argument`, as far as unpacking reads it. -/
structure Argument where
  type : Ty
  indexed : Bool

/-- `NonIndexed`. -/
def nonIndexed (arguments : List Argument) : List Argument :=
  arguments.filter fun arg => !arg.indexed

/-- `getArraySize` of an array type: the number of its elements, nested arrays counted out. -/
def getArraySize (arr : Ty) : Nat := nestedSize arr

/-- The loop of `UnpackValues` from the argument numbered `index`, `virtualArgs` the extra
words the static arrays before it take. -/
def unpackLoop (data : View UInt8) : List Argument → Int → Int → Unpack (List Value)
  | [], _, _ => pure []
  | arg :: rest, index, virtualArgs => do
    let marshalledValue ← toGoType ((index + virtualArgs) * 32) arg.type data
    -- a static array is coded inline, so the next argument comes after all its elements
    let virtualArgs := match arg.type with
      | .array _ _ => virtualArgs + getArraySize arg.type - 1
      | _ => virtualArgs
    let values ← unpackLoop data rest (index + 1) virtualArgs
    pure (marshalledValue :: values)

/-- `UnpackValues`. -/
def unpackValues (arguments : List Argument) (data : View UInt8) : Unpack (List Value) :=
  unpackLoop data (nonIndexed arguments) 0 0

end Abi
