import Dsplinz.Lib.GoStrconv
import Dsplinz.Lib.GoBig

/-!
# `hexutil`: quantities in hex behind a `0x`

The RPC layer writes integers as hex strings behind `0x`, with the fewest digits and `0x0`
for zero, and reads them back, through two pairs of functions each for `*big.Int` and for
`uint64`:

| writer | reader | how the reader parses |
|---|---|---|
| `EncodeBig` | `DecodeBig` | its own loop into `big.Word`s, `Hexutil.wordsLoop` |
| `Big.MarshalText` | `Big.UnmarshalText` | the same loop, after a laxer check |
| `EncodeUint64` | `DecodeUint64` | `strconv.ParseUint` |
| `Uint64.MarshalText` | `Uint64.UnmarshalText` | its own loop into a `uint64` |

`DecodeBig` does not call a library parser: it splits the digits from the right into words of
`bigWordNibbles` digits, the last one possibly empty, and joins the words with `SetBits`.
The `UnmarshalText` methods check the input with `checkNumberText`, which takes an empty
input as zero and any prefix of `PossibleCustomHexPrefixMap` (`0x`, `0X`, `t0`–`t9`,
`T0`–`T9`) where `checkNumber` wants `0x` or `0X`.

Strings are byte strings, as in Go. The platform is 64-bit: `bigWordNibbles` is `16` and a
`big.Word` is a `UInt64`. `fmt`'s `%#x` of a `*big.Int` writes the same digits as
`strconv.FormatUint` in base `16`, and is modelled by `GoStrconv.formatBits`.
-/

namespace Hexutil

open GoStrconv (charByte)

/-- The `*decError` values of the package. -/
inductive DecError where
  | emptyString
  | errSyntax
  | missingPrefix
  | oddLength
  | emptyNumber
  | leadingZero
  | uint64Range
  | uintRange
  | big256Range
  deriving DecidableEq, Repr

/-- A Go string literal, as its bytes. -/
def bytesOf (s : String) : List UInt8 := s.toList.map charByte

/-! ### Checking the digits -/

/-- `has0xPrefix(input)`: `0x` or `0X`. -/
def has0xPrefix (input : List UInt8) : Bool :=
  match input with
  | c0 :: c1 :: _ => c0 == charByte '0' && (c1 == charByte 'x' || c1 == charByte 'X')
  | _ => false

/-- The keys of `PossibleCustomHexPrefixMap`. -/
def possibleCustomHexPrefixes : List String :=
  ["0x", "0X", "t0", "t1", "t2", "t3", "t4", "t5", "t6", "t7", "t8", "t9",
    "T0", "T1", "T2", "T3", "T4", "T5", "T6", "T7", "T8", "T9"]

/-- `bytesHave0xPrefix(input)`: the first two bytes are a key of `PossibleCustomHexPrefixMap`. -/
def bytesHave0xPrefix (input : List UInt8) : Bool :=
  input.length ≥ 2 && (possibleCustomHexPrefixes.map bytesOf).contains (input.take 2)

/-- The body of `checkNumber` and `checkNumberText`, which differ in what they make of an
empty input and in the prefix they accept: the digits behind the prefix, at least one, and no
leading zero unless the number is `0`. -/
def checkNumberWith (onEmpty : Except DecError (List UInt8)) (hasPrefix : List UInt8 → Bool)
    (input : List UInt8) : Except DecError (List UInt8) :=
  if input.length = 0 then onEmpty
  else if !hasPrefix input then .error .missingPrefix
  else
    let input := input.drop 2
    if input.length = 0 then .error .emptyNumber
    else if input.length > 1 ∧ input.head? = some (charByte '0') then .error .leadingZero
    else .ok input

/-- `checkNumber(input)`. -/
def checkNumber (input : List UInt8) : Except DecError (List UInt8) :=
  checkNumberWith (.error .emptyString) has0xPrefix input

/-- `checkNumberText(input)`: empty strings are allowed. -/
def checkNumberText (input : List UInt8) : Except DecError (List UInt8) :=
  checkNumberWith (.ok []) bytesHave0xPrefix input

/-- `badNibble`, `^uint64(0)`. -/
def badNibble : UInt64 := 0xFFFFFFFFFFFFFFFF

/-- `decodeNibble(in)`: the value of a hex digit of either case, `badNibble` for any other
byte. -/
def decodeNibble (c : UInt8) : UInt64 :=
  if c ≥ charByte '0' ∧ c ≤ charByte '9' then (c - charByte '0').toUInt64
  else if c ≥ charByte 'A' ∧ c ≤ charByte 'F' then (c - charByte 'A' + 10).toUInt64
  else if c ≥ charByte 'a' ∧ c ≤ charByte 'f' then (c - charByte 'a' + 10).toUInt64
  else badNibble

/-! ### Reading a `*big.Int` -/

/-- `bigWordNibbles`: the hex digits of a `big.Word`, on a 64-bit platform. -/
def bigWordNibbles : Nat := 16

/-- The loop that folds digits into a 64-bit word, `w *= 16; w += nib`: the inner loop of
`DecodeBig` and `Big.UnmarshalText` over `raw[start:end]`, and the loop of
`Uint64.UnmarshalText`. -/
def nibbleLoop : List UInt8 → UInt64 → Except DecError UInt64
  | [], w => .ok w
  | c :: cs, w =>
    let nib := decodeNibble c
    if nib = badNibble then .error .errSyntax else nibbleLoop cs (w * 16 + nib)

/-- The outer loop over `words`, the least significant first: word `i` takes the digits from
`start = end - bigWordNibbles`, floored at `0`, to `end`, and the next word ends at `start`. -/
def wordsLoop (raw : List UInt8) : (count stop : Nat) → Except DecError (List UInt64)
  | 0, _ => .ok []
  | count + 1, stop =>
    let start := stop - bigWordNibbles
    match nibbleLoop ((raw.take stop).drop start) 0 with
    | .error e => .error e
    | .ok w => (wordsLoop raw count start).map (w :: ·)

-- Lean's own equation lemmas for `wordsLoop` time out, so its steps are stated here, beside
-- it, and proved by unfolding it definitionally.
theorem wordsLoop_zero (raw : List UInt8) (stop : Nat) : wordsLoop raw 0 stop = .ok [] := rfl

theorem wordsLoop_succ_ok {raw : List UInt8} {count stop : Nat} {w : UInt64}
    (h : nibbleLoop ((raw.take stop).drop (stop - bigWordNibbles)) 0 = .ok w) :
    wordsLoop raw (count + 1) stop =
      (wordsLoop raw count (stop - bigWordNibbles)).map (w :: ·) := by
  show (match nibbleLoop ((raw.take stop).drop (stop - bigWordNibbles)) 0 with
    | .error e => .error e
    | .ok w => (wordsLoop raw count (stop - bigWordNibbles)).map (w :: ·) :
      Except DecError (List UInt64)) = _
  rw [h]

theorem wordsLoop_succ_error {raw : List UInt8} {count stop : Nat} {e : DecError}
    (h : nibbleLoop ((raw.take stop).drop (stop - bigWordNibbles)) 0 = .error e) :
    wordsLoop raw (count + 1) stop = .error e := by
  show (match nibbleLoop ((raw.take stop).drop (stop - bigWordNibbles)) 0 with
    | .error e => .error e
    | .ok w => (wordsLoop raw count (stop - bigWordNibbles)).map (w :: ·) :
      Except DecError (List UInt64)) = _
  rw [h]

/-- `new(big.Int).SetBits(words)`: the number whose words, least significant first, these
are. -/
def setBits (words : List UInt64) : Nat := Nat.ofDigits (2 ^ 64) (words.map UInt64.toNat)

/-- The body of `DecodeBig` and `Big.UnmarshalText` after their check of the input: at most
64 digits, split into `len(raw)/bigWordNibbles + 1` words. -/
def decodeBigDigits (raw : List UInt8) : Except DecError Nat :=
  if raw.length > 64 then .error .big256Range
  else (wordsLoop raw (raw.length / bigWordNibbles + 1) raw.length).map setBits

/-- `DecodeBig(input)`. -/
def decodeBig (input : List UInt8) : Except DecError Nat :=
  checkNumber input >>= decodeBigDigits

/-- `EncodeBig(bigint)`: `0x0` for zero, and otherwise `fmt.Sprintf("%#x", bigint)`, a minus
sign for a negative number, then `0x` and the lowercase digits of `|bigint|`. -/
def encodeBig (bigint : Int) : List UInt8 :=
  if GoBig.bitLen bigint = 0 then bytesOf "0x0"
  else (if bigint < 0 then bytesOf "-" else []) ++ bytesOf "0x" ++
    GoStrconv.formatBits bigint.natAbs 16

namespace Big

/-- `Big.MarshalText`. -/
def marshalText (b : Int) : List UInt8 := encodeBig b

/-- `Big.UnmarshalText(input)`: the value it stores in `b`. -/
def unmarshalText (input : List UInt8) : Except DecError Nat :=
  checkNumberText input >>= decodeBigDigits

end Big

/-! ### Reading a `uint64` -/

/-- `mapError(err)` of the `*strconv.NumError` of `ParseUint`. -/
def mapError : GoStrconv.NumErr → DecError
  | .errRange => .uint64Range
  | .errSyntax => .errSyntax

/-- `DecodeUint64(input)`. -/
def decodeUint64 (input : List UInt8) : Except DecError UInt64 := do
  let raw ← checkNumber input
  match GoStrconv.parseUint raw 16 with
  | .ok dec => .ok dec
  | .error err => .error (mapError err)

/-- `EncodeUint64(i)`. -/
def encodeUint64 (i : UInt64) : List UInt8 := GoStrconv.appendUint (bytesOf "0x") i 16

namespace Uint64

/-- `Uint64.MarshalText`. -/
def marshalText (b : UInt64) : List UInt8 := GoStrconv.appendUint (bytesOf "0x") b 16

/-- `Uint64.UnmarshalText(input)`: the value it stores in `b`. -/
def unmarshalText (input : List UInt8) : Except DecError UInt64 := do
  let raw ← checkNumberText input
  if raw.length > 16 then throw .uint64Range
  nibbleLoop raw 0

end Uint64

namespace Uint

/-- `Uint.UnmarshalText(input)` on a 64-bit platform, where no `uint64` is above
`^uint(0)`: a range error becomes `ErrUintRange`. -/
def unmarshalText (input : List UInt8) : Except DecError UInt64 :=
  match Uint64.unmarshalText input with
  | .error .uint64Range => .error .uintRange
  | .error err => .error err
  | .ok u64 => .ok u64

end Uint

end Hexutil
