import Dsplinz.Lib.GoStrconv

/-!
# ABI types

`accounts/abi/type.go`: the `Type` that `NewType` parses from a type string such as
`uint256`, `bytes32` or `address[2][]`, and `reflectIntKindAndType`.

A Go `Type` is a record whose field `T` says which of its other fields mean something; the
model is the inductive `Abi.Ty` with one constructor per `T`, carrying those fields: the
`Kind` of an integer and its `Size`, the `Size` of an array or of fixed bytes, and the
`Elem` of a slice or an array. The `reflect.Type` and the type string a `Type` keeps are
not modelled: unpacking reads neither. Nor is the panic of `reflect.ArrayOf` on an array
larger than the address space, so the model's `NewType` returns some types Go's does not.

Go strings are byte strings. The two regular expressions `NewType` uses match ASCII
letters and digits only, and are modelled by the scans `Abi.typeRegexMatch` and
`Abi.digitRuns`.
-/

namespace Abi

open GoStrconv

/-- The `reflect.Kind`s `NewType` gives an integer type. -/
inductive Kind where
  | uint8 | uint16 | uint32 | uint64
  | int8 | int16 | int32 | int64
  /-- `reflect.Ptr`: a `*big.Int`. -/
  | ptr
  deriving DecidableEq, Repr

/-- `Type`, one constructor per value of its field `T`. -/
inductive Ty where
  | int (kind : Kind) (size : Nat)
  | uint (kind : Kind) (size : Nat)
  | bool
  | string
  | slice (elem : Ty)
  | array (size : Nat) (elem : Ty)
  | address
  | fixedBytes (size : Nat)
  | bytes
  | hash
  | fixedPoint
  | function
  deriving DecidableEq, Repr

/-- The errors of `NewType`. -/
inductive TypeError where
  /-- `"invalid arg type in abi"`. -/
  | invalidArgType
  /-- `"abi: error parsing variable size: %v"`. -/
  | parsingVariableSize (e : NumErr)
  /-- `"invalid formatting of array type"`. -/
  | invalidArrayFormat
  /-- `"unsupported arg type: %s"`. -/
  | unsupportedArgType (t : List UInt8)
  deriving DecidableEq, Repr

/-- A Go string literal of ASCII characters, as its bytes. -/
def ascii (s : String) : List UInt8 := s.toList.map charByte

/-- `reflectIntKindAndType`: the kind of an integer of `size` bits. -/
def reflectIntKindAndType (unsigned : Bool) (size : Nat) : Kind :=
  match size with
  | 8 => if unsigned then .uint8 else .int8
  | 16 => if unsigned then .uint16 else .int16
  | 32 => if unsigned then .uint32 else .int32
  | 64 => if unsigned then .uint64 else .int64
  | _ => .ptr

/-! ### The regular expressions -/

/-- `[a-zA-Z]`. -/
def isLetter (c : UInt8) : Bool :=
  (charByte 'a' ≤ c && c ≤ charByte 'z') || (charByte 'A' ≤ c && c ≤ charByte 'Z')

/-- `[0-9]`. -/
def isDigit (c : UInt8) : Bool := charByte '0' ≤ c && c ≤ charByte '9'

/-- The match of `([a-zA-Z]+)(([0-9]+)(x([0-9]+))?)?` at a letter, greedy as Go's
leftmost-first matching is: the letters, then the size with its `x` part (submatch 2),
and the size's digits alone (submatch 3). -/
def typeRegexAt (s : List UInt8) : List UInt8 × List UInt8 × List UInt8 :=
  let letters := s.takeWhile isLetter
  let rest := s.dropWhile isLetter
  let digits := rest.takeWhile isDigit
  -- `(x([0-9]+))?` takes an `x` only with at least one digit after it
  let xpart := match rest.dropWhile isDigit with
    | c :: r => if c = charByte 'x' ∧ r.takeWhile isDigit ≠ [] then c :: r.takeWhile isDigit else []
    | [] => []
  (letters, if digits = [] then [] else digits ++ xpart, digits)

/-- `typeRegex.FindAllStringSubmatch(t, -1)[0]`: the submatches 1, 2 and 3 of the leftmost
match, which starts at the first letter; `none` when there is no letter, where indexing
`[0]` panics. -/
def typeRegexMatch : List UInt8 → Option (List UInt8 × List UInt8 × List UInt8)
  | [] => none
  | c :: cs => if isLetter c then some (typeRegexAt (c :: cs)) else typeRegexMatch cs

/-- `regexp.MustCompile("[0-9]+").FindAllString(s, -1)`: the maximal runs of digits, `run`
the digits of the current one, reversed. -/
def digitRunsAux : List UInt8 → List UInt8 → List (List UInt8)
  | [], run => if run = [] then [] else [run.reverse]
  | c :: cs, run =>
    if isDigit c then digitRunsAux cs (c :: run)
    else (if run = [] then [] else [run.reverse]) ++ digitRunsAux cs []

/-- `regexp.MustCompile("[0-9]+").FindAllString(s, -1)`. -/
def digitRuns (s : List UInt8) : List (List UInt8) := digitRunsAux s []

/-- `strings.LastIndex(t, "[")` when `t` has a `[`. -/
def lastBracket (t : List UInt8) : Nat := t.length - 1 - t.reverse.idxOf (charByte '[')

theorem lastBracket_lt {t : List UInt8} (h : t.count (charByte '[') ≠ 0) : lastBracket t < t.length := by
  have hpos : 0 < t.length := List.length_pos_iff.mpr fun hnil => h (by rw [hnil]; rfl)
  unfold lastBracket
  omega

/-! ### `NewType` -/

/-- `NewType` of a type without brackets, from the submatches of `typeRegex`. -/
def newElementaryType (t letters size digits : List UInt8) : Except TypeError Ty := do
  -- varSize is the size of the variable
  let varSize ← if digits ≠ [] then
      match atoi size with
      | .ok n => pure n.toNat
      | .error e => throw (.parsingVariableSize e)
    else if letters ++ size = ascii "uint" ∨ letters ++ size = ascii "int" then
      -- this should fail because it means that there's something wrong with the abi type
      throw (.unsupportedArgType t)
    else pure 0
  -- varType is the parsed abi type
  if letters = ascii "int" then pure (.int (reflectIntKindAndType false varSize) varSize)
  else if letters = ascii "uint" then pure (.uint (reflectIntKindAndType true varSize) varSize)
  else if letters = ascii "bool" then pure .bool
  else if letters = ascii "address" then pure .address
  else if letters = ascii "string" then pure .string
  else if letters = ascii "bytes" then pure (if varSize = 0 then .bytes else .fixedBytes varSize)
  else if letters = ascii "function" then pure .function
  else throw (.unsupportedArgType t)

/-- `NewType(t)`; `none` is the panic of `FindAllStringSubmatch(t, -1)[0]` on a string
without a letter. The sizes `Atoi` reads are digit strings, so never negative. -/
def newType (t : List UInt8) : ExceptT TypeError Option Ty :=
  -- check that array brackets are equal if they exist
  if t.count (charByte '[') ≠ t.count (charByte ']') then throw .invalidArgType
  else if h : t.count (charByte '[') ≠ 0 then do
    -- if there are brackets, get ready to go into slice/array mode and recursively create
    -- the type
    let i := lastBracket t
    have : i < t.length := lastBracket_lt h
    -- recursively embed the type
    let embeddedType ← newType (t.take i)
    -- grab the last cell and create a type from there
    match digitRuns (t.drop i) with
    | [] => pure (.slice embeddedType)
    | [size] =>
      match atoi size with
      | .ok n => pure (.array n.toNat embeddedType)
      | .error e => throw (.parsingVariableSize e)
    | _ => throw .invalidArrayFormat
  else
    -- parse the type and size of the abi-type
    match typeRegexMatch t with
    | none => ExceptT.lift none
    | some (letters, size, digits) => ExceptT.mk (some (newElementaryType t letters size digits))
termination_by t.length
decreasing_by rw [List.length_take]; omega

end Abi
