import Dsplinz.Lib.GoSlice
import Dsplinz.Rlp.Stream

/-!
# Splitting encoded values without a stream

`rlp/raw.go`: `Split` and `CountValues` find the boundaries of encoded values in a byte
slice directly, without a `Stream`. They read headers with their own `readKind` and
`readSize`, a second implementation of the header grammar of `Stream.readKind` and
`Stream.readUint`: it checks a string of one byte below `0x80` when it reads the header,
where the stream leaves that to `Bytes`, and it compares the size of a value with what is
left of the slice, where the stream compares it with its input limit.

A single byte below `0x80` has no header here: `readKind` reports a `tagsize` of `0` and a
`contentsize` of `1`. On an error, `Split` also returns the kind `0`, no contents and the
whole of `b` as the rest, and `CountValues` the count `0`; those are not modelled.
-/

namespace Rlp

open GoSlice

/-- `ListSize`: the length of the encoding of a list whose payload is `contentSize`
bytes. -/
def listSize (contentSize : UInt64) : UInt64 :=
  UInt64.ofNat (headsize contentSize) + contentSize

/-- `readSize`: the size field of a long header, the first `slen` bytes of `b` read
big-endian. It must be at least 56 and have no leading zero byte. -/
def readSize (b : List UInt8) (slen : UInt8) : Except Error UInt64 :=
  if slen.toNat > b.length then .error .unexpectedEOF
  else
    -- the `switch` reads the first `slen` bytes, for `slen` from 1 to 8, and leaves 0 else
    let s : UInt64 :=
      if 1 ≤ slen ∧ slen ≤ 8 then UInt64.ofNat (BigEndian.value (b.take slen.toNat)) else 0
    -- reject sizes < 56 (shouldn't have separate size) and sizes with leading zero bytes
    if s < 56 ∨ b.headD 0 = 0 then .error .canonSize else .ok s

/-- `readKind`: the kind of the value at the start of `buf`, the length of its header
(`tagsize`) and that of its contents (`contentsize`). -/
def readKind (buf : List UInt8) : Except Error (Kind × UInt64 × UInt64) :=
  match buf with
  | [] => .error .unexpectedEOF
  | b :: rest =>
    let r : Except Error (Kind × UInt64 × UInt64) :=
      if b < 0x80 then .ok (.byte, 0, 1)
      else if b < 0xB8 then
        let contentsize := (b - 0x80).toUInt64
        -- reject strings that should've been single bytes
        if contentsize = 1 ∧ buf.length > 1 ∧ rest.headD 0 < 128 then .error .canonSize
        else .ok (.string, 1, contentsize)
      else if b < 0xC0 then
        (readSize rest (b - 0xB7)).map fun contentsize =>
          (.string, (b - 0xB7).toUInt64 + 1, contentsize)
      else if b < 0xF8 then .ok (.list, 1, (b - 0xC0).toUInt64)
      else
        (readSize rest (b - 0xF7)).map fun contentsize =>
          (.list, (b - 0xF7).toUInt64 + 1, contentsize)
    match r with
    | .error err => .error err
    | .ok (k, tagsize, contentsize) =>
      -- reject values larger than the input slice
      if contentsize > UInt64.ofNat buf.length - tagsize then .error .valueTooLarge
      else .ok (k, tagsize, contentsize)

/-- `Split`: the kind and the contents of the first value of `b`, and the bytes after
it. -/
def split (b : List UInt8) : Except Error (Kind × List UInt8 × List UInt8) :=
  match readKind b with
  | .error err => .error err
  | .ok (k, ts, cs) => .ok (k, slice b ts.toNat (ts + cs).toNat, b.drop (ts + cs).toNat)

/-- `SplitString`: the contents of a string, and the bytes after it. -/
def splitString (b : List UInt8) : Except Error (List UInt8 × List UInt8) :=
  match split b with
  | .error err => .error err
  | .ok (k, content, rest) => if k = .list then .error .expectedString else .ok (content, rest)

/-- `SplitList`: the contents of a list, and the bytes after it. -/
def splitList (b : List UInt8) : Except Error (List UInt8 × List UInt8) :=
  match split b with
  | .error err => .error err
  | .ok (k, content, rest) => if k ≠ .list then .error .expectedList else .ok (content, rest)

/-- The loop of `CountValues`, which has counted `i` values before `b`. Every value takes at
least one byte, so the length of the input plus one is enough fuel. -/
def countValuesLoop : Nat → List UInt8 → Nat → Except Error Nat
  | 0, _, _ => .error .outOfFuel
  | fuel + 1, b, i =>
    if b.length > 0 then
      match readKind b with
      | .error err => .error err
      | .ok (_, tagsize, size) => countValuesLoop fuel (b.drop (tagsize + size).toNat) (i + 1)
    else .ok i

/-- `CountValues`: the number of encoded values in `b`. -/
def countValues (b : List UInt8) : Except Error Nat :=
  countValuesLoop (b.length + 1) b 0

end Rlp
