import Dsplinz.Lib.ExceptState
import Dsplinz.Rlp.Encbuf

/-!
# The decoding stream

`rlp/decode.go`: the `Stream` that reads RLP values piece by piece from a reader, and
`DecodeBytes` into an `interface{}` on top of it.

The reader is a byte-slice reader (`*bytes.Reader`): `ReadByte` hands out the next byte
or reports `io.EOF`, and `Read` hands out as many of the requested bytes as are left.
The stream's methods are computations of `Rlp.StreamM`, which keep every update of the
stream made before an error, as the Go methods do.

The list stack is a list with the innermost list (Go's `s.stack[len(s.stack)-1]`) first.
The `uintbuf` scratch buffer is not modelled: `readUint` returns the bytes it reads.
Decoding into types other than `interface{}` is not modelled either; it calls the
methods below (and `readFull`, and rearms `Kind` by `s.kind = -1`), which
`Rlp.Stream.Op` lists.
-/

namespace Rlp

open ExceptState

/-- `Kind`: a single byte below `0x80`, a string, or a list. -/
inductive Kind where
  | byte
  | string
  | list
  deriving DecidableEq, Repr

/-- The errors the stream and the decoder return, by identity (the context a
`decodeError` adds to some of them is not modelled; the decoder only ever compares an
error with `EOL`). -/
inductive Error where
  /-- `EOL`: the end of the current list has been reached. -/
  | eol
  | expectedString
  | expectedList
  | canonInt
  | canonSize
  | elemTooLarge
  | valueTooLarge
  | moreThanOneValue
  | notInList
  | notAtEOL
  | uintOverflow
  /-- `fmt.Errorf("rlp: invalid boolean value: %d", num)`. -/
  | invalidBool (num : UInt64)
  /-- `io.EOF`. -/
  | eof
  /-- `io.ErrUnexpectedEOF`. -/
  | unexpectedEOF
  /-- Not an error of the source: the model's recursion bound ran out. -/
  | outOfFuel
  deriving DecidableEq, Repr

/-- `listpos`: how far the current list has been read, and its size. -/
structure Listpos where
  pos : UInt64
  size : UInt64
  deriving DecidableEq, Repr

/-- `Stream`. -/
structure Stream where
  /-- The bytes the reader has not handed out yet. -/
  input : List UInt8
  /-- Number of bytes remaining to be read from the reader. -/
  remaining : UInt64
  limited : Bool
  /-- Kind of the value ahead; `none` is Go's `-1`, no value has been read. -/
  kind : Option Kind
  /-- Size of the value ahead. -/
  size : UInt64
  /-- Value of the single byte in the type tag. -/
  byteval : UInt8
  /-- Error from the last `readKind`. -/
  kinderr : Option Error
  /-- The lists being read, the innermost first. -/
  stack : List Listpos
  deriving DecidableEq, Repr

/-- The stream's methods: they update the stream, and keep the updates when they fail. -/
abbrev StreamM := ExceptT Error (StateM Stream)

namespace Stream

/-- `NewStream(r, inputLimit)` on a byte-slice reader over `input`; `sized` says whether
`r` is a `*bytes.Reader` or `*strings.Reader`, whose length is the limit when none is
given. -/
def newStream (input : List UInt8) (sized : Bool) (inputLimit : UInt64) : Stream :=
  if inputLimit > 0 then ⟨input, inputLimit, true, none, 0, 0, none, []⟩
  else if sized then ⟨input, UInt64.ofNat input.length, true, none, 0, 0, none, []⟩
  else ⟨input, 0, false, none, 0, 0, none, []⟩

/-- Rearm `Kind` (`s.kind = -1`). -/
def rearm : StreamM Unit :=
  modify fun s => { s with kind := none }

/-- `willRead`: account for `n` bytes about to be read, in the innermost list and in the
input limit. -/
def willRead (n : UInt64) : StreamM Unit := do
  rearm
  let s ← get
  match s.stack with
  | [] => pure ()
  | tos :: rest =>
    -- check list overflow
    if n > tos.size - tos.pos then throw .elemTooLarge
    set { s with stack := { tos with pos := tos.pos + n } :: rest }
  let s ← get
  if s.limited then
    if n > s.remaining then throw .valueTooLarge
    set { s with remaining := s.remaining - n }

/-- `readByte`. -/
def readByte : StreamM UInt8 := do
  willRead 1
  let s ← get
  match s.input with
  | [] => throw .unexpectedEOF
  | b :: rest =>
    set { s with input := rest }
    pure b

/-- `readFull` into a buffer of `n` bytes: the bytes read. -/
def readFull (n : UInt64) : StreamM (List UInt8) := do
  willRead n
  let s ← get
  let got := s.input.take n.toNat
  set { s with input := s.input.drop n.toNat }
  if got.length < n.toNat then throw .unexpectedEOF
  pure got

/-- `readUint`: a big-endian integer of `size` bytes (at most 8) without leading zeros. -/
def readUint (size : UInt8) : StreamM UInt64 :=
  if size = 0 then do
    rearm
    pure 0
  else if size = 1 then do
    let b ← readByte
    pure b.toUInt64
  else do
    let bs ← readFull size.toUInt64
    if bs.headD 0 = 0 then throw .canonSize
    pure (UInt64.ofNat (BigEndian.value bs))

/-- The outcome of `readUint` for a size in a long header, as `readKind` returns it: the
size, or `0` and the error. -/
def sizeOf (kind : Kind) (r : Except Error UInt64) : Kind × UInt64 × Option Error :=
  match r with
  | .error err => (kind, 0, some err)
  | .ok size => (kind, size, if size < 56 then some .canonSize else none)

/-- `readKind`: read a type tag and what follows of the header. Like the source, it
returns the error with the kind and size instead of failing, for `Kind` to cache. -/
def readKind : StreamM (Kind × UInt64 × Option Error) := do
  match ← attempt readByte with
  | .error err =>
    let s ← get
    -- at toplevel, adjust the error to actual EOF
    if s.stack = [] ∧ (err = .unexpectedEOF ∨ err = .valueTooLarge) then
      pure (.byte, 0, some .eof)
    else pure (.byte, 0, some err)
  | .ok b =>
    modify fun s => { s with byteval := 0 }
    if b < 0x80 then
      -- a single byte below 0x80 is its own encoding
      modify fun s => { s with byteval := b }
      pure (.byte, 0, none)
    else if b < 0xB8 then pure (.string, (b - 0x80).toUInt64, none)
    else if b < 0xC0 then
      let r ← attempt (readUint (b - 0xB7))
      pure (sizeOf .string r)
    else if b < 0xF8 then pure (.list, (b - 0xC0).toUInt64, none)
    else
      let r ← attempt (readUint (b - 0xF7))
      pure (sizeOf .list r)

/-- `Kind`: the kind and size of the next value, read once and then cached (with the
error) until the value is consumed. -/
def Kind : StreamM (Rlp.Kind × UInt64) := do
  let s ← get
  if s.kind = none then
    set { s with kinderr := none }
    -- don't read further if we're at the end of the innermost list
    match s.stack with
    | tos :: _ => if tos.pos = tos.size then throw .eol
    | [] => pure ()
    let (kind, size, err) ← readKind
    modify fun s => { s with kind := some kind, size := size, kinderr := err }
    if err = none then
      let s ← get
      match s.stack with
      | [] =>
        -- at toplevel, the value must fit in the remaining input
        if s.limited ∧ s.size > s.remaining then set { s with kinderr := some .valueTooLarge }
      | tos :: _ =>
        -- inside a list, the value must fit in the list
        if s.size > tos.size - tos.pos then set { s with kinderr := some .elemTooLarge }
  let s ← get
  match s.kinderr with
  | some err => throw err
  -- `kind` was set above, so `getD` never uses its default
  | none => pure (s.kind.getD .byte, s.size)

/-- `Bytes`: the contents of a string. -/
def bytes : StreamM (List UInt8) := do
  let (kind, size) ← Kind
  match kind with
  | .byte =>
    rearm
    let s ← get
    pure [s.byteval]
  | .string =>
    let b ← readFull size
    if size = 1 ∧ b.headD 0 < 128 then throw .canonSize
    pure b
  | .list => throw .expectedString

/-- `Raw`: a whole encoded value, its header rebuilt in front of its contents. -/
def raw : StreamM (List UInt8) := do
  let (kind, size) ← Kind
  if kind = .byte then
    rearm
    let s ← get
    pure [s.byteval]
  else
    let content ← readFull size
    if kind = .string then pure (puthead 0x80 0xB7 size ++ content)
    else pure (puthead 0xC0 0xF7 size ++ content)

/-- `uint`: an integer of at most `maxbits` bits. -/
def uint (maxbits : Nat) : StreamM UInt64 := do
  let (kind, size) ← Kind
  match kind with
  | .byte =>
    let s ← get
    if s.byteval = 0 then throw .canonInt
    rearm
    pure s.byteval.toUInt64
  | .string =>
    if size > UInt64.ofNat (maxbits / 8) then throw .uintOverflow
    match ← attempt (readUint size.toUInt8) with
    -- adjust the error because we're not reading a size right now
    | .error .canonSize => throw .canonInt
    | .error err => throw err
    | .ok v => if size > 0 ∧ v < 128 then throw .canonSize else pure v
  | .list => throw .expectedString

/-- `Bool`. -/
def bool : StreamM Bool := do
  let num ← uint 8
  if num = 0 then pure false
  else if num = 1 then pure true
  else throw (.invalidBool num)

/-- `List`: start reading a list; its size. -/
def list : StreamM UInt64 := do
  let (kind, size) ← Kind
  if kind ≠ .list then throw .expectedList
  modify fun s => { s with stack := ⟨0, size⟩ :: s.stack, kind := none, size := 0 }
  pure size

/-- `ListEnd`: return to the enclosing list, which must be read to its end. -/
def listEnd : StreamM Unit := do
  let s ← get
  match s.stack with
  | [] => throw .notInList
  | tos :: rest =>
    if tos.pos ≠ tos.size then throw .notAtEOL
    -- pop, and count the list as read in the enclosing one
    let rest := match rest with
      | [] => []
      | p :: ps => { p with pos := p.pos + tos.size } :: ps
    set { s with stack := rest, kind := none, size := 0 }

end Stream

/-- `decodeSliceElems`: decode elements with `elemdec` until it reports `EOL`. `fuel`
bounds the number of elements. -/
def decodeSliceElems {α : Type} (elemdec : StreamM α) : Nat → StreamM (List α)
  | 0 => throw .outOfFuel
  | fuel + 1 => do
    match ← attempt elemdec with
    | .error .eol => pure []
    | .error err => throw err
    | .ok v => pure (v :: (← decodeSliceElems elemdec fuel))

/-- `decodeListSlice`: a list, its elements decoded with `elemdec`. -/
def decodeListSlice {α : Type} (elemdec : StreamM α) (fuel : Nat) : StreamM (List α) := do
  let size ← Stream.list
  if size = 0 then
    Stream.listEnd
    pure []
  else
    let vs ← decodeSliceElems elemdec fuel
    Stream.listEnd
    pure vs

/-- `decodeInterface`: a value into an `interface{}`, a list as `[]interface{}` and a
string as `[]byte`. `fuel` bounds the nesting and the length of the lists. -/
def decodeInterface : Nat → StreamM Item
  | 0 => throw .outOfFuel
  | fuel + 1 => do
    let (kind, _) ← Stream.Kind
    if kind = .list then
      let items ← decodeListSlice (decodeInterface fuel) fuel
      pure (.list items)
    else
      let b ← Stream.bytes
      pure (.bytes b)

/-- `decodeBigInt`: a string read as a big-endian integer, which must not start with a
zero byte. -/
def decodeBigInt : StreamM Int := do
  let b ← Stream.bytes
  -- reject leading zero bytes
  if b.length > 0 ∧ b.headD 0 = 0 then throw .canonInt
  pure (BigEndian.value b : Int)

namespace Stream

/-- `Decode` into an `interface{}`. Every value takes at least a byte of input, so the
input length bounds both the nesting and the length of the lists. -/
def decode : StreamM Item := do
  let s ← get
  decodeInterface (s.input.length + 1)

/-- The stream operations a caller can perform: the exported methods, and the two things
the decoders of other types do besides calling them. -/
inductive Op where
  | kind
  | bytes
  | uint
  | bool
  | raw
  | list
  | listEnd
  | decode
  /-- `s.readFull(buf)` with `len(buf) = n`, as `decodeByteArray` does. -/
  | readFull (n : UInt64)
  /-- `s.kind = -1`, as `makeOptionalPtrDecoder` does. -/
  | rearm
  deriving DecidableEq, Repr

/-- One operation, its result discarded. -/
def Op.perform : Op → StreamM Unit
  | .kind => discard Stream.Kind
  | .bytes => discard Stream.bytes
  | .uint => discard (Stream.uint 64)
  | .bool => discard Stream.bool
  | .raw => discard Stream.raw
  | .list => discard Stream.list
  | .listEnd => Stream.listEnd
  | .decode => discard Stream.decode
  | .readFull n => discard (Stream.readFull n)
  | .rearm => Stream.rearm

/-- A caller performing the operations `ops` one after the other, carrying on after
errors. -/
def perform : List Op → Stream → Stream
  | [], s => s
  | op :: ops, s => perform ops (ExceptState.run op.perform s).2

end Stream

/-- `DecodeBytes` into an `interface{}`: the input must hold exactly one value. -/
def decodeBytes (b : List UInt8) : Except Error Item :=
  match ExceptState.run Stream.decode (Stream.newStream b true (UInt64.ofNat b.length)) with
  | (.error err, _) => .error err
  | (.ok v, s) => if s.input.length > 0 then .error .moreThanOneValue else .ok v

end Rlp
