import Dsplinz.Lib.GoSlice
import Dsplinz.Rlp.Item

/-!
# The encoder of package `rlp`

A faithful model of `rlp/encode.go`. The encoder does not write list headers
where they belong: while a value is written, `encbuf.str` receives every byte
*except* the list headers, and each list only leaves a `listhead` behind – the
offset in `str` where its header goes and, once `listEnd` has run, the size of its
payload. `encbuf.lhsize` is the running total of the header bytes still to be
spliced in, so that `encbuf.size` is the length of the final encoding before a
single header has been written.

The headers are spliced in at the very end, by three independent pieces of code:

* `Rlp.Encbuf.toBytes` allocates `size` bytes and fills them, copying string data
  and writing each header in turn (`EncodeToBytes`);
* `Rlp.Encbuf.toWriter` sends the same pieces to a writer (`Encode`);
* `Rlp.EncReader.read` hands them out piece by piece to a caller's buffers of any
  size, keeping a partly consumed piece across calls (`EncodeToReader`).

That these three agree, and agree with `Rlp.Item.encode`, is the subject of
`Dsplinz.Rlp.EncbufSpec`.

The Go values the encoder accepts are `Rlp.Value`: one constructor per writer of
`makeWriter` that produces data (the reflection that picks the writer is not
modelled). Values are written into the buffer by `Rlp.writeValue`.
-/

namespace Rlp

open BigEndian GoSlice

/-! ### Integers and headers -/

/-- `intsize`: the number of bytes `putint` writes for `i` – the loop shifts `i` right
by eight until it is zero. -/
def intsize (i : UInt64) : Nat := go i 1
where
  /-- The loop of `intsize`, with the current candidate `size`. -/
  go (i : UInt64) (size : Nat) : Nat :=
    if i >>> 8 = 0 then size else go (i >>> 8) (size + 1)
  termination_by i.toNat
  decreasing_by
    rename_i hc
    have h8 : (i >>> 8).toNat = i.toNat / 256 := by
      rw [UInt64.toNat_shiftRight, Nat.shiftRight_eq_div_pow]
      rfl
    have hne : (i >>> 8).toNat ≠ 0 := fun h => hc (UInt64.toNat_inj.mp (by simpa using h))
    omega

/-- `putint`: the bytes of `i`, big-endian and without leading zeros, one case per
length as the source's `switch` has it. -/
def putint (i : UInt64) : List UInt8 :=
  if i < (1 : UInt64) <<< 8 then [i.toUInt8]
  else if i < (1 : UInt64) <<< 16 then [(i >>> 8).toUInt8, i.toUInt8]
  else if i < (1 : UInt64) <<< 24 then [(i >>> 16).toUInt8, (i >>> 8).toUInt8, i.toUInt8]
  else if i < (1 : UInt64) <<< 32 then
    [(i >>> 24).toUInt8, (i >>> 16).toUInt8, (i >>> 8).toUInt8, i.toUInt8]
  else if i < (1 : UInt64) <<< 40 then
    [(i >>> 32).toUInt8, (i >>> 24).toUInt8, (i >>> 16).toUInt8, (i >>> 8).toUInt8, i.toUInt8]
  else if i < (1 : UInt64) <<< 48 then
    [(i >>> 40).toUInt8, (i >>> 32).toUInt8, (i >>> 24).toUInt8, (i >>> 16).toUInt8,
      (i >>> 8).toUInt8, i.toUInt8]
  else if i < (1 : UInt64) <<< 56 then
    [(i >>> 48).toUInt8, (i >>> 40).toUInt8, (i >>> 32).toUInt8, (i >>> 24).toUInt8,
      (i >>> 16).toUInt8, (i >>> 8).toUInt8, i.toUInt8]
  else
    [(i >>> 56).toUInt8, (i >>> 48).toUInt8, (i >>> 40).toUInt8, (i >>> 32).toUInt8,
      (i >>> 24).toUInt8, (i >>> 16).toUInt8, (i >>> 8).toUInt8, i.toUInt8]

/-- `headsize`: the length of a list or string header for a payload of `size` bytes. -/
def headsize (size : UInt64) : Nat :=
  if size < 56 then 1 else 1 + intsize size

/-- `puthead`: the bytes of a list or string header, `smalltag + size` below 56, else
`largetag` plus the length of the size, then the size. -/
def puthead (smalltag largetag : UInt8) (size : UInt64) : List UInt8 :=
  if size < 56 then [smalltag + size.toUInt8]
  else
    let s := putint size
    (largetag + UInt8.ofNat s.length) :: s

/-! ### The buffer -/

/-- `listhead`: where a list header goes, and the list's size. -/
structure Listhead where
  /-- Index of this header in the string data. -/
  offset : Nat
  /-- Total size of the encoded payload, list headers included; until `listEnd` runs
  it holds the value of `lhsize` when the list was opened. -/
  size : Nat
  deriving Repr, DecidableEq

/-- `listhead.encode`: the header of a list of this size. -/
def Listhead.encode (head : Listhead) : List UInt8 :=
  puthead 0xC0 0xF7 (UInt64.ofNat head.size)

/-- `encbuf` (without its auxiliary `sizebuf`, whose contents never outlive a call). -/
structure Encbuf where
  /-- String data: everything except list headers. -/
  str : List UInt8
  /-- All list headers, in the order the lists were opened. -/
  lheads : List Listhead
  /-- Sum of the sizes of all list headers encoded so far. -/
  lhsize : Nat
  deriving Repr

namespace Encbuf

/-- A buffer after `reset`, as every encoding starts. -/
def reset : Encbuf := ⟨[], [], 0⟩

/-- `encbuf.size`: the length of the final encoding. -/
def size (w : Encbuf) : Nat := w.str.length + w.lhsize

/-- Appending raw bytes to the string data (`w.str = append(w.str, ...)`). -/
def append (w : Encbuf) (b : List UInt8) : Encbuf := { w with str := w.str ++ b }

/-- `encodeStringHeader`. -/
def encodeStringHeader (w : Encbuf) (size : Nat) : Encbuf :=
  if size < 56 then w.append [0x80 + UInt8.ofNat size]
  else
    let sizesize := (putint (UInt64.ofNat size)).length
    w.append ((0xB7 + UInt8.ofNat sizesize) :: putint (UInt64.ofNat size))

/-- `encodeString`: a single byte below `0x80` is its own encoding, anything else gets a
string header. -/
def encodeString (w : Encbuf) (b : List UInt8) : Encbuf :=
  if b.length = 1 ∧ b.headD 0 ≤ 0x7F then w.append [b.headD 0]
  else (w.encodeStringHeader b.length).append b

/-- `list`: open a list. The returned index stands for the `*listhead` the source
returns. -/
def list (w : Encbuf) : Nat × Encbuf :=
  (w.lheads.length, { w with lheads := w.lheads ++ [⟨w.str.length, w.lhsize⟩] })

/-- `listEnd`: close the list opened as `lh`, storing its payload size and counting its
header into `lhsize`. -/
def listEnd (w : Encbuf) (lh : Nat) : Encbuf :=
  let head := w.lheads.getD lh ⟨0, 0⟩
  let size := w.size - head.offset - head.size
  { w with
    lheads := w.lheads.set lh { head with size := size }
    lhsize := w.lhsize + (if size < 56 then 1 else 1 + intsize (UInt64.ofNat size)) }

end Encbuf

/-! ### Writers -/

/-- The Go values the encoder accepts, one constructor per kind of writer. -/
inductive Value where
  /-- Any unsigned integer type (`writeUint`). -/
  | uint (i : UInt64)
  /-- A `bool` (`writeBool`). -/
  | bool (b : Bool)
  /-- A `*big.Int` or `big.Int` (`writeBigIntPtr`, `writeBigIntNoPtr`); a nil pointer is
  the zero value. -/
  | bigInt (i : Int)
  /-- A Go `string` (`writeString`). -/
  | string (s : List UInt8)
  /-- A byte slice or byte array (`writeBytes`, `writeByteArray`). -/
  | bytes (b : List UInt8)
  /-- A `RawValue`, copied as it is (`writeRawValue`). -/
  | raw (b : List UInt8)
  /-- A nil interface value (`writeInterface`). -/
  | nilInterface
  /-- A slice or array of non-byte elements, or a struct's public fields: one list. -/
  | list (vs : List Value)
  /-- The elements of a slice tagged `rlp:"tail"`, written without a list header. -/
  | tail (vs : List Value)
  deriving Repr

/-- `(*big.Int).Bytes`: the magnitude, big-endian, without leading zeros. -/
def bigBytes (n : Nat) : List UInt8 :=
  if n = 0 then [] else lowBytes n (byteLen n)

/-- `writeUint`. -/
def writeUint (w : Encbuf) (i : UInt64) : Encbuf :=
  if i = 0 then w.append [0x80]
  else if i < 128 then w.append [i.toUInt8]
  else
    let s := (putint i).length
    w.append ((0x80 + UInt8.ofNat s) :: putint i)

/-- `writeBool`. -/
def writeBool (w : Encbuf) (b : Bool) : Encbuf :=
  if b then w.append [0x01] else w.append [0x80]

/-- `writeBigInt`. -/
def writeBigInt (w : Encbuf) (i : Int) : Except String Encbuf :=
  if i < 0 then .error "rlp: cannot encode negative *big.Int"
  else if i = 0 then .ok (w.append [0x80])
  else .ok (w.encodeString (bigBytes i.toNat))

/-- `writeString`: the same rule as `encodeString`, written out again in the source. -/
def writeString (w : Encbuf) (s : List UInt8) : Encbuf :=
  if s.length = 1 ∧ s.headD 0 ≤ 0x7f then w.append [s.headD 0]
  else (w.encodeStringHeader s.length).append s

mutual
/-- The writer of a value (`makeWriter` and the writers it returns). A list opens a
list header, writes its elements and closes it again, as `makeSliceWriter` does with
`defer w.listEnd(w.list())`. -/
def writeValue : Value → Encbuf → Except String Encbuf
  | .uint i, w => .ok (writeUint w i)
  | .bool b, w => .ok (writeBool w b)
  | .bigInt i, w => writeBigInt w i
  | .string s, w => .ok (writeString w s)
  | .bytes b, w => .ok (w.encodeString b)
  | .raw b, w => .ok (w.append b)
  | .nilInterface, w => .ok (w.append [0xC0])
  | .list vs, w =>
    let (lh, w) := w.list
    (writeValues vs w).map fun w => w.listEnd lh
  | .tail vs, w => writeValues vs w
/-- The loop of a slice writer over its elements. -/
def writeValues : List Value → Encbuf → Except String Encbuf
  | [], w => .ok w
  | v :: vs, w => (writeValue v w).bind (writeValues vs)
end

/-! ### The three outputs -/

namespace Encbuf

/-- One round of the loop of `toBytes`: copy the string data before the header, then
write the header into the output buffer (a panic, `none`, if it does not fit). -/
def toBytesHead (str : List UInt8) (st : List UInt8 × Nat × Nat) (head : Listhead) :
    Option (List UInt8 × Nat × Nat) :=
  let (out, pos, strpos) := st
  let (out, n) := copyAt out pos (slice str strpos head.offset)
  let enc := head.encode
  (writeAt out (pos + n) enc).map fun out => (out, pos + n + enc.length, strpos + n)

/-- `toBytes`: allocate `size` bytes and fill them. `none` is a runtime panic. -/
def toBytes (w : Encbuf) : Option (List UInt8) := do
  let (out, pos, strpos) ← w.lheads.foldlM (toBytesHead w.str) (List.replicate w.size 0, 0, 0)
  -- copy string data after the last list header
  pure (copyAt out pos (w.str.drop strpos)).1

/-- One round of the loop of `toWriter`: write the string data before the header, if
any, then the header. The writer is a plain one, which takes everything. -/
def toWriterHead (str : List UInt8) (st : List UInt8 × Nat) (head : Listhead) :
    List UInt8 × Nat :=
  let (written, strpos) := st
  let (written, strpos) :=
    if 0 < head.offset - strpos then
      let p := slice str strpos head.offset
      (written ++ p, strpos + p.length)
    else (written, strpos)
  (written ++ head.encode, strpos)

/-- `toWriter`, on a writer that accepts every write: the bytes it receives. -/
def toWriter (w : Encbuf) : List UInt8 :=
  let (written, strpos) := w.lheads.foldl (toWriterHead w.str) ([], 0)
  if strpos < w.str.length then written ++ w.str.drop strpos else written

end Encbuf

/-- `encReader`, the reader returned by `EncodeToReader`. -/
structure EncReader where
  /-- The buffer being read; `none` once EOF has been reached. -/
  buf : Option Encbuf
  /-- Index of the list header being read. -/
  lhpos : Nat
  /-- Current position in the string buffer. -/
  strpos : Nat
  /-- The next piece to be read, `none` for a nil slice. -/
  piece : Option (List UInt8)

namespace EncReader

/-- `encReader.next`: the next piece of data to be read, `none` at EOF. -/
def next (r : EncReader) : Option (List UInt8) × EncReader :=
  match r.buf with
  | none => (none, r)
  | some buf =>
    match r.piece with
    | some p => (some p, r)
    | none =>
      match buf.lheads[r.lhpos]? with
      | some head =>
        let sizebefore := head.offset - r.strpos
        if 0 < sizebefore then
          -- string data before the header
          (some (slice buf.str r.strpos head.offset), { r with strpos := r.strpos + sizebefore })
        else (some head.encode, { r with lhpos := r.lhpos + 1 })
      | none =>
        if r.strpos < buf.str.length then
          -- string data at the end, after all list headers
          (some (buf.str.drop r.strpos), { r with strpos := buf.str.length })
        else (none, r)

/-- The loop of `encReader.Read` into a buffer with `room` bytes left, having read `acc`
so far; it returns what was read and whether EOF was reported. `fuel` bounds the
number of rounds; `read` starts it at `pieceBound`, which is never exhausted
(`Rlp.EncReader.readLoop_rest`). -/
def readLoop : Nat → EncReader → Nat → List UInt8 → (List UInt8 × Bool) × EncReader
  | 0, r, _, acc => ((acc, false), r)
  | fuel + 1, r, room, acc =>
    let (p, r) := r.next
    match p with
    | none => ((acc, true), { r with buf := none, piece := none })
    | some piece =>
      let nn := min room piece.length
      if nn < piece.length then ((acc ++ piece.take nn, false), { r with piece := some (piece.drop nn) })
      else readLoop fuel { r with piece := none } (room - nn) (acc ++ piece)

/-- A bound on the rounds of `readLoop` a reader has left: every piece it hands out is at
least one byte of the encoding, and one more round finds EOF. -/
def pieceBound (r : EncReader) : Nat :=
  match r.buf with
  | none => 1
  | some buf => buf.size + 1

/-- `encReader.Read(b)` with `len(b) = k`: the bytes placed in `b`, and whether the call
returned `io.EOF`. -/
def read (r : EncReader) (k : Nat) : (List UInt8 × Bool) × EncReader :=
  readLoop r.pieceBound r k []

/-- Calling `Read` once per buffer size of `sizes`, until it reports `io.EOF`: the
concatenation of what was read, and whether EOF was reached. -/
def readAll : EncReader → List Nat → List UInt8 × Bool
  | _, [] => ([], false)
  | r, k :: ks =>
    let ((out, eof), r) := r.read k
    if eof then (out, true)
    else
      let (rest, eof) := readAll r ks
      (out ++ rest, eof)

end EncReader

/-! ### Entry points -/

/-- `EncodeToBytes`: the error of a writer, or the encoding; `none` is a runtime panic. -/
def encodeToBytes (v : Value) : Except String (Option (List UInt8)) :=
  (writeValue v Encbuf.reset).map Encbuf.toBytes

/-- `Encode` to a writer that accepts every write: the bytes it receives. -/
def encode (v : Value) : Except String (List UInt8) :=
  (writeValue v Encbuf.reset).map Encbuf.toWriter

/-- `EncodeToReader`: the announced size and the reader. -/
def encodeToReader (v : Value) : Except String (Nat × EncReader) :=
  (writeValue v Encbuf.reset).map fun eb => (eb.size, ⟨some eb, 0, 0, none⟩)

/-- The Go value an item is encoded from: `[]byte` for a string, `[]interface{}` for a
list. -/
def Item.toValue : Item → Value
  | .bytes b => .bytes b
  | .list ts => .list (ts.map Item.toValue)

end Rlp
