import Dsplinz.Lib.Keystream
import Dsplinz.Rlp.Output
import Dsplinz.Rlp.Integers

/-!
# RLPx framing

`p2p/rlpx.go`: the `rlpxFrameRW` that frames, encrypts and authenticates the messages of a
connection, its `WriteMsg` and `ReadMsg`, and `updateMAC`.

The primitives are parameters, modelled by what they compute:

* the two `cipher.Stream`s are AES in counter mode with a zero IV, `Keystream`s over
  `Keystream.counterMode` of the AES key;
* a MAC `hash.Hash` (Keccak-256) is the list of bytes written into it, its seeding
  included, and `Sum(nil)` is `Rlpx.Keccak.sum` of that list, 32 bytes;
* the MAC `cipher.Block` is its encryption function, and snappy is `Rlpx.Snappy`.

The connection is a byte stream: `WriteMsg` returns the bytes it writes, which a pipe
always accepts, and `ReadMsg` reads from the bytes left in the stream (`io.ReadFull` as
`Rlpx.readFull`); the caller drops the connection on any error, so the model keeps no state
after one. A `Msg`'s payload is the bytes its reader yields; `ReceivedAt` is not
modelled. The message code is encoded by `Rlp.encodeToBytes` and decoded by the stream of
`rlp/decode.go` (`rlp.Decode` on a `*bytes.Reader` is `Stream.uint 64` on a stream limited to
the reader's length).

The results are in `Dsplinz.P2p.RlpxSpec`.
-/

namespace Rlpx

open Rlp

/-- `maxUint24`. -/
def maxUint24 : UInt32 := 16777215

/-- `zeroHeader`: the protocol-type part of every frame header. -/
def zeroHeader : List UInt8 := [0xC2, 0x80, 0x80]

/-- The errors of snappy's `DecodedLen` and `Decode`. -/
inductive SnappyError where
  | corrupt
  | tooLarge
  deriving DecidableEq, Repr

/-- The errors of the framing. -/
inductive Error where
  /-- `errPlainMessageTooLarge`. -/
  | plainMessageTooLarge
  /-- `"message size overflows uint24"`. -/
  | sizeOverflow
  /-- `io.EOF` and `io.ErrUnexpectedEOF` of `io.ReadFull`. -/
  | eof
  | unexpectedEOF
  /-- `"bad header MAC"`. -/
  | badHeaderMAC
  /-- `"bad frame MAC"`. -/
  | badFrameMAC
  /-- An error of `rlp.Decode`. -/
  | rlp (e : Rlp.Error)
  | snappy (e : SnappyError)
  deriving DecidableEq, Repr

/-- `Msg`: its code, its size, and the bytes its payload reader yields. -/
structure Msg where
  code : UInt64
  size : UInt32
  payload : List UInt8
  deriving DecidableEq, Repr

/-- Keccak-256, which the MAC hashes run: the digest of everything written. -/
structure Keccak where
  sum : List UInt8 → List UInt8
  length_sum : ∀ b, (sum b).length = 32

/-- `snappy.Encode`, `snappy.DecodedLen` and `snappy.Decode`. -/
structure Snappy where
  encode : List UInt8 → List UInt8
  decodedLen : List UInt8 → Except SnappyError Nat
  decode : List UInt8 → Except SnappyError (List UInt8)

/-- Snappy decodes what it encodes, for every block within the limit `WriteMsg` checks. -/
def Snappy.RoundTrips (sn : Snappy) : Prop :=
  ∀ b : List UInt8, b.length ≤ maxUint24.toNat →
    sn.decodedLen (sn.encode b) = .ok b.length ∧ sn.decode (sn.encode b) = .ok b

/-- `secrets`, as far as the framing uses them. -/
structure Secrets where
  aes : List UInt8
  mac : List UInt8
  egressMAC : List UInt8
  ingressMAC : List UInt8

/-- `rlpxFrameRW`. -/
structure FrameRW where
  enc : Keystream
  dec : Keystream
  macCipher : List UInt8 → List UInt8
  egressMAC : List UInt8
  ingressMAC : List UInt8
  snappy : Bool

/-- `aes.NewCipher`, from the AES encryption function of each key: `none` is the
`KeySizeError` of a key that is not of 16, 24 or 32 bytes. -/
def newCipher (aesEncrypt : List UInt8 → List UInt8 → List UInt8) (key : List UInt8) :
    Option (List UInt8 → List UInt8) :=
  if key.length = 16 ∨ key.length = 24 ∨ key.length = 32 then some (aesEncrypt key) else none

/-- `newRLPXFrameRW`; `none` is its panic on an invalid secret. -/
def newRLPXFrameRW (aesEncrypt : List UInt8 → List UInt8 → List UInt8) (s : Secrets) :
    Option FrameRW := do
  let macc ← newCipher aesEncrypt s.mac
  let encc ← newCipher aesEncrypt s.aes
  -- we use an all-zeroes IV for AES because the key used for encryption is ephemeral
  pure { enc := ⟨Keystream.counterMode encc 0, 0⟩, dec := ⟨Keystream.counterMode encc 0, 0⟩,
         macCipher := macc, egressMAC := s.egressMAC, ingressMAC := s.ingressMAC,
         snappy := false }

/-- `putInt24(v, b)`: the three bytes it stores at the front of `b`. -/
def putInt24 (v : UInt32) : List UInt8 := [(v >>> 16).toUInt8, (v >>> 8).toUInt8, v.toUInt8]

/-- `readInt24`. -/
def readInt24 (b : List UInt8) : UInt32 :=
  (b.getD 2 0).toUInt32 ||| (b.getD 1 0).toUInt32 <<< 8 ||| (b.getD 0 0).toUInt32 <<< 16

/-- `ptype, _ := rlp.EncodeToBytes(msg.Code)`. -/
def encodeCode (code : UInt64) : List UInt8 :=
  match encodeToBytes (.uint code) with
  | .ok (some b) => b
  -- an error leaves `ptype` nil; neither this nor a panic happens for an integer
  | _ => []

/-- `io.ReadFull` of `n` bytes from the stream: what it reads, and what is left. -/
def readFull (n : Nat) (input : List UInt8) : Except Error (List UInt8 × List UInt8) :=
  if n ≤ input.length then .ok (input.take n, input.drop n)
  else if input = [] then .error .eof
  else .error .unexpectedEOF

/-- The frame padding: `zero16[:16-padding]` when the size is not a multiple of 16. -/
def padding (fsize : UInt32) : List UInt8 :=
  if fsize % 16 > 0 then List.replicate (16 - fsize % 16).toNat 0 else []

section Framing

variable (keccak : Keccak) (snappy : Snappy)

/-- `updateMAC(mac, block, seed)`: the hash after it is reseeded, and the first 16 bytes
of its sum. -/
def updateMAC (block : List UInt8 → List UInt8) (mac seed : List UInt8) :
    List UInt8 × List UInt8 :=
  let aesbuf := List.zipWith (· ^^^ ·) (block (keccak.sum mac)) seed
  let mac := mac ++ aesbuf
  (mac, (keccak.sum mac).take 16)

/-- The part of `WriteMsg` after its checks: the header of a frame of `fsize` bytes, the
encrypted frame of `ptype` and `payload`, and their MACs, as written to the connection,
and the writer after them. -/
def writeFrame (rw : FrameRW) (ptype payload : List UInt8) (fsize : UInt32) :
    List UInt8 × FrameRW :=
  let (headbuf, enc) := rw.enc.xorKeyStream (putInt24 fsize ++ zeroHeader ++ List.replicate 10 0)
  -- write header MAC
  let (egressMAC, headMAC) := updateMAC keccak rw.macCipher rw.egressMAC headbuf
  -- write encrypted frame, updating the egress MAC hash with the data written to conn
  let (ptypeCt, enc) := enc.xorKeyStream ptype
  let (payloadCt, enc) := enc.xorKeyStream payload
  let (paddingCt, enc) := enc.xorKeyStream (padding fsize)
  let egressMAC := egressMAC ++ ptypeCt ++ payloadCt ++ paddingCt
  -- write frame MAC
  let fmacseed := keccak.sum egressMAC
  let (egressMAC, mac) := updateMAC keccak rw.macCipher egressMAC fmacseed
  (headbuf ++ headMAC ++ ptypeCt ++ payloadCt ++ paddingCt ++ mac, { rw with enc, egressMAC })

/-- `WriteMsg`: the bytes written to the connection, and the writer after them. -/
def writeMsg (rw : FrameRW) (msg : Msg) : Except Error (List UInt8 × FrameRW) := do
  let ptype := encodeCode msg.code
  -- if snappy is enabled, compress message now
  let msg ← if rw.snappy then
      if msg.size > maxUint24 then throw .plainMessageTooLarge
      else
        let payload := snappy.encode msg.payload
        pure { msg with payload, size := UInt32.ofNat payload.length }
    else pure msg
  -- write header
  let fsize := UInt32.ofNat ptype.length + msg.size
  if fsize > maxUint24 then throw .sizeOverflow
  pure (writeFrame keccak rw ptype msg.payload fsize)

/-- The part of `ReadMsg` that reads a frame: its decrypted content with the padding, its
size, the reader after it, and the bytes left. -/
def readFrame (rw : FrameRW) (input : List UInt8) :
    Except Error (List UInt8 × UInt32 × FrameRW × List UInt8) := do
  -- read the header
  let (headbuf, input) ← readFull 32 input
  -- verify header mac
  let (ingressMAC, shouldMAC) := updateMAC keccak rw.macCipher rw.ingressMAC (headbuf.take 16)
  if shouldMAC ≠ headbuf.drop 16 then throw .badHeaderMAC
  let (head, dec) := rw.dec.xorKeyStream (headbuf.take 16)
  let fsize := readInt24 head
  -- read the frame content
  let rsize := if fsize % 16 > 0 then fsize + (16 - fsize % 16) else fsize
  let (framebuf, input) ← readFull rsize.toNat input
  -- read and validate frame MAC
  let ingressMAC := ingressMAC ++ framebuf
  let fmacseed := keccak.sum ingressMAC
  let (macbuf, input) ← readFull 16 input
  let (ingressMAC, shouldMAC) := updateMAC keccak rw.macCipher ingressMAC fmacseed
  if shouldMAC ≠ macbuf then throw .badFrameMAC
  -- decrypt frame content
  let (framebuf, dec) := dec.xorKeyStream framebuf
  pure (framebuf, fsize, { rw with dec, ingressMAC }, input)

/-- `ReadMsg` from the bytes left in the stream: the message, the reader after it, and
the bytes left. -/
def readMsg (rw : FrameRW) (input : List UInt8) : Except Error (Msg × FrameRW × List UInt8) := do
  let (framebuf, fsize, rw, input) ← readFrame keccak rw input
  -- decode message code
  match ExceptState.run (Stream.uint 64) (Stream.newStream (framebuf.take fsize.toNat) true 0) with
  | (.error e, _) => throw (.rlp e)
  | (.ok code, content) =>
    -- if snappy is enabled, verify and decompress message
    if rw.snappy then
      let size ← (snappy.decodedLen content.input).mapError .snappy
      if size > maxUint24.toNat then throw .plainMessageTooLarge
      let payload ← (snappy.decode content.input).mapError .snappy
      pure (⟨code, UInt32.ofNat size, payload⟩, rw, input)
    else pure (⟨code, UInt32.ofNat content.input.length, content.input⟩, rw, input)

/-- `WriteMsg` on each message in turn: the bytes on the connection. -/
def writeMsgs (rw : FrameRW) : List Msg → Except Error (List UInt8 × FrameRW)
  | [] => pure ([], rw)
  | msg :: msgs => do
    let (out, rw) ← writeMsg keccak snappy rw msg
    let (rest, rw) ← writeMsgs rw msgs
    pure (out ++ rest, rw)

/-- `n` calls of `ReadMsg` in turn. -/
def readMsgs (rw : FrameRW) : Nat → List UInt8 → Except Error (List Msg × FrameRW × List UInt8)
  | 0, input => pure ([], rw, input)
  | n + 1, input => do
    let (msg, rw, input) ← readMsg keccak snappy rw input
    let (msgs, rw, input) ← readMsgs rw n input
    pure (msg :: msgs, rw, input)

end Framing

end Rlpx
