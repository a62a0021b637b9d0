import Dsplinz.Lib.BigEndian
import Dsplinz.Lib.GoSlice

/-!
# The framing of a Whisper message

`whisper/whisperv6/message.go` frames the plaintext of a message before it is encrypted:

| bytes | field |
|---|---|
| 1 | flags: the width of the size field in the low two bits, `signatureFlag` |
| 1–3 | the size of the payload, little-endian |
| `len(Payload)` | the payload |
| the rest | the padding |
| 65 | the signature, when the flag is set |

`NewSentMessage` builds the frame and `sign` appends the signature; on the receiving side,
after decryption, `ReceivedMessage.ValidateAndParse` cuts the frame into its fields. The
plaintext is whatever the holder of the key encrypted, so the parser sees any bytes.

The parser checks the size it reads as `payloadSize+1 > end`, while the payload ends at
`1 + sizeOfPayloadSizeField + payloadSize`: a size up to `end - 1` passes the check, and one
past what follows the size field cuts the payload out of bytes that are not there.

| stage | what it gives | theorem |
|---|---|---|
| `NewSentMessage` | flags, size, payload, padding to a multiple of `padSizeLimit` | `Whisper.newSentMessage_eq` |
| `sign` | the flag, then the signature of the flagged frame | `Whisper.sign_eq` |
| the fields | payload and padding, cut at the size field | `Whisper.parseFields_frame` |
| round trip | the payload and padding of a built frame, unsigned and signed | `Whisper.validateAndParse_newSentMessage`, `Whisper.validateAndParse_sign_newSentMessage` |
| the size check | a panic on a frame whose size runs past the end | `Whisper.validateAndParse_panics` |

Go slices are lists here, and a slice expression past the length of the list is a panic.
In Go the bound of `s[lo:hi]` is the capacity of `s`; the plaintext that decryption returns
has no room past its length, and were there any, the next slice `Raw[beg:end]` would panic
with its low bound above its high one.
-/

namespace Whisper

open BigEndian

/-! ### Constants and helpers -/

/-- `SizeMask`: the bits of the flags that give the width of the size field. -/
def sizeMask : UInt8 := 3

/-- `signatureFlag`. -/
def signatureFlag : UInt8 := 4

/-- `signatureLength`. -/
def signatureLength : Nat := 65

/-- `flagsLength`. -/
def flagsLength : Nat := 1

/-- `padSizeLimit`. -/
def padSizeLimit : Nat := 256

/-- `isMessageSigned(flags)`. -/
def isMessageSigned (flags : UInt8) : Bool := (flags &&& signatureFlag) != 0

/-- `bytesToUintLittleEndian(b)`: the loop over the bytes, in `uint64` arithmetic. -/
def bytesToUintLittleEndian (b : List UInt8) : UInt64 :=
  (b.foldl (fun (acc : UInt64 × UInt64) x => (acc.1 + x.toUInt64 * acc.2, acc.2 * 256))
    (0, 1)).1

/-- `binary.LittleEndian.PutUint32`: the four bytes of `v`, least significant first. -/
def putUint32 (v : UInt32) : List UInt8 :=
  [v.toUInt8, (v >>> 8).toUInt8, (v >>> 16).toUInt8, (v >>> 24).toUInt8]

/-- The loop of `getSizeOfPayloadSizeField`: one more byte for each division by `256`
that leaves at least `256`; `fuel` bounds the number of rounds. -/
def sizeFieldLoop : Nat → Nat → Nat → Nat
  | 0, _, s => s
  | fuel + 1, i, s => if i ≥ 256 then sizeFieldLoop fuel (i / 256) (s + 1) else s

/-- `getSizeOfPayloadSizeField(payload)`: the number of bytes the size of `payload` takes. -/
def getSizeOfPayloadSizeField (payload : List UInt8) : Nat :=
  sizeFieldLoop payload.length payload.length 1

/-- `containsOnlyZeros(data)`. -/
def containsOnlyZeros (data : List UInt8) : Bool := data.all (· == 0)

/-- `validateDataIntegrity(k, expectedSize)`. -/
def validateDataIntegrity (k : List UInt8) (expectedSize : Nat) : Bool :=
  if k.length ≠ expectedSize then false
  else if expectedSize > 3 ∧ containsOnlyZeros k then false
  else true

/-! ### Building a message -/

/-- The cryptography the framing uses, as parameters: `crypto.Sign` of the Keccak-256 hash
of the bytes signed, and `crypto.SigToPub` of the hash of the bytes and a signature, which
`SigToPubKey` turns into `nil` on an error or a panic. -/
structure Crypto (K : Type) where
  sign : List UInt8 → Option (List UInt8)
  sigToPub : List UInt8 → List UInt8 → Option K

/-- The fields of `MessageParams` that the framing reads: `Src != nil` is `signed`. -/
structure MessageParams where
  payload : List UInt8
  padding : List UInt8
  signed : Bool

/-- The errors of building a message. -/
inductive Error where
  /-- `crand.Read` failed, or gave bytes that fail `validateDataIntegrity`: "failed to
  generate random padding of size %d". -/
  | padding (size : Nat)
  /-- `crypto.Sign` failed. -/
  | sign
  deriving DecidableEq, Repr

/-- `addPayloadSizeField`: the size of the payload, in as many little-endian bytes as it
takes, and that number in the flags. -/
def addPayloadSizeField (raw payload : List UInt8) : List UInt8 :=
  let fieldSize := getSizeOfPayloadSizeField payload
  let field := (putUint32 (UInt32.ofNat payload.length)).take fieldSize
  let raw := raw ++ field
  raw.set 0 (raw.getD 0 0 ||| UInt8.ofNat fieldSize)

/-- `appendPadding`: the padding given, or else random bytes, `rand`, up to the next
multiple of `padSizeLimit`, counting the signature to come. -/
def appendPadding (raw : List UInt8) (params : MessageParams) (rand : List UInt8) :
    Except Error (List UInt8) :=
  if params.padding.length ≠ 0 then
    -- padding data was provided by the Dapp, just use it as is
    .ok (raw ++ params.padding)
  else
    let rawSize := flagsLength + getSizeOfPayloadSizeField params.payload +
      params.payload.length + if params.signed then signatureLength else 0
    let odd := rawSize % padSizeLimit
    let paddingSize := padSizeLimit - odd
    let pad := rand.take paddingSize
    if !validateDataIntegrity pad paddingSize then .error (.padding paddingSize)
    else .ok (raw ++ pad)

/-- `NewSentMessage(params)`: the flags, the size field, the payload, the padding. -/
def newSentMessage (params : MessageParams) (rand : List UInt8) : Except Error (List UInt8) :=
  let raw := addPayloadSizeField [0] params.payload
  appendPadding (raw ++ params.payload) params rand

/-- `sentMessage.sign(key)`: the signature flag, then the signature of the whole frame. A
message already signed is left as it is. -/
def sign {K : Type} (crypto : Crypto K) (raw : List UInt8) : Except Error (List UInt8) :=
  if isMessageSigned (raw.getD 0 0) then .ok raw
  else
    -- it is important to set this flag before signing
    let raw := raw.set 0 (raw.getD 0 0 ||| signatureFlag)
    match crypto.sign raw with
    | none => .error .sign
    | some signature => .ok (raw ++ signature)

/-! ### Parsing a message -/

/-- The fields `ValidateAndParse` sets on success: the payload (`nil` without a size
field), the padding, and the signature with the key recovered from it. -/
structure Parsed (K : Type) where
  payload : Option (List UInt8)
  padding : List UInt8
  signature : Option (List UInt8 × K)

/-- The outcome of `ValidateAndParse`: `false`, `true` with the fields it set, or a
run-time panic. -/
inductive Outcome (K : Type) where
  | invalid
  | valid (parsed : Parsed K)
  | panic

/-- The part of `ValidateAndParse` after the signature: the size field, the payload and the
padding, between `beg = 1` and `end`. -/
def parseFields {K : Type} (raw : List UInt8) (stop : Int) (signature : Option (List UInt8 × K)) :
    Outcome K :=
  -- number of bytes indicating the size of payload
  let sizeOfPayloadSizeField := ((raw.getD 0 0) &&& sizeMask).toNat
  if sizeOfPayloadSizeField ≠ 0 then
    match GoSlice.sliceChecked raw 1 (1 + sizeOfPayloadSizeField) with
    | none => .panic
    | some field =>
      let payloadSize : Int := (bytesToUintLittleEndian field).toInt64.toInt
      if payloadSize + 1 > stop then .invalid
      else
        let beg : Int := 1 + sizeOfPayloadSizeField
        match GoSlice.sliceChecked raw beg (beg + payloadSize) with
        | none => .panic
        | some payload =>
          match GoSlice.sliceChecked raw (beg + payloadSize) stop with
          | none => .panic
          | some padding => .valid ⟨some payload, padding, signature⟩
  else
    match GoSlice.sliceChecked raw 1 stop with
    | none => .panic
    | some padding => .valid ⟨none, padding, signature⟩

/-- `ReceivedMessage.ValidateAndParse()`. -/
def validateAndParse {K : Type} (crypto : Crypto K) (raw : List UInt8) : Outcome K :=
  let stop : Int := raw.length
  if stop < 1 then .invalid
  else if isMessageSigned (raw.getD 0 0) then
    let stop := stop - signatureLength
    if stop ≤ 1 then .invalid
    else
      let signature := raw.drop stop.toNat
      -- `SigToPubKey`, over the hash of the bytes before the signature
      match crypto.sigToPub (raw.take stop.toNat) signature with
      | none => .invalid
      | some src => parseFields raw stop (some (signature, src))
  else parseFields raw stop none

/-! ### The numbers in the frame -/

/-- The loop of `bytesToUintLittleEndian`, from a sum `a` and a place value `m`. -/
theorem foldl_littleEndian : ∀ (b : List UInt8) (a m : UInt64),
    (b.foldl (fun (acc : UInt64 × UInt64) x => (acc.1 + x.toUInt64 * acc.2, acc.2 * 256))
      (a, m)).1 = a + m * UInt64.ofNat (value b.reverse)
  | [], a, m => by simp
  | x :: b, a, m => by
    have hv : value (b.reverse ++ [x]) = value b.reverse * 256 + x.toNat := by
      rw [value_append]
      simp [value]
    have hx : x.toUInt64 = UInt64.ofNat x.toNat := by simp
    rw [List.foldl_cons, foldl_littleEndian b, List.reverse_cons, hv, UInt64.ofNat_add,
      UInt64.ofNat_mul, hx]
    grind

/-- **`bytesToUintLittleEndian` reads the bytes least significant first**, modulo `2 ^ 64`. -/
theorem bytesToUintLittleEndian_eq (b : List UInt8) :
    bytesToUintLittleEndian b = UInt64.ofNat (value b.reverse) := by
  rw [bytesToUintLittleEndian, foldl_littleEndian]
  simp

/-- The size field, converted to Go's `int`: its value, for at most seven bytes. -/
theorem toInt_bytesToUintLittleEndian {b : List UInt8} (h : b.length ≤ 7) :
    (bytesToUintLittleEndian b).toInt64.toInt = (value b.reverse : Int) := by
  have hlt : value b.reverse < 2 ^ 56 := by
    have := value_lt b.reverse
    rw [List.length_reverse] at this
    calc value b.reverse < 256 ^ b.length := this
      _ ≤ 256 ^ 7 := Nat.pow_le_pow_right (by norm_num) h
      _ = 2 ^ 56 := by norm_num
  have hnat : (bytesToUintLittleEndian b).toNat = value b.reverse := by
    rw [bytesToUintLittleEndian_eq, UInt64.toNat_ofNat', Nat.mod_eq_of_lt (by omega)]
  rw [← Int64.toInt_toBitVec]
  have hbv : (bytesToUintLittleEndian b).toInt64.toBitVec = (bytesToUintLittleEndian b).toBitVec :=
    rfl
  rw [hbv, BitVec.toInt_eq_toNat_of_lt (by simp only [UInt64.toNat_toBitVec]; omega)]
  exact congrArg Nat.cast hnat

/-- The loop of `getSizeOfPayloadSizeField` counts the bytes of `i`, with fuel enough. -/
theorem sizeFieldLoop_eq : ∀ (fuel i s : Nat), i ≤ fuel → sizeFieldLoop fuel i s = s + byteLen i - 1
  | 0, i, s, hi => by
    obtain rfl : i = 0 := by omega
    rw [sizeFieldLoop, byteLen_of_lt (by norm_num)]
    omega
  | fuel + 1, i, s, hi => by
    rw [sizeFieldLoop]
    split_ifs with h256
    · rw [sizeFieldLoop_eq fuel (i / 256) (s + 1) (by omega), byteLen_of_le h256]
      omega
    · rw [byteLen_of_lt (by omega)]
      omega

/-- **The size field takes `byteLen` of the payload's length**, the fewest bytes that hold
it. -/
theorem getSizeOfPayloadSizeField_eq (payload : List UInt8) :
    getSizeOfPayloadSizeField payload = byteLen payload.length := by
  rw [getSizeOfPayloadSizeField, sizeFieldLoop_eq _ _ _ le_rfl]
  omega

/-- `PutUint32` writes the four low bytes of a number, least significant first. -/
theorem putUint32_ofNat (n : Nat) : putUint32 (UInt32.ofNat n) = (lowBytes n 4).reverse := by
  -- byte `j` is the number shifted right by `8 j` bits
  have hbyte : ∀ (s : UInt32) (j : Nat), s.toNat = 8 * j → j < 4 →
      ((UInt32.ofNat n) >>> s).toUInt8 = UInt8.ofNat (n / 256 ^ j) := by
    intro s j hs hj
    apply UInt8.toNat_inj.mp
    rw [UInt32.toNat_toUInt8, UInt32.toNat_shiftRight, UInt8.toNat_ofNat', UInt32.toNat_ofNat',
      hs, Nat.shiftRight_eq_div_pow]
    obtain rfl | rfl | rfl | rfl : j = 0 ∨ j = 1 ∨ j = 2 ∨ j = 3 := by omega
    all_goals norm_num
    all_goals omega
  have h0 : (UInt32.ofNat n).toUInt8 = UInt8.ofNat (n / 256 ^ 0) := by
    simp
  rw [putUint32, h0, hbyte 8 1 rfl (by omega), hbyte 16 2 rfl (by omega),
    hbyte 24 3 rfl (by omega)]
  rfl

/-- The flags of a frame with a size field of one to three bytes: the width reads back
through `SizeMask`, before and after `sign` sets `signatureFlag`. -/
theorem flags_fieldSize {k : Nat} (h1 : 1 ≤ k) (h3 : k ≤ 3) :
    ((UInt8.ofNat k &&& sizeMask).toNat = k ∧ isMessageSigned (UInt8.ofNat k) = false) ∧
      (((UInt8.ofNat k ||| signatureFlag) &&& sizeMask).toNat = k ∧
        isMessageSigned (UInt8.ofNat k ||| signatureFlag) = true) := by
  obtain rfl | rfl | rfl : k = 1 ∨ k = 2 ∨ k = 3 := by omega
  all_goals decide

/-- The width `SizeMask` reads is at most three bytes. -/
theorem toNat_and_sizeMask_le (f : UInt8) : (f &&& sizeMask).toNat ≤ 3 := by
  rw [UInt8.toNat_and]
  exact Nat.and_le_right

/-! ### Building a frame -/

/-- `addPayloadSizeField` on the fresh flags byte, for a payload of fewer than `2 ^ 32`
bytes: the width `byteLen` of its length in the flags, then the length in that many bytes,
least significant first. -/
theorem addPayloadSizeField_fresh {payload : List UInt8} (h : payload.length < 2 ^ 32) :
    addPayloadSizeField [0] payload = UInt8.ofNat (byteLen payload.length) ::
      (lowBytes payload.length (byteLen payload.length)).reverse := by
  have hk : byteLen payload.length ≤ 4 := byteLen_le (by omega) (by simpa using h)
  have hfield : (putUint32 (UInt32.ofNat payload.length)).take (byteLen payload.length) =
      (lowBytes payload.length (byteLen payload.length)).reverse := by
    rw [putUint32_ofNat, take_reverse_lowBytes _ hk]
  simp [addPayloadSizeField, getSizeOfPayloadSizeField_eq, hfield]

/-- `appendPadding` appends the padding given, or else as many random bytes as bring the
frame, with the signature to come, to a multiple of `padSizeLimit`. -/
theorem appendPadding_eq {raw out rand : List UInt8} {params : MessageParams}
    (h : appendPadding raw params rand = .ok out) :
    ∃ pad, out = raw ++ pad ∧ (params.padding ≠ [] → pad = params.padding) ∧
      (params.padding = [] → (flagsLength + getSizeOfPayloadSizeField params.payload +
        params.payload.length + (if params.signed then signatureLength else 0) + pad.length) %
          padSizeLimit = 0) := by
  unfold appendPadding at h
  by_cases hpad : params.padding.length ≠ 0
  · -- padding data was provided
    rw [if_pos hpad] at h
    cases h
    exact ⟨params.padding, rfl, fun _ => rfl, fun h0 => absurd (by simp [h0]) hpad⟩
  · rw [if_neg hpad] at h
    dsimp only at h
    generalize hsize : padSizeLimit - (flagsLength + getSizeOfPayloadSizeField params.payload +
      params.payload.length + (if params.signed then signatureLength else 0)) % padSizeLimit = size
      at h
    by_cases hvalid : validateDataIntegrity (rand.take size) size = true
    · rw [if_neg (by simp [hvalid])] at h
      cases h
      refine ⟨rand.take size, rfl, fun hne => absurd (by simpa using hpad) hne, fun _ => ?_⟩
      -- the random bytes passed `validateDataIntegrity`, so there are `size` of them
      have hlen : (rand.take size).length = size := by
        by_contra hne
        rw [validateDataIntegrity, if_pos hne] at hvalid
        cases hvalid
      rw [hlen, ← hsize]
      simp only [padSizeLimit]
      omega
    · rw [if_pos (by simpa using hvalid)] at h
      cases h

/-- **`NewSentMessage` builds the frame**: the flags with the width of the size field, the
size, the payload, and a padding that is the one given, or else brings the frame, with the
signature to come, to a multiple of `padSizeLimit`. -/
theorem newSentMessage_eq {params : MessageParams} {rand raw : List UInt8}
    (hlen : params.payload.length < 2 ^ 32) (h : newSentMessage params rand = .ok raw) :
    ∃ pad, raw = UInt8.ofNat (byteLen params.payload.length) ::
        (lowBytes params.payload.length (byteLen params.payload.length)).reverse ++
          params.payload ++ pad ∧
      (params.padding ≠ [] → pad = params.padding) ∧
      (params.padding = [] → (1 + byteLen params.payload.length + params.payload.length +
        (if params.signed then signatureLength else 0) + pad.length) % padSizeLimit = 0) := by
  rw [newSentMessage, addPayloadSizeField_fresh hlen] at h
  obtain ⟨pad, rfl, hgiven, hfill⟩ := appendPadding_eq h
  refine ⟨pad, by simp, hgiven, fun h0 => ?_⟩
  simpa [getSizeOfPayloadSizeField_eq, flagsLength] using hfill h0

/-- The size field of a payload of fewer than `2 ^ 24` bytes: one to three bytes, which read
back least significant first give the length. -/
theorem sizeField_reads {n : Nat} (h : n < 2 ^ 24) :
    1 ≤ byteLen n ∧ byteLen n ≤ 3 ∧ (lowBytes n (byteLen n)).reverse.length = byteLen n ∧
      value (lowBytes n (byteLen n)).reverse.reverse = n := by
  refine ⟨one_le_byteLen n, byteLen_le (by omega) (by simpa using h), by simp, ?_⟩
  rw [List.reverse_reverse, value_lowBytes, Nat.mod_eq_of_lt (lt_pow_byteLen n)]

/-- `sign` on a frame not yet signed: the flags with `signatureFlag`, then the signature of
the frame so flagged. -/
theorem sign_eq {K : Type} {crypto : Crypto K} {f : UInt8} {rest out : List UInt8}
    (hf : isMessageSigned f = false) (h : sign crypto (f :: rest) = .ok out) :
    ∃ signature, crypto.sign ((f ||| signatureFlag) :: rest) = some signature ∧
      out = (f ||| signatureFlag) :: rest ++ signature := by
  simp only [sign, List.getD_cons_zero, hf, Bool.false_eq_true, if_false, List.set_cons_zero]
    at h
  split at h
  · cases h
  · rename_i signature hsig
    cases h
    exact ⟨signature, hsig, rfl⟩

/-! ### Parsing a frame -/

/-- **`ValidateAndParse` after the signature, on a frame**: a size field of `field.length`
bytes that holds the length of the payload, the payload, and the padding up to `end`. -/
theorem parseFields_frame {K : Type} {f : UInt8} {field payload padding : List UInt8}
    (rest : List UInt8) (signature : Option (List UInt8 × K))
    (hk : (f &&& sizeMask).toNat = field.length) (hk0 : field ≠ [])
    (hv : value field.reverse = payload.length) :
    parseFields (f :: field ++ payload ++ padding ++ rest)
        ((1 + field.length + payload.length + padding.length : Nat) : Int) signature =
      .valid ⟨some payload, padding, signature⟩ := by
  have h3 : field.length ≤ 3 := hk ▸ toNat_and_sizeMask_le f
  have hpos : field.length ≠ 0 := by simpa using hk0
  have hsize : (bytesToUintLittleEndian field).toInt64.toInt = payload.length := by
    rw [toInt_bytesToUintLittleEndian (by omega), hv]
  -- the three slices, cut at the ends of the flags, the size field and the payload
  have hfield : GoSlice.slice (f :: field ++ payload ++ padding ++ rest) 1 (1 + field.length) =
      field := by
    simpa [List.append_assoc] using GoSlice.slice_middle [f] field (payload ++ padding ++ rest)
  have hpayload : GoSlice.slice (f :: field ++ payload ++ padding ++ rest) (1 + field.length)
      (1 + field.length + payload.length) = payload := by
    simpa [List.append_assoc, Nat.add_comm] using
      GoSlice.slice_middle (f :: field) payload (padding ++ rest)
  have hpadding : GoSlice.slice (f :: field ++ payload ++ padding ++ rest)
      (1 + field.length + payload.length) (1 + field.length + payload.length + padding.length) =
      padding := by
    have h := GoSlice.slice_middle (f :: field ++ payload) padding rest
    simp only [List.length_append, List.length_cons, List.append_assoc, List.cons_append] at h ⊢
    rwa [show 1 + field.length + payload.length = field.length + payload.length + 1 by omega]
  have hlen : (f :: field ++ payload ++ padding ++ rest).length =
      1 + field.length + payload.length + padding.length + rest.length := by
    simp only [List.length_append, List.length_cons]
    omega
  have hflags : (f :: field ++ payload ++ padding ++ rest).getD 0 0 = f := rfl
  simp only [parseFields, hflags, hk]
  rw [if_pos hpos, GoSlice.sliceChecked_of_le (l := 1) (h := 1 + field.length) (by simp) (by simp)
    (by omega) (by omega), hfield]
  dsimp only
  rw [hsize, if_neg (by omega),
    GoSlice.sliceChecked_of_le (l := 1 + field.length) (h := 1 + field.length + payload.length)
      (by simp) (by simp) (by omega) (by omega), hpayload]
  dsimp only
  rw [GoSlice.sliceChecked_of_le (l := 1 + field.length + payload.length)
      (h := 1 + field.length + payload.length + padding.length) (by simp) rfl (by omega)
      (by omega), hpadding]

/-- `ValidateAndParse` on an unsigned frame: the fields up to its end. -/
theorem validateAndParse_unsigned {K : Type} (crypto : Crypto K) {f : UInt8} {body : List UInt8}
    (hf : isMessageSigned f = false) :
    validateAndParse crypto (f :: body) = parseFields (f :: body) ((1 + body.length : Nat) : Int)
      none := by
  simp only [validateAndParse, List.getD_cons_zero, hf, List.length_cons]
  rw [if_neg (by omega)]
  simp [Nat.add_comm]

/-- `ValidateAndParse` on a signed frame whose signature gives a key: the fields up to the
signature. -/
theorem validateAndParse_signed {K : Type} (crypto : Crypto K) {f : UInt8}
    {body signature : List UInt8} {src : K} (hf : isMessageSigned f = true) (hbody : body ≠ [])
    (hlen : signature.length = signatureLength)
    (hsrc : crypto.sigToPub (f :: body) signature = some src) :
    validateAndParse crypto (f :: body ++ signature) =
      parseFields (f :: body ++ signature) ((1 + body.length : Nat) : Int)
        (some (signature, src)) := by
  have hpos : body.length ≠ 0 := by simpa using hbody
  have hstop : ((f :: body ++ signature).length : Int) - signatureLength =
      ((1 + body.length : Nat) : Int) := by
    simp only [List.length_append, List.length_cons, hlen]
    omega
  have hflags : (f :: body ++ signature).getD 0 0 = f := rfl
  have hcut : (1 + body.length : Nat) = (f :: body).length := by simp [Nat.add_comm]
  simp only [validateAndParse, hflags, hf, hstop, if_true]
  rw [if_neg (by simp only [List.length_append, List.length_cons]; omega), if_neg (by omega),
    Int.toNat_natCast, hcut,
    List.drop_left, List.take_left, hsrc]

/-- **A frame `NewSentMessage` built parses back**, unsigned: the payload, and the padding
given or the padding drawn, which fills the frame to a multiple of `padSizeLimit`. -/
theorem validateAndParse_newSentMessage {K : Type} (crypto : Crypto K) {params : MessageParams}
    {rand raw : List UInt8} (hunsigned : params.signed = false)
    (hlen : params.payload.length < 2 ^ 24) (h : newSentMessage params rand = .ok raw) :
    ∃ pad, validateAndParse crypto raw = .valid ⟨some params.payload, pad, none⟩ ∧
      (params.padding ≠ [] → pad = params.padding) ∧
      (params.padding = [] → 0 < raw.length ∧ raw.length % padSizeLimit = 0) := by
  obtain ⟨pad, rfl, hgiven, hfill⟩ := newSentMessage_eq (by omega) h
  obtain ⟨h1, h3, hfield, hv⟩ := sizeField_reads hlen
  obtain ⟨⟨hk, hf⟩, -⟩ := flags_fieldSize h1 h3
  have hframe := @parseFields_frame K _ _ _ pad [] none (hk.trans hfield.symm)
    (List.ne_nil_of_length_pos (by omega)) hv
  rw [List.append_nil] at hframe
  refine ⟨pad, ?_, hgiven, fun h0 => ⟨by simp, ?_⟩⟩
  · simp only [List.cons_append]
    rw [validateAndParse_unsigned crypto hf, ← hframe]
    simp only [List.length_append, hfield, Nat.add_assoc]
    rfl
  · have := hfill h0
    simp only [hunsigned, Bool.false_eq_true, if_false, padSizeLimit] at this
    simp only [List.length_cons, List.length_append, hfield, padSizeLimit]
    omega

/-- The frame of payload `[1, 2, 3]` with padding `[9]` parses back to them. -/
theorem validateAndParse_newSentMessage_given_padding :
    validateAndParse (⟨fun _ => none, fun _ _ => none⟩ : Crypto Unit) [1, 3, 1, 2, 3, 9] =
      .valid ⟨some [1, 2, 3], [9], none⟩ := by
  have h : newSentMessage ⟨[1, 2, 3], [9], false⟩ [] = .ok [1, 3, 1, 2, 3, 9] := by decide
  obtain ⟨pad, hv, hgiven, -⟩ := validateAndParse_newSentMessage ⟨fun _ => none, fun _ _ => none⟩ rfl (by decide) h
  rw [hv, hgiven (by decide)]

/-- **A signed frame parses back**: when a signature has `signatureLength` bytes and gives
back a key, the payload, the padding given or drawn, and the signature; with a drawn
padding, the frame and its signature fill a multiple of `padSizeLimit`. -/
theorem validateAndParse_sign_newSentMessage {K : Type} (crypto : Crypto K)
    (hcrypto : ∀ m s, crypto.sign m = some s →
      s.length = signatureLength ∧ ∃ src, crypto.sigToPub m s = some src)
    {params : MessageParams} {rand raw signed : List UInt8} (hsigned : params.signed = true)
    (hlen : params.payload.length < 2 ^ 24) (h : newSentMessage params rand = .ok raw)
    (hsign : sign crypto raw = .ok signed) :
    ∃ pad signature src, validateAndParse crypto signed =
        .valid ⟨some params.payload, pad, some (signature, src)⟩ ∧
      (params.padding ≠ [] → pad = params.padding) ∧
      (params.padding = [] → 0 < signed.length ∧ signed.length % padSizeLimit = 0) := by
  obtain ⟨pad, rfl, hgiven, hfill⟩ := newSentMessage_eq (by omega) h
  obtain ⟨h1, h3, hfield, hv⟩ := sizeField_reads hlen
  obtain ⟨⟨-, hf⟩, hk, hf'⟩ := flags_fieldSize h1 h3
  simp only [List.cons_append] at hsign
  obtain ⟨signature, hs, rfl⟩ := sign_eq hf hsign
  obtain ⟨hslen, src, hsrc⟩ := hcrypto _ _ hs
  have hbody : (lowBytes params.payload.length (byteLen params.payload.length)).reverse ++
      params.payload ++ pad ≠ [] :=
    List.ne_nil_of_length_pos (by simp only [List.length_append, hfield]; omega)
  have hframe := @parseFields_frame K _ _ _ pad signature (some (signature, src))
    (hk.trans hfield.symm) (List.ne_nil_of_length_pos (by omega)) hv
  refine ⟨pad, signature, src, ?_, hgiven, fun h0 => ⟨by simp, ?_⟩⟩
  · rw [validateAndParse_signed crypto hf' hbody hslen hsrc, ← hframe]
    simp only [List.length_append, hfield, Nat.add_assoc]
    rfl
  · have := hfill h0
    simp only [hsigned, if_true, padSizeLimit, signatureLength] at this hslen
    simp only [List.length_cons, List.length_append, hfield, hslen, padSizeLimit]
    omega

/-- The signed frame of payload `[1, 2, 3]` with padding `[9]` parses back to them, with its
signature. -/
theorem validateAndParse_sign_newSentMessage_given_padding :
    ∃ signature src, validateAndParse
        (⟨fun _ => some (List.replicate 65 0), fun _ _ => some ()⟩ : Crypto Unit)
        ([5, 3, 1, 2, 3, 9] ++ List.replicate 65 0) = .valid ⟨some [1, 2, 3], [9], some (signature, src)⟩ := by
  have h : newSentMessage ⟨[1, 2, 3], [9], true⟩ [] = .ok [1, 3, 1, 2, 3, 9] := by decide
  have hsign : sign (⟨fun _ => some (List.replicate 65 0), fun _ _ => some ()⟩ : Crypto Unit)
      [1, 3, 1, 2, 3, 9] = .ok ([5, 3, 1, 2, 3, 9] ++ List.replicate 65 0) := by decide
  obtain ⟨pad, signature, src, hv, hgiven, -⟩ := validateAndParse_sign_newSentMessage _
    (fun _ _ hs => by
      cases hs
      exact ⟨rfl, (), rfl⟩) rfl (by decide) h hsign
  rw [hgiven (by decide)] at hv
  exact ⟨signature, src, hv⟩

/-! ### The size check -/

/-- **`ValidateAndParse` panics on a frame whose size passes the check but runs past the
end.** The check `payloadSize+1 > end` lets through any size up to `end - 1`, while the
payload starts after the size field: a size of more than what follows the size field, but
at most that and the size field together, cuts the payload past the end of `Raw`. -/
theorem validateAndParse_panics {K : Type} (crypto : Crypto K) {f : UInt8}
    {field rest : List UInt8} (hunsigned : isMessageSigned f = false)
    (hk : (f &&& sizeMask).toNat = field.length) (hk0 : field ≠ [])
    (hpast : rest.length < value field.reverse)
    (hpass : value field.reverse ≤ field.length + rest.length) :
    validateAndParse crypto (f :: field ++ rest) = .panic := by
  have h3 : field.length ≤ 3 := hk ▸ toNat_and_sizeMask_le f
  have hpos : field.length ≠ 0 := by simpa using hk0
  have hsize : (bytesToUintLittleEndian field).toInt64.toInt = value field.reverse :=
    toInt_bytesToUintLittleEndian (by omega)
  have hfield : GoSlice.slice (f :: field ++ rest) 1 (1 + field.length) = field := by
    simpa [List.append_assoc] using GoSlice.slice_middle [f] field rest
  have hlen : (f :: field ++ rest).length = 1 + field.length + rest.length := by
    simp only [List.length_append, List.length_cons]
    omega
  have hflags : (f :: field ++ rest).getD 0 0 = f := rfl
  simp only [List.cons_append]
  rw [validateAndParse_unsigned crypto hunsigned, ← List.cons_append]
  simp only [parseFields, hflags, hk]
  rw [if_pos hpos, GoSlice.sliceChecked_of_le (l := 1) (h := 1 + field.length) (by simp) (by simp)
    (by omega) (by omega), hfield]
  dsimp only
  -- the check passes, and the payload's slice ends past the end of the frame
  rw [hsize, if_neg (by simp only [List.length_append]; omega),
    GoSlice.sliceChecked_of_length_lt (by omega)]

/-- The frame `[0x01, 0x02, 0xAA]`: a size field of one byte that says two, and one byte
after it. -/
theorem validateAndParse_panics_short_frame :
    (isMessageSigned 1 = false ∧ ((1 : UInt8) &&& sizeMask).toNat = [(2 : UInt8)].length ∧
      [(2 : UInt8)] ≠ [] ∧ [(0xAA : UInt8)].length < value [(2 : UInt8)].reverse ∧
      value [(2 : UInt8)].reverse ≤ [(2 : UInt8)].length + [(0xAA : UInt8)].length) ∧
      validateAndParse (⟨fun _ => none, fun _ _ => none⟩ : Crypto Unit) [1, 2, 0xAA] = .panic :=
  ⟨⟨by decide, by decide, by decide, by decide, by decide⟩,
    @validateAndParse_panics Unit _ 1 [2] [0xAA] (by decide) (by decide) (by decide) (by decide)
      (by decide)⟩

end Whisper
