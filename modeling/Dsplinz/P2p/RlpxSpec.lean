import Dsplinz.P2p.Rlpx

/-!
# RLPx framing round-trips

Two ends of a connection are in step (`Rlpx.Pairs`) when the reader decrypts with the
keystream the writer encrypts with, at the same position, its ingress MAC is in the state
of the writer's egress MAC, and they share the MAC key and the snappy setting. Ends built
by `newRLPXFrameRW` from mirrored secrets are in step both ways
(`Rlpx.pairs_newRLPXFrameRW`).

* `Rlpx.readFrame_writeFrame` – the frame layer: from the bytes of a frame, the reader gets
  its content back, both MAC checks pass, and the two ends stay in step;
* `Rlpx.readMsg_writeMsg` – a message that fits (`Rlpx.Sendable`) is written, and read back
  whole; `Rlpx.readMsgs_writeMsgs` – so is every sequence of them, in order.

`WriteMsg` adds the code's and the payload's lengths as `uint32`s, so a message of
`2 ^ 32` bytes or more with its code wraps to a small frame size that passes the check
against `maxUint24`, and its header announces that small size
(`Rlpx.writeMsg_wraps_frame_size`). Below `2 ^ 32`, every message whose frame would not fit
is rejected before anything is written (`Rlpx.writeMsg_rejects_oversize`).
-/

namespace Rlpx

open Rlp ExceptState

/-! ### The frame header -/

theorem toNat_readInt24 (b₀ b₁ b₂ : UInt8) (rest : List UInt8) :
    (readInt24 (b₀ :: b₁ :: b₂ :: rest)).toNat = b₀.toNat * 2 ^ 16 + b₁.toNat * 2 ^ 8 + b₂.toNat := by
  have h₁ := b₁.toNat_lt
  have h₂ := b₂.toNat_lt
  simp only [readInt24, List.getD_cons_succ, List.getD_cons_zero, UInt32.toNat_or,
    UInt32.toNat_shiftLeft, UInt8.toNat_toUInt32, UInt32.reduceToNat, Nat.reduceMod]
  have h₀ := b₀.toNat_lt
  -- the three bytes occupy disjoint bits, so the ors are sums
  have hlow : b₁.toNat <<< 8 + b₂.toNat < 2 ^ 16 := by
    rw [Nat.shiftLeft_eq]
    omega
  rw [Nat.mod_eq_of_lt (by rw [Nat.shiftLeft_eq]; omega),
    Nat.mod_eq_of_lt (by rw [Nat.shiftLeft_eq]; omega), Nat.or_comm b₂.toNat,
    ← Nat.shiftLeft_add_eq_or_of_lt h₂, Nat.or_comm, ← Nat.shiftLeft_add_eq_or_of_lt hlow,
    Nat.shiftLeft_eq, Nat.shiftLeft_eq]
  omega

/-- `readInt24` reads back what `putInt24` stored, for every size below `2 ^ 24`. -/
theorem readInt24_putInt24 {v : UInt32} (h : v.toNat < 2 ^ 24) (rest : List UInt8) :
    readInt24 (putInt24 v ++ rest) = v := by
  apply UInt32.toNat_inj.mp
  have hbytes : (v >>> 16).toUInt8.toNat * 2 ^ 16 + (v >>> 8).toUInt8.toNat * 2 ^ 8 +
      v.toUInt8.toNat = v.toNat := by
    simp only [UInt32.toNat_toUInt8, UInt32.toNat_shiftRight, UInt32.reduceToNat, Nat.reduceMod,
      Nat.shiftRight_eq_div_pow]
    omega
  rw [putInt24, List.cons_append, List.cons_append, List.cons_append, toNat_readInt24, hbytes]

@[simp] theorem length_putInt24 (v : UInt32) : (putInt24 v).length = 3 := rfl

@[simp] theorem length_zeroHeader : zeroHeader.length = 3 := rfl

/-- The plain header is 16 bytes. -/
theorem length_header (fsize : UInt32) :
    (putInt24 fsize ++ zeroHeader ++ List.replicate 10 0).length = 16 := rfl

/-- The frame size rounded up to 16 bytes, as `ReadMsg` computes it: the size and the
padding `WriteMsg` adds. -/
theorem toNat_rsize {fsize : UInt32} (h : fsize.toNat < 2 ^ 24) :
    (if fsize % 16 > 0 then fsize + (16 - fsize % 16) else fsize).toNat =
      fsize.toNat + (padding fsize).length := by
  have hmod : (fsize % 16).toNat = fsize.toNat % 16 := UInt32.toNat_mod fsize 16
  unfold padding
  split
  · rename_i hpos
    have hlt : (fsize % 16).toNat < 16 := by omega
    have hsub : (16 - fsize % 16).toNat = 16 - (fsize % 16).toNat :=
      UInt32.toNat_sub_of_le _ _ (UInt32.le_iff_toNat_le.mpr (by simp only [UInt32.reduceToNat]; omega))
    rw [UInt32.toNat_add, hsub, List.length_replicate, Nat.mod_eq_of_lt (by omega)]
  · rw [List.length_nil, Nat.add_zero]

/-! ### The code -/

/-- `EncodeToBytes` of a code is its canonical encoding. -/
theorem encodeCode_eq (code : UInt64) : encodeCode code = encodeNat code.toNat := by
  have hsize : (Item.bytes (bigBytes code.toNat)).encode.length < 2 ^ 64 :=
    lt_of_le_of_lt (length_encodeNat_le code.toNat_lt) (by decide)
  rw [encodeCode, encodeToBytes_of_writesAs (writesAs_uint code) hsize]
  rfl

theorem length_encodeCode_le (code : UInt64) : (encodeCode code).length ≤ 9 := by
  rw [encodeCode_eq]
  exact length_encodeNat_le code.toNat_lt

/-- `rlp.Decode` of the code at the front of a frame's content: the code, with the rest of
the content left in the reader. -/
theorem run_uint_encodeCode (code : UInt64) (payload : List UInt8)
    (hlen : (encodeCode code ++ payload).length < 2 ^ 64) :
    ∃ s, run (Stream.uint 64) (Stream.newStream (encodeCode code ++ payload) true 0) = (.ok code, s) ∧
      s.input = payload := by
  rw [encodeCode_eq] at hlen ⊢
  have hfit : Stream.Fits (Stream.newStream (encodeNat code.toNat ++ payload) true 0)
      (encodeNat code.toNat).length := by
    refine ⟨fun _ htos => by simp [Stream.newStream] at htos, fun _ => ?_⟩
    change _ ≤ (UInt64.ofNat (encodeNat code.toNat ++ payload).length).toNat
    rw [UInt64.toNat_ofNat_of_lt' hlen, List.length_append]
    omega
  obtain ⟨s, hrun, hmoved, -⟩ :=
    Stream.run_uint (by decide) le_rfl (by decide) code.toNat_lt rfl rfl hfit
  rw [UInt64.ofNat_toNat] at hrun
  exact ⟨s, hrun, (List.append_cancel_left hmoved.input).symm⟩

/-! ### The stream and the MACs -/

/-- `io.ReadFull` of as many bytes as the front piece has. -/
theorem readFull_append {a : List UInt8} {n : Nat} (h : a.length = n) (rest : List UInt8) :
    readFull n (a ++ rest) = .ok (a, rest) := by
  subst h
  rw [readFull, if_pos (by simp)]
  simp

section Framing

variable (keccak : Keccak) (snappy : Snappy)

@[simp] theorem length_updateMAC (block : List UInt8 → List UInt8) (mac seed : List UInt8) :
    (updateMAC keccak block mac seed).2.length = 16 := by
  simp [updateMAC, keccak.length_sum]

/-- The writer `A` and the reader `B` are in step: `B` decrypts with the keystream `A`
encrypts with, at the same position, `B`'s ingress MAC is in the state of `A`'s egress
MAC, and the two share the MAC key and the snappy setting. -/
structure Pairs (A B : FrameRW) : Prop where
  stream : B.dec = A.enc
  hash : B.ingressMAC = A.egressMAC
  macCipher : B.macCipher = A.macCipher
  snappy : B.snappy = A.snappy

/-- The secrets of two ends mirror each other: the same AES and MAC keys, and each end's
egress MAC in the state of the other's ingress MAC. -/
structure Mirrored (s t : Secrets) : Prop where
  aes : s.aes = t.aes
  mac : s.mac = t.mac
  egress : s.egressMAC = t.ingressMAC
  ingress : s.ingressMAC = t.egressMAC

/-- **Ends built from mirrored secrets are in step, both ways**, with the same snappy
setting. -/
theorem pairs_newRLPXFrameRW {aesEncrypt : List UInt8 → List UInt8 → List UInt8} {s t : Secrets}
    {A B : FrameRW} (h : Mirrored s t) (hA : newRLPXFrameRW aesEncrypt s = some A)
    (hB : newRLPXFrameRW aesEncrypt t = some B) (sn : Bool) :
    Pairs { A with snappy := sn } { B with snappy := sn } ∧
      Pairs { B with snappy := sn } { A with snappy := sn } := by
  unfold newRLPXFrameRW at hA hB
  rcases hmacc : newCipher aesEncrypt s.mac with _ | macc <;> rw [hmacc] at hA
  · cases hA
  rcases hencc : newCipher aesEncrypt s.aes with _ | encc <;> rw [hencc] at hA
  · cases hA
  -- the other end builds the same ciphers from the same keys
  rw [← h.mac, hmacc, ← h.aes, hencc] at hB
  cases hA
  cases hB
  exact ⟨⟨rfl, h.egress.symm, rfl, rfl⟩, ⟨rfl, h.ingress, rfl, rfl⟩⟩

/-- The bytes of a frame: the 32-byte header with its MAC, the frame, its padding, and the
16-byte frame MAC. -/
theorem length_writeFrame (rw : FrameRW) (ptype payload : List UInt8) (fsize : UInt32) :
    (writeFrame keccak rw ptype payload fsize).1.length =
      48 + ptype.length + payload.length + (padding fsize).length := by
  simp only [writeFrame, List.length_append, Keystream.length_xorKeyStream, length_updateMAC,
    length_putInt24, length_zeroHeader, List.length_replicate]
  omega

/-- A frame starts with its encrypted header. -/
theorem take_writeFrame (rw : FrameRW) (ptype payload : List UInt8) (fsize : UInt32) :
    (writeFrame keccak rw ptype payload fsize).1.take 16 =
      (rw.enc.xorKeyStream (putInt24 fsize ++ zeroHeader ++ List.replicate 10 0)).1 := by
  simp only [writeFrame, List.append_assoc]
  exact List.take_left' (by simp)

/-- **The frame layer round-trips.** From the bytes `writeFrame` writes for a frame of
`fsize` bytes, the reader in step gets the frame's content and padding back, both MAC
checks pass, and the two ends stay in step. -/
theorem readFrame_writeFrame {A B : FrameRW} (hp : Pairs A B) (ptype payload : List UInt8)
    {fsize : UInt32} (hsize : fsize.toNat = ptype.length + payload.length)
    (hlt : fsize.toNat < 2 ^ 24) :
    ∃ B', Pairs (writeFrame keccak A ptype payload fsize).2 B' ∧ ∀ rest,
      readFrame keccak B ((writeFrame keccak A ptype payload fsize).1 ++ rest) =
        .ok (ptype ++ payload ++ padding fsize, fsize, B', rest) := by
  -- name what `writeFrame` computes, step by step
  rcases h₀ : A.enc.xorKeyStream (putInt24 fsize ++ zeroHeader ++ List.replicate 10 0)
    with ⟨headbuf, enc₁⟩
  rcases hm₀ : updateMAC keccak A.macCipher A.egressMAC headbuf with ⟨egress₁, headMAC⟩
  rcases h₁ : enc₁.xorKeyStream ptype with ⟨ptypeCt, enc₂⟩
  rcases h₂ : enc₂.xorKeyStream payload with ⟨payloadCt, enc₃⟩
  rcases h₃ : enc₃.xorKeyStream (padding fsize) with ⟨paddingCt, enc₄⟩
  rcases hm₁ : updateMAC keccak A.macCipher (egress₁ ++ ptypeCt ++ payloadCt ++ paddingCt)
    (keccak.sum (egress₁ ++ ptypeCt ++ payloadCt ++ paddingCt)) with ⟨egress₂, mac⟩
  have hw : writeFrame keccak A ptype payload fsize =
      (headbuf ++ headMAC ++ ptypeCt ++ payloadCt ++ paddingCt ++ mac,
        { A with enc := enc₄, egressMAC := egress₂ }) := by
    simp only [writeFrame, h₀, hm₀, h₁, h₂, h₃, hm₁]
  -- the pieces on the wire, and their lengths
  have hlen₀ : headbuf.length = 16 := Keystream.length_of_xorKeyStream h₀
  have hlenMAC : headMAC.length = 16 := by
    rw [← length_updateMAC keccak A.macCipher A.egressMAC headbuf, hm₀]
  have hlenMac : mac.length = 16 := by
    rw [← length_updateMAC keccak A.macCipher _ _, hm₁]
  have hframe : (ptypeCt ++ payloadCt ++ paddingCt).length = fsize.toNat + (padding fsize).length := by
    rw [List.length_append, List.length_append, Keystream.length_of_xorKeyStream h₁,
      Keystream.length_of_xorKeyStream h₂, Keystream.length_of_xorKeyStream h₃, hsize]
  -- the reader repeats the writer's MAC updates and undoes its encryption
  have hdec₀ : B.dec.xorKeyStream headbuf = (putInt24 fsize ++ zeroHeader ++ List.replicate 10 0, enc₁) := by
    rw [hp.stream]
    exact Keystream.xorKeyStream_undo h₀
  have hdec₁ : enc₁.xorKeyStream (ptypeCt ++ payloadCt ++ paddingCt) =
      (ptype ++ payload ++ padding fsize, enc₄) :=
    Keystream.xorKeyStream_append_of
      (Keystream.xorKeyStream_append_of (Keystream.xorKeyStream_undo h₁)
        (Keystream.xorKeyStream_undo h₂))
      (Keystream.xorKeyStream_undo h₃)
  have hfsize : readInt24 (putInt24 fsize ++ zeroHeader ++ List.replicate 10 0) = fsize := by
    rw [List.append_assoc]
    exact readInt24_putInt24 hlt _
  have hmac₁ : updateMAC keccak B.macCipher (egress₁ ++ (ptypeCt ++ payloadCt ++ paddingCt))
      (keccak.sum (egress₁ ++ (ptypeCt ++ payloadCt ++ paddingCt))) = (egress₂, mac) := by
    rw [hp.macCipher, ← hm₁]
    simp only [List.append_assoc]
  refine ⟨{ B with dec := enc₄, ingressMAC := egress₂ }, by rw [hw]; exact ⟨rfl, rfl, hp.macCipher, hp.snappy⟩,
    fun rest => ?_⟩
  have hwire : headbuf ++ headMAC ++ ptypeCt ++ payloadCt ++ paddingCt ++ mac ++ rest =
      (headbuf ++ headMAC) ++ ((ptypeCt ++ payloadCt ++ paddingCt) ++ (mac ++ rest)) := by
    simp only [List.append_assoc]
  have h32 : (headbuf ++ headMAC).length = 32 := by rw [List.length_append, hlen₀, hlenMAC]
  have hmac₀ : updateMAC keccak B.macCipher B.ingressMAC headbuf = (egress₁, headMAC) := by
    rw [hp.hash, hp.macCipher, hm₀]
  rw [hw, hwire]
  unfold readFrame
  rw [readFull_append h32]
  simp only [bind, Except.bind, List.take_left' hlen₀, List.drop_left' hlen₀, hmac₀, ne_eq,
    not_true_eq_false, if_false, hdec₀, hfsize]
  rw [toNat_rsize hlt, ← hframe, readFull_append rfl]
  simp only [readFull_append hlenMac, hmac₁, hdec₁, not_true_eq_false, if_false]
  rfl

/-! ### Messages -/

/-- The frame content `WriteMsg` sends after the code: the payload, compressed when snappy
is on. -/
def framed (sn : Bool) (msg : Msg) : List UInt8 :=
  if sn then snappy.encode msg.payload else msg.payload

/-- The frame size `WriteMsg` computes, a `uint32` sum. -/
def frameSize (sn : Bool) (msg : Msg) : UInt32 :=
  UInt32.ofNat (encodeCode msg.code).length +
    if sn then UInt32.ofNat (snappy.encode msg.payload).length else msg.size

/-- A message that `WriteMsg` frames whole: its size is its payload's length; with snappy
on, the payload is within the plain limit; and the code and the frame content fit a frame. -/
structure Sendable (sn : Bool) (msg : Msg) : Prop where
  size : msg.size.toNat = msg.payload.length
  plain : sn = true → msg.payload.length ≤ maxUint24.toNat
  fits : (encodeCode msg.code).length + (framed snappy sn msg).length ≤ maxUint24.toNat

/-- A message read back with the size of its payload is the message. -/
theorem Msg.eq_of_size {msg : Msg} (h : msg.size.toNat = msg.payload.length) :
    (⟨msg.code, UInt32.ofNat msg.payload.length, msg.payload⟩ : Msg) = msg := by
  rw [← h, UInt32.ofNat_toNat]

/-- Below `2 ^ 32`, the frame size is the sum of the code's and the frame content's
lengths. -/
theorem toNat_frameSize {sn : Bool} {msg : Msg} (hsize : msg.size.toNat = msg.payload.length)
    (h : (encodeCode msg.code).length + (framed snappy sn msg).length < 2 ^ 32) :
    (frameSize snappy sn msg).toNat = (encodeCode msg.code).length + (framed snappy sn msg).length := by
  have hs : msg.size = UInt32.ofNat msg.payload.length := by rw [← hsize, UInt32.ofNat_toNat]
  have hsum : ∀ b : List UInt8, (encodeCode msg.code).length + b.length < 2 ^ 32 →
      (UInt32.ofNat (encodeCode msg.code).length + UInt32.ofNat b.length).toNat =
        (encodeCode msg.code).length + b.length := fun b hb => by
    rw [← UInt32.ofNat_add, UInt32.toNat_ofNat_of_lt' (by rw [UInt32.size]; omega)]
  unfold frameSize
  cases sn with
  | false => exact hs ▸ hsum msg.payload h
  | true => exact hsum _ h

/-- **What `WriteMsg` does**: the plain-size check of snappy, the frame-size check, then the
frame. -/
theorem writeMsg_eq (rw : FrameRW) (msg : Msg) :
    writeMsg keccak snappy rw msg =
      if rw.snappy = true ∧ msg.size > maxUint24 then .error .plainMessageTooLarge
      else if frameSize snappy rw.snappy msg > maxUint24 then .error .sizeOverflow
      else .ok (writeFrame keccak rw (encodeCode msg.code) (framed snappy rw.snappy msg)
        (frameSize snappy rw.snappy msg)) := by
  unfold writeMsg
  cases rw.snappy with
  | false =>
    simp only [Bool.false_eq_true, false_and, if_false, pure_bind, framed, frameSize]
    rfl
  | true =>
    by_cases hplain : msg.size > maxUint24
    · simp only [hplain, and_self, if_true]
      rfl
    · simp only [hplain, and_false, if_true, if_false, pure_bind, framed, frameSize]
      rfl

/-- **A message that fits is written as one frame** of its code and its frame content. -/
theorem writeMsg_of_sendable {rw : FrameRW} {msg : Msg} (hm : Sendable snappy rw.snappy msg) :
    writeMsg keccak snappy rw msg = .ok (writeFrame keccak rw (encodeCode msg.code)
      (framed snappy rw.snappy msg) (frameSize snappy rw.snappy msg)) := by
  have hmax : maxUint24.toNat = 2 ^ 24 - 1 := rfl
  have hfits := hm.fits
  -- neither check fires
  have hplain : ¬ (rw.snappy = true ∧ msg.size > maxUint24) := fun ⟨hsn, hgt⟩ => by
    rw [gt_iff_lt, UInt32.lt_iff_toNat_lt, hm.size] at hgt
    exact Nat.not_lt.mpr (hm.plain hsn) hgt
  have hfsize : ¬ frameSize snappy rw.snappy msg > maxUint24 := by
    rw [gt_iff_lt, UInt32.lt_iff_toNat_lt, toNat_frameSize snappy hm.size (by omega)]
    omega
  rw [writeMsg_eq, if_neg hplain, if_neg hfsize]

@[simp] theorem snappy_writeFrame (rw : FrameRW) (ptype payload : List UInt8) (fsize : UInt32) :
    (writeFrame keccak rw ptype payload fsize).2.snappy = rw.snappy := rfl

variable {snappy}

/-- **A message that fits round-trips.** It is written, and from the bytes, whatever
follows them, the reader in step reads back its code, size and payload, with both MAC
checks passed, and the two ends stay in step. -/
theorem readMsg_writeMsg (hsn : snappy.RoundTrips) {A B : FrameRW} (hp : Pairs A B) {msg : Msg}
    (hm : Sendable snappy A.snappy msg) :
    ∃ out A' B', writeMsg keccak snappy A msg = .ok (out, A') ∧ A'.snappy = A.snappy ∧
      Pairs A' B' ∧ ∀ rest, readMsg keccak snappy B (out ++ rest) = .ok (msg, B', rest) := by
  have hmax : maxUint24.toNat = 2 ^ 24 - 1 := rfl
  have hfits := hm.fits
  have hcode := length_encodeCode_le msg.code
  -- the frame: the code, then the frame content
  have hfs : (frameSize snappy A.snappy msg).toNat = _ := toNat_frameSize snappy hm.size (by omega)
  obtain ⟨B', hp', hread⟩ := readFrame_writeFrame keccak hp (encodeCode msg.code)
    (framed snappy A.snappy msg) hfs (by rw [hfs]; omega)
  obtain ⟨s, hrun, hs⟩ := run_uint_encodeCode msg.code (framed snappy A.snappy msg)
    (by rw [List.length_append]; omega)
  refine ⟨(writeFrame keccak A (encodeCode msg.code) (framed snappy A.snappy msg)
      (frameSize snappy A.snappy msg)).1,
    (writeFrame keccak A (encodeCode msg.code) (framed snappy A.snappy msg)
      (frameSize snappy A.snappy msg)).2,
    B', writeMsg_of_sendable keccak snappy hm, snappy_writeFrame keccak A _ _ _, hp', fun rest => ?_⟩
  have hB' : B'.snappy = A.snappy := hp'.snappy.trans (snappy_writeFrame keccak A _ _ _)
  unfold readMsg
  rw [hread]
  simp only [bind, Except.bind]
  rw [List.take_left' (by rw [List.length_append, hfs])]
  simp only [hrun, hB']
  cases hA : A.snappy with
  | false =>
    simp only [hA, framed, Bool.false_eq_true, if_false] at hs ⊢
    rw [hs, Msg.eq_of_size hm.size]
    rfl
  | true =>
    -- snappy gives back the payload it compressed
    have hplain := hm.plain hA
    obtain ⟨hlen, hdec⟩ := hsn msg.payload hplain
    simp only [hA, framed, if_true] at hs ⊢
    simp only [hs, hlen, hdec, Except.mapError, Nat.not_lt.mpr hplain, if_false]
    rw [Msg.eq_of_size hm.size]
    rfl

/-- **Every sequence of messages that fit round-trips**: `WriteMsg` writes them all, and
as many `ReadMsg` calls of the reader in step read them back in order from the bytes,
whatever follows them; the two ends stay in step. -/
theorem readMsgs_writeMsgs (hsn : snappy.RoundTrips) :
    ∀ (msgs : List Msg) {A B : FrameRW}, Pairs A B → (∀ msg ∈ msgs, Sendable snappy A.snappy msg) →
      ∃ out A' B', writeMsgs keccak snappy A msgs = .ok (out, A') ∧ Pairs A' B' ∧
        ∀ rest, readMsgs keccak snappy B msgs.length (out ++ rest) = .ok (msgs, B', rest)
  | [], A, B, hp, _ => ⟨[], A, B, rfl, hp, fun _ => rfl⟩
  | msg :: msgs, A, B, hp, hall => by
    obtain ⟨out, A₁, B₁, hw, hsn₁, hp₁, hread⟩ :=
      readMsg_writeMsg keccak hsn hp (hall msg List.mem_cons_self)
    have hall₁ : ∀ m ∈ msgs, Sendable snappy A₁.snappy m := fun m hmem => by
      rw [hsn₁]
      exact hall m (List.mem_cons_of_mem msg hmem)
    obtain ⟨outs, A₂, B₂, hws, hp₂, hreads⟩ := readMsgs_writeMsgs hsn msgs hp₁ hall₁
    refine ⟨out ++ outs, A₂, B₂, ?_, hp₂, fun rest => ?_⟩
    · simp only [writeMsgs, hw, hws, bind, Except.bind, pure, Except.pure]
    · simp only [readMsgs, List.length_cons, List.append_assoc, hread, hreads, bind, Except.bind,
        pure, Except.pure]

/-- A Keccak for the runs below: any function with 32-byte digests will do. -/
def zeroKeccak : Keccak := ⟨fun _ => List.replicate 32 0, fun _ => List.length_replicate⟩

/-- A snappy that leaves a payload as it is, for the runs below; they have it off. -/
def plainSnappy : Snappy := ⟨id, fun b => .ok b.length, .ok⟩

/-- A writer with snappy off, of any keys. -/
def idleFrameRW : FrameRW := ⟨⟨fun _ => 0, 0⟩, ⟨fun _ => 0, 0⟩, id, [], [], false⟩

/-- A writer reads back its own message of code `1` with a payload of two bytes. -/
theorem readMsgs_writeMsgs_idle :
    ∃ out A' B', writeMsgs zeroKeccak plainSnappy idleFrameRW [⟨1, 2, [7, 8]⟩] = .ok (out, A') ∧
      Pairs A' B' ∧ ∀ rest, readMsgs zeroKeccak plainSnappy idleFrameRW 1 (out ++ rest) =
        .ok ([⟨1, 2, [7, 8]⟩], B', rest) :=
  readMsgs_writeMsgs zeroKeccak (fun _ _ => ⟨rfl, rfl⟩) [⟨1, 2, [7, 8]⟩] ⟨rfl, rfl, rfl, rfl⟩
    fun msg hmsg => by
      rw [List.mem_singleton] at hmsg
      rw [hmsg]
      exact ⟨rfl, fun h => absurd h Bool.false_ne_true, by decide⟩

/-! ### Messages that do not fit -/

/-- **`WriteMsg` wraps the frame size.** Without snappy, a message whose code and payload
sizes add up to `2 ^ 32` or more is not rejected: the `uint32` sum wraps to a size that
passes the check against `maxUint24`, the whole frame is written, and its header announces
the wrapped size. -/
theorem writeMsg_wraps_frame_size (rw : FrameRW) (msg : Msg) (hsn : rw.snappy = false)
    (hwrap : 2 ^ 32 ≤ (encodeCode msg.code).length + msg.size.toNat) :
    ∃ out rw', writeMsg keccak snappy rw msg = .ok (out, rw') ∧
      (encodeCode msg.code ++ msg.payload).length < out.length ∧
      (readInt24 (rw.enc.xorKeyStream (out.take 16)).1).toNat =
        (encodeCode msg.code).length + msg.size.toNat - 2 ^ 32 := by
  have hcode := length_encodeCode_le msg.code
  have hsize := msg.size.toNat_lt
  -- the sum wraps to at most eight bytes
  have hfsize : (frameSize snappy false msg).toNat =
      (encodeCode msg.code).length + msg.size.toNat - 2 ^ 32 := by
    rw [frameSize, if_neg Bool.false_ne_true, UInt32.toNat_add,
      UInt32.toNat_ofNat_of_lt' (by rw [UInt32.size]; omega)]
    omega
  have hpass : ¬ frameSize snappy false msg > maxUint24 := by
    rw [gt_iff_lt, UInt32.lt_iff_toNat_lt, hfsize]
    change ¬ 16777215 < _
    omega
  have hw : writeMsg keccak snappy rw msg =
      .ok (writeFrame keccak rw (encodeCode msg.code) msg.payload (frameSize snappy false msg)) := by
    rw [writeMsg_eq, hsn, if_neg (by simp), if_neg hpass]
    rfl
  refine ⟨(writeFrame keccak rw (encodeCode msg.code) msg.payload (frameSize snappy false msg)).1,
    (writeFrame keccak rw (encodeCode msg.code) msg.payload (frameSize snappy false msg)).2, hw, ?_, ?_⟩
  · rw [length_writeFrame, List.length_append]
    omega
  · -- the peer in step decrypts the header `putInt24` wrote with the wrapped size
    rw [take_writeFrame, Keystream.xorKeyStream_xorKeyStream, List.append_assoc,
      readInt24_putInt24 (by rw [hfsize]; omega), hfsize]

/-- Code `0` with a payload of `2 ^ 32 - 1` bytes: a frame of `2 ^ 32` bytes, whose header
announces none. -/
theorem writeMsg_wraps_frame_size_at_4GiB :
    idleFrameRW.snappy = false ∧ 2 ^ 32 ≤ (encodeCode 0).length + (4294967295 : UInt32).toNat ∧
      ∃ out rw', writeMsg zeroKeccak plainSnappy idleFrameRW
          ⟨0, 4294967295, List.replicate 4294967295 0⟩ = .ok (out, rw') ∧
        (encodeCode 0 ++ List.replicate 4294967295 0).length < out.length ∧
        (readInt24 (idleFrameRW.enc.xorKeyStream (out.take 16)).1).toNat =
          (encodeCode 0).length + (4294967295 : UInt32).toNat - 2 ^ 32 :=
  ⟨rfl, by decide, writeMsg_wraps_frame_size zeroKeccak idleFrameRW
    ⟨0, 4294967295, List.replicate 4294967295 0⟩ rfl (by decide)⟩

/-- Below `2 ^ 32`, **a message whose frame would not fit is rejected before anything is
written**: a plain payload over `maxUint24` with snappy on, or code and frame content over
`maxUint24` together. -/
theorem writeMsg_rejects_oversize (rw : FrameRW) (msg : Msg)
    (hsize : msg.size.toNat = msg.payload.length)
    (hover : (rw.snappy = true ∧ maxUint24.toNat < msg.payload.length) ∨
      maxUint24.toNat < (encodeCode msg.code).length + (framed snappy rw.snappy msg).length)
    (hnowrap : (encodeCode msg.code).length + (framed snappy rw.snappy msg).length < 2 ^ 32) :
    writeMsg keccak snappy rw msg = .error .plainMessageTooLarge ∨
      writeMsg keccak snappy rw msg = .error .sizeOverflow := by
  rw [writeMsg_eq]
  by_cases hplain : rw.snappy = true ∧ msg.size > maxUint24
  · exact .inl (if_pos hplain)
  · -- the plain payload passes, so the frame is too large
    right
    have hover' : maxUint24.toNat < (encodeCode msg.code).length + (framed snappy rw.snappy msg).length := by
      rcases hover with ⟨hsn, hgt⟩ | hgt
      · rw [gt_iff_lt, UInt32.lt_iff_toNat_lt, hsize] at hplain
        exact absurd ⟨hsn, hgt⟩ hplain
      · exact hgt
    have hfsize : frameSize snappy rw.snappy msg > maxUint24 := by
      rw [gt_iff_lt, UInt32.lt_iff_toNat_lt, toNat_frameSize snappy hsize hnowrap]
      exact hover'
    rw [if_neg hplain, if_pos hfsize]

end Framing

end Rlpx
