import Dsplinz.Lib.GoSort
import Dsplinz.Lib.PanicState
import Dsplinz.Rlp.Stream
import Dsplinz.Rlp.Encbuf

/-!
# Node records

`p2p/enr/enr.go` keeps a node record: a sequence number, a signature, the signed
encoding, and key/value pairs sorted by key. Every mutator goes through `invalidate`,
which drops the signature, and the comments of `Set` and `SetSeq` say what the sequence
number is for: *setting any key in a signed record increments the sequence number*, so
that of two signed versions of a record peers keep the one with the greater number.

`invalidate` tests the signature the other way round: it increments the number when the
record is **unsigned**. Setting a key in a signed record keeps its number, and signing it
again gives a second signed version, with other pairs, under the same number.

* `Enr.run_set` – what `Set` does: a record signed before keeps its sequence number;
* `Enr.run_setSig_ok`, `Enr.run_setSig_error` – signing changes only the signature and
  the encoding, and a failed signing changes nothing;
* `Enr.resign_keeps_seq` – hence a signed record, changed by `Set` and signed again, is
  signed with the same sequence number;
* `Enr.resign_same_seq_run` – a run from the empty record that ends with two signed
  versions of different pairs under one sequence number.

Go strings are byte strings, compared byte by byte; they are `List UInt8` here, with the
lexicographic order of lists, which is Go's order of strings. A Go byte slice that may be
nil (the signature) is an `Option`.
-/

namespace Enr

open PanicState

/-- `SizeLimit`: the maximum encoded size of a node record in bytes. -/
def sizeLimit : Nat := 300

/-- The errors of the package, and those it passes on from the encoder and the identity
schemes. -/
inductive Error where
  | noID
  | invalidSig
  | notSorted
  | duplicateKey
  | incompletePair
  | tooBig
  | encodeUnsigned
  | notFound
  /-- An error of the RLP decoder. -/
  | rlp (err : Rlp.Error)
  /-- An error of the RLP encoder or of an identity scheme, by its text. -/
  | other (msg : String)
  deriving DecidableEq, Repr

/-- `KeyError`: an error of `Load`, with the key it was loading. -/
structure KeyError where
  key : List UInt8
  err : Error
  deriving DecidableEq, Repr

/-- The panics of the package. -/
inductive Panic where
  /-- `Set`: "enr: can't encode %s: %v". -/
  | encode (key : List UInt8) (msg : String)
  /-- An index out of range in the encoder's output buffer. -/
  | runtime
  /-- `SetSig` on a record without a known identity scheme: `errNoID`. -/
  | noID
  /-- `SetSig`: "identity scheme mismatch in Sign: record has %s, want %s". -/
  | schemeMismatch (id want : List UInt8)
  deriving DecidableEq, Repr

/-- `pair`: a key and its RLP-encoded value. -/
structure Pair where
  k : List UInt8
  v : List UInt8
  deriving DecidableEq, Repr

/-- `Record`. A nil signature, which makes the record unsigned, is `none`. -/
structure Record where
  seq : UInt64
  signature : Option (List UInt8)
  raw : List UInt8
  pairs : List Pair
  deriving DecidableEq, Repr

/-- The zero value of `Record`: an empty record. -/
def Record.empty : Record := ⟨0, none, [], []⟩

/-- An `Entry`: its key, and the Go value its RLP encoding is written from. -/
structure Entry where
  key : List UInt8
  value : Rlp.Value

/-- An `IdentityScheme`: it verifies record signatures and derives node addresses. -/
structure IdentityScheme where
  verify : Record → Option (List UInt8) → Except Error Unit
  nodeAddr : Record → List UInt8

/-- The methods of a record with a pointer receiver: they change the record, return a Go
error, or panic. -/
abbrev RecordM := PanicState.M Record Error Panic

/-- The key `"id"` of the entry `ID`. -/
def idKey : List UInt8 := [0x69, 0x64]

/-- `rlp.DecodeBytes(b, &s)` into a Go string: `decodeString` reads `s.Bytes()`, and the
input must hold nothing more. -/
def decodeString (b : List UInt8) : Except Rlp.Error (List UInt8) :=
  match ExceptState.run Rlp.Stream.bytes
      (Rlp.Stream.newStream b true (UInt64.ofNat b.length)) with
  | (.error err, _) => .error err
  | (.ok v, s) => if s.input.length > 0 then .error .moreThanOneValue else .ok v

namespace Record

/-- `Signed`. -/
def signed (r : Record) : Bool := r.signature.isSome

/-- The index `sort.Search` finds for `key` in `pairs`: the first pair whose key is not
below `key`. -/
def searchKey (pairs : List Pair) (key : List UInt8) : Nat :=
  GoSort.search pairs.length fun i => decide (key ≤ (pairs.getD i ⟨[], []⟩).k)

/-- `Load`: the value of `key`, decoded with `dec`. -/
def load {α : Type} (r : Record) (key : List UInt8) (dec : List UInt8 → Except Rlp.Error α) :
    Except KeyError α :=
  match r.pairs[searchKey r.pairs key]? with
  | some p =>
    if p.k = key then (dec p.v).mapError fun err => ⟨key, .rlp err⟩
    else .error ⟨key, .notFound⟩
  | none => .error ⟨key, .notFound⟩

/-- `SetSeq`. -/
def setSeq (s : UInt64) : RecordM Unit :=
  modify fun r => { r with signature := none, raw := [], seq := s }

/-- `invalidate`: drop the signature, and increment the sequence number if there was
**no** signature. -/
def invalidate : RecordM Unit :=
  modify fun r =>
    { r with seq := if r.signature = none then r.seq + 1 else r.seq, signature := none,
             raw := [] }

/-- The pairs `Set` builds from a copy of `pairs`: the value of `key` replaced, or the
pair inserted before the first greater key, or appended. -/
def insertPair (pairs : List Pair) (key blob : List UInt8) : List Pair :=
  let i := searchKey pairs key
  if i < pairs.length ∧ (pairs.getD i ⟨[], []⟩).k = key then
    pairs.modify i fun p => { p with v := blob }
  else if i < pairs.length then pairs.insertIdx i ⟨key, blob⟩
  else pairs ++ [⟨key, blob⟩]

/-- `rlp.EncodeToBytes(e)`, whose failure `Set` turns into a panic. -/
def encodeEntry (e : Entry) : Except Panic (List UInt8) :=
  match Rlp.encodeToBytes e.value with
  | .error err => .error (.encode e.key err)
  | .ok none => .error .runtime
  | .ok (some blob) => .ok blob

/-- `Set`. -/
def set (e : Entry) : RecordM Unit := do
  let blob ← liftPanic (encodeEntry e)
  invalidate
  modify fun r => { r with pairs := insertPair r.pairs e.key blob }

/-- `AppendElements`: the sequence number, then every key and value. -/
def appendElements (r : Record) : List Rlp.Value :=
  .uint r.seq :: r.pairs.flatMap fun p => [.string p.k, .raw p.v]

/-- `encode(sig)`: the signed record's encoding, at most `SizeLimit` bytes. -/
def encode (sig : Option (List UInt8)) : RecordM (List UInt8) := do
  let r ← get
  match Rlp.encodeToBytes (.list (.bytes (sig.getD []) :: r.appendElements)) with
  | .error err => throw (.other err)
  | .ok none => abort .runtime
  | .ok (some raw) => if raw.length > sizeLimit then throw .tooBig else pure raw

section Schemes

-- the registry of identity schemes, by name
variable (schemes : List UInt8 → Option IdentityScheme)

/-- `idScheme`: the name in the `"id"` entry and the scheme registered under it. -/
def idScheme (r : Record) : List UInt8 × Option IdentityScheme :=
  match r.load idKey decodeString with
  | .error _ => ([], none)
  | .ok id => (id, schemes id)

/-- `SetSig`. -/
def setSig (idscheme : List UInt8) (sig : Option (List UInt8)) : RecordM Unit := do
  let r ← get
  match idScheme schemes r with
  | (_, none) => abort .noID
  | (id, some s) =>
    if id ≠ idscheme then abort (.schemeMismatch id idscheme)
    PanicState.ofExcept (s.verify r sig)
    let raw ← encode sig
    modify fun r => { r with signature := sig, raw := raw }

end Schemes

/-! ### Encoding and decoding -/

/-- `EncodeRLP`, whose output `rlp.EncodeToBytes(r)` returns as it is: the signed
encoding; an unsigned record fails. -/
def encodeRLP (r : Record) : Except Error (List UInt8) :=
  if !r.signed then .error .encodeUnsigned else .ok r.raw

/-- `DecodeRLP` reads a stream, and fails with an error of the package or of the stream. -/
abbrev DecodeM := ExceptT Error (StateM Rlp.Stream)

/-- A method of the stream, whose error is passed on. -/
def stream {α : Type} (m : Rlp.StreamM α) : DecodeM α :=
  ExceptT.mk fun s =>
    let (r, s') := ExceptState.run m s
    (r.mapError .rlp, s')

/-- The loop of `DecodeRLP` over the pairs: a key (`Decode` into a `string`) and its raw
value, until `EOL`. From the second pair on, the key must be above the one before. `fuel`
bounds the number of pairs. -/
def decodePairs : Nat → Nat → List UInt8 → DecodeM (List Pair)
  | 0, _, _ => throw (.rlp .outOfFuel)
  | fuel + 1, i, prevkey => do
    match ← stream (ExceptState.attempt Rlp.Stream.bytes) with
    | .error .eol => pure []
    | .error err => throw (.rlp err)
    | .ok k =>
      match ← stream (ExceptState.attempt Rlp.Stream.raw) with
      | .error .eol => throw .incompletePair
      | .error err => throw (.rlp err)
      | .ok v =>
        if i > 0 ∧ k = prevkey then throw .duplicateKey
        else if i > 0 ∧ k < prevkey then throw .notSorted
        else
          let rest ← decodePairs fuel (i + 1) k
          pure (⟨k, v⟩ :: rest)

/-- The record container in `raw`, read by `DecodeRLP` from a stream of its own: the
signature (`Decode` into a `[]byte`, never nil), the sequence number (into a `uint64`),
the pairs, the end of the list. -/
def decodeContainer (raw : List UInt8) : DecodeM Record := do
  let _ ← stream Rlp.Stream.list
  let signature ← stream Rlp.Stream.bytes
  let seq ← stream (Rlp.Stream.uint 64)
  let pairs ← decodePairs raw.length 0 []
  stream Rlp.Stream.listEnd
  pure ⟨seq, some signature, raw, pairs⟩

section Schemes

variable (schemes : List UInt8 → Option IdentityScheme)

/-- `DecodeRLP`: the value whole, at most `SizeLimit` bytes, read as a record, whose
identity scheme must verify its signature. -/
def decodeRLP : DecodeM Record := do
  let raw ← stream Rlp.Stream.raw
  if raw.length > sizeLimit then throw .tooBig
  match (ExceptState.run (decodeContainer raw)
      (Rlp.Stream.newStream raw true (UInt64.ofNat raw.length))).1 with
  | .error err => throw err
  | .ok dec =>
    match (idScheme schemes dec).2 with
    | none => throw .noID
    | some scheme =>
      match scheme.verify dec dec.signature with
      | .error err => throw err
      | .ok () => pure dec

/-- `rlp.DecodeBytes(b, &r)` into a record: `DecodeRLP` on a stream over `b`, which must
hold nothing more. -/
def decodeBytes (b : List UInt8) : Except Error Record :=
  match ExceptState.run (decodeRLP schemes)
      (Rlp.Stream.newStream b true (UInt64.ofNat b.length)) with
  | (.error err, _) => .error err
  | (.ok r, s) => if s.input.length > 0 then .error (.rlp .moreThanOneValue) else .ok r

end Schemes

/-! ### What the mutators do -/

theorem run_invalidate (r : Record) :
    run invalidate r = .ok (.ok (), { r with
      seq := if r.signature = none then r.seq + 1 else r.seq, signature := none, raw := [] }) :=
  rfl

theorem run_set (e : Entry) (r : Record) :
    run (set e) r = (encodeEntry e).map fun blob => (.ok (), { r with
      seq := if r.signature = none then r.seq + 1 else r.seq, signature := none, raw := [],
      pairs := insertPair r.pairs e.key blob }) := by
  cases h : encodeEntry e with
  | error p => simp [set, run_bind, h, Except.map]
  | ok blob => simp [set, run_bind, h, run_invalidate, Except.map]

/-- `Set` on a signed record leaves it unsigned under the same sequence number. -/
theorem set_seq_of_signed {e : Entry} {r r' : Record} (hs : r.signed)
    (h : run (set e) r = .ok (.ok (), r')) :
    r'.seq = r.seq ∧ r'.signature = none ∧ ∃ blob, r'.pairs = insertPair r.pairs e.key blob := by
  have hsig : r.signature ≠ none := by simpa [signed, Option.isSome_iff_ne_none] using hs
  rw [run_set] at h
  cases hb : encodeEntry e with
  | error p => rw [hb] at h; cases h
  | ok blob =>
    rw [hb] at h
    simp only [Except.map, Except.ok.injEq, Prod.mk.injEq] at h
    obtain ⟨-, rfl⟩ := h
    exact ⟨if_neg hsig, rfl, blob, rfl⟩

/-- `encode` reads the record and changes nothing. -/
theorem run_encode_state {sig : Option (List UInt8)} {r r' : Record}
    {res : Except Error (List UInt8)} (h : run (encode sig) r = .ok (res, r')) : r' = r := by
  unfold encode at h
  rw [run_bind, run_get] at h
  simp only at h
  split at h
  · simp only [run_throw, Except.ok.injEq, Prod.mk.injEq] at h
    exact h.2.symm
  · simp at h
  · split at h <;> simp only [run_throw, run_pure, Except.ok.injEq, Prod.mk.injEq] at h <;>
      exact h.2.symm

section Schemes

variable (schemes : List UInt8 → Option IdentityScheme)

/-- A successful `SetSig` found the record's identity scheme, and sets the signature and
the encoding `encode` returned, and nothing else. -/
theorem run_setSig_ok {idscheme : List UInt8} {sig : Option (List UInt8)} {r r' : Record}
    (h : run (setSig schemes idscheme sig) r = .ok (.ok (), r')) :
    ∃ raw, run (encode sig) r = .ok (.ok raw, r) ∧ (∃ s, (idScheme schemes r).2 = some s) ∧
      r' = { r with signature := sig, raw := raw } := by
  unfold setSig at h
  rw [run_bind, run_get] at h
  simp only at h
  rcases hid : idScheme schemes r with ⟨id, _ | s⟩
  · rw [hid] at h; cases h
  rw [hid] at h
  simp only at h
  by_cases hne : id ≠ idscheme
  · simp [run_bind, hne] at h
  simp only [hne, if_false, run_bind, run_ofExcept] at h
  cases hv : s.verify r sig with
  | error err => rw [hv] at h; cases h
  | ok u =>
    rw [hv] at h
    simp only at h
    rcases he : run (encode sig) r with p | ⟨_ | raw, r₁⟩
    · rw [he] at h; cases h
    · rw [he] at h; cases h
    · rw [he] at h
      simp only [run_modify, Except.ok.injEq, Prod.mk.injEq] at h
      obtain ⟨-, rfl⟩ := h
      have hr₁ := run_encode_state he
      subst hr₁
      exact ⟨raw, rfl, ⟨s, rfl⟩, rfl⟩

/-- A failed `SetSig` leaves the record as it was. -/
theorem run_setSig_error {idscheme : List UInt8} {sig : Option (List UInt8)} {r r' : Record}
    {err : Error} (h : run (setSig schemes idscheme sig) r = .ok (.error err, r')) : r' = r := by
  unfold setSig at h
  rw [run_bind, run_get] at h
  simp only at h
  rcases hid : idScheme schemes r with ⟨id, _ | s⟩
  · rw [hid] at h; cases h
  rw [hid] at h
  simp only at h
  by_cases hne : id ≠ idscheme
  · simp [run_bind, hne] at h
  simp only [hne, if_false, run_bind, run_ofExcept] at h
  cases hv : s.verify r sig with
  | error e =>
    rw [hv] at h
    simp only [Except.ok.injEq, Prod.mk.injEq] at h
    exact h.2.symm
  | ok u =>
    rw [hv] at h
    simp only at h
    rcases he : run (encode sig) r with p | ⟨_ | raw, r₁⟩
    · rw [he] at h; cases h
    · rw [he] at h
      simp only [Except.ok.injEq, Prod.mk.injEq] at h
      rw [← h.2, run_encode_state he]
    · rw [he] at h
      simp at h

/-- **A signed record, changed by `Set` and signed again, keeps its sequence number**, where
the comments of `Set` and `SetSeq` promise an increment. -/
theorem resign_keeps_seq {r r₁ r₂ : Record} {e : Entry} {idscheme : List UInt8}
    {sig : Option (List UInt8)} (hs : r.signed) (hset : run (set e) r = .ok (.ok (), r₁))
    (hsig : run (setSig schemes idscheme sig) r₁ = .ok (.ok (), r₂)) :
    r₂.seq = r.seq ∧ r₂.signature = sig ∧ ∃ blob, r₂.pairs = insertPair r.pairs e.key blob := by
  obtain ⟨hseq, -, blob, hpairs⟩ := set_seq_of_signed hs hset
  obtain ⟨raw, -, -, rfl⟩ := run_setSig_ok schemes hsig
  exact ⟨hseq, rfl, blob, hpairs⟩

end Schemes

/-- **Two signed versions under one sequence number**: from the empty record, set
`id = "v4"` and sign, then set `udp = 30303` and sign again. The second version has
another pair and the sequence number `1` of the first. The identity scheme accepts every
signature, as `v4` does for signatures made with the record's key. -/
theorem resign_same_seq_run :
    let schemes : List UInt8 → Option IdentityScheme := fun id =>
      if id = [0x76, 0x34] then some ⟨fun _ _ => .ok (), fun _ => []⟩ else none
    let pId : Pair := ⟨idKey, [0x82, 0x76, 0x34]⟩
    let pUdp : Pair := ⟨[0x75, 0x64, 0x70], [0x82, 0x76, 0x5f]⟩
    run (set ⟨idKey, .string [0x76, 0x34]⟩) Record.empty = .ok (.ok (), ⟨1, none, [], [pId]⟩) ∧
      run (setSig schemes [0x76, 0x34] (some [1])) ⟨1, none, [], [pId]⟩ =
        .ok (.ok (), ⟨1, some [1], [0xc8, 0x01, 0x01, 0x82, 0x69, 0x64, 0x82, 0x76, 0x34],
          [pId]⟩) ∧
      run (set ⟨[0x75, 0x64, 0x70], .uint 30303⟩)
          ⟨1, some [1], [0xc8, 0x01, 0x01, 0x82, 0x69, 0x64, 0x82, 0x76, 0x34], [pId]⟩ =
        .ok (.ok (), ⟨1, none, [], [pId, pUdp]⟩) ∧
      run (setSig schemes [0x76, 0x34] (some [2])) ⟨1, none, [], [pId, pUdp]⟩ =
        .ok (.ok (), ⟨1, some [2], [0xcf, 0x02, 0x01, 0x82, 0x69, 0x64, 0x82, 0x76, 0x34,
          0x83, 0x75, 0x64, 0x70, 0x82, 0x76, 0x5f], [pId, pUdp]⟩) :=
  ⟨by decide +kernel, by decide +kernel, by decide +kernel, by decide +kernel⟩

end Record

end Enr
