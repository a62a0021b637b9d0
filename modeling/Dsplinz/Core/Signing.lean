import Dsplinz.Lib.GoBig

/-!
# Transaction signers and EIP-155 replay protection

`core/types/transaction_signing.go` turns a 65-byte signature `[R || S || v]`, whose last
byte is the recovery id `v ∈ {0, 1}`, into the `V`, `R`, `S` of a transaction, and reads the
sender back from them. The Frontier and Homestead signers store `V = v + 27`; the EIP-155
signer of a chain `c ≠ 0` stores `V = v + 35 + 2 c`, so that a transaction signed for one
chain is not valid on another. Three readings of `V` have to agree for that:

| reading | source | what it makes of `V = v + 35 + 2 c` |
|---|---|---|
| `SignatureValues` | `sig[64] + 35`, then `+ chainIdMul` | builds it |
| `isProtectedV` | at most 8 bits and `27` or `28`: unprotected | protected |
| `deriveChainId` | a `uint64` path below 64 bits, a `big.Int` path above | `c` |

and `Sender` then hands `V - 2 c - 8 = v + 27` to `recoverPlain`
(`eip155_replay_protection`).

What signing rests on outside the repository is a parameter of the model (`Crypto`): the
Keccak hashes of the RLP encodings a signer signs, `crypto.ValidateSignatureValues`, and the
recovery of the address from a valid signature. `big.Int` is `Int`, and a nil chain id is
`none`, which `NewEIP155Signer` makes zero.
-/

namespace Core

/-- The errors a signer returns. -/
inductive SignError
  /-- `ErrInvalidChainId`. -/
  | invalidChainId
  /-- `ErrInvalidSig`. -/
  | invalidSig
  /-- An error of public-key recovery, with its text. -/
  | recovery (msg : String)
  deriving DecidableEq, Repr

/-- The text of the error. -/
def SignError.text : SignError → String
  | .invalidChainId => "invalid chain id for signer"
  | .invalidSig => "invalid transaction v, r, s values"
  | .recovery msg => msg

/-- A transaction as the signers see it: the payload they hash, and the `V`, `R`, `S` of
`txdata`. -/
structure SignedTx (P : Type) where
  payload : P
  v : Int
  r : Int
  s : Int

/-- What signing rests on outside the repository. -/
structure Crypto (P H A : Type) where
  /-- `FrontierSigner.Hash`: `rlpHash` of the six fields of the payload. -/
  frontierHash : P → H
  /-- `EIP155Signer.Hash`: `rlpHash` of the six fields, the chain id and two zeros. -/
  eip155Hash : P → Int → H
  /-- `crypto.ValidateSignatureValues(v, r, s, homestead)`. -/
  validateSignatureValues : UInt8 → Int → Int → Bool → Bool
  /-- The signature assembled from `R`, `S` and `V`, `crypto.Ecrecover`, the check of the
  public key and its Keccak hash: the address that signed, or why there is none. -/
  recover : H → Int → Int → UInt8 → Except String A

variable {P H A : Type}

/-- `recoverPlain(sighash, R, S, Vb, homestead)`: a `V` of more than 8 bits, or values the
curve rejects, are an invalid signature; otherwise the address is recovered with
`V = byte(Vb.Uint64() - 27)`. -/
def recoverPlain (crypto : Crypto P H A) (sighash : H) (R S Vb : Int) (homestead : Bool) :
    Except SignError A :=
  if GoBig.bitLen Vb > 8 then .error .invalidSig
  else
    let V : UInt8 := (GoBig.uint64 Vb - 27).toUInt8
    if !crypto.validateSignatureValues V R S homestead then .error .invalidSig
    else (crypto.recover sighash R S V).mapError .recovery

/-- `isProtectedV(V)`: only `27` and `28` are unprotected. -/
def isProtectedV (V : Int) : Bool :=
  if GoBig.bitLen V ≤ 8 then
    let v := GoBig.uint64 V
    v != 27 && v != 28
  else true

/-- `deriveChainId(v)`: `(v - 35) / 2`, in `uint64` arithmetic when `v` fits in 64 bits, where
`27` and `28` give `0`, and in `big.Int` arithmetic, whose `Div` is Euclidean, above. -/
def deriveChainId (v : Int) : Int :=
  if GoBig.bitLen v ≤ 64 then
    let v := GoBig.uint64 v
    if v = 27 ∨ v = 28 then 0 else ((v - 35) / 2).toNat
  else (v - 35) / 2

namespace SignedTx

/-- `tx.ChainId()`. -/
def chainId (tx : SignedTx P) : Int := deriveChainId tx.v

/-- `tx.Protected()`. -/
def isProtected (tx : SignedTx P) : Bool := isProtectedV tx.v

/-- `tx.WithSignature(signer, sig)`, given what `signer.SignatureValues(tx, sig)` returned: a
copy with those `R`, `S`, `V`; `none` is the panic of a signature of the wrong length. -/
def withSignature (tx : SignedTx P) (values : Option (Int × Int × Int)) : Option (SignedTx P) :=
  values.map fun rsv => { tx with r := rsv.1, s := rsv.2.1, v := rsv.2.2 }

end SignedTx

/-- `FrontierSigner.SignatureValues(tx, sig)`, which `HomesteadSigner` inherits: `R` and `S`
from the first 32 bytes each and `V = sig[64] + 27`, a byte. A signature that is not 65
bytes long panics. -/
def homesteadSignatureValues (sig : List UInt8) : Option (Int × Int × Int) :=
  if sig.length ≠ 65 then none
  else some (GoBig.setBytes (sig.take 32), GoBig.setBytes ((sig.drop 32).take 32),
    GoBig.setBytes [sig.getD 64 0 + 27])

/-- `HomesteadSigner.Sender(tx)`. -/
def homesteadSender (crypto : Crypto P H A) (tx : SignedTx P) : Except SignError A :=
  recoverPlain crypto (crypto.frontierHash tx.payload) tx.r tx.s tx.v true

/-- `EIP155Signer`. -/
structure EIP155Signer where
  chainId : Int
  chainIdMul : Int

/-- `NewEIP155Signer(chainId)`: a nil chain id is zero. -/
def newEIP155Signer (chainId : Option Int) : EIP155Signer :=
  ⟨chainId.getD 0, chainId.getD 0 * 2⟩

namespace EIP155Signer

/-- `s.SignatureValues(tx, sig)`: Homestead's, with `V = sig[64] + 35 + 2 c` for a chain
`c ≠ 0`; `sig[64] + 35` is a byte. -/
def signatureValues (s : EIP155Signer) (sig : List UInt8) : Option (Int × Int × Int) :=
  (homesteadSignatureValues sig).map fun rsv =>
    if s.chainId.sign ≠ 0 then (rsv.1, rsv.2.1, ((sig.getD 64 0 + 35 : UInt8).toNat : Int) + s.chainIdMul)
    else rsv

/-- `s.Sender(tx)`: an unprotected transaction goes to Homestead; a protected one must be of
this chain, and its `V` loses `2 c + 8` before recovery from the EIP-155 hash. -/
def sender (s : EIP155Signer) (crypto : Crypto P H A) (tx : SignedTx P) : Except SignError A :=
  if !tx.isProtected then homesteadSender crypto tx
  else if tx.chainId ≠ s.chainId then .error .invalidChainId
  else
    let V := tx.v - s.chainIdMul - 8
    recoverPlain crypto (crypto.eip155Hash tx.payload s.chainId) tx.r tx.s V true

end EIP155Signer

/-! ### Reading `V` -/

section ReadingV

open GoBig

/-- A byte sum that stays below `256` does not wrap. -/
theorem toNat_add_byte {b k : UInt8} (h : b.toNat + k.toNat < 256) :
    (b + k).toNat = b.toNat + k.toNat := by
  rw [UInt8.toNat_add]
  exact Nat.mod_eq_of_lt h

/-- A `V` of at most 64 bits from `37` on is its own `Uint64()`, which is neither `27` nor
`28`. -/
theorem uint64_of_ge {V : Int} (h : 37 ≤ V) (hb : bitLen V ≤ 64) :
    (uint64 V).toNat = V.toNat ∧ uint64 V ≠ 27 ∧ uint64 V ≠ 28 := by
  have hlt : V < 2 ^ 64 := by
    have := bitLen_le_iff.mp hb
    omega
  have hv : (uint64 V).toNat = V.toNat := toNat_uint64 (by omega) hlt
  refine ⟨hv, fun he => ?_, fun he => ?_⟩
  all_goals
    rw [he] at hv
    simp at hv
    omega

theorem isProtectedV_of_ge {V : Int} (h : 37 ≤ V) : isProtectedV V = true := by
  unfold isProtectedV
  split
  case isTrue hb =>
    obtain ⟨-, h27, h28⟩ := uint64_of_ge h (by omega)
    simp [h27, h28]
  case isFalse => rfl

theorem isProtectedV_homestead {r : Nat} (hr : r ≤ 1) : isProtectedV (r + 27) = false := by
  obtain rfl | rfl : r = 0 ∨ r = 1 := by omega
  all_goals decide

/-- **The chain id of an EIP-155 `V`.** Both paths of `deriveChainId` give `c` back from
`v + 35 + 2 c`: below 64 bits the `uint64` subtraction does not wrap, since `V ≥ 37`. -/
theorem deriveChainId_eip155 {c : Int} {r : Nat} (hc : 1 ≤ c) (hr : r ≤ 1) :
    deriveChainId (r + 35 + 2 * c) = c := by
  unfold deriveChainId
  split
  case isTrue hb =>
    obtain ⟨hv, h27, h28⟩ := uint64_of_ge (by omega) hb
    have h35 : (35 : UInt64) ≤ uint64 (r + 35 + 2 * c) := by
      rw [UInt64.le_iff_toNat_le, hv]
      simp
      omega
    simp only [h27, h28, or_self, if_false, UInt64.toNat_div, UInt64.toNat_sub_of_le _ _ h35, hv]
    simp
    omega
  -- above 64 bits `big.Int` divides exactly, since `V - 35 = r + 2 c` with `r ≤ 1`
  case isFalse => omega

end ReadingV

/-! ### The signers -/

theorem homesteadSignatureValues_of_length {sig : List UInt8} (h : sig.length = 65) :
    homesteadSignatureValues sig = some (GoBig.setBytes (sig.take 32),
      GoBig.setBytes ((sig.drop 32).take 32), ((sig.getD 64 0 + 27 : UInt8).toNat : Int)) := by
  simp [homesteadSignatureValues, h]

/-- `recoverPlain` fails only on the signature, never on the chain. -/
theorem recoverPlain_ne_invalidChainId (crypto : Crypto P H A) (sighash : H) (R S Vb : Int)
    (homestead : Bool) : recoverPlain crypto sighash R S Vb homestead ≠ .error .invalidChainId := by
  unfold recoverPlain
  split
  · simp
  · dsimp only
    split
    · simp
    · cases crypto.recover sighash R S _ <;> simp [Except.mapError]

namespace EIP155Signer

theorem signatureValues_of_sign {s : EIP155Signer} {sig : List UInt8} (hc : s.chainId ≠ 0)
    (h : sig.length = 65) :
    s.signatureValues sig = some (GoBig.setBytes (sig.take 32),
      GoBig.setBytes ((sig.drop 32).take 32),
      ((sig.getD 64 0 + 35 : UInt8).toNat : Int) + s.chainIdMul) := by
  have hs : s.chainId.sign ≠ 0 := by rwa [ne_eq, Int.sign_eq_zero_iff_zero]
  simp [signatureValues, homesteadSignatureValues_of_length h, hs]

theorem signatureValues_of_zero {s : EIP155Signer} (hc : s.chainId = 0) (sig : List UInt8) :
    s.signatureValues sig = homesteadSignatureValues sig := by
  simp [signatureValues, hc]

theorem sender_of_not_protected (s : EIP155Signer) (crypto : Crypto P H A) {tx : SignedTx P}
    (h : tx.isProtected = false) : s.sender crypto tx = homesteadSender crypto tx := by
  simp [sender, h]

theorem sender_of_chainId_ne (s : EIP155Signer) (crypto : Crypto P H A) {tx : SignedTx P}
    (hp : tx.isProtected = true) (hc : tx.chainId ≠ s.chainId) :
    s.sender crypto tx = .error .invalidChainId := by
  simp [sender, hp, hc]

theorem sender_of_chainId_eq (s : EIP155Signer) (crypto : Crypto P H A) {tx : SignedTx P}
    (hp : tx.isProtected = true) (hc : tx.chainId = s.chainId) :
    s.sender crypto tx =
      recoverPlain crypto (crypto.eip155Hash tx.payload s.chainId) tx.r tx.s
        (tx.v - s.chainIdMul - 8) true := by
  simp [sender, hp, hc]

end EIP155Signer

/-! ### Replay protection -/

section Replay

variable (crypto : Crypto P H A) (tx : SignedTx P)

/-- The transaction the EIP-155 signer of a chain `c ≥ 1` makes carries
`V = v + 35 + 2 c`. -/
theorem withSignature_eip155 {sig : List UInt8} (hsig : sig.length = 65)
    (hr : sig.getD 64 0 ≤ 1) {c : Int} (hc : 1 ≤ c) :
    ∃ tx', tx.withSignature ((newEIP155Signer (some c)).signatureValues sig) = some tx' ∧
      tx'.payload = tx.payload ∧ tx'.v = (sig.getD 64 0).toNat + 35 + 2 * c := by
  have hb : (sig.getD 64 0).toNat ≤ 1 := by rwa [UInt8.le_iff_toNat_le] at hr
  have h35 : (sig.getD 64 0 + 35).toNat = (sig.getD 64 0).toNat + 35 :=
    toNat_add_byte (by change _ + 35 < 256; omega)
  rw [EIP155Signer.signatureValues_of_sign (by simp [newEIP155Signer]; omega) hsig]
  refine ⟨_, rfl, rfl, ?_⟩
  simp only [newEIP155Signer, Option.getD_some, h35]
  omega

/-- **EIP-155 replay protection.** For a chain `c ≥ 1` of any size, the signed transaction
has `V = v + 35 + 2 c`, is protected, has chain id `c`, is recovered from `v + 27`, and every
other chain's signer rejects it. The signer of chain `0` makes Homestead's values and reads
unprotected transactions as Homestead does, but it rejects a protected transaction of
another chain, which Homestead never does (`eip155_zero_rejects_chain_one`). -/
theorem eip155_replay_protection (sig : List UInt8) (hsig : sig.length = 65)
    (hr : sig.getD 64 0 ≤ 1) :
    (∀ c : Int, 1 ≤ c →
      ∃ tx', tx.withSignature ((newEIP155Signer (some c)).signatureValues sig) = some tx' ∧
        tx'.v = (sig.getD 64 0).toNat + 35 + 2 * c ∧ tx'.isProtected = true ∧ tx'.chainId = c ∧
        (newEIP155Signer (some c)).sender crypto tx' =
          recoverPlain crypto (crypto.eip155Hash tx.payload c) tx'.r tx'.s
            ((sig.getD 64 0).toNat + 27) true ∧
        ∀ c' : Int, c' ≠ c →
          (newEIP155Signer (some c')).sender crypto tx' = .error .invalidChainId) ∧
    (newEIP155Signer (some 0)).signatureValues sig = homesteadSignatureValues sig ∧
    (∃ tx', tx.withSignature ((newEIP155Signer (some 0)).signatureValues sig) = some tx' ∧
      tx'.v = (sig.getD 64 0).toNat + 27 ∧ tx'.isProtected = false) ∧
    ∀ tx₀ : SignedTx P,
      (tx₀.isProtected = false →
        (newEIP155Signer (some 0)).sender crypto tx₀ = homesteadSender crypto tx₀) ∧
      (tx₀.isProtected = true → tx₀.chainId ≠ 0 →
        (newEIP155Signer (some 0)).sender crypto tx₀ = .error .invalidChainId) := by
  have hb : (sig.getD 64 0).toNat ≤ 1 := by rwa [UInt8.le_iff_toNat_le] at hr
  have hzero : (newEIP155Signer (some 0)).chainId = 0 := rfl
  refine ⟨?signed, EIP155Signer.signatureValues_of_zero hzero sig, ?homestead, ?unprotected⟩
  case signed =>
    intro c hc
    obtain ⟨tx', htx', hpay, hv⟩ := withSignature_eip155 tx hsig hr hc
    have hprot : tx'.isProtected = true := by
      rw [SignedTx.isProtected, hv]
      exact isProtectedV_of_ge (by omega)
    have hchain : tx'.chainId = c := by
      rw [SignedTx.chainId, hv]
      exact deriveChainId_eip155 hc hb
    refine ⟨tx', htx', hv, hprot, hchain, ?_, ?_⟩
    · rw [EIP155Signer.sender_of_chainId_eq _ _ hprot hchain, hpay]
      simp only [newEIP155Signer, Option.getD_some, hv]
      -- `V - 2 c - 8 = v + 27`
      congr 1
      omega
    · intro c' hc'
      exact EIP155Signer.sender_of_chainId_ne _ _ hprot (by simp [newEIP155Signer, hchain]; omega)
  case homestead =>
    have h27 : (sig.getD 64 0 + 27).toNat = (sig.getD 64 0).toNat + 27 :=
      toNat_add_byte (by change _ + 27 < 256; omega)
    rw [EIP155Signer.signatureValues_of_zero hzero, homesteadSignatureValues_of_length hsig]
    refine ⟨_, rfl, by dsimp only; rw [h27]; push_cast; rfl, ?_⟩
    simp only [SignedTx.isProtected, h27]
    exact isProtectedV_homestead hb
  case unprotected =>
    intro tx₀
    refine ⟨EIP155Signer.sender_of_not_protected _ _, fun hp hc => ?_⟩
    exact EIP155Signer.sender_of_chainId_ne _ _ hp hc

/-- A `Crypto` that accepts every signature and recovers the one address. -/
def acceptingCrypto : Crypto Unit Unit Unit :=
  ⟨fun _ => (), fun _ _ => (), fun _ _ _ _ => true, fun _ _ _ _ => .ok ()⟩

theorem eip155_replay_protection_chain_one :
    ∃ tx', (⟨(), 0, 0, 0⟩ : SignedTx Unit).withSignature
        ((newEIP155Signer (some 1)).signatureValues (List.replicate 65 0)) = some tx' ∧
      tx'.v = 35 + 2 ∧ tx'.chainId = 1 ∧
      (newEIP155Signer (some 2)).sender acceptingCrypto tx' = .error .invalidChainId := by
  obtain ⟨hsigned, -⟩ :=
    eip155_replay_protection acceptingCrypto ⟨(), 0, 0, 0⟩ (List.replicate 65 0) (by decide)
      (by decide)
  obtain ⟨tx', htx', hv, -, hchain, -, hother⟩ := hsigned 1 le_rfl
  exact ⟨tx', htx', by rw [hv]; rfl, hchain, hother 2 (by decide)⟩

/-- The chain-zero signer is not Homestead's: a transaction of chain `1` signed with recovery
id `0`, `V = 37`, is rejected by the first for its chain, by the second never. -/
theorem eip155_zero_rejects_protected (p : P) (R S : Int) :
    (newEIP155Signer (some 0)).sender crypto ⟨p, 37, R, S⟩ = .error .invalidChainId ∧
      homesteadSender crypto ⟨p, 37, R, S⟩ ≠ .error .invalidChainId := by
  have hp : (⟨p, 37, R, S⟩ : SignedTx P).isProtected = true := isProtectedV_of_ge le_rfl
  have hc : (⟨p, 37, R, S⟩ : SignedTx P).chainId = 1 := deriveChainId_eip155 (r := 0) le_rfl (by omega)
  constructor
  · exact EIP155Signer.sender_of_chainId_ne _ _ hp (by rw [hc]; decide)
  · exact recoverPlain_ne_invalidChainId _ _ _ _ _ _

end Replay

/-- The same at one transaction, with every signature accepted. -/
theorem eip155_zero_rejects_chain_one :
    (newEIP155Signer (some 0)).sender acceptingCrypto ⟨(), 37, 1, 1⟩ = .error .invalidChainId ∧
      homesteadSender acceptingCrypto ⟨(), 37, 1, 1⟩ ≠ .error .invalidChainId :=
  eip155_zero_rejects_protected acceptingCrypto () 1 1

end Core
