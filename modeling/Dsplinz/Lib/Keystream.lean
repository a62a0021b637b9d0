import Dsplinz.Lib.BigEndian

/-!
# Stream ciphers

A stream cipher, such as a block cipher in counter mode, encrypts by xoring its input with
a keystream: a fixed sequence of bytes, of which each call uses the next ones. Its state is
therefore the keystream and how much of it has been used (`Keystream`), and
`Keystream.xorKeyStream` is the one operation. Two laws carry every proof about a channel
that encrypts with one such stream and decrypts with another:

* `Keystream.xorKeyStream_append` – one call on `a ++ b` is a call on `a`, then one on `b`,
  so the chunks a writer happens to use do not matter;
* `Keystream.xorKeyStream_xorKeyStream` – a stream at the same position undoes what it
  did, and ends at the same position.

`Keystream.counterMode` is the keystream of a block cipher of 16-byte blocks in counter
mode.
-/

/-- A stream cipher's state: its keystream, and how many of its bytes have been used. -/
structure Keystream where
  key : Nat → UInt8
  pos : Nat

namespace Keystream

/-- The keystream of a block cipher of 16-byte blocks in counter mode, from the initial
counter `iv`: byte `n` is byte `n % 16` of the encryption of the counter `iv + n / 16`,
written big-endian in 16 bytes (so the counter wraps modulo `2 ^ 128`). -/
def counterMode (encrypt : List UInt8 → List UInt8) (iv n : Nat) : UInt8 :=
  (encrypt (BigEndian.lowBytes (iv + n / 16) 16)).getD (n % 16) 0

/-- The keystream from position `n` on, xored into `src`. -/
def xorFrom (key : Nat → UInt8) : Nat → List UInt8 → List UInt8
  | _, [] => []
  | n, b :: bs => (b ^^^ key n) :: xorFrom key (n + 1) bs

/-- `XORKeyStream(dst, src)`: `src` xored with the next bytes of the keystream, and the
stream past them. -/
def xorKeyStream (k : Keystream) (src : List UInt8) : List UInt8 × Keystream :=
  (xorFrom k.key k.pos src, { k with pos := k.pos + src.length })

variable (key : Nat → UInt8)

@[simp] theorem length_xorFrom : ∀ (n : Nat) (src : List UInt8), (xorFrom key n src).length = src.length
  | _, [] => rfl
  | n, _ :: bs => by rw [xorFrom, List.length_cons, List.length_cons, length_xorFrom (n + 1) bs]

theorem xorFrom_append : ∀ (n : Nat) (a b : List UInt8),
    xorFrom key n (a ++ b) = xorFrom key n a ++ xorFrom key (n + a.length) b
  | n, [], b => by rw [List.nil_append, List.length_nil, Nat.add_zero]; rfl
  | n, x :: a, b => by
    rw [List.cons_append, xorFrom, xorFrom, xorFrom_append (n + 1) a b, List.length_cons,
      Nat.add_assoc, Nat.add_comm 1 a.length, List.cons_append]

/-- Xoring the same keystream twice gives the input back. -/
theorem xorFrom_xorFrom : ∀ (n : Nat) (src : List UInt8), xorFrom key n (xorFrom key n src) = src
  | _, [] => rfl
  | n, b :: bs => by
    rw [xorFrom, xorFrom, xorFrom_xorFrom (n + 1) bs, UInt8.xor_assoc, UInt8.xor_self, UInt8.xor_zero]

variable (k : Keystream)

@[simp] theorem length_xorKeyStream (src : List UInt8) : (k.xorKeyStream src).1.length = src.length :=
  length_xorFrom k.key k.pos src

@[simp] theorem key_xorKeyStream (src : List UInt8) : (k.xorKeyStream src).2.key = k.key := rfl

@[simp] theorem pos_xorKeyStream (src : List UInt8) :
    (k.xorKeyStream src).2.pos = k.pos + src.length := rfl

/-- One call on `a ++ b` is a call on `a` and then one on `b`. -/
theorem xorKeyStream_append (a b : List UInt8) :
    k.xorKeyStream (a ++ b) =
      ((k.xorKeyStream a).1 ++ ((k.xorKeyStream a).2.xorKeyStream b).1,
        ((k.xorKeyStream a).2.xorKeyStream b).2) := by
  simp only [xorKeyStream, xorFrom_append, List.length_append, Nat.add_assoc]

/-- **Decrypting with a stream at the same position**: the input comes back, and the
stream ends where the encrypting one did. -/
theorem xorKeyStream_xorKeyStream (src : List UInt8) :
    k.xorKeyStream (k.xorKeyStream src).1 = (src, (k.xorKeyStream src).2) := by
  simp only [xorKeyStream, xorFrom_xorFrom, length_xorFrom]

variable {k} {k₁ k₂ : Keystream} {a b ca cb : List UInt8}

/-- The reading of `xorKeyStream_xorKeyStream` a proof uses: a stream that turned `a` into
`ca` turns `ca` back into `a`. -/
theorem xorKeyStream_undo (h : k.xorKeyStream a = (ca, k₁)) : k.xorKeyStream ca = (a, k₁) := by
  have hinv := xorKeyStream_xorKeyStream k a
  rwa [h] at hinv

theorem length_of_xorKeyStream (h : k.xorKeyStream a = (ca, k₁)) : ca.length = a.length := by
  rw [← length_xorKeyStream k a, h]

/-- Two calls in turn are one call on the two inputs. -/
theorem xorKeyStream_append_of (ha : k.xorKeyStream a = (ca, k₁)) (hb : k₁.xorKeyStream b = (cb, k₂)) :
    k.xorKeyStream (a ++ b) = (ca ++ cb, k₂) := by
  rw [xorKeyStream_append, ha, hb]

end Keystream
