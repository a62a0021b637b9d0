import Dsplinz.Lib.BigEndian

/-!
# RLP items and their canonical encoding

The value language of the recursive length prefix: an item is a byte string or a
list of items, nested to any depth. This file says what an encoding of an item
**is**, independently of how the package computes it: a string of one byte below
`0x80` stands for itself, every other string and every list gets a header that
states the length of what follows, and the length is written in the shortest
big-endian form (`BigEndian.byteLen`).

| payload | header |
|---|---|
| string, 0–55 bytes | `0x80 + n` |
| string, 56 bytes or more | `0xB7 + byteLen n`, then `n` |
| list, 0–55 bytes | `0xC0 + n` |
| list, 56 bytes or more | `0xF7 + byteLen n`, then `n` |

The package's encoder (`Dsplinz.Rlp.Encbuf`) never builds these strings directly;
the refinement theorems of `Dsplinz.Rlp.EncbufSpec` show that what it writes is
`Rlp.Item.encode`, and those of `Dsplinz.Rlp.RoundTrip` that its decoder accepts
exactly these strings.
-/

namespace Rlp

open BigEndian

/-- An RLP item: a byte string (`[]byte`) or a list of items (`[]interface{}`). -/
inductive Item where
  | bytes (b : List UInt8)
  | list (items : List Item)
  deriving Repr

mutual
/-- Equality of items is decidable, by the mutual recursion on an item and its children. -/
def Item.decEq : (a b : Item) → Decidable (a = b)
  | .bytes x, .bytes y =>
    if h : x = y then isTrue (h ▸ rfl) else isFalse fun e => h (Item.bytes.inj e)
  | .list xs, .list ys =>
    match Item.decEqList xs ys with
    | isTrue h => isTrue (h ▸ rfl)
    | isFalse h => isFalse fun e => h (Item.list.inj e)
  | .bytes _, .list _ => isFalse nofun
  | .list _, .bytes _ => isFalse nofun
/-- Equality of lists of items, the second half of `Rlp.Item.decEq`. -/
def Item.decEqList : (a b : List Item) → Decidable (a = b)
  | [], [] => isTrue rfl
  | x :: xs, y :: ys =>
    match Item.decEq x y, Item.decEqList xs ys with
    | isTrue h, isTrue h' => isTrue (h ▸ h' ▸ rfl)
    | isFalse h, _ => isFalse fun e => h (List.cons.inj e).1
    | _, isFalse h' => isFalse fun e => h' (List.cons.inj e).2
  | [], _ :: _ => isFalse nofun
  | _ :: _, [] => isFalse nofun
end

instance : DecidableEq Item := Item.decEq

/-! ### Headers -/

/-- The header of a payload of `n` bytes: the short tag `small + n` below 56, else the
long tag `large + byteLen n` followed by `n` in its shortest big-endian form. -/
def header (small large : UInt8) (n : Nat) : List UInt8 :=
  if n < 56 then [small + UInt8.ofNat n]
  else (large + UInt8.ofNat (byteLen n)) :: lowBytes n (byteLen n)

/-- The length of a header. -/
def headerLen (n : Nat) : Nat :=
  if n < 56 then 1 else 1 + byteLen n

@[simp] theorem length_header (small large : UInt8) (n : Nat) :
    (header small large n).length = headerLen n := by
  unfold header headerLen
  split <;> simp [Nat.add_comm]

theorem one_le_headerLen (n : Nat) : 1 ≤ headerLen n := by
  unfold headerLen
  split <;> omega

theorem headerLen_mono {m n : Nat} (h : m ≤ n) : headerLen m ≤ headerLen n := by
  have := byteLen_mono h
  unfold headerLen
  split_ifs <;> omega

/-! ### The encoding -/

mutual
/-- **The canonical RLP encoding of an item.** -/
def Item.encode : Item → List UInt8
  | .bytes b => if b.length = 1 ∧ b.headD 0 < 0x80 then b else header 0x80 0xB7 b.length ++ b
  | .list ts => header 0xC0 0xF7 (Item.encodeList ts).length ++ Item.encodeList ts
/-- The encodings of the children of a list, one after the other: its payload. -/
def Item.encodeList : List Item → List UInt8
  | [] => []
  | t :: ts => t.encode ++ Item.encodeList ts
end

@[simp] theorem encodeList_nil : Item.encodeList [] = [] := by
  rw [Item.encodeList]

@[simp] theorem encodeList_cons (t : Item) (ts : List Item) :
    Item.encodeList (t :: ts) = t.encode ++ Item.encodeList ts := by
  rw [Item.encodeList]

theorem encode_list (ts : List Item) :
    (Item.list ts).encode = header 0xC0 0xF7 (Item.encodeList ts).length ++ Item.encodeList ts := by
  rw [Item.encode]

theorem encode_bytes (b : List UInt8) :
    (Item.bytes b).encode =
      if b.length = 1 ∧ b.headD 0 < 0x80 then b else header 0x80 0xB7 b.length ++ b := by
  rw [Item.encode]

/-- Every encoding is at least one byte long. -/
theorem encode_ne_nil (t : Item) : t.encode ≠ [] := by
  cases t with
  | bytes b =>
    rw [encode_bytes]
    split
    · rename_i h
      intro hb
      simp [hb] at h
    · unfold header
      split <;> simp
  | list ts =>
    rw [encode_list]
    unfold header
    split <;> simp

example : (Item.list [.bytes [0x01], .bytes [0x80]]).encode = [0xC3, 0x01, 0x81, 0x80] := by
  decide

end Rlp
