import Dsplinz.Rlp.Output
import Dsplinz.Rlp.StreamSpec

/-!
# The round trip of RLP

The decoder reads back exactly what the encoder writes, and nothing else.
`Rlp.decode_encode`: every item is encoded, and its encoding decodes to the item.
`Rlp.decodeBytes_canonical`: whatever `DecodeBytes` accepts is the encoding of the item it
returns, so that every byte string that is not a canonical encoding is rejected.

Both rest on the stream specifications of `Dsplinz.Rlp.StreamSpec`. Forward,
`Rlp.run_decodeInterface` reads an item from its encoding at the head of the input, by
recursion on the item: a list's children are read by `Rlp.run_decodeSliceElems` until the
list is full and `Kind` reports `EOL`. Backward, `Rlp.decodeInterface_ok` shows by
induction on the fuel that what a successful decoding consumed is the encoding of its
result: the headers by `Rlp.Stream.readKind_ok`, the contents of a string by
`Rlp.Stream.bytes_string_ok`, and the end of a list by `Rlp.Stream.decodeInterface_eol`,
which says that the element decoder reports `EOL` only at the end of the list.
-/

open ExceptState Rlp.Stream

namespace Rlp

/-! ### Encodings as headers and payloads -/

/-- Every child of a list takes at least one byte of its payload. -/
theorem length_le_encodeList (ts : List Item) : ts.length ≤ (Item.encodeList ts).length := by
  induction ts with
  | nil => exact le_refl _
  | cons t ts ih =>
    -- every item encodes to at least one byte
    have ht : t.encode.length ≠ 0 := fun h => encode_ne_nil t (List.eq_nil_of_length_eq_zero h)
    simp only [List.length_cons, encodeList_cons, List.length_append]
    omega

theorem encodeList_eq_nil {ts : List Item} (h : Item.encodeList ts = []) : ts = [] := by
  have := length_le_encodeList ts
  rw [h, List.length_nil] at this
  exact List.eq_nil_of_length_eq_zero (by omega)

/-! ### Lists -/

/-- **`decodeListSlice` reads a list** whose payload `P` the element decoder reads in full,
from inside the list; an empty list is left at once. -/
theorem run_decodeListSlice {α : Type} {elemdec : StreamM α} {fuel : Nat} {s₁ : Stream}
    {vs : List α} {P : List UInt8} (hk : s₁.kind = some .list) (herr : s₁.kinderr = none)
    (htop : ∀ tos ∈ s₁.stack.head?, tos.pos.toNat + s₁.size.toNat ≤ tos.size.toNat)
    (hlen : P.length = s₁.size.toNat) (hnil : s₁.size = 0 → vs = [])
    (helems : s₁.size ≠ 0 → ∃ s₂,
      run (decodeSliceElems elemdec fuel) (enter s₁) = (.ok vs, s₂) ∧ Moved (enter s₁) s₂ P) :
    ∃ s₃, run (decodeListSlice elemdec fuel) s₁ = (.ok vs, s₃) ∧ Moved s₁ s₃ P ∧
      s₃.kind = none := by
  rw [decodeListSlice, run_bind_ok (run_list_cached hk herr)]
  by_cases h0 : s₁.size = 0
  · -- an empty list: `ListEnd` right away
    have hP : P = [] := List.eq_nil_of_length_eq_zero (by rw [hlen, h0]; rfl)
    subst hP
    obtain ⟨hend, hm⟩ := Moved.close htop hlen (moved_nil (topOk_enter s₁))
    refine ⟨_, ?_, hm, rfl⟩
    simp only [if_pos h0]
    rw [run_bind_ok hend, hnil h0]
    rfl
  · obtain ⟨s₂, hslice, hm₂⟩ := helems h0
    obtain ⟨hend, hm⟩ := Moved.close htop hlen hm₂
    refine ⟨_, ?_, hm, rfl⟩
    simp only [if_neg h0]
    rw [run_bind_ok hslice, run_bind_ok hend]
    rfl

/-- What `decodeListSlice` reads when it returns the items `ts`: their encodings, which
fill the list. -/
theorem decodeListSlice_ok {elemdec : StreamM Item} {fuel : Nat} {s₁ s₃ : Stream}
    {ts : List Item} (hk : s₁.kind = some .list) (herr : s₁.kinderr = none)
    (htop : ∀ tos ∈ s₁.stack.head?, tos.pos.toNat + s₁.size.toNat ≤ tos.size.toNat)
    (helems : ∀ {s₂ : Stream} {vs : List Item},
      run (decodeSliceElems elemdec fuel) (enter s₁) = (.ok vs, s₂) →
      Moved (enter s₁) s₂ (Item.encodeList vs) ∧ ∀ tos ∈ s₂.stack.head?, tos.pos = tos.size)
    (h : run (decodeListSlice elemdec fuel) s₁ = (.ok ts, s₃)) :
    Moved s₁ s₃ (Item.encodeList ts) ∧ s₃.kind = none ∧
      (Item.encodeList ts).length = s₁.size.toNat := by
  rw [decodeListSlice, run_bind_ok (run_list_cached hk herr)] at h
  by_cases h0 : s₁.size = 0
  · -- an empty list
    have hlen : ([] : List UInt8).length = s₁.size.toNat := by rw [h0]; rfl
    obtain ⟨hend, hm⟩ := Moved.close htop hlen (moved_nil (topOk_enter s₁))
    simp only [if_pos h0] at h
    rw [run_bind_ok hend] at h
    simp only [run_pure, Prod.mk.injEq, Except.ok.injEq] at h
    obtain ⟨rfl, rfl⟩ := h
    exact ⟨hm, rfl, hlen⟩
  · -- the elements, then the end of the list
    simp only [if_neg h0] at h
    rw [run_bind] at h
    rcases hslice : run (decodeSliceElems elemdec fuel) (enter s₁) with ⟨_ | vs, s₂⟩ <;>
      rw [hslice] at h
    · cases h
    simp only at h
    obtain ⟨hm₂, hatEnd⟩ := helems hslice
    have hlen := hm₂.length_of_end hatEnd
    obtain ⟨hend, hm⟩ := Moved.close htop hlen hm₂
    rw [run_bind_ok hend] at h
    simp only [run_pure, Prod.mk.injEq, Except.ok.injEq] at h
    obtain ⟨rfl, rfl⟩ := h
    exact ⟨hm, rfl, hlen⟩

/-! ### Reading an encoding -/

/-- The first byte of a string is its own encoding when it is the whole string and below
`0x80`. -/
theorem bytes_single {b : List UInt8} (h : b.length = 1 ∧ b.headD 0 < 0x80) :
    ∃ x, b = [x] ∧ x < 0x80 := by
  obtain ⟨x, rfl⟩ := List.length_eq_one_iff.mp h.1
  exact ⟨x, rfl, h.2⟩

/-- **`Kind` and then `Bytes` read a string back from its encoding**, from a stream where
the encoding fits: `Kind` reports a single byte or a string, and `Bytes` its contents. -/
theorem run_Kind_bytes_encode {s : Stream} {b rest : List UInt8}
    (hlen : (Item.bytes b).encode.length < 2 ^ 64) (hk : s.kind = none)
    (hin : s.input = (Item.bytes b).encode ++ rest) (hfit : Fits s (Item.bytes b).encode.length) :
    ∃ k s₁ s', k ≠ .list ∧ run Stream.Kind s = (.ok (k, s₁.size), s₁) ∧ s₁.kind = some k ∧
      s₁.kinderr = none ∧ run bytes s₁ = (.ok b, s') ∧ Moved s s' (Item.bytes b).encode ∧
      s'.kind = none := by
  by_cases hsingle : b.length = 1 ∧ b.headD 0 < 0x80
  · -- a single byte below `0x80`: `Kind` reads it as its own header
    obtain ⟨x, rfl, hx⟩ := bytes_single hsingle
    have henc : (Item.bytes [x]).encode = tagBytes .byte 0 x := by
      rw [encode_bytes, if_pos hsingle]
      rfl
    rw [henc] at hin hfit
    obtain ⟨s₁, hK, hm, hk₁, herr₁, hsize₁, hbv⟩ :=
      run_Kind_value (n := 0) hk (fun _ => ⟨hx, rfl⟩) (by norm_num) hin hfit
    refine ⟨.byte, s₁, { s₁ with kind := none }, (by simp), by rw [hsize₁]; exact hK, hk₁, herr₁,
      ?_, henc ▸ hm.congr rfl rfl rfl rfl, rfl⟩
    rw [run_bytes_byte hk₁ herr₁, hbv rfl]
  · -- a string with a header
    have henc : (Item.bytes b).encode = tagBytes .string b.length 0 ++ b := by
      rw [encode_bytes, if_neg hsingle]
      rfl
    have hblen : b.length < 2 ^ 64 := by
      rw [henc, List.length_append] at hlen
      omega
    have hin' : s.input = tagBytes .string b.length 0 ++ (b ++ rest) := by
      rw [hin, henc, List.append_assoc]
    have hfit' : Fits s ((tagBytes .string b.length 0).length + b.length) := by
      rw [henc, List.length_append] at hfit
      exact hfit
    obtain ⟨s₁, hK, hm, hk₁, herr₁, hsize₁, -⟩ := run_Kind_value (k := .string) hk (by simp) hblen hin' hfit'
    -- the contents follow the header
    have hin₁ : s₁.input = b ++ rest := by
      rw [hm.input] at hin'
      exact List.append_cancel_left hin'
    have hfit₁ : Fits s₁ b.length := hm.fits_rest hfit'
    have hsizeNat : s₁.size.toNat = b.length := by
      rw [hsize₁]
      exact UInt64.toNat_ofNat_of_lt' hblen
    have hcanon : ¬ (s₁.size = 1 ∧ b.headD 0 < 128) := by
      rintro ⟨h1, hlt⟩
      have : b.length = 1 := by rw [← hsizeNat, h1]; rfl
      exact hsingle ⟨this, hlt⟩
    have hbytes := run_bytes_string hk₁ herr₁ (hsize₁ ▸ room_of_fits hfit₁) hin₁
      hsizeNat.symm hcanon
    have hm₂ : Moved s₁ { reserve s₁ s₁.size with input := rest } b := by
      have := moved_reserve hin₁ hfit₁
      rwa [← hsize₁] at this
    exact ⟨.string, s₁, _, (by simp), by rw [hsize₁]; exact hK, hk₁, herr₁, hbytes,
      henc ▸ hm.trans hm₂, rfl⟩

/-- `Bytes` reads a string back from its encoding, from a stream with nothing cached. -/
theorem run_bytes_encode {s : Stream} {b rest : List UInt8}
    (hlen : (Item.bytes b).encode.length < 2 ^ 64) (hk : s.kind = none)
    (hin : s.input = (Item.bytes b).encode ++ rest) (hfit : Fits s (Item.bytes b).encode.length) :
    ∃ s', run bytes s = (.ok b, s') ∧ Moved s s' (Item.bytes b).encode ∧ s'.kind = none := by
  obtain ⟨k, s₁, s', -, hK, hk₁, herr₁, hbytes, hm, hk'⟩ := run_Kind_bytes_encode hlen hk hin hfit
  exact ⟨s', (run_bytes_of_Kind hK hk₁ herr₁ rfl).trans hbytes, hm, hk'⟩

/-- **What `Kind` and then `Bytes` read is the encoding of the string returned.** -/
theorem Kind_bytes_ok {s s₁ s' : Stream} {k : Rlp.Kind} {size : UInt64} {b : List UInt8}
    (hk : s.kind = none) (htop : TopOk s) (hK : run Stream.Kind s = (.ok (k, size), s₁))
    (h : run bytes s₁ = (.ok b, s')) : Moved s s' (Item.bytes b).encode ∧ s'.kind = none := by
  obtain ⟨hmK, hk₁, herr₁, hsize₁, -, hbyte⟩ := Kind_fresh_moved hk htop hK
  cases k with
  | list =>
    -- `Bytes` rejects a list
    rw [bytes, run_bind_ok (run_Kind_cached_ok hk₁ herr₁)] at h
    cases h
  | byte =>
    -- a single byte, its own header
    rw [run_bytes_byte hk₁ herr₁] at h
    simp only [Prod.mk.injEq, Except.ok.injEq] at h
    obtain ⟨rfl, rfl⟩ := h
    obtain ⟨hb, -⟩ := hbyte rfl
    have henc : (Item.bytes [s₁.byteval]).encode = [s₁.byteval] := by
      rw [encode_bytes, if_pos ⟨rfl, hb⟩]
    refine ⟨?_, rfl⟩
    rw [henc]
    exact hmK.congr rfl rfl rfl rfl
  | string =>
    -- a string: its header, then its contents
    obtain ⟨hroom, hin, hlen, hcanon, hs'⟩ := bytes_string_ok hk₁ herr₁ h
    have hm₃ : Moved s₁ s' b := by
      rw [hs']
      exact moved_of_room hmK.topOk hroom hin hlen
    have hsingle : ¬ (b.length = 1 ∧ b.headD 0 < 0x80) := by
      rintro ⟨h1, hlt⟩
      refine hcanon ⟨?_, hlt⟩
      apply UInt64.toNat_inj.mp
      rw [← hlen, h1]
      rfl
    have henc : (Item.bytes b).encode = header 0x80 0xB7 size.toNat ++ b := by
      rw [encode_bytes, if_neg hsingle, hlen, hsize₁]
    refine ⟨?_, by rw [hs']; rfl⟩
    rw [henc]
    exact hmK.trans hm₃

/-- What `Bytes` reads from a stream with nothing cached is the encoding of the string it
returns. -/
theorem bytes_ok {s s' : Stream} {b : List UInt8} (hk : s.kind = none) (htop : TopOk s)
    (h : run bytes s = (.ok b, s')) : Moved s s' (Item.bytes b).encode ∧ s'.kind = none := by
  rcases hK : run Stream.Kind s with ⟨_ | ⟨k, size⟩, s₁⟩
  · rw [bytes, run_bind, hK] at h
    cases h
  obtain ⟨-, hk₁, herr₁, hsize₁, -⟩ := Kind_fresh_moved hk htop hK
  rw [run_bytes_of_Kind hK hk₁ herr₁ hsize₁] at h
  exact Kind_bytes_ok hk htop hK h

mutual
/-- **The decoder reads an item back from its encoding**, with more fuel than the
encoding has bytes, from a stream where the encoding fits. -/
theorem run_decodeInterface : ∀ (t : Item) (fuel : Nat) (s : Stream) (rest : List UInt8),
    t.encode.length < fuel → t.encode.length < 2 ^ 64 → s.kind = none →
    s.input = t.encode ++ rest → Fits s t.encode.length →
    ∃ s', run (decodeInterface fuel) s = (.ok t, s') ∧ Moved s s' t.encode ∧ s'.kind = none
  | .bytes b, fuel, s, rest, hfuel, hlen, hk, hin, hfit => by
    obtain ⟨f, rfl⟩ : ∃ f, fuel = f + 1 := ⟨fuel - 1, by omega⟩
    obtain ⟨k, s₁, s', hkl, hK, -, -, hbytes, hm, hk'⟩ := run_Kind_bytes_encode hlen hk hin hfit
    refine ⟨s', ?_, hm, hk'⟩
    rw [decodeInterface, run_bind_ok hK]
    simp only [if_neg hkl]
    rw [run_bind_ok hbytes]
    rfl
  | .list ts, fuel, s, rest, hfuel, hlen, hk, hin, hfit => by
    obtain ⟨f, rfl⟩ : ∃ f, fuel = f + 1 := ⟨fuel - 1, by omega⟩
    have henc : (Item.list ts).encode =
        tagBytes .list (Item.encodeList ts).length 0 ++ Item.encodeList ts := encode_list ts
    have hPlen : (Item.encodeList ts).length < 2 ^ 64 := by
      rw [henc, List.length_append] at hlen
      omega
    have htag := one_le_headerLen (Item.encodeList ts).length
    have hPfuel : (Item.encodeList ts).length < f := by
      rw [henc, List.length_append] at hfuel
      simp only [tagBytes, length_header] at hfuel
      omega
    have hin' : s.input = tagBytes .list (Item.encodeList ts).length 0 ++
        (Item.encodeList ts ++ rest) := by
      rw [hin, henc, List.append_assoc]
    have hfit' : Fits s ((tagBytes .list (Item.encodeList ts).length 0).length +
        (Item.encodeList ts).length) := by
      rw [henc, List.length_append] at hfit
      exact hfit
    obtain ⟨s₁, hK, hm, hk₁, herr₁, hsize₁, -⟩ := run_Kind_value (k := .list) hk (by simp) hPlen hin' hfit'
    -- the payload follows the header, and fills the list
    have hin₁ : s₁.input = Item.encodeList ts ++ rest := by
      rw [hm.input] at hin'
      exact List.append_cancel_left hin'
    have hfit₁ : Fits s₁ (Item.encodeList ts).length := hm.fits_rest hfit'
    have hsizeNat : (Item.encodeList ts).length = s₁.size.toNat := by
      rw [hsize₁]
      exact (UInt64.toNat_ofNat_of_lt' hPlen).symm
    have htop : ∀ tos ∈ s₁.stack.head?, tos.pos.toNat + s₁.size.toNat ≤ tos.size.toNat := by
      rw [← hsizeNat]
      exact hfit₁.1
    obtain ⟨s₂, helems, hm₂, -⟩ := run_decodeSliceElems ts f f (enter s₁) rest ⟨0, s₁.size⟩
      s₁.stack hPfuel (lt_of_le_of_lt (length_le_encodeList ts) hPfuel) hPlen rfl hin₁ rfl
      (by simp [hsizeNat])
      ⟨fun tos htos => by simp [enter] at htos; subst htos; simp [hsizeNat], hfit₁.2⟩
    obtain ⟨s₃, hslice, hm₃, hk₃⟩ := run_decodeListSlice hk₁ herr₁ htop hsizeNat
      (fun h0 => encodeList_eq_nil (List.eq_nil_of_length_eq_zero (by rw [hsizeNat, h0]; rfl)))
      (fun _ => ⟨s₂, helems, hm₂⟩)
    refine ⟨s₃, ?_, henc ▸ hm.trans hm₃, hk₃⟩
    rw [decodeInterface, run_bind_ok hK]
    simp only [if_true]
    rw [run_bind_ok hslice]
    rfl

/-- **The decoder reads the children of a list back**, one after the other, until the
list is full. -/
theorem run_decodeSliceElems : ∀ (ts : List Item) (F fuel : Nat) (s : Stream)
    (rest : List UInt8) (tos : Listpos) (st : List Listpos),
    (Item.encodeList ts).length < F → ts.length < fuel → (Item.encodeList ts).length < 2 ^ 64 →
    s.kind = none → s.input = Item.encodeList ts ++ rest → s.stack = tos :: st →
    tos.pos.toNat + (Item.encodeList ts).length = tos.size.toNat →
    Fits s (Item.encodeList ts).length →
    ∃ s', run (decodeSliceElems (decodeInterface F) fuel) s = (.ok ts, s') ∧
      Moved s s' (Item.encodeList ts) ∧ s'.kind = none
  | [], F, fuel, s, rest, tos, st, hF, hfuel, _, hk, _, hstack, hfull, hfit => by
    -- the list is full: the element decoder reports `EOL` and nothing is read
    obtain ⟨f, rfl⟩ : ∃ f, fuel = f + 1 := ⟨fuel - 1, by simp at hfuel; omega⟩
    obtain ⟨G, rfl⟩ : ∃ G, F = G + 1 := ⟨F - 1, by simp at hF; omega⟩
    have heq : tos.pos = tos.size := UInt64.toNat_inj.mp (by simpa using hfull)
    have hdec : run (decodeInterface (G + 1)) s = (.error .eol, { s with kinderr := none }) := by
      rw [decodeInterface, run_bind_error (run_Kind_eol hk hstack heq)]
    refine ⟨{ s with kinderr := none }, ?_, (moved_nil (hfit.topOk)).congr rfl rfl rfl rfl, hk⟩
    rw [decodeSliceElems, run_bind, run_attempt, hdec]
    rfl
  | t :: ts, F, fuel, s, rest, tos, st, hF, hfuel, hlen, hk, hin, hstack, hfull, hfit => by
    obtain ⟨f, rfl⟩ : ∃ f, fuel = f + 1 := ⟨fuel - 1, by simp at hfuel; omega⟩
    simp only [encodeList_cons, List.length_append, List.length_cons] at hF hfuel hlen hfull hfit
    rw [encodeList_cons, List.append_assoc] at hin
    -- the first child
    obtain ⟨s₁, hdec, hm₁, hk₁⟩ := run_decodeInterface t F s (Item.encodeList ts ++ rest)
      (by omega) (by omega) hk hin (hfit.mono (by omega))
    -- the others, in what is left of the list
    have hin₁ : s₁.input = Item.encodeList ts ++ rest := by
      rw [hm₁.input] at hin
      exact List.append_cancel_left hin
    have hpos : (tos.pos + UInt64.ofNat t.encode.length).toNat =
        tos.pos.toNat + t.encode.length := by
      rw [UInt64.toNat_add, toNat_ofNat_of_le (x := tos.size) (by omega),
        Nat.mod_eq_of_lt (by have := UInt64.toNat_lt tos.size; omega)]
    have hstack₁ : s₁.stack = { tos with pos := tos.pos + UInt64.ofNat t.encode.length } :: st := by
      rw [hm₁.stack, hstack]
      rfl
    obtain ⟨s₂, hrest, hm₂, hk₂⟩ := run_decodeSliceElems ts F f s₁ rest _ st (by omega)
      (by omega) (by omega) hk₁ hin₁ hstack₁ (by simp only [hpos]; omega) (hm₁.fits_rest hfit)
    refine ⟨s₂, ?_, by simpa only [encodeList_cons] using hm₁.trans hm₂, hk₂⟩
    rw [decodeSliceElems, run_bind, run_attempt, hdec]
    simp only
    rw [run_bind_ok hrest]
    rfl
end

/-! ### What a successful decoding read -/

/-- From the element decoder's lemma, the list decoder's: the elements it read until
`EOL` are the encodings of the items it returned, and they fill the list. -/
theorem decodeSliceElems_ok {F : Nat}
    (hdec : ∀ {s s' : Stream} {t : Item}, s.kind = none → TopOk s →
      run (decodeInterface F) s = (.ok t, s') → Moved s s' t.encode ∧ s'.kind = none) :
    ∀ (fuel : Nat) {s s' : Stream} {ts : List Item}, s.kind = none → TopOk s →
      run (decodeSliceElems (decodeInterface F) fuel) s = (.ok ts, s') →
      Moved s s' (Item.encodeList ts) ∧ s'.kind = none ∧
        ∀ tos ∈ s'.stack.head?, tos.pos = tos.size
  | 0, _, _, _, _, _, h => by cases h
  | fuel + 1, s, s', ts, hk, htop, h => by
    rw [decodeSliceElems, run_bind, run_attempt] at h
    rcases hrun : run (decodeInterface F) s with ⟨e | t, s₁⟩ <;> rw [hrun] at h
    · -- `EOL` ends the list, at its end; any other error is passed on
      cases e
      case eol =>
        obtain ⟨⟨tos, rest, hstack, heq⟩, rfl⟩ := decodeInterface_eol F hk hrun
        simp only [run_pure, Prod.mk.injEq, Except.ok.injEq] at h
        obtain ⟨rfl, rfl⟩ := h
        refine ⟨(moved_nil htop).congr rfl rfl rfl rfl, hk, fun t ht => ?_⟩
        simp only [hstack, List.head?_cons, Option.mem_def, Option.some.injEq] at ht
        exact ht ▸ heq
      all_goals simp at h
    -- an element, and the others after it
    simp only at h
    rw [run_bind] at h
    rcases hrest : run (decodeSliceElems (decodeInterface F) fuel) s₁ with ⟨_ | vs, s₂⟩ <;>
      rw [hrest] at h
    · cases h
    simp only [run_pure, Prod.mk.injEq, Except.ok.injEq] at h
    obtain ⟨rfl, rfl⟩ := h
    obtain ⟨hm₁, hk₁⟩ := hdec hk htop hrun
    obtain ⟨hm₂, hk₂, hend⟩ := decodeSliceElems_ok hdec fuel hk₁ hm₁.topOk hrest
    exact ⟨by simpa only [encodeList_cons] using hm₁.trans hm₂, hk₂, hend⟩

/-- **What the decoder reads is the encoding of what it returns.** -/
theorem decodeInterface_ok : ∀ (fuel : Nat) {s s' : Stream} {t : Item}, s.kind = none →
    TopOk s → run (decodeInterface fuel) s = (.ok t, s') → Moved s s' t.encode ∧ s'.kind = none
  | 0, _, _, _, _, _, h => by cases h
  | fuel + 1, s, s', t, hk, htop, h => by
    rw [decodeInterface, run_bind] at h
    rcases hK : run Stream.Kind s with ⟨_ | ⟨k, size⟩, s₁⟩ <;> rw [hK] at h
    · cases h
    -- the header
    obtain ⟨hmK, hk₁, herr₁, hsize₁, hfitErr, -⟩ := Kind_fresh_moved hk htop hK
    simp only at h
    split_ifs at h with hlist
    · -- a list: its elements fill it
      subst hlist
      rw [run_bind] at h
      rcases hsl : run (decodeListSlice (decodeInterface fuel) fuel) s₁ with ⟨_ | ts, s₃⟩ <;>
        rw [hsl] at h
      · cases h
      simp only [run_pure, Prod.mk.injEq, Except.ok.injEq] at h
      obtain ⟨rfl, rfl⟩ := h
      have hfits : ∀ tos ∈ s₁.stack.head?, tos.pos.toNat + s₁.size.toNat ≤ tos.size.toNat := by
        rw [hsize₁]
        exact fitsTop_of_fitErr hmK.topOk hfitErr
      obtain ⟨hm₃, hk₃, hlen⟩ := decodeListSlice_ok hk₁ herr₁ hfits
        (fun hsl' => (decodeSliceElems_ok (decodeInterface_ok fuel) fuel rfl (topOk_enter _)
          hsl').imp_right And.right)
        hsl
      refine ⟨?_, hk₃⟩
      rw [encode_list, hlen, hsize₁]
      exact hmK.trans hm₃
    · -- a string, read by `Bytes`
      rw [run_bind] at h
      rcases hb : run bytes s₁ with ⟨_ | b, s₃⟩ <;> rw [hb] at h
      · cases h
      simp only [run_pure, Prod.mk.injEq, Except.ok.injEq] at h
      obtain ⟨rfl, rfl⟩ := h
      exact Kind_bytes_ok hk htop hK hb

/-! ### `DecodeBytes` -/

theorem run_decode (s : Stream) :
    run Stream.decode s = run (decodeInterface (s.input.length + 1)) s := by
  rw [Stream.decode, run_bind, run_get]

/-- The stream `DecodeBytes` reads `b` with: limited to the length of `b`. -/
theorem newStream_bytes (b : List UInt8) :
    newStream b true (UInt64.ofNat b.length) =
      ⟨b, UInt64.ofNat b.length, true, none, 0, 0, none, []⟩ := by
  unfold newStream
  split_ifs with hpos hsized
  · rfl
  · rfl
  · exact absurd rfl hsized

/-- **Every item is encoded, and its encoding decodes to the item**, for an encoding whose
length fits a `uint64`. -/
theorem decode_encode (t : Item) (hsize : t.encode.length < 2 ^ 64) :
    encodeToBytes t.toValue = .ok (some t.encode) ∧ decodeBytes t.encode = .ok t := by
  refine ⟨encodeToBytes_item t hsize, ?_⟩
  have hfit : Fits (newStream t.encode true (UInt64.ofNat t.encode.length)) t.encode.length := by
    rw [newStream_bytes]
    exact ⟨fun tos htos => by simp at htos, fun _ => (UInt64.toNat_ofNat_of_lt' hsize).ge⟩
  obtain ⟨s', hrun, hm, -⟩ := run_decodeInterface t (t.encode.length + 1) _ [] (by omega) hsize
    (by rw [newStream_bytes]) (by rw [newStream_bytes, List.append_nil]) hfit
  -- the whole input was read
  have hnil : s'.input = [] := by
    have hin := hm.input
    rw [newStream_bytes] at hin
    exact List.append_cancel_left (hin.symm.trans (List.append_nil _).symm)
  have hlen : (newStream t.encode true (UInt64.ofNat t.encode.length)).input.length =
      t.encode.length := by
    rw [newStream_bytes]
  rw [decodeBytes, run_decode, hlen, hrun]
  simp [hnil]

theorem decode_encode_list :
    encodeToBytes (Item.list [.bytes [], .bytes (List.replicate 56 7)]).toValue =
        .ok (some (Item.list [.bytes [], .bytes (List.replicate 56 7)]).encode) ∧
      decodeBytes (Item.list [.bytes [], .bytes (List.replicate 56 7)]).encode =
        .ok (Item.list [.bytes [], .bytes (List.replicate 56 7)]) :=
  decode_encode (.list [.bytes [], .bytes (List.replicate 56 7)]) (by decide +kernel)

/-- **`DecodeBytes` accepts only canonical encodings**: whatever it decodes `b` to, the
encoder writes exactly `b` for it. -/
theorem decodeBytes_canonical (b : List UInt8) (t : Item) (h : decodeBytes b = .ok t) :
    encodeToBytes t.toValue = .ok (some b) := by
  unfold decodeBytes at h
  rcases hrun : run Stream.decode (newStream b true (UInt64.ofNat b.length)) with
    ⟨_ | v, s'⟩ <;> rw [hrun] at h
  · cases h
  -- no trailing bytes
  by_cases hrest : s'.input.length > 0
  · simp [hrest] at h
  simp only [hrest, if_false, Except.ok.injEq] at h
  subst h
  rw [run_decode] at hrun
  obtain ⟨hm, -⟩ := decodeInterface_ok _ (by rw [newStream_bytes])
    (by rw [newStream_bytes]; intro tos htos; simp at htos) hrun
  have hnil : s'.input = [] := List.eq_nil_of_length_eq_zero (by omega)
  have hb : b = v.encode := by
    have hin := hm.input
    rw [newStream_bytes, hnil, List.append_nil] at hin
    exact hin
  -- what was read fits the limit, which is a `uint64`
  have hfit := hm.fits.2
  rw [newStream_bytes] at hfit
  have hlen : v.encode.length < 2 ^ 64 :=
    lt_of_le_of_lt (hfit rfl) (UInt64.toNat_lt _)
  rw [hb]
  exact encodeToBytes_item v hlen

theorem decodeBytes_canonical_string :
    decodeBytes [0x82, 0x61, 0x62] = .ok (.bytes [0x61, 0x62]) ∧
      encodeToBytes (Item.bytes [0x61, 0x62]).toValue = .ok (some [0x82, 0x61, 0x62]) :=
  have h : decodeBytes [0x82, 0x61, 0x62] = .ok (.bytes [0x61, 0x62]) := by rfl
  ⟨h, decodeBytes_canonical _ _ h⟩

end Rlp
