import Dsplinz.Rlp.StreamBounds

/-!
# What the stream's methods read

Specifications of the stream's methods on the bytes of canonical headers and payloads,
in both directions: given such bytes and room for them, a method returns what they
stand for (`run_*` lemmas), and when a method succeeds, the bytes it consumed are such
bytes (`*_ok` lemmas). `Rlp.Stream.Moved` says which bytes were consumed and how the
innermost list and the input limit counted them.

These are the steps of the round trip of `Dsplinz.Rlp.RoundTrip`.
-/

namespace Rlp.Stream

open ExceptState BigEndian

/-! ### Consuming bytes -/

/-- The innermost list has not been read past its end. -/
def TopOk (s : Stream) : Prop :=
  ∀ tos ∈ s.stack.head?, tos.pos ≤ tos.size

/-- `k` more bytes fit, in what is left of the innermost list and within the input limit. -/
def Fits (s : Stream) (k : Nat) : Prop :=
  (∀ tos ∈ s.stack.head?, tos.pos.toNat + k ≤ tos.size.toNat) ∧
    (s.limited = true → k ≤ s.remaining.toNat)

/-- **`s'` is `s` after reading the bytes `piece`**, which fitted: they are gone from the
input, and counted in the innermost list and in the input limit. -/
structure Moved (s s' : Stream) (piece : List UInt8) : Prop where
  input : s.input = piece ++ s'.input
  fits : Fits s piece.length
  limited : s'.limited = s.limited
  remaining : s'.remaining =
    if s.limited then s.remaining - UInt64.ofNat piece.length else s.remaining
  stack : s'.stack = advance s.stack (UInt64.ofNat piece.length)

/-- A count no larger than some `UInt64` survives the conversion to `UInt64`. -/
theorem toNat_ofNat_of_le {k : Nat} {x : UInt64} (h : k ≤ x.toNat) :
    (UInt64.ofNat k).toNat = k :=
  UInt64.toNat_ofNat_of_lt' (lt_of_le_of_lt h x.toNat_lt_size)

theorem room_of_fits {s : Stream} {k : Nat} (h : Fits s k) : Room s (UInt64.ofNat k) := by
  refine ⟨fun tos htos => ?_, fun hl => ?_⟩
  · have hle := h.1 tos htos
    have hk : (UInt64.ofNat k).toNat = k :=
      toNat_ofNat_of_le (x := tos.size) (by omega)
    have hpos : tos.pos ≤ tos.size := UInt64.le_iff_toNat_le.mpr (by omega)
    rw [gt_iff_lt, UInt64.lt_iff_toNat_lt, UInt64.toNat_sub_of_le _ _ hpos, hk]
    omega
  · have hle := h.2 hl
    have hk : (UInt64.ofNat k).toNat = k :=
      toNat_ofNat_of_le (x := s.remaining) (by omega)
    rw [gt_iff_lt, UInt64.lt_iff_toNat_lt, hk]
    omega

theorem fits_of_room {s : Stream} {n : UInt64} (htop : TopOk s) (h : Room s n) :
    Fits s n.toNat := by
  refine ⟨fun tos htos => ?_, fun hl => ?_⟩
  · have hover := h.1 tos htos
    have hpos := htop tos htos
    rw [gt_iff_lt, UInt64.lt_iff_toNat_lt, UInt64.toNat_sub_of_le _ _ hpos, not_lt] at hover
    rw [UInt64.le_iff_toNat_le] at hpos
    omega
  · have hover := h.2 hl
    rw [gt_iff_lt, UInt64.lt_iff_toNat_lt, not_lt] at hover
    exact hover

theorem Fits.topOk {s : Stream} {k : Nat} (h : Fits s k) : TopOk s := fun tos htos =>
  UInt64.le_iff_toNat_le.mpr (by have := h.1 tos htos; omega)

theorem Fits.mono {s : Stream} {j k : Nat} (h : Fits s k) (hjk : j ≤ k) : Fits s j :=
  ⟨fun tos htos => by have := h.1 tos htos; omega, fun hl => by have := h.2 hl; omega⟩

/-- After `a` of `a + b` bytes that fit, the other `b` fit. -/
theorem Fits.after {s : Stream} {a b : Nat} (h : Fits s (a + b)) (inp : List UInt8) :
    Fits { reserve s (UInt64.ofNat a) with input := inp } b := by
  refine ⟨fun tos htos => ?_, fun hl => ?_⟩
  · cases hstack : s.stack with
    | nil => simp [reserve, hstack, advance] at htos
    | cons t rest =>
      simp only [reserve, hstack, advance, List.head?_cons, Option.mem_def,
        Option.some.injEq] at htos
      subst htos
      have hle := h.1 t (by simp [hstack])
      have ha : (UInt64.ofNat a).toNat = a :=
      toNat_ofNat_of_le (x := t.size) (by omega)
      have hsum : (t.pos + UInt64.ofNat a).toNat = t.pos.toNat + a := by
        rw [UInt64.toNat_add, ha, Nat.mod_eq_of_lt (by have := UInt64.toNat_lt t.size; omega)]
      simp only [hsum]
      omega
  · simp only [reserve] at hl ⊢
    have hle := h.2 hl
    have ha : (UInt64.ofNat a).toNat = a :=
      toNat_ofNat_of_le (x := s.remaining) (by omega)
    rw [if_pos hl, UInt64.toNat_sub_of_le _ _ (UInt64.le_iff_toNat_le.mpr (by omega)), ha]
    omega

theorem advance_advance (stack : List Listpos) (a b : UInt64) :
    advance (advance stack a) b = advance stack (a + b) := by
  cases stack with
  | nil => rfl
  | cons tos rest => simp [advance, UInt64.add_assoc]

/-- Reading the bytes `piece` with room for them. -/
theorem moved_reserve {s : Stream} {piece rest : List UInt8} (hin : s.input = piece ++ rest)
    (hfit : Fits s piece.length) :
    Moved s { reserve s (UInt64.ofNat piece.length) with input := rest } piece :=
  ⟨hin, hfit, rfl, rfl, rfl⟩

/-- Reading two pieces one after the other. -/
theorem Moved.trans {s₁ s₂ s₃ : Stream} {p₁ p₂ : List UInt8} (h₁ : Moved s₁ s₂ p₁)
    (h₂ : Moved s₂ s₃ p₂) : Moved s₁ s₃ (p₁ ++ p₂) := by
  obtain ⟨hin₁, hfit₁, hlim₁, hrem₁, hst₁⟩ := h₁
  obtain ⟨hin₂, hfit₂, hlim₂, hrem₂, hst₂⟩ := h₂
  have hofNat :
      UInt64.ofNat (p₁ ++ p₂).length = UInt64.ofNat p₁.length + UInt64.ofNat p₂.length := by
    rw [List.length_append, UInt64.ofNat_add]
  refine ⟨by rw [hin₁, hin₂, List.append_assoc], ⟨fun tos htos => ?_, fun hl => ?_⟩,
    hlim₂.trans hlim₁, ?_, ?_⟩
  · -- the two pieces fit one after the other in the innermost list
    cases hstack : s₁.stack with
    | nil => simp [hstack] at htos
    | cons t rest =>
      simp only [hstack, List.head?_cons, Option.mem_def, Option.some.injEq] at htos
      subst htos
      have h1 := hfit₁.1 t (by simp [hstack])
      have h2 := hfit₂.1 { t with pos := t.pos + UInt64.ofNat p₁.length }
        (by simp [hst₁, hstack, advance])
      have hp : (UInt64.ofNat p₁.length).toNat = p₁.length :=
      toNat_ofNat_of_le (x := t.size) (by omega)
      have hsum : (t.pos + UInt64.ofNat p₁.length).toNat = t.pos.toNat + p₁.length := by
        rw [UInt64.toNat_add, hp, Nat.mod_eq_of_lt (by have := UInt64.toNat_lt t.size; omega)]
      simp only [hsum] at h2
      rw [List.length_append]
      omega
  · have h1 := hfit₁.2 hl
    have h2 := hfit₂.2 (hlim₁ ▸ hl)
    rw [hrem₁, if_pos hl] at h2
    have hp : (UInt64.ofNat p₁.length).toNat = p₁.length :=
      toNat_ofNat_of_le (x := s₁.remaining) (by omega)
    rw [UInt64.toNat_sub_of_le _ _ (UInt64.le_iff_toNat_le.mpr (by omega)), hp] at h2
    rw [List.length_append]
    omega
  · rw [hrem₂, hrem₁, hlim₁, hofNat]
    split
    · grind
    · rfl
  · rw [hst₂, hst₁, advance_advance, hofNat]

/-- Changing fields that `Moved` does not read. -/
theorem Moved.congr {s s' s'' : Stream} {piece : List UInt8} (h : Moved s s' piece)
    (hin : s''.input = s'.input) (hlim : s''.limited = s'.limited)
    (hrem : s''.remaining = s'.remaining) (hst : s''.stack = s'.stack) : Moved s s'' piece :=
  ⟨hin ▸ h.input, h.fits, hlim ▸ h.limited, hrem ▸ h.remaining, hst ▸ h.stack⟩

/-- Changing fields of the start that `Moved` does not read. -/
theorem Moved.congr_left {s s₁ s' : Stream} {piece : List UInt8} (h : Moved s₁ s' piece)
    (hin : s.input = s₁.input) (hlim : s.limited = s₁.limited)
    (hrem : s.remaining = s₁.remaining) (hst : s.stack = s₁.stack) : Moved s s' piece := by
  obtain ⟨hin₁, ⟨htop, hbudget⟩, hlim₁, hrem₁, hst₁⟩ := h
  refine ⟨hin.trans hin₁, ⟨fun tos htos => htop tos (hst ▸ htos), fun hl => ?_⟩,
    hlim₁.trans hlim.symm, by rw [hrem₁, hlim, hrem], by rw [hst₁, hst]⟩
  rw [hrem]
  exact hbudget (hlim ▸ hl)

/-- What fits after a piece that was read. -/
theorem Moved.fits_rest {s s' : Stream} {piece : List UInt8} {k : Nat} (h : Moved s s' piece)
    (hfit : Fits s (piece.length + k)) : Fits s' k := by
  have := hfit.after (a := piece.length) (b := k) s'.input
  refine ⟨fun tos htos => this.1 tos ?_, fun hl => ?_⟩
  · simpa [reserve, h.stack] using htos
  · have h2 := this.2 (by simpa [reserve, h.limited] using hl)
    simpa [reserve, h.remaining, h.limited] using h2

theorem Moved.topOk {s s' : Stream} {piece : List UInt8} (h : Moved s s' piece) : TopOk s' :=
  (h.fits_rest (k := 0) (by simpa using h.fits)).topOk

/-- Reading nothing. -/
theorem moved_nil {s : Stream} (h : TopOk s) : Moved s s [] := by
  refine ⟨rfl, ⟨fun tos htos => ?_, fun _ => Nat.zero_le _⟩, rfl, ?_, ?_⟩
  · have := UInt64.le_iff_toNat_le.mp (h tos htos)
    simpa using this
  · split <;> simp
  · cases hstack : s.stack with
    | nil => rfl
    | cons tos rest => simp [advance]

/-! ### Size fields -/

/-- A size that fits a `uint64` takes at most eight bytes. -/
theorem byteLen_le_eight {n : Nat} (hn : n < 2 ^ 64) : byteLen n ≤ 8 :=
  byteLen_le (by norm_num) (lt_of_lt_of_eq hn (by norm_num))

/-- `readUint` reads a number `n` in its shortest big-endian form: the size field of a
long header, or the contents of an integer. -/
theorem run_readUint_size {s : Stream} {n : Nat} {rest : List UInt8}
    (hn : n < 2 ^ 64) (hin : s.input = lowBytes n (byteLen n) ++ rest)
    (hfit : Fits s (byteLen n)) :
    ∃ s', run (readUint (UInt8.ofNat (byteLen n))) s = (.ok (UInt64.ofNat n), s') ∧
      Moved s s' (lowBytes n (byteLen n)) ∧ s'.kind = none := by
  have h1 := one_le_byteLen n
  have h8 := byteLen_le_eight hn
  have hk : (UInt8.ofNat (byteLen n)).toNat = byteLen n := by
    rw [toNat_ofNat_byte]
    omega
  have hroom := room_of_fits hfit
  have hmoved := moved_reserve hin (by simpa using hfit)
  rw [length_lowBytes] at hmoved
  refine ⟨_, ?_, hmoved, rfl⟩
  have hzero : UInt8.ofNat (byteLen n) ≠ 0 := by
    intro h0
    have := congrArg UInt8.toNat h0
    rw [hk, UInt8.toNat_zero] at this
    omega
  rw [readUint, if_neg hzero]
  by_cases hsmall : n < 256
  · -- one byte, read with `readByte`
    have hone : byteLen n = 1 := byteLen_of_lt hsmall
    have hbyte : lowBytes n (byteLen n) = [UInt8.ofNat n] := by
      simp [hone, lowBytes_succ]
    rw [hbyte] at hin
    rw [hone] at hroom ⊢
    rw [if_pos (by decide), run_bind_ok (run_readByte hroom hin)]
    have hval : (UInt8.ofNat n).toUInt64 = UInt64.ofNat n := by
      apply UInt64.toNat_inj.mp
      rw [UInt8.toNat_toUInt64, toNat_ofNat_byte, Nat.mod_eq_of_lt hsmall,
        UInt64.toNat_ofNat_of_lt' (lt_trans hsmall (by decide))]
    simp [hval]
  · -- two to eight bytes, the first of them not zero, read with `readFull`
    have htwo : byteLen n ≠ 1 := by
      intro hone
      have := lt_pow_byteLen n
      rw [hone] at this
      omega
    have hne : UInt8.ofNat (byteLen n) ≠ 1 := by
      intro h1'
      have := congrArg UInt8.toNat h1'
      rw [hk, UInt8.toNat_one] at this
      exact htwo this
    have hsize : (UInt8.ofNat (byteLen n)).toUInt64 = UInt64.ofNat (byteLen n) := by
      apply UInt64.toNat_inj.mp
      rw [UInt8.toNat_toUInt64, hk, UInt64.toNat_ofNat_of_lt' (lt_of_le_of_lt h8 (by decide))]
    have hhead : (lowBytes n (byteLen n)).headD 0 ≠ 0 := by
      obtain ⟨b, bs, hlow, hb⟩ := head_lowBytes_byteLen (by omega : 256 ≤ n)
      rw [hlow]
      exact hb
    have hvalue : value (lowBytes n (byteLen n)) = n := by
      rw [value_lowBytes, Nat.mod_eq_of_lt (lt_pow_byteLen n)]
    rw [if_neg hne, hsize, run_bind_ok (run_readFull hroom hin (by
      rw [length_lowBytes, UInt64.toNat_ofNat_of_lt' (lt_of_le_of_lt h8 (by decide))]))]
    simpa [hvalue] using hhead

/-- Reading `n` bytes reserved with room for them. -/
theorem moved_of_room {s : Stream} {n : UInt64} {piece : List UInt8} (htop : TopOk s)
    (hroom : Room s n) (hin : s.input = piece ++ (s'input : List UInt8)) (hlen : piece.length = n.toNat) :
    Moved s { reserve s n with input := s'input } piece := by
  have hfit : Fits s piece.length := hlen ▸ fits_of_room htop hroom
  have hn : UInt64.ofNat piece.length = n := by
    rw [hlen, UInt64.ofNat_toNat]
  have := moved_reserve hin hfit
  rwa [hn] at this

/-- `readUint` of no bytes reads nothing, and is `0`. -/
theorem run_readUint_zero (s : Stream) :
    run (readUint 0) s = (.ok 0, { s with kind := none }) := by
  simp [readUint, rearm]

/-- What `readUint` reads when it reads at least one byte: the value it returns, in its
shortest big-endian form of `size` bytes. -/
theorem readUint_ok {s s' : Stream} {size : UInt8} {v : UInt64} (h8 : size ≤ 8)
    (htop : TopOk s) (h : run (readUint size) s = (.ok v, s')) (h0 : size ≠ 0) :
    Moved s s' (lowBytes v.toNat (byteLen v.toNat)) ∧ byteLen v.toNat = size.toNat := by
  rw [readUint, if_neg h0] at h
  by_cases h1 : size = 1
  · -- one byte, read with `readByte`
    rw [if_pos h1, run_bind] at h
    rcases hrb : run readByte s with ⟨_ | b, s₁⟩ <;> rw [hrb] at h
    · cases h
    · simp only [run_pure, Prod.mk.injEq, Except.ok.injEq] at h
      obtain ⟨rfl, rfl⟩ := h
      obtain ⟨hroom, hin, hs₁⟩ := readByte_ok hrb
      have hb : b.toUInt64.toNat = b.toNat := UInt8.toNat_toUInt64 b
      have hone : byteLen b.toNat = 1 := byteLen_of_lt b.toNat_lt
      have hlow : lowBytes b.toNat 1 = [b] := by
        simp [lowBytes_succ, UInt8.ofNat_toNat]
      rw [hb, hone, hlow, h1, hs₁]
      exact ⟨moved_of_room htop hroom hin rfl, rfl⟩
  · -- two to eight bytes, read with `readFull`, the first of them not zero
    rw [if_neg h1, run_bind] at h
    rcases hrf : run (readFull size.toUInt64) s with ⟨_ | bs, s₁⟩ <;> rw [hrf] at h
    · cases h
    obtain ⟨hroom, hin, hlen, hs₁⟩ := readFull_ok hrf
    -- `simp` states the leading-zero check with `head?`
    by_cases hz : bs.head?.getD 0 = 0
    · simp [hz] at h
    simp [hz] at h
    obtain ⟨rfl, rfl⟩ := h
    have hsize : size.toUInt64.toNat = size.toNat := UInt8.toNat_toUInt64 size
    have hle : size.toNat ≤ 8 := UInt8.le_iff_toNat_le.mp h8
    obtain ⟨b, cs, rfl⟩ : ∃ b cs, bs = b :: cs := by
      cases bs with
      | nil => simp at hz
      | cons b cs => exact ⟨b, cs, rfl⟩
    have hb : b ≠ 0 := by simpa using hz
    have hfits : value (b :: cs) < 2 ^ 64 :=
      lt_of_lt_of_le (value_lt _) (by
        rw [hlen, hsize]
        calc 256 ^ size.toNat ≤ 256 ^ 8 := Nat.pow_le_pow_right (by norm_num) hle
          _ = 2 ^ 64 := by norm_num)
    have hval : (UInt64.ofNat (value (b :: cs))).toNat = value (b :: cs) :=
      UInt64.toNat_ofNat_of_lt' hfits
    have hbyte : byteLen (value (b :: cs)) = (b :: cs).length := byteLen_value hb
    rw [hval, hbyte, lowBytes_value, hs₁]
    exact ⟨moved_of_room htop hroom hin hlen, hlen.trans hsize⟩

/-! ### Headers -/

/-- **`readKind` after the tag `b`**, by the range `b` is in: a single byte, the header of
a short string or list, or the tag of a long one, whose size `readUint` reads next. -/
theorem run_readKind_tag {s s₁ : Stream} {b : UInt8} (h : run readByte s = (.ok b, s₁)) :
    run readKind s =
      if b < 0x80 then (.ok (.byte, 0, none), { s₁ with byteval := b })
      else if b < 0xB8 then (.ok (.string, (b - 0x80).toUInt64, none), { s₁ with byteval := 0 })
      else if b < 0xC0 then
        let r := run (readUint (b - 0xB7)) { s₁ with byteval := 0 }
        (.ok (sizeOf .string r.1), r.2)
      else if b < 0xF8 then (.ok (.list, (b - 0xC0).toUInt64, none), { s₁ with byteval := 0 })
      else
        let r := run (readUint (b - 0xF7)) { s₁ with byteval := 0 }
        (.ok (sizeOf .list r.1), r.2) := by
  rw [readKind, run_bind, run_attempt, h]
  simp only [run_bind, run_modify, run_ite, run_pure, run_attempt]

/-- The header `readKind` reads for a value of kind `k` and size `n`; a single byte `b`
is its own header. -/
def tagBytes : Rlp.Kind → Nat → UInt8 → List UInt8
  | .byte, _, b => [b]
  | .string, n, _ => header 0x80 0xB7 n
  | .list, n, _ => header 0xC0 0xF7 n

theorem toNat_add_tag {c : UInt8} {n : Nat} (h : c.toNat + n < 256) :
    (c + UInt8.ofNat n).toNat = c.toNat + n := by
  rw [UInt8.toNat_add, toNat_ofNat_byte, Nat.mod_eq_of_lt (by omega : n < 256)]
  exact Nat.mod_eq_of_lt h

theorem tag_sub (c x : UInt8) : c + x - c = x := by
  rw [UInt8.add_comm, UInt8.add_sub_cancel]

/-- The size a short header states, as `readKind` computes it from the tag. -/
theorem short_size {small : UInt8} {n : Nat} (hn : n < 256) :
    (small + UInt8.ofNat n - small).toUInt64 = UInt64.ofNat n := by
  apply UInt64.toNat_inj.mp
  rw [tag_sub, UInt8.toNat_toUInt64, toNat_ofNat_byte, Nat.mod_eq_of_lt hn,
    UInt64.toNat_ofNat_of_lt' (lt_trans hn (by decide))]

/-- The size a long header states, as `readKind` checks it. -/
theorem sizeOf_long (kind : Rlp.Kind) {n : Nat} (hlo : 56 ≤ n) (hn : n < 2 ^ 64) :
    sizeOf kind (.ok (UInt64.ofNat n)) = (kind, UInt64.ofNat n, none) := by
  have hval : (UInt64.ofNat n).toNat = n := UInt64.toNat_ofNat_of_lt' hn
  have hge : ¬ UInt64.ofNat n < 56 := by
    rw [UInt64.lt_iff_toNat_lt, hval]
    simp only [UInt64.reduceToNat]
    omega
  simp [sizeOf, hge]

/-- Reading the tag `b` of a header, with the rest of the header, `field`, fitting after it:
the stream `readKind` goes on with, whatever byte value it records. -/
theorem read_tag {s : Stream} {b : UInt8} (field : List UInt8) {rest : List UInt8}
    (hin : s.input = b :: field ++ rest) (hfit : Fits s (1 + field.length)) (v : UInt8) :
    run readByte s = (.ok b, { reserve s 1 with input := field ++ rest }) ∧
      Moved s { reserve s 1 with input := field ++ rest, byteval := v } [b] ∧
      Fits { reserve s 1 with input := field ++ rest, byteval := v } field.length := by
  have hfit₁ : Fits s [b].length := hfit.mono (by simp)
  have hin₁ : s.input = [b] ++ (field ++ rest) := hin
  have hm := moved_reserve hin₁ hfit₁
  refine ⟨run_readByte (room_of_fits hfit₁) hin,
    show Moved s { reserve s 1 with input := field ++ rest, byteval := v } [b] from
      hm.congr rfl rfl rfl rfl,
    hm.fits_rest (by simpa using hfit)⟩

/-- `readKind` reads a single byte below `0x80` as its own header. -/
theorem run_readKind_byte {s : Stream} {b : UInt8} {rest : List UInt8} (hb : b < 0x80)
    (hin : s.input = b :: rest) (hfit : Fits s 1) :
    ∃ s', run readKind s = (.ok (.byte, 0, none), s') ∧ Moved s s' [b] ∧ s'.byteval = b := by
  obtain ⟨hrb, hm, -⟩ := read_tag [] hin hfit b
  exact ⟨_, by rw [run_readKind_tag hrb, if_pos hb], hm, rfl⟩

/-- `readKind` reads the header of a string or a list of `n` bytes. -/
theorem run_readKind_header {s : Stream} {k : Rlp.Kind} {n : Nat} {b : UInt8}
    {rest : List UInt8} (hk : k ≠ .byte) (hn : n < 2 ^ 64)
    (hin : s.input = tagBytes k n b ++ rest) (hfit : Fits s (tagBytes k n b).length) :
    ∃ s', run readKind s = (.ok (k, UInt64.ofNat n, none), s') ∧ Moved s s' (tagBytes k n b) := by
  have h1 := one_le_byteLen n
  have h8 := byteLen_le_eight hn
  cases k with
  | byte => exact absurd rfl hk
  | string =>
    simp only [tagBytes, header] at hin hfit ⊢
    split_ifs at hin hfit ⊢ with hshort
    · have hb : (0x80 + UInt8.ofNat n).toNat = 128 + n := toNat_add_tag (by simp only [UInt8.reduceToNat]; omega)
      obtain ⟨hrb, hm, -⟩ := read_tag [] hin hfit 0
      refine ⟨_, ?_, hm⟩
      rw [run_readKind_tag hrb, if_neg (by simp only [UInt8.lt_iff_toNat_lt, hb, UInt8.reduceToNat]; omega),
        if_pos (by simp only [UInt8.lt_iff_toNat_lt, hb, UInt8.reduceToNat]; omega), short_size (by omega)]
    · have hb : (0xB7 + UInt8.ofNat (byteLen n)).toNat = 183 + byteLen n :=
        toNat_add_tag (by simp only [UInt8.reduceToNat]; omega)
      obtain ⟨hrb, hm, hfit₂⟩ := read_tag _ hin (by simpa [Nat.add_comm] using hfit) 0
      rw [length_lowBytes] at hfit₂
      obtain ⟨s₃, hread, hm₂, -⟩ := run_readUint_size hn rfl hfit₂
      refine ⟨s₃, ?_, hm.trans hm₂⟩
      rw [run_readKind_tag hrb, if_neg (by simp only [UInt8.lt_iff_toNat_lt, hb, UInt8.reduceToNat]; omega),
        if_neg (by simp only [UInt8.lt_iff_toNat_lt, hb, UInt8.reduceToNat]; omega),
        if_pos (by simp only [UInt8.lt_iff_toNat_lt, hb, UInt8.reduceToNat]; omega), tag_sub]
      simp only [hread, sizeOf_long _ (by omega : 56 ≤ n) hn]
  | list =>
    simp only [tagBytes, header] at hin hfit ⊢
    split_ifs at hin hfit ⊢ with hshort
    · have hb : (0xC0 + UInt8.ofNat n).toNat = 192 + n := toNat_add_tag (by simp only [UInt8.reduceToNat]; omega)
      obtain ⟨hrb, hm, -⟩ := read_tag [] hin hfit 0
      refine ⟨_, ?_, hm⟩
      rw [run_readKind_tag hrb, if_neg (by simp only [UInt8.lt_iff_toNat_lt, hb, UInt8.reduceToNat]; omega),
        if_neg (by simp only [UInt8.lt_iff_toNat_lt, hb, UInt8.reduceToNat]; omega),
        if_neg (by simp only [UInt8.lt_iff_toNat_lt, hb, UInt8.reduceToNat]; omega),
        if_pos (by simp only [UInt8.lt_iff_toNat_lt, hb, UInt8.reduceToNat]; omega), short_size (by omega)]
    · have hb : (0xF7 + UInt8.ofNat (byteLen n)).toNat = 247 + byteLen n :=
        toNat_add_tag (by simp only [UInt8.reduceToNat]; omega)
      obtain ⟨hrb, hm, hfit₂⟩ := read_tag _ hin (by simpa [Nat.add_comm] using hfit) 0
      rw [length_lowBytes] at hfit₂
      obtain ⟨s₃, hread, hm₂, -⟩ := run_readUint_size hn rfl hfit₂
      refine ⟨s₃, ?_, hm.trans hm₂⟩
      rw [run_readKind_tag hrb, if_neg (by simp only [UInt8.lt_iff_toNat_lt, hb, UInt8.reduceToNat]; omega),
        if_neg (by simp only [UInt8.lt_iff_toNat_lt, hb, UInt8.reduceToNat]; omega),
        if_neg (by simp only [UInt8.lt_iff_toNat_lt, hb, UInt8.reduceToNat]; omega),
        if_neg (by simp only [UInt8.lt_iff_toNat_lt, hb, UInt8.reduceToNat]; omega), tag_sub]
      simp only [hread, sizeOf_long _ (by omega : 56 ≤ n) hn]

/-- A short header is its tag. -/
theorem header_short {small large b : UInt8} (h2 : (b - small).toNat < 56) :
    header small large (b - small).toUInt64.toNat = [b] := by
  rw [UInt8.toNat_toUInt64, header, if_pos h2, UInt8.ofNat_toNat, UInt8.add_comm,
    UInt8.sub_add_cancel]

/-- A long header is its tag and the shortest form of the size. -/
theorem header_long {small large b : UInt8} {v : Nat} (hv : ¬ v < 56)
    (hk : byteLen v = (b - large).toNat) :
    header small large v = b :: lowBytes v (byteLen v) := by
  rw [header, if_neg hv, hk, UInt8.ofNat_toNat, UInt8.add_comm, UInt8.sub_add_cancel]

/-- The size field of a long header that `readKind` accepted. -/
theorem sizeOf_ok {kind kind' : Rlp.Kind} {s s' : Stream} {b large : UInt8} {size : UInt64}
    (h8 : b - large ≤ 8) (htop : TopOk s)
    (h : ((.ok (sizeOf kind (run (readUint (b - large)) s).1), (run (readUint (b - large)) s).2) :
      Except Error _ × Stream) = (.ok (kind', size, none), s')) :
    kind' = kind ∧ ¬ size.toNat < 56 ∧ byteLen size.toNat = (b - large).toNat ∧
      Moved s s' (lowBytes size.toNat (byteLen size.toNat)) := by
  rcases hru : run (readUint (b - large)) s with ⟨_ | v, s₃⟩ <;> rw [hru] at h
  · simp [sizeOf] at h
  by_cases hv : v < 56
  · simp [sizeOf, hv] at h
  simp only [sizeOf, hv, if_false, Prod.mk.injEq, Except.ok.injEq] at h
  obtain ⟨⟨rfl, rfl, -⟩, rfl⟩ := h
  -- a size field of no bytes would be `0`
  have h0 : b - large ≠ 0 := by
    intro h0
    rw [h0, run_readUint_zero] at hru
    simp only [Prod.mk.injEq, Except.ok.injEq] at hru
    rw [← hru.1] at hv
    exact hv (by decide)
  obtain ⟨hm, hk⟩ := readUint_ok h8 htop hru h0
  rw [UInt64.lt_iff_toNat_lt] at hv
  exact ⟨rfl, hv, hk, hm⟩

/-- **What `readKind` reads when it reports no error**: the header of the kind and size it
returns, a single byte below `0x80` standing for itself. -/
theorem readKind_ok {s s' : Stream} {k : Rlp.Kind} {size : UInt64} (htop : TopOk s)
    (h : run readKind s = (.ok (k, size, none), s')) :
    Moved s s' (tagBytes k size.toNat s'.byteval) ∧ (k = .byte → s'.byteval < 0x80 ∧ size = 0) := by
  rcases hrb : run readByte s with ⟨_ | b, s₁⟩
  · -- a failed `readByte` is reported as an error
    rw [readKind, run_bind, run_attempt, hrb] at h
    simp only [run_bind, run_get, run_ite, run_pure] at h
    split_ifs at h <;> simp at h
  obtain ⟨hroom, hin, hs₁⟩ := readByte_ok hrb
  have hm₁ : ∀ v, Moved s { s₁ with byteval := v } [b] := fun v => by
    rw [hs₁]
    exact (moved_of_room htop hroom hin rfl).congr rfl rfl rfl rfl
  rw [run_readKind_tag hrb] at h
  split_ifs at h with c1 c2 c3 c4
  · -- a single byte
    simp only [Prod.mk.injEq, Except.ok.injEq] at h
    obtain ⟨⟨rfl, rfl, -⟩, rfl⟩ := h
    exact ⟨hm₁ b, fun _ => ⟨c1, rfl⟩⟩
  · -- a short string header
    simp only [Prod.mk.injEq, Except.ok.injEq] at h
    obtain ⟨⟨rfl, rfl, -⟩, rfl⟩ := h
    have hle : (0x80 : UInt8) ≤ b := UInt8.not_lt.mp c1
    refine ⟨?_, (by simp)⟩
    rw [tagBytes, header_short (by
      rw [UInt8.toNat_sub_of_le _ _ hle]
      rw [UInt8.lt_iff_toNat_lt] at c2
      simp only [UInt8.reduceToNat] at c2 ⊢
      omega)]
    exact hm₁ 0
  · -- a long string header
    have h8 : b - 0xB7 ≤ 8 := by
      rw [UInt8.le_iff_toNat_le, UInt8.toNat_sub_of_le _ _ (by
        rw [UInt8.le_iff_toNat_le]; rw [UInt8.lt_iff_toNat_lt] at c2; simp only [UInt8.reduceToNat] at c2 ⊢; omega)]
      rw [UInt8.lt_iff_toNat_lt] at c3
      simp only [UInt8.reduceToNat] at c3 ⊢
      omega
    obtain ⟨rfl, hv, hk, hm₂⟩ := sizeOf_ok h8 (hm₁ 0).topOk h
    refine ⟨?_, (by simp)⟩
    rw [tagBytes, header_long hv hk]
    exact (hm₁ 0).trans hm₂
  · -- a short list header
    simp only [Prod.mk.injEq, Except.ok.injEq] at h
    obtain ⟨⟨rfl, rfl, -⟩, rfl⟩ := h
    have hle : (0xC0 : UInt8) ≤ b := UInt8.not_lt.mp c3
    refine ⟨?_, (by simp)⟩
    rw [tagBytes, header_short (by
      rw [UInt8.toNat_sub_of_le _ _ hle]
      rw [UInt8.lt_iff_toNat_lt] at c4
      simp only [UInt8.reduceToNat] at c4 ⊢
      omega)]
    exact hm₁ 0
  · -- a long list header
    have h8 : b - 0xF7 ≤ 8 := by
      rw [UInt8.le_iff_toNat_le, UInt8.toNat_sub_of_le _ _ (by
        rw [UInt8.le_iff_toNat_le]; rw [UInt8.lt_iff_toNat_lt] at c4; simp only [UInt8.reduceToNat] at c4 ⊢; omega)]
      have := b.toNat_lt
      simp only [UInt8.reduceToNat] at this ⊢
      omega
    obtain ⟨rfl, hv, hk, hm₂⟩ := sizeOf_ok h8 (hm₁ 0).topOk h
    refine ⟨?_, (by simp)⟩
    rw [tagBytes, header_long hv hk]
    exact (hm₁ 0).trans hm₂

/-! ### Kinds, strings and lists -/

/-- `Kind` caches no error for a value there is room for. -/
theorem fitErr_of_room {s : Stream} {n : UInt64} (h : Room s n) : fitErr s n = none := by
  unfold fitErr
  cases hstack : s.stack with
  | nil =>
    by_cases hl : s.limited = true
    · simp [hl, h.2 hl]
    · simp [hl]
  | cons tos rest => simp [h.1 tos (by simp [hstack])]

/-- A value for which `Kind` caches no error fits in what is left of the innermost list. -/
theorem fitsTop_of_fitErr {s : Stream} {n : UInt64} (htop : TopOk s) (h : fitErr s n = none) :
    ∀ tos ∈ s.stack.head?, tos.pos.toNat + n.toNat ≤ tos.size.toNat := by
  intro tos htos
  obtain ⟨rest, hstack⟩ : ∃ rest, s.stack = tos :: rest := by
    cases hs : s.stack with
    | nil => simp [hs] at htos
    | cons t r => exact ⟨r, by simp_all⟩
  have hover : ¬ n > tos.size - tos.pos := by
    intro hover
    simp [fitErr, hstack, hover] at h
  have hle := htop tos htos
  rw [gt_iff_lt, UInt64.lt_iff_toNat_lt, not_lt, UInt64.toNat_sub_of_le _ _ hle] at hover
  rw [UInt64.le_iff_toNat_le] at hle
  omega

/-- **`Kind` with nothing cached** reads a header with `readKind`, and caches the kind
and size it returns when the value fits. -/
theorem run_Kind_fresh {s s₂ : Stream} {k : Rlp.Kind} {size : UInt64} (hk : s.kind = none)
    (hnot : ∀ tos rest, s.stack = tos :: rest → tos.pos ≠ tos.size)
    (hread : run readKind { s with kinderr := none } = (.ok (k, size, none), s₂))
    (hroom : Room s₂ size) :
    run Stream.Kind s = (.ok (k, size), { s₂ with kind := some k, size := size, kinderr := none }) := by
  rw [run_Kind_read hk hnot, hread]
  simp [fitErr_of_room hroom, cachedResult]

theorem Kind_fresh_ok {s s' : Stream} {k : Rlp.Kind} {size : UInt64} (hk : s.kind = none)
    (h : run Stream.Kind s = (.ok (k, size), s')) :
    ∃ s₂, run readKind { s with kinderr := none } = (.ok (k, size, none), s₂) ∧
      fitErr s₂ size = none ∧ s' = { s₂ with kind := some k, size := size, kinderr := none } := by
  by_cases hend : ∃ tos rest, s.stack = tos :: rest ∧ tos.pos = tos.size
  · obtain ⟨tos, rest, hstack, heq⟩ := hend
    rw [run_Kind_eol hk hstack heq] at h
    cases h
  rw [run_Kind_read hk fun tos rest hs heq => hend ⟨tos, rest, hs, heq⟩] at h
  rcases hrun : run readKind { s with kinderr := none } with ⟨_ | ⟨k', sz, err⟩, s₂⟩ <;>
    rw [hrun] at h
  · cases h
  -- the value is returned only when neither `readKind` nor the fit check reported an error
  cases err with
  | some e => simp [cachedResult] at h
  | none =>
    cases hfit : fitErr s₂ sz with
    | some e => simp [hfit, cachedResult] at h
    | none =>
      simp only [hfit, if_true, cachedResult, Prod.mk.injEq, Except.ok.injEq] at h
      obtain ⟨⟨rfl, rfl⟩, rfl⟩ := h
      exact ⟨s₂, rfl, hfit, rfl⟩

/-- **What `Kind` read when it reports a value**, from a stream with nothing cached: the
header of that kind and size, which it caches with no error. -/
theorem Kind_fresh_moved {s s' : Stream} {k : Rlp.Kind} {size : UInt64} (hk : s.kind = none)
    (htop : TopOk s) (h : run Stream.Kind s = (.ok (k, size), s')) :
    Moved s s' (tagBytes k size.toNat s'.byteval) ∧ s'.kind = some k ∧ s'.kinderr = none ∧
      s'.size = size ∧ fitErr s' size = none ∧ (k = .byte → s'.byteval < 0x80 ∧ size = 0) := by
  obtain ⟨s₂, hread, hfitErr, rfl⟩ := Kind_fresh_ok hk h
  obtain ⟨hm₁, hbyte⟩ := readKind_ok (s := { s with kinderr := none }) htop hread
  have hm : Moved s s₂ (tagBytes k size.toNat s₂.byteval) := hm₁.congr_left rfl rfl rfl rfl
  exact ⟨hm.congr rfl rfl rfl rfl, rfl, rfl, rfl, hfitErr, hbyte⟩

/-- **`Kind` reads the header of the next value**, of kind `k` and size `n`, when the
value fits. -/
theorem run_Kind_value {s : Stream} {k : Rlp.Kind} {n : Nat} {b : UInt8} {rest : List UInt8}
    (hk : s.kind = none) (hbyte : k = .byte → b < 0x80 ∧ n = 0) (hn : n < 2 ^ 64)
    (hin : s.input = tagBytes k n b ++ rest) (hfit : Fits s ((tagBytes k n b).length + n)) :
    ∃ s', run Stream.Kind s = (.ok (k, UInt64.ofNat n), s') ∧ Moved s s' (tagBytes k n b) ∧
      s'.kind = some k ∧ s'.kinderr = none ∧ s'.size = UInt64.ofNat n ∧
      (k = .byte → s'.byteval = b) := by
  have htag : 1 ≤ (tagBytes k n b).length := by
    cases k <;> simp [tagBytes, one_le_headerLen]
  -- the value takes a byte, so the innermost list is not at its end
  have hnot : ∀ tos rest, s.stack = tos :: rest → tos.pos ≠ tos.size := by
    intro tos rest hstack heq
    have := hfit.1 tos (by simp [hstack])
    rw [heq] at this
    omega
  let s₁ : Stream := { s with kinderr := none }
  have hfit₁ : Fits s₁ ((tagBytes k n b).length + n) := hfit
  have hin₁ : s₁.input = tagBytes k n b ++ rest := hin
  -- the header, read by `readKind`
  obtain ⟨s₂, hread, hm, hb⟩ : ∃ s₂, run readKind s₁ = (.ok (k, UInt64.ofNat n, none), s₂) ∧
      Moved s₁ s₂ (tagBytes k n b) ∧ (k = .byte → s₂.byteval = b) := by
    by_cases hkb : k = .byte
    · subst hkb
      obtain ⟨hb, rfl⟩ := hbyte rfl
      obtain ⟨s₂, hread, hm, hbv⟩ := run_readKind_byte hb hin₁ (hfit₁.mono (by simp [tagBytes]))
      exact ⟨s₂, hread, hm, fun _ => hbv⟩
    · obtain ⟨s₂, hread, hm⟩ := run_readKind_header hkb hn hin₁ (hfit₁.mono (by omega))
      exact ⟨s₂, hread, hm, fun h => absurd h hkb⟩
  -- the payload fits after it
  have hroom : Room s₂ (UInt64.ofNat n) := room_of_fits (hm.fits_rest hfit₁)
  have hm' : Moved s₁ { s₂ with kind := some k, size := UInt64.ofNat n, kinderr := none }
      (tagBytes k n b) := hm.congr rfl rfl rfl rfl
  exact ⟨_, run_Kind_fresh hk hnot hread hroom, hm'.congr_left (s := s) rfl rfl rfl rfl,
    rfl, rfl, rfl, hb⟩

theorem run_Kind_cached_ok {s : Stream} {k : Rlp.Kind} (hk : s.kind = some k)
    (herr : s.kinderr = none) : run Stream.Kind s = (.ok (k, s.size), s) := by
  rw [run_Kind_cached hk, herr]
  rfl

/-- A method that starts with `Kind` runs on from the stream `Kind` leaves, whose cache
returns the same kind and size again. -/
theorem run_bytes_of_Kind {s s₁ : Stream} {k : Rlp.Kind} {size : UInt64}
    (hK : run Stream.Kind s = (.ok (k, size), s₁)) (hk₁ : s₁.kind = some k)
    (herr : s₁.kinderr = none) (hsize : s₁.size = size) : run bytes s = run bytes s₁ := by
  rw [bytes, run_bind_ok hK, run_bind_ok (run_Kind_cached_ok hk₁ herr), hsize]

/-- `Bytes` after `Kind` cached a single byte: the byte. -/
theorem run_bytes_byte {s : Stream} (hk : s.kind = some .byte) (herr : s.kinderr = none) :
    run bytes s = (.ok [s.byteval], { s with kind := none }) := by
  rw [bytes, run_bind_ok (run_Kind_cached_ok hk herr)]
  simp [rearm, run_bind]

/-- `Bytes` after `Kind` cached a string: its contents, which are not a single byte
below `0x80`. -/
theorem run_bytes_string {s : Stream} {b rest : List UInt8} (hk : s.kind = some .string)
    (herr : s.kinderr = none) (hroom : Room s s.size) (hin : s.input = b ++ rest)
    (hlen : b.length = s.size.toNat) (hcanon : ¬ (s.size = 1 ∧ b.headD 0 < 128)) :
    run bytes s = (.ok b, { reserve s s.size with input := rest }) := by
  rw [bytes, run_bind_ok (run_Kind_cached_ok hk herr)]
  simp only
  rw [run_bind_ok (run_readFull hroom hin hlen)]
  simp only [run_pure, if_neg hcanon]

theorem bytes_string_ok {s s' : Stream} {b : List UInt8} (hk : s.kind = some .string)
    (herr : s.kinderr = none) (h : run bytes s = (.ok b, s')) :
    Room s s.size ∧ s.input = b ++ s'.input ∧ b.length = s.size.toNat ∧
      ¬ (s.size = 1 ∧ b.headD 0 < 128) ∧ s' = { reserve s s.size with input := s'.input } := by
  rw [bytes, run_bind_ok (run_Kind_cached_ok hk herr)] at h
  simp only at h
  rw [run_bind] at h
  rcases hrf : run (readFull s.size) s with ⟨_ | bs, s₁⟩ <;> rw [hrf] at h
  · cases h
  obtain ⟨hroom, hin, hlen, hs₁⟩ := readFull_ok hrf
  by_cases hcanon : s.size = 1 ∧ bs.headD 0 < 128
  · simp only [run_bind, run_throw, if_pos hcanon] at h
    cases h
  simp only [run_pure, if_neg hcanon, Prod.mk.injEq, Except.ok.injEq] at h
  obtain ⟨rfl, rfl⟩ := h
  exact ⟨hroom, hin, hlen, hcanon, hs₁⟩

/-- The stream inside the list of the size `Kind` cached, which `List` has just entered. -/
def enter (s : Stream) : Stream :=
  { s with stack := ⟨0, s.size⟩ :: s.stack, kind := none, size := 0 }

/-- `List` after `Kind` cached a list: it enters the list. -/
theorem run_list_cached {s : Stream} (hk : s.kind = some .list) (herr : s.kinderr = none) :
    run list s = (.ok s.size, enter s) := by
  rw [list, run_bind_ok (run_Kind_cached_ok hk herr)]
  simp [enter]

/-- `List` on a stream where `Kind` reads a list header: it enters that list. -/
theorem run_list_of_Kind {s s₁ : Stream} {size : UInt64}
    (hK : run Stream.Kind s = (.ok (.list, size), s₁)) (hsize : s₁.size = size) :
    run list s = (.ok size, enter s₁) := by
  rw [list, run_bind_ok hK]
  simp [enter, hsize]

/-- `ListEnd` at the end of the innermost list: it leaves the list, which counts as read in
the enclosing one. -/
theorem run_listEnd_end {s : Stream} {tos : Listpos} {rest : List Listpos}
    (hstack : s.stack = tos :: rest) (heq : tos.pos = tos.size) :
    run listEnd s = (.ok (), { s with stack := advance rest tos.size, kind := none, size := 0 }) := by
  rcases s with ⟨input, remaining, limited, kind, size, byteval, kinderr, stack⟩
  simp only at hstack
  subst hstack
  cases rest <;> simp [listEnd, run_bind, heq, advance]

/-- **Reading a list**: its payload `P`, read inside it, counts in the enclosing list once
`ListEnd` leaves it. -/
theorem Moved.close {s₁ s₂ : Stream} {P : List UInt8}
    (htop : ∀ tos ∈ s₁.stack.head?, tos.pos.toNat + s₁.size.toNat ≤ tos.size.toNat)
    (hlen : P.length = s₁.size.toNat) (hm : Moved (enter s₁) s₂ P) :
    run listEnd s₂ =
        (.ok (), { s₂ with stack := advance s₁.stack s₁.size, kind := none, size := 0 }) ∧
      Moved s₁ { s₂ with stack := advance s₁.stack s₁.size, kind := none, size := 0 } P := by
  have hP : UInt64.ofNat P.length = s₁.size := by
    rw [hlen, UInt64.ofNat_toNat]
  have hst : s₂.stack = ⟨s₁.size, s₁.size⟩ :: s₁.stack := by
    rw [hm.stack, hP]
    simp [enter, advance]
  refine ⟨run_listEnd_end hst rfl, hm.input, ⟨fun tos htos => hlen ▸ htop tos htos,
    fun hl => hm.fits.2 hl⟩, hm.limited, hm.remaining, ?_⟩
  rw [hP]

/-- The payload of a list read to its end is as long as the list. -/
theorem Moved.length_of_end {s₁ s₂ : Stream} {P : List UInt8} (hm : Moved (enter s₁) s₂ P)
    (hend : ∀ tos ∈ s₂.stack.head?, tos.pos = tos.size) : P.length = s₁.size.toNat := by
  have hfit := hm.fits.1 ⟨0, s₁.size⟩ (by simp [enter])
  have hpos := hend ⟨0 + UInt64.ofNat P.length, s₁.size⟩ (by simp [hm.stack, enter, advance])
  simp only [UInt64.zero_add] at hpos hfit
  rw [← hpos, toNat_ofNat_of_le (x := s₁.size) (by simpa using hfit)]

theorem topOk_enter (s : Stream) : TopOk (enter s) := by
  intro tos htos
  simp only [enter, List.head?_cons, Option.mem_def, Option.some.injEq] at htos
  subst htos
  exact UInt64.zero_le

/-! ### Inside a list -/

/-- After reading `piece` inside a list, the list's position has moved past it. -/
theorem Moved.stack_cons {s s' : Stream} {piece : List UInt8} {tos : Listpos}
    {st : List Listpos} (hm : Moved s s' piece) (hstack : s.stack = tos :: st)
    (hle : tos.pos.toNat + piece.length ≤ tos.size.toNat) :
    ∃ tos', s'.stack = tos' :: st ∧ tos'.size = tos.size ∧
      tos'.pos.toNat = tos.pos.toNat + piece.length := by
  refine ⟨{ tos with pos := tos.pos + UInt64.ofNat piece.length }, ?_, rfl, ?_⟩
  · rw [hm.stack, hstack]
    rfl
  · rw [UInt64.toNat_add, toNat_ofNat_of_le (x := tos.size) (by omega),
      Nat.mod_eq_of_lt (by have := UInt64.toNat_lt tos.size; omega)]

/-- `Bytes` at the end of the innermost list reports `EOL`. -/
theorem run_bytes_eol {s : Stream} {tos : Listpos} {st : List Listpos} (hk : s.kind = none)
    (hstack : s.stack = tos :: st) (heq : tos.pos = tos.size) :
    run bytes s = (.error .eol, { s with kinderr := none }) := by
  rw [bytes, run_bind_error (run_Kind_eol hk hstack heq)]

/-- `Raw` at the end of the innermost list reports `EOL`. -/
theorem run_raw_eol {s : Stream} {tos : Listpos} {st : List Listpos} (hk : s.kind = none)
    (hstack : s.stack = tos :: st) (heq : tos.pos = tos.size) :
    run raw s = (.error .eol, { s with kinderr := none }) := by
  rw [raw, run_bind_error (run_Kind_eol hk hstack heq)]

/-- `Bytes` rejects a list. -/
theorem run_bytes_list_header {s : Stream} {n : Nat} {rest : List UInt8} (hk : s.kind = none)
    (hn : n < 2 ^ 64) (hin : s.input = tagBytes .list n 0 ++ rest)
    (hfit : Fits s ((tagBytes .list n 0).length + n)) :
    ∃ s', run bytes s = (.error .expectedString, s') := by
  obtain ⟨s₁, hK, -⟩ := run_Kind_value (k := .list) hk (by simp) hn hin hfit
  refine ⟨s₁, ?_⟩
  rw [bytes, run_bind_ok hK]
  rfl

/-! ### Where `EOL` comes from

The decoder of a list reads elements until one reports `EOL`. Only `Kind` raises it, at the
end of the innermost list: every other method raises other errors only. -/

theorem raises_willRead (n : UInt64) : Raises (· ≠ Error.eol) (willRead n) := by
  intro s e h
  cases hstack : s.stack with
  | nil =>
    by_cases hl : s.limited = true <;> by_cases hn : n > s.remaining <;>
      simp [willRead, rearm, run_bind, hstack, hl, hn] at h
    subst h
    simp
  | cons tos rest =>
    by_cases hover : n > tos.size - tos.pos
    · simp [willRead, rearm, run_bind, hstack, hover] at h
      subst h
      simp
    · by_cases hl : s.limited = true <;> by_cases hn : n > s.remaining <;>
        simp [willRead, rearm, run_bind, hstack, hl, hn, hover] at h
      subst h
      simp

theorem raises_readByte : Raises (· ≠ Error.eol) readByte := by
  unfold readByte
  refine raises_bind (raises_willRead 1) fun _ => raises_bind raises_get fun s => ?_
  split
  · exact raises_throw (by simp)
  · exact raises_bind (raises_set _) fun _ => raises_pure _

theorem raises_readFull (n : UInt64) : Raises (· ≠ Error.eol) (readFull n) := by
  unfold readFull
  refine raises_bind (raises_willRead n) fun _ => raises_bind raises_get fun s => ?_
  refine raises_bind (raises_set _) fun _ => ?_
  simp only
  exact raises_ite (fun _ => raises_bind (raises_throw (by simp)) fun _ => raises_pure _)
    fun _ => raises_pure _

theorem raises_readUint (size : UInt8) : Raises (· ≠ Error.eol) (readUint size) := by
  unfold readUint rearm
  refine raises_ite (fun _ => raises_bind (raises_modify _) fun _ => raises_pure _) fun _ => ?_
  refine raises_ite (fun _ => raises_bind raises_readByte fun _ => raises_pure _) fun _ => ?_
  refine raises_bind (raises_readFull _) fun _ => ?_
  simp only
  exact raises_ite (fun _ => raises_bind (raises_throw (by simp)) fun _ => raises_pure _)
    fun _ => raises_pure _

theorem raises_listEnd : Raises (· ≠ Error.eol) listEnd := by
  unfold listEnd
  refine raises_bind raises_get fun s => ?_
  split
  · exact raises_throw (by simp)
  · simp only
    exact raises_ite (fun _ => raises_bind (raises_throw (by simp)) fun _ => raises_set _)
      fun _ => raises_set _

theorem raises_decodeSliceElems {α : Type} (elemdec : StreamM α) :
    ∀ fuel, Raises (· ≠ Error.eol) (decodeSliceElems elemdec fuel)
  | 0 => raises_throw (by simp)
  | fuel + 1 => by
    unfold decodeSliceElems
    refine raises_bind (raises_attempt _) fun r => ?_
    -- `EOL` from an element ends the list; every other error is passed on
    rcases r with (_ | _) | v
    all_goals first
      | exact raises_pure _
      | exact raises_throw (by simp)
      | exact raises_bind (raises_decodeSliceElems elemdec fuel) fun _ => raises_pure _

/-- `readKind` never fails: it returns its error, which is never `EOL`, with the kind. -/
theorem readKind_result (s : Stream) :
    ∃ k size err, (run readKind s).1 = .ok (k, size, err) ∧ err ≠ some .eol := by
  have hsize : ∀ (kind : Rlp.Kind) (r : Except Error UInt64), r ≠ .error .eol →
      (sizeOf kind r).2.2 ≠ some .eol := by
    intro kind r hr
    rcases r with e | v
    · simpa [sizeOf] using hr
    · by_cases hv : v < 56 <;> simp [sizeOf, hv]
  rcases hrb : run readByte s with ⟨e | b, s₁⟩
  · have he : e ≠ .eol := raises_readByte s e (by rw [hrb])
    rw [readKind, run_bind, run_attempt, hrb]
    simp only [run_bind, run_get, run_ite, run_pure]
    split_ifs
    · exact ⟨_, _, _, rfl, by simp⟩
    · exact ⟨_, _, _, rfl, by simpa using he⟩
  · rw [run_readKind_tag hrb]
    split_ifs
    · exact ⟨_, _, _, rfl, by simp⟩
    · exact ⟨_, _, _, rfl, by simp⟩
    · exact ⟨_, _, _, rfl, hsize _ _ fun h => raises_readUint _ _ _ h rfl⟩
    · exact ⟨_, _, _, rfl, by simp⟩
    · exact ⟨_, _, _, rfl, hsize _ _ fun h => raises_readUint _ _ _ h rfl⟩

/-- **`Kind` raises `EOL` only at the end of the innermost list**, and then changes
nothing but the cached error. -/
theorem Kind_eol {s s' : Stream} (hk : s.kind = none)
    (h : run Stream.Kind s = (.error .eol, s')) :
    (∃ tos rest, s.stack = tos :: rest ∧ tos.pos = tos.size) ∧ s' = { s with kinderr := none } := by
  by_cases hend : ∃ tos rest, s.stack = tos :: rest ∧ tos.pos = tos.size
  · obtain ⟨tos, rest, hstack, heq⟩ := hend
    rw [run_Kind_eol hk hstack heq] at h
    exact ⟨⟨tos, rest, hstack, heq⟩, (Prod.mk.inj h).2.symm⟩
  rw [run_Kind_read hk fun tos rest hs heq => hend ⟨tos, rest, hs, heq⟩] at h
  obtain ⟨k, sz, err, hres, herr⟩ := readKind_result { s with kinderr := none }
  rcases hrun : run readKind { s with kinderr := none } with ⟨r, s₂⟩
  rw [hrun] at hres h
  subst hres
  simp only at h
  -- the error cached is one of `readKind` or of the fit check, neither of them `EOL`
  have hfit : fitErr s₂ sz ≠ some .eol := by
    unfold fitErr
    split <;> split_ifs <;> simp
  have hne : (if err = none then fitErr s₂ sz else err) ≠ some .eol := by
    split_ifs
    · exact hfit
    · exact herr
  revert h hne
  generalize (if err = none then fitErr s₂ sz else err) = e'
  intro h hne
  cases e' with
  | none => simp [cachedResult] at h
  | some e =>
    simp only [cachedResult, Prod.mk.injEq, Except.error.injEq] at h
    exact absurd (h.1 ▸ rfl) hne

theorem decodeListSlice_ne_eol {α : Type} {elemdec : StreamM α} {fuel : Nat} {s : Stream}
    (hk : s.kind = some .list) (herr : s.kinderr = none) :
    (run (decodeListSlice elemdec fuel) s).1 ≠ .error .eol := by
  rw [decodeListSlice, run_bind_ok (run_list_cached hk herr)]
  intro h
  refine raises_ite (fun _ => raises_bind raises_listEnd fun _ => raises_pure _) (fun _ =>
    raises_bind (raises_decodeSliceElems elemdec fuel) fun _ =>
      raises_bind raises_listEnd fun _ => raises_pure _) _ _ h rfl

theorem bytes_ne_eol {s : Stream} {k : Rlp.Kind} (hk : s.kind = some k)
    (herr : s.kinderr = none) : (run bytes s).1 ≠ .error .eol := by
  rw [bytes, run_bind_ok (run_Kind_cached_ok hk herr)]
  intro h
  cases k with
  | byte => simp [rearm, run_bind] at h
  | string =>
    refine raises_bind (raises_readFull s.size) (fun _ => ?_) _ _ h rfl
    simp only
    exact raises_ite (fun _ => raises_bind (raises_throw (by simp)) fun _ => raises_pure _)
      fun _ => raises_pure _
  | list => simp at h

/-- **`decodeInterface` raises `EOL` only at the end of the innermost list**, before it
reads anything. -/
theorem decodeInterface_eol : ∀ (fuel : Nat) {s s' : Stream}, s.kind = none →
    run (decodeInterface fuel) s = (.error .eol, s') →
    (∃ tos rest, s.stack = tos :: rest ∧ tos.pos = tos.size) ∧ s' = { s with kinderr := none }
  | 0, _, _, _, h => by cases h
  | fuel + 1, s, s', hk, h => by
    rw [decodeInterface, run_bind] at h
    rcases hK : run Stream.Kind s with ⟨e | ⟨k, size⟩, s₁⟩ <;> rw [hK] at h
    · simp only [Prod.mk.injEq, Except.error.injEq] at h
      obtain ⟨rfl, rfl⟩ := h
      exact Kind_eol hk hK
    -- after a successful `Kind`, nothing raises `EOL`
    obtain ⟨s₂, -, -, rfl⟩ := Kind_fresh_ok hk hK
    exfalso
    simp only at h
    split_ifs at h with hlist
    · subst hlist
      rw [run_bind] at h
      have hne : (run (decodeListSlice (decodeInterface fuel) fuel)
          { s₂ with kind := some .list, size := size, kinderr := none }).1 ≠ .error .eol :=
        decodeListSlice_ne_eol rfl rfl
      rcases hrun : run (decodeListSlice (decodeInterface fuel) fuel)
        { s₂ with kind := some .list, size := size, kinderr := none } with ⟨_ | _, _⟩ <;>
        rw [hrun] at h hne <;> simp_all
    · rw [run_bind] at h
      have hne := bytes_ne_eol (s := { s₂ with kind := some k, size := size, kinderr := none })
        rfl rfl
      rcases hrun : run bytes { s₂ with kind := some k, size := size, kinderr := none } with
        ⟨_ | _, _⟩ <;> rw [hrun] at h hne <;> simp_all

end Rlp.Stream
