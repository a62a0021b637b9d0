import Dsplinz.Lib.Walk
import Dsplinz.Lib.ByteBitmap
import Dsplinz.Lib.GoBig
import Dsplinz.Vm.OpCodes

/-!
# Jump destination analysis

`core/vm/analysis.go` decides which bytes of a contract's code may be jumped to. It
computes once per code a bit vector with one bit per byte (`codeBitmap`), set when the
byte is data, the immediate of a `PUSHn`, and `destinations.has` accepts a destination
that holds a `JUMPDEST` and is not data. The cache that keeps one bit vector per code hash
is not modelled: `has` computes the bit vector of the code it is given, which is what the
cache returns for that code. Indexed stores and loads are `Option`-valued, `none` being
Go's index-out-of-range panic.

The results:

* `Vm.codeBitmap_spec` – `codeBitmap` never stores out of range, and the bit of a position
  is set iff it is data of the walk over the code (`Walk.InData pushWidth`), also past the
  end of the code, where the immediates of a trailing push lie;
* `Vm.has_exact` – `has` accepts exactly the destinations below `2 ^ 62` and the length of
  the code that hold a `JUMPDEST` on an instruction boundary;
* `Vm.jumpdest_analysis_exact` – for a code shorter than `2 ^ 62` bytes, which is every
  code a Go slice in memory can hold, the bound `dest.BitLen() >= 63` rejects nothing the
  length test does not, and `has` accepts exactly the `JUMPDEST`s on a boundary.
-/

namespace Vm

open OpCode ByteBitmap

/-- `bitvec`: bit `i` is set when byte `i` of the code is data, an immediate of a push. -/
abbrev Bitvec := List UInt8

namespace Bitvec

/-- `bits.set(pos)`: `bits[pos/8] |= 0x80 >> (pos % 8)`. -/
def set (bits : Bitvec) (pos : Nat) : Option Bitvec :=
  orAt bits (pos / 8) (0x80 >>> (pos % 8).toUInt8)

/-- `bits.set8(pos)`: the eight bits from `pos` on, which straddle two bytes. -/
def set8 (bits : Bitvec) (pos : Nat) : Option Bitvec := do
  let bits ← orAt bits (pos / 8) (0xFF >>> (pos % 8).toUInt8)
  orAt bits (pos / 8 + 1) (~~~(0xFF >>> (pos % 8).toUInt8))

/-- `bits.codeSegment(pos)`: the bit of `pos` is clear. -/
def codeSegment (bits : Bitvec) (pos : Nat) : Option Bool :=
  bits[pos / 8]?.map fun b => (b &&& (0x80 >>> (pos % 8).toUInt8)) == 0

end Bitvec

/-- The first inner loop of `codeBitmap`, over the whole bytes of an immediate:
`for ; numbits >= 8; numbits -= 8 { bits.set8(pc); pc += 8 }`. -/
def set8Loop (bits : Bitvec) (pc numbits : Nat) : Option (Bitvec × Nat × Nat) :=
  if 8 ≤ numbits then do
    let bits ← bits.set8 pc
    set8Loop bits (pc + 8) (numbits - 8)
  else some (bits, pc, numbits)
termination_by numbits
decreasing_by omega

/-- The second inner loop of `codeBitmap`, over the rest of an immediate:
`for ; numbits > 0; numbits-- { bits.set(pc); pc++ }`. -/
def setLoop (bits : Bitvec) (pc : Nat) : Nat → Option (Bitvec × Nat)
  | 0 => some (bits, pc)
  | numbits + 1 => do
    let bits ← bits.set pc
    setLoop bits (pc + 1) numbits

theorem le_of_set8Loop {bits bits' : Bitvec} {pc pc' numbits numbits' : Nat}
    (h : set8Loop bits pc numbits = some (bits', pc', numbits')) : pc ≤ pc' := by
  induction bits, pc, numbits using set8Loop.induct with
  | case1 bits pc numbits h8 ih =>
    rw [set8Loop, if_pos h8] at h
    cases hs : bits.set8 pc with
    | none => simp [hs] at h
    | some b =>
      simp only [hs, Option.bind_eq_bind, Option.bind_some] at h
      have := ih b h
      omega
  | case2 bits pc numbits h8 =>
    rw [set8Loop, if_neg h8] at h
    cases h
    exact Nat.le_refl _

theorem le_of_setLoop {bits bits' : Bitvec} {pc pc' : Nat} :
    ∀ {numbits : Nat}, setLoop bits pc numbits = some (bits', pc') → pc ≤ pc' := by
  intro numbits h
  induction numbits generalizing bits pc with
  | zero =>
    cases h
    exact Nat.le_refl _
  | succ n ih =>
    simp only [setLoop, Option.bind_eq_bind] at h
    cases hs : bits.set pc with
    | none => simp [hs] at h
    | some b =>
      simp only [hs, Option.bind_some] at h
      have := ih h
      omega

/-- The main loop of `codeBitmap`, from the byte at `pc`: a push marks its immediate as data
and is stepped over with it, any other byte is stepped over alone. -/
def codeBitmapLoop (code : List UInt8) (bits : Bitvec) (pc : Nat) : Option Bitvec :=
  if h : pc < code.length then
    let op := code[pc]
    if PUSH1 ≤ op ∧ op ≤ PUSH32 then
      match h8 : set8Loop bits (pc + 1) (op - PUSH1 + 1).toNat with
      | none => none
      | some (bits, pc8, numbits) =>
        match h1 : setLoop bits pc8 numbits with
        | none => none
        | some (bits, pc1) => codeBitmapLoop code bits pc1
    else codeBitmapLoop code bits (pc + 1)
  else some bits
termination_by code.length - pc
decreasing_by
  · have := le_of_set8Loop h8
    have := le_of_setLoop h1
    omega
  · omega

/-- `codeBitmap(code)`: the bit vector is allocated four bytes longer than the code needs,
for the immediate of a push at the end of the code. -/
def codeBitmap (code : List UInt8) : Option Bitvec :=
  codeBitmapLoop code (List.replicate (code.length / 8 + 1 + 4) 0) 0

/-- `d.has(codehash, code, dest)`: a destination of 63 bits or more, or past the end of the
code, is rejected before the analysis; otherwise it must hold a `JUMPDEST` that is code. -/
def has (code : List UInt8) (dest : Int) : Option Bool :=
  let udest := (GoBig.uint64 dest).toNat
  if h : 63 ≤ GoBig.bitLen dest ∨ code.length ≤ udest then some false
  else do
    let m ← codeBitmap code
    have hlt : udest < code.length := by omega
    if code[udest] = JUMPDEST then m.codeSegment udest else some false

/-! ### The walk the bit vector describes -/

/-- The size of the immediate of an opcode: `n` for `PUSHn`, none for any other. -/
def pushWidth (op : OpCode) : Nat :=
  if PUSH1 ≤ op ∧ op ≤ PUSH32 then (op - PUSH1 + 1).toNat else 0

/-- The size of an immediate on the number the opcode is. -/
theorem pushWidth_eq (op : OpCode) :
    pushWidth op = if 0x60 ≤ op.toNat ∧ op.toNat ≤ 0x7f then op.toNat - 0x5f else 0 := by
  have hiff : (PUSH1 ≤ op ∧ op ≤ PUSH32) ↔ (0x60 ≤ op.toNat ∧ op.toNat ≤ 0x7f) := by
    simp [PUSH1, PUSH32, UInt8.le_iff_toNat_le]
  unfold pushWidth
  by_cases h : PUSH1 ≤ op ∧ op ≤ PUSH32
  · rw [if_pos h, if_pos (hiff.mp h), UInt8.toNat_add, UInt8.toNat_sub_of_le _ _ h.1]
    have := hiff.mp h
    simp only [PUSH1, UInt8.reduceToNat]
    omega
  · rw [if_neg h, if_neg (mt hiff.mpr h)]

theorem pushWidth_le (op : OpCode) : pushWidth op ≤ 32 := by
  rw [pushWidth_eq]
  split <;> omega

/-! ### Stores into the bit vector -/

namespace Bitvec

/-- `set` marks exactly the bit of `pos`. -/
theorem set_spec {bits : Bitvec} {pos : Nat} (h : pos / 8 < bits.length) :
    ∃ bits', bits.set pos = some bits' ∧ bits'.length = bits.length ∧
      ∀ p, bitAt bits' p = (bitAt bits p || decide (p = pos)) := by
  obtain ⟨b, hb⟩ : ∃ b, orAt bits (pos / 8) (0x80 >>> (pos % 8).toUInt8) = some b :=
    ⟨_, orAt_of_lt h _⟩
  refine ⟨b, hb, length_orAt hb, fun p => ?_⟩
  rw [bitAt_orAt hb p]
  have hmask := testBit_bitMask (j := pos % 8) (k := p % 8) (by omega) (by omega)
  simp only [bitMask] at hmask
  rw [hmask]
  have hiff : (p / 8 = pos / 8 ∧ pos % 8 = p % 8) ↔ p = pos := by omega
  by_cases hp : p = pos
  · simp [hp]
  · simp only [hp, decide_false, Bool.or_false, Bool.or_eq_left_iff_imp, Bool.and_eq_true,
      decide_eq_true_eq]
    omega

/-- `set8` marks exactly the eight bits from `pos` on. -/
theorem set8_spec {bits : Bitvec} {pos : Nat} (h : pos / 8 + 1 < bits.length) :
    ∃ bits', bits.set8 pos = some bits' ∧ bits'.length = bits.length ∧
      ∀ p, bitAt bits' p = (bitAt bits p || decide (pos ≤ p ∧ p < pos + 8)) := by
  obtain ⟨b1, h1⟩ : ∃ b1, orAt bits (pos / 8) (0xFF >>> (pos % 8).toUInt8) = some b1 :=
    ⟨_, orAt_of_lt (by omega) _⟩
  have hlen1 := length_orAt h1
  obtain ⟨b2, h2⟩ : ∃ b2, orAt b1 (pos / 8 + 1) (~~~(0xFF >>> (pos % 8).toUInt8)) = some b2 :=
    ⟨_, orAt_of_lt (by omega) _⟩
  refine ⟨b2, by simp only [set8, h1, h2, Option.bind_eq_bind, Option.bind_some], ?_, ?_⟩
  · rw [length_orAt h2, hlen1]
  · intro p
    rw [bitAt_orAt h2 p, bitAt_orAt h1 p]
    have htail := testBit_tailMask (r := pos % 8) (k := p % 8) (by omega) (by omega)
    have hhead := testBit_headMask (r := pos % 8) (k := p % 8) (by omega) (by omega)
    simp only [tailMask, headMask] at htail hhead
    rw [htail, hhead]
    -- the eight bits are the tail of byte `pos / 8` and the head of the next one
    have hiff : (p / 8 = pos / 8 ∧ pos % 8 ≤ p % 8 ∨ p / 8 = pos / 8 + 1 ∧ p % 8 < pos % 8) ↔
        (pos ≤ p ∧ p < pos + 8) := by omega
    by_cases hp : pos ≤ p ∧ p < pos + 8
    · have := hiff.mpr hp
      simp only [hp]
      rcases this with h | h <;> simp [h]
    · have := mt hiff.mp hp
      simp only [hp, decide_false, Bool.or_false]
      by_cases h0 : p / 8 = pos / 8 <;> by_cases h1 : p / 8 = pos / 8 + 1 <;> simp_all

/-- `codeSegment` reads the bit back: a position is code iff its bit is clear. -/
theorem codeSegment_eq {bits : Bitvec} {pos : Nat} (h : pos / 8 < bits.length) :
    bits.codeSegment pos = some (!bitAt bits pos) := by
  have hb := and_bitMask_eq_zero bits[pos / 8] (j := pos % 8) (by omega)
  simp only [bitMask] at hb
  simp [codeSegment, List.getElem?_eq_getElem h, hb, bitAt, List.getD_eq_getElem?_getD]

end Bitvec

/-- The first inner loop marks the bits of its whole bytes: `8 * (numbits / 8)` of them. -/
theorem set8Loop_spec (bits : Bitvec) (pc numbits : Nat) (h : (pc + numbits) / 8 < bits.length) :
    ∃ bits', set8Loop bits pc numbits = some (bits', pc + 8 * (numbits / 8), numbits % 8) ∧
      bits'.length = bits.length ∧
      ∀ p, bitAt bits' p = (bitAt bits p || decide (pc ≤ p ∧ p < pc + 8 * (numbits / 8))) := by
  induction bits, pc, numbits using set8Loop.induct with
  | case1 bits pc numbits h8 ih =>
    obtain ⟨b, hb, hblen, hbits⟩ := @Bitvec.set8_spec bits pc (by omega)
    have hroom : (pc + 8 + (numbits - 8)) / 8 < b.length := by
      rw [hblen]
      omega
    obtain ⟨b', hb', hb'len, hb'bits⟩ := ih b hroom
    have hpc : pc + 8 + 8 * ((numbits - 8) / 8) = pc + 8 * (numbits / 8) := by omega
    have hmod : (numbits - 8) % 8 = numbits % 8 := by omega
    refine ⟨b', ?_, by rw [hb'len, hblen], fun p => ?_⟩
    · rw [set8Loop, if_pos h8]
      simp only [hb, Option.bind_eq_bind, Option.bind_some, hb', hpc, hmod]
    · rw [hb'bits, hbits, Bool.or_assoc]
      congr 1
      by_cases hp : pc ≤ p ∧ p < pc + 8 * (numbits / 8) <;> simp [hp] <;> omega
  | case2 bits pc numbits h8 =>
    have hdiv : numbits / 8 = 0 := by omega
    have hmod : numbits % 8 = numbits := by omega
    refine ⟨bits, ?_, rfl, fun p => ?_⟩
    · rw [set8Loop, if_neg h8, hdiv, hmod, Nat.mul_zero, Nat.add_zero]
    · simp [hdiv]

/-- The second inner loop marks one bit per step: `numbits` of them. -/
theorem setLoop_spec (numbits : Nat) :
    ∀ (bits : Bitvec) (pc : Nat), (pc + numbits) / 8 < bits.length →
      ∃ bits', setLoop bits pc numbits = some (bits', pc + numbits) ∧
        bits'.length = bits.length ∧
        ∀ p, bitAt bits' p = (bitAt bits p || decide (pc ≤ p ∧ p < pc + numbits)) := by
  induction numbits with
  | zero => exact fun bits pc _ => ⟨bits, rfl, rfl, fun p => by simp⟩
  | succ n ih =>
    intro bits pc h
    obtain ⟨b, hb, hblen, hbits⟩ := @Bitvec.set_spec bits pc (by omega)
    obtain ⟨b', hb', hb'len, hb'bits⟩ := ih b (pc + 1) (by omega)
    refine ⟨b', ?_, by rw [hb'len, hblen], fun p => ?_⟩
    · rw [show pc + (n + 1) = pc + 1 + n by omega]
      simp only [setLoop, hb, Option.bind_eq_bind, Option.bind_some, hb']
    · rw [hb'bits, hbits, Bool.or_assoc]
      congr 1
      by_cases hp : pc ≤ p ∧ p < pc + (n + 1) <;> simp [hp] <;> omega

/-- **One push**: the two inner loops together mark the `numbits` bits after `pc` and leave
`pc` just past them. -/
theorem innerLoops_spec (bits : Bitvec) (pc numbits : Nat) (h : (pc + numbits) / 8 < bits.length) :
    ∃ bits' pc8 n8, set8Loop bits pc numbits = some (bits', pc8, n8) ∧
      ∃ bits'', setLoop bits' pc8 n8 = some (bits'', pc + numbits) ∧
        bits''.length = bits.length ∧
        ∀ p, bitAt bits'' p = (bitAt bits p || decide (pc ≤ p ∧ p < pc + numbits)) := by
  obtain ⟨b, hb, hblen, hbits⟩ := set8Loop_spec bits pc numbits h
  obtain ⟨b', hb', hb'len, hb'bits⟩ :=
    setLoop_spec (numbits % 8) b (pc + 8 * (numbits / 8)) (by omega)
  have hend : pc + 8 * (numbits / 8) + numbits % 8 = pc + numbits := by omega
  refine ⟨b, _, _, hb, b', by rw [hb', hend], by rw [hb'len, hblen], fun p => ?_⟩
  rw [hb'bits, hbits, Bool.or_assoc]
  congr 1
  by_cases hp : pc ≤ p ∧ p < pc + numbits <;> simp [hp] <;> omega

/-! ### The main loop -/

/-- The invariant of the main loop at `pc`: the loop stands on an instruction boundary,
and the bit vector, of its allocated length, marks what the walk has found to be data
below `pc`. -/
structure BitmapInv (code : List UInt8) (bits : Bitvec) (pc : Nat) : Prop where
  boundary : Walk.Boundary pushWidth code pc
  length : bits.length = code.length / 8 + 1 + 4
  marks : ∀ p, bitAt bits p = true ↔ Walk.DataBelow pushWidth code pc p

/-- The size of the immediate is the `numbits` the loop computes for a push. -/
theorem pushWidth_of_push {op : OpCode} (h : PUSH1 ≤ op ∧ op ≤ PUSH32) :
    pushWidth op = (op - PUSH1 + 1).toNat := if_pos h

/-- **One iteration of the main loop keeps the invariant.** It runs the inner loops over
the immediate of a push, within the allocation, and moves to the next boundary. -/
theorem codeBitmapLoop_step {code : List UInt8} {bits : Bitvec} {pc : Nat}
    (hinv : BitmapInv code bits pc) (h : pc < code.length) :
    ∃ bits', BitmapInv code bits' (pc + 1 + pushWidth code[pc]) ∧
      codeBitmapLoop code bits pc = codeBitmapLoop code bits' (pc + 1 + pushWidth code[pc]) := by
  have hget : code[pc]? = some code[pc] := List.getElem?_eq_getElem h
  have hnext := Walk.dataBelow_next hinv.boundary hget
  by_cases hpush : PUSH1 ≤ code[pc] ∧ code[pc] ≤ PUSH32
  · have hw := pushWidth_of_push hpush
    have hroom : (pc + 1 + (code[pc] - PUSH1 + 1).toNat) / 8 < bits.length := by
      have := pushWidth_le code[pc]
      rw [hinv.length]
      omega
    obtain ⟨b8, pc8, n8, h8, b1, h1, hlen, hbits⟩ :=
      innerLoops_spec bits (pc + 1) (code[pc] - PUSH1 + 1).toNat hroom
    refine ⟨b1, ⟨.step hget hinv.boundary, by rw [hlen, hinv.length], fun p => ?_⟩, ?_⟩
    · rw [hnext p, hbits p, Bool.or_eq_true, hinv.marks p, hw]
      simp only [decide_eq_true_eq]
      constructor <;> rintro (h | h) <;> first | exact .inl h | (right; omega)
    · rw [codeBitmapLoop, dif_pos h]
      simp only [if_pos hpush]
      split
      · simp_all
      · rename_i b8' pc8' n8' h8'
        rw [h8] at h8'
        cases h8'
        split
        · simp_all
        · rename_i b1' pc1' h1'
          rw [h1] at h1'
          cases h1'
          rw [hw]
  · have hw : pushWidth code[pc] = 0 := if_neg hpush
    refine ⟨bits, ⟨.step hget hinv.boundary, hinv.length, fun p => ?_⟩, ?_⟩
    · rw [hnext p, hinv.marks p, hw]
      constructor
      · exact .inl
      · rintro (h | h)
        · exact h
        · omega
    · rw [codeBitmapLoop, dif_pos h]
      simp only [if_neg hpush, hw, Nat.add_zero]

/-- **The main loop, run to its end from any state that satisfies the invariant**, stores in
range and leaves the bit vector marking exactly the data of the whole walk. By induction on
what is left of the code. -/
theorem codeBitmapLoop_spec (code : List UInt8) :
    ∀ (bits : Bitvec) (pc : Nat), BitmapInv code bits pc →
      ∃ bits', codeBitmapLoop code bits pc = some bits' ∧
        bits'.length = code.length / 8 + 1 + 4 ∧
        ∀ p, bitAt bits' p = true ↔ Walk.InData pushWidth code p := by
  intro bits pc hinv
  induction h : code.length - pc using Nat.strongRecOn generalizing bits pc with
  | _ n ih =>
    by_cases hpc : pc < code.length
    · obtain ⟨bits', hinv', heq⟩ := codeBitmapLoop_step hinv hpc
      rw [heq]
      exact ih _ (by omega) bits' _ hinv' rfl
    · refine ⟨bits, ?_, hinv.length, fun p => ?_⟩
      · rw [codeBitmapLoop, dif_neg hpc]
      · rw [hinv.marks p, Walk.dataBelow_end (by omega) p]

/-- **`codeBitmap` is exact**: it never stores outside the bit vector it allocates, and the
bit of every position is set iff the position is data, the immediate of a push on the walk
from the start of the code. -/
theorem codeBitmap_spec (code : List UInt8) :
    ∃ bits, codeBitmap code = some bits ∧ bits.length = code.length / 8 + 1 + 4 ∧
      ∀ p, bitAt bits p = true ↔ Walk.InData pushWidth code p := by
  apply codeBitmapLoop_spec
  refine ⟨.zero, List.length_replicate, fun p => ?_⟩
  have hzero : bitAt (List.replicate (code.length / 8 + 1 + 4) 0) p = false := by
    simp only [bitAt, List.getD_eq_getElem?_getD, List.getElem?_replicate]
    split <;> simp
  rw [hzero]
  simp only [Bool.false_eq_true, false_iff]
  exact Walk.not_dataBelow_zero p

/-! ### Destinations -/

/-- A nonnegative destination below `2 ^ 62` has fewer than 63 bits and converts exactly. -/
theorem has_small {d : Int} (h0 : 0 ≤ d) :
    (63 ≤ GoBig.bitLen d ↔ 2 ^ 62 ≤ d) ∧ (d < 2 ^ 62 → (GoBig.uint64 d).toNat = d.toNat) := by
  have hlen := @GoBig.bitLen_le_iff d 62
  refine ⟨⟨fun h => ?_, fun h => ?_⟩, fun h => GoBig.toNat_uint64 h0 (by omega)⟩
  · by_contra hc
    have := hlen.mpr (by omega)
    omega
  · by_contra hc
    have := hlen.mp (by omega)
    omega

/-- **`has` is exact below `2 ^ 62`.** For every code and every nonnegative destination it
returns (no store or load out of range), and it accepts iff the destination is below
`2 ^ 62` and the length of the code, holds a `JUMPDEST`, and is an instruction boundary. -/
theorem has_exact (code : List UInt8) (d : Int) (h0 : 0 ≤ d) :
    ∃ b, has code d = some b ∧
      (b = true ↔ d < 2 ^ 62 ∧ d < code.length ∧ code[d.toNat]? = some JUMPDEST ∧
        Walk.Boundary pushWidth code d.toNat) := by
  obtain ⟨hbits, hconv⟩ := has_small h0
  by_cases hreject : 63 ≤ GoBig.bitLen d ∨ code.length ≤ (GoBig.uint64 d).toNat
  · refine ⟨false, dif_pos hreject, ?_⟩
    simp only [Bool.false_eq_true, false_iff]
    rintro ⟨hsmall, hlen, -⟩
    rcases hreject with h | h
    · exact absurd (hbits.mp h) (by omega)
    · rw [hconv hsmall] at h
      omega
  · have hsmall : d < 2 ^ 62 := by
      by_contra hc
      exact hreject (.inl (hbits.mpr (by omega)))
    have hlen : d.toNat < code.length := by
      have := hconv hsmall
      omega
    obtain ⟨bits, hbm, hblen, hmarks⟩ := codeBitmap_spec code
    have hseg := @Bitvec.codeSegment_eq bits d.toNat (by omega)
    have hget : code[d.toNat]? = some code[d.toNat] := List.getElem?_eq_getElem hlen
    have hboundary := Walk.boundary_iff_not_inData (w := pushWidth) hlen
    by_cases hj : code[d.toNat] = JUMPDEST
    · refine ⟨!bitAt bits d.toNat, ?_, ?_⟩
      · simp only [has, dif_neg hreject, hbm, Option.bind_eq_bind, Option.bind_some]
        simp only [hconv hsmall, hj, if_true, hseg]
      · rw [Bool.not_eq_true', ← Bool.not_eq_true, hmarks, ← hboundary, hget, hj]
        constructor
        · intro hb
          exact ⟨hsmall, by omega, rfl, hb⟩
        · exact fun h => h.2.2.2
    · refine ⟨false, ?_, ?_⟩
      · simp only [has, dif_neg hreject, hbm, Option.bind_eq_bind, Option.bind_some]
        simp only [hconv hsmall, hj, if_false]
      · simp only [Bool.false_eq_true, false_iff, hget, Option.some.injEq]
        exact fun h => hj h.2.2.1

/-- **JUMPDEST analysis, exact below `2 ^ 62`.** `codeBitmap` stores only inside the bit
vector it allocates, and `has` accepts a nonnegative destination iff it is below `2 ^ 62`
and the length of the code, holds a `JUMPDEST`, and is an instruction boundary. -/
theorem jumpdest_analysis_exact (code : List UInt8) (hcode : code.length < 2 ^ 62) (d : Int)
    (h0 : 0 ≤ d) :
    (∃ bits, codeBitmap code = some bits ∧ bits.length = code.length / 8 + 1 + 4) ∧
      ∃ b, has code d = some b ∧
        (b = true ↔ d < code.length ∧ code[d.toNat]? = some JUMPDEST ∧
          Walk.Boundary pushWidth code d.toNat) := by
  obtain ⟨bits, hbm, hlen, -⟩ := codeBitmap_spec code
  obtain ⟨b, hhas, hiff⟩ := has_exact code d h0
  refine ⟨⟨bits, hbm, hlen⟩, b, hhas, hiff.trans ⟨fun h => h.2, ?_⟩⟩
  -- the `BitLen` bound is implied by the length test for such a code
  rintro ⟨hlt, hrest⟩
  have hcode' : (code.length : Int) < 2 ^ 62 := by exact_mod_cast hcode
  exact ⟨lt_trans hlt hcode', hlt, hrest⟩

/-- The destination `2` of `PUSH1 JUMPDEST JUMPDEST`, past the immediate. -/
theorem jumpdest_analysis_exact_push :
    [PUSH1, JUMPDEST, JUMPDEST].length < 2 ^ 62 ∧ (0 : Int) ≤ 2 ∧
      ((∃ bits, codeBitmap [PUSH1, JUMPDEST, JUMPDEST] = some bits ∧
          bits.length = [PUSH1, JUMPDEST, JUMPDEST].length / 8 + 1 + 4) ∧
        ∃ b, has [PUSH1, JUMPDEST, JUMPDEST] 2 = some b ∧
          (b = true ↔ (2 : Int) < [PUSH1, JUMPDEST, JUMPDEST].length ∧
            [PUSH1, JUMPDEST, JUMPDEST][(2 : Int).toNat]? = some JUMPDEST ∧
            Walk.Boundary pushWidth [PUSH1, JUMPDEST, JUMPDEST] (2 : Int).toNat)) :=
  ⟨by decide, by decide,
    jumpdest_analysis_exact [PUSH1, JUMPDEST, JUMPDEST] (by decide) 2 (by decide)⟩

end Vm
