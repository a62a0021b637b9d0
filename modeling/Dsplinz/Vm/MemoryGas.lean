import Dsplinz.Vm.MemoryTable
import Dsplinz.Params

/-!
# Memory expansion gas

`memoryGasCost` charges for the words a memory grows by. It keeps the total it has charged
so far, `C(w) = 3 w + ⌊w² / 512⌋` for the largest word count `w` asked for, in the memory
(`lastGasCost`), and returns the difference between the new total and that one. The
interpreter then grows the memory to the words asked for (`Vm.expandMemory`), so over the
instructions of a frame the fees add up to `C` of the largest word count (`Vm.memCost`).

That holds as long as the arithmetic stays within `uint64`, and `memoryGasCost` guards it
by one bound on the size, `0xffffffffe0` bytes. The comment beside it says that the square
of the word count stays below `2 ^ 64` under it; it does not. The bound admits up to
`2 ^ 35 - 1` words, whose square needs 70 bits.

* `Vm.memoryRun_exact`: below `2 ^ 32` words (sizes up to `0x1fffffffe0` bytes) the fees
  of every sequence of expansions add up exactly to `C` of the largest word count, from any
  memory whose charged total is `C` of its size (`Vm.Priced`), the new memory included.
* `Vm.memoryGasCost_wraps`: for every size from `2 ^ 37` bytes up to the bound, the square
  wraps, and the fee charged for growing the new memory is less than `C` of the word count.
-/

namespace Vm

open Common Math

/-! ### The model -/

/-- `memoryGasCost(mem, newMemSize)`: the fee for growing `mem` to `newMemSize` bytes, and
the memory with the new total recorded. -/
def memoryGasCost (mem : Memory) (newMemSize : UInt64) : Except VmError (UInt64 × Memory) :=
  if newMemSize = 0 then .ok (0, mem)
  else if newMemSize > 0xffffffffe0 then .error .gasUintOverflow
  else
    let newMemSizeWords := toWordSize newMemSize
    let newMemSize := newMemSizeWords * 32
    if newMemSize > UInt64.ofNat mem.len then
      let square := newMemSizeWords * newMemSizeWords
      let linCoef := newMemSizeWords * Params.memoryGas
      let quadCoef := square / Params.quadCoeffDiv
      let newTotalFee := linCoef + quadCoef
      let fee := newTotalFee - mem.lastGasCost
      .ok (fee, { mem with lastGasCost := newTotalFee })
    else .ok (0, mem)

/-- What `Interpreter.Run` does to the memory for an instruction whose memory size function
asked for `memSize` bytes: round up to whole words (`math.SafeMul(toWordSize(memSize), 32)`),
charge `memoryGasCost` for them, and resize the memory. The other gas of the instruction
only decides whether the frame goes on, and is left out. -/
def expandMemory (mem : Memory) (memSize : UInt64) : Except VmError (UInt64 × Memory) :=
  let (memorySize, overflow) := safeMul (toWordSize memSize) 32
  if overflow then .error .gasUintOverflow
  else
    match memoryGasCost mem memorySize with
    | .error e => .error e
    | .ok (fee, mem) => .ok (fee, if memorySize > 0 then mem.resize memorySize else mem)

/-- The memory expansions of the instructions of one frame, in order, with their fees. -/
def memoryRun (mem : Memory) : List UInt64 → Except VmError (List UInt64 × Memory)
  | [] => .ok ([], mem)
  | n :: ns =>
    match expandMemory mem n with
    | .error e => .error e
    | .ok (fee, mem) =>
      match memoryRun mem ns with
      | .error e => .error e
      | .ok (fees, mem) => .ok (fee :: fees, mem)

/-! ### The cost of a memory -/

/-- The total memory gas of `w` words, over unbounded integers. -/
def memCost (w : Nat) : Nat := 3 * w + w * w / 512

theorem memCost_mono {v w : Nat} (h : v ≤ w) : memCost v ≤ memCost w := by
  have hsq : v * v ≤ w * w := Nat.mul_le_mul h h
  have hdiv : v * v / 512 ≤ w * w / 512 := Nat.div_le_div_right hsq
  unfold memCost
  omega

/-- A memory whose charged total is the cost of its size: `w` whole words, below `2 ^ 32`. -/
structure Priced (mem : Memory) (w : Nat) : Prop where
  len_eq : mem.len = 32 * w
  lastGasCost_eq : mem.lastGasCost.toNat = memCost w
  words_lt : w < 2 ^ 32

theorem priced_empty : Priced Memory.empty 0 where
  len_eq := rfl
  lastGasCost_eq := rfl
  words_lt := by norm_num

/-! ### Word counts -/

/-- The words of a size, as `toWordSize` rounds it up. -/
def words (n : UInt64) : Nat := (n.toNat + 31) / 32

theorem toNat_toWordSize_eq_words (n : UInt64) : (toWordSize n).toNat = words n :=
  toNat_toWordSize n

theorem words_lt {n : UInt64} (h : n.toNat ≤ 0x1fffffffe0) : words n < 2 ^ 32 := by
  unfold words
  omega

/-- Thirty-two times a small number does not wrap. -/
theorem toNat_mul_32 {v : UInt64} (h : v.toNat < 2 ^ 32) : (v * 32).toNat = 32 * v.toNat := by
  simp only [UInt64.toNat_mul, UInt64.reduceToNat]
  omega

theorem toNat_toWordSize_mul_32 {n : UInt64} (h : n.toNat ≤ 0x1fffffffe0) :
    (toWordSize n * 32).toNat = 32 * words n := by
  rw [toNat_mul_32 (by rw [toNat_toWordSize_eq_words]; exact words_lt h),
    toNat_toWordSize_eq_words]

theorem safeMul_toWordSize {n : UInt64} (h : n.toNat ≤ 0x1fffffffe0) :
    safeMul (toWordSize n) 32 = (toWordSize n * 32, false) := by
  have hw : (toWordSize n).toNat < 2 ^ 32 := by
    rw [toNat_toWordSize_eq_words]
    exact words_lt h
  unfold safeMul
  split
  · rename_i hz
    rcases hz with hz | hz
    · simp [hz]
    · exact absurd hz (by decide)
  · rename_i hz
    have hx : (toWordSize n).toNat ≠ 0 := fun h0 => hz (.inl (UInt64.toNat_inj.mp (by simpa using h0)))
    -- `32 > MaxUint64 / x` is false: the quotient is at least `2 ^ 32`
    have hq : 32 ≤ 0xFFFFFFFFFFFFFFFF / (toWordSize n).toNat := by
      rw [Nat.le_div_iff_mul_le (Nat.pos_of_ne_zero hx)]
      omega
    have hge : ¬ (32 : UInt64) > maxUint64 / toWordSize n := by
      rw [gt_iff_lt, UInt64.lt_iff_toNat_lt, UInt64.toNat_div]
      simp only [maxUint64, UInt64.reduceToNat]
      omega
    simp [hge]

/-- The words of a whole number of words are those words. -/
theorem toNat_toWordSize_of_mul {n : UInt64} (h : n.toNat ≤ 0x1fffffffe0) :
    (toWordSize (toWordSize n * 32)).toNat = words n := by
  rw [toNat_toWordSize_eq_words]
  show ((toWordSize n * 32).toNat + 31) / 32 = words n
  rw [toNat_toWordSize_mul_32 h]
  omega

/-! ### One expansion -/

/-- Below `2 ^ 32` words the arithmetic of `memoryGasCost` is exact: the new total is the
cost of the words. -/
theorem toNat_newTotalFee {v : UInt64} (hv : v.toNat < 2 ^ 32) :
    (v * Params.memoryGas + v * v / Params.quadCoeffDiv).toNat = memCost v.toNat := by
  have hsq : v.toNat * v.toNat < 2 ^ 64 := by
    calc v.toNat * v.toNat < 2 ^ 32 * 2 ^ 32 := Nat.mul_lt_mul'' hv hv
      _ = 2 ^ 64 := by norm_num
  have hq : v.toNat * v.toNat / 512 < 2 ^ 55 := by omega
  simp only [UInt64.toNat_add, UInt64.toNat_mul, UInt64.toNat_div, Params.memoryGas,
    Params.quadCoeffDiv, UInt64.reduceToNat, Nat.mod_eq_of_lt hsq, memCost]
  omega

@[simp] theorem Memory.lastGasCost_resize (m : Memory) (size : UInt64) :
    (m.resize size).lastGasCost = m.lastGasCost := by
  unfold Memory.resize
  split <;> rfl

theorem Memory.len_resize (m : Memory) (size : UInt64) :
    (m.resize size).len = max m.len size.toNat := by
  unfold Memory.resize Memory.len
  split <;> simp <;> omega

/-- `memoryGasCost` on a priced memory, for a whole number `v` of words below `2 ^ 32`: the
fee is the cost of the words the memory grows by, and the new total is the cost of the
larger word count. -/
theorem memoryGasCost_of_priced {mem : Memory} {w : Nat} (hp : Priced mem w) {size : UInt64}
    {v : Nat} (hsize : size.toNat = 32 * v) (hv : 0 < v) (hvlt : v < 2 ^ 32) :
    ∃ fee mem', memoryGasCost mem size = .ok (fee, mem') ∧ mem'.store = mem.store ∧
      fee.toNat = memCost (max w v) - memCost w ∧ mem'.lastGasCost.toNat = memCost (max w v) := by
  have hz : size ≠ 0 := fun h => by simp [h] at hsize; omega
  have hnot : ¬ size > 0xffffffffe0 := by
    rw [gt_iff_lt, UInt64.lt_iff_toNat_lt, hsize]
    simp only [UInt64.reduceToNat]
    omega
  have hwords : (toWordSize size).toNat = v := by
    rw [toNat_toWordSize, hsize]
    omega
  have hlen : (UInt64.ofNat mem.len).toNat = 32 * w := by
    rw [UInt64.toNat_ofNat', hp.len_eq]
    have := hp.words_lt
    omega
  by_cases hgrow : w < v
  · -- the memory grows: the fee is the new total less the old one
    have hgt : toWordSize size * 32 > UInt64.ofNat mem.len := by
      rw [gt_iff_lt, UInt64.lt_iff_toNat_lt, hlen, toNat_mul_32 (by omega), hwords]
      omega
    have htot := toNat_newTotalFee (v := toWordSize size) (by omega)
    rw [hwords] at htot
    have hmono := memCost_mono (le_of_lt hgrow)
    simp only [memoryGasCost, if_neg hz, if_neg hnot, if_pos hgt]
    refine ⟨_, _, rfl, rfl, ?_, ?_⟩
    · rw [max_eq_right (le_of_lt hgrow), UInt64.toNat_sub_of_le, htot, hp.lastGasCost_eq]
      rw [UInt64.le_iff_toNat_le, htot, hp.lastGasCost_eq]
      exact hmono
    · rw [max_eq_right (le_of_lt hgrow)]
      exact htot
  · -- the memory is large enough already: no fee
    have hngt : ¬ toWordSize size * 32 > UInt64.ofNat mem.len := by
      rw [gt_iff_lt, UInt64.lt_iff_toNat_lt, hlen, toNat_mul_32 (by omega), hwords]
      omega
    refine ⟨0, mem, by simp only [memoryGasCost, if_neg hz, if_neg hnot, if_neg hngt], rfl, ?_, ?_⟩
    · rw [max_eq_left (by omega)]
      simp
    · rw [max_eq_left (by omega)]
      exact hp.lastGasCost_eq

/-- An expansion of a priced memory to `n` bytes, below `2 ^ 32` words, charges the cost of
the words it adds, and leaves the memory priced at the larger word count. -/
theorem expandMemory_spec {mem : Memory} {w : Nat} (hp : Priced mem w) {n : UInt64}
    (hn : n.toNat ≤ 0x1fffffffe0) :
    ∃ fee mem', expandMemory mem n = .ok (fee, mem') ∧
      fee.toNat = memCost (max w (words n)) - memCost w ∧ Priced mem' (max w (words n)) := by
  have hsize := toNat_toWordSize_mul_32 hn
  have hvlt := words_lt hn
  unfold expandMemory
  rw [safeMul_toWordSize hn]
  dsimp only
  rw [if_neg (by decide)]
  rcases Nat.eq_zero_or_pos (words n) with hw0 | hpos
  · -- nothing asked for: no fee, no change
    have hz : toWordSize n * 32 = 0 := UInt64.toNat_inj.mp (by rw [hsize, hw0]; rfl)
    refine ⟨0, mem, ?_, ?_, ?_⟩
    · simp [memoryGasCost, hz]
    · simp [hw0]
    · simpa [hw0] using hp
  · obtain ⟨fee, mem₁, hcost, hstore, hfee, hlast⟩ := memoryGasCost_of_priced hp hsize hpos hvlt
    have hgt : toWordSize n * 32 > 0 := by
      rw [gt_iff_lt, UInt64.lt_iff_toNat_lt, hsize]
      simp only [UInt64.reduceToNat]
      omega
    refine ⟨fee, mem₁.resize (toWordSize n * 32), by rw [hcost]; simp [hgt], hfee, ?_⟩
    -- the resize grows the store to the larger of the two sizes
    have hlen₁ : mem₁.len = 32 * w := by rw [Memory.len, hstore]; exact hp.len_eq
    refine ⟨?_, by rw [Memory.lastGasCost_resize]; exact hlast, max_lt hp.words_lt hvlt⟩
    rw [Memory.len_resize, hlen₁, hsize]
    omega

/-! ### Runs -/

/-- The largest word count of a list of sizes. -/
def maxWords (w : Nat) : List UInt64 → Nat
  | [] => w
  | n :: ns => maxWords (max w (words n)) ns

theorem le_maxWords (w : Nat) (ns : List UInt64) : w ≤ maxWords w ns := by
  induction ns generalizing w with
  | nil => exact le_refl w
  | cons n ns ih => exact le_trans (le_max_left _ _) (ih _)

/-- Below `2 ^ 32` words, the fees of a run of expansions from a priced memory add up to the
cost of the largest word count less that of the start, and the memory ends priced there. -/
theorem memoryRun_spec : ∀ (ns : List UInt64) {mem : Memory} {w : Nat}, Priced mem w →
    (∀ n ∈ ns, n.toNat ≤ 0x1fffffffe0) →
    ∃ fees mem', memoryRun mem ns = .ok (fees, mem') ∧
      (fees.map UInt64.toNat).sum = memCost (maxWords w ns) - memCost w ∧
      Priced mem' (maxWords w ns)
  | [], mem, w, hp, _ => ⟨[], mem, rfl, by simp [maxWords], hp⟩
  | n :: ns, mem, w, hp, hns => by
    obtain ⟨fee, mem₁, hstep, hfee, hp₁⟩ := expandMemory_spec hp (hns n List.mem_cons_self)
    obtain ⟨fees, mem₂, hrun, hsum, hp₂⟩ :=
      memoryRun_spec ns hp₁ (fun m hm => hns m (List.mem_cons_of_mem _ hm))
    refine ⟨fee :: fees, mem₂, ?_, ?_, hp₂⟩
    · simp [memoryRun, hstep, hrun]
    · -- the costs telescope: each step charges from where the last one stopped
      have h1 := memCost_mono (le_max_left w (words n))
      have h2 := memCost_mono (le_maxWords (max w (words n)) ns)
      simp only [List.map_cons, List.sum_cons, hfee, hsum, maxWords]
      omega

/-- From the new memory, the fees of every run of expansions below `2 ^ 32` words add up to
the cost of the largest word count asked for. -/
theorem memoryRun_exact (ns : List UInt64) (h : ∀ n ∈ ns, n.toNat ≤ 0x1fffffffe0) :
    ∃ fees mem, memoryRun Memory.empty ns = .ok (fees, mem) ∧
      (fees.map UInt64.toNat).sum = memCost (maxWords 0 ns) ∧
      mem.len = 32 * maxWords 0 ns := by
  obtain ⟨fees, mem, hrun, hsum, hp⟩ := memoryRun_spec ns priced_empty h
  exact ⟨fees, mem, hrun, by simpa [memCost] using hsum, hp.len_eq⟩

theorem memoryRun_exact_three_sizes :
    ∃ fees mem, memoryRun Memory.empty [32, 96, 64] = .ok (fees, mem) ∧
      (fees.map UInt64.toNat).sum = memCost (maxWords 0 [32, 96, 64]) ∧
      mem.len = 32 * maxWords 0 [32, 96, 64] :=
  memoryRun_exact _ fun n hn => by
    simp only [List.mem_cons, List.not_mem_nil, or_false] at hn
    rcases hn with rfl | rfl | rfl <;> decide

/-! ### Past `2 ^ 32` words -/

/-- From `2 ^ 37` bytes up to the bound `memoryGasCost` admits, the word count is at least
`2 ^ 32`, its square wraps, and the fee charged for growing the new memory is less than the
cost of the words. -/
theorem memoryGasCost_wraps (n : UInt64) (hlo : 2 ^ 37 ≤ n.toNat) (hhi : n.toNat ≤ 0xffffffffe0) :
    ∃ fee mem, memoryGasCost Memory.empty n = .ok (fee, mem) ∧ fee.toNat < memCost (words n) := by
  have hz : n ≠ 0 := fun h => by simp [h] at hlo
  have hnot : ¬ n > 0xffffffffe0 := by
    rw [gt_iff_lt, UInt64.lt_iff_toNat_lt]
    simp only [UInt64.reduceToNat]
    omega
  have hv := toNat_toWordSize_eq_words n
  have hwlo : 2 ^ 32 ≤ words n := by unfold words; omega
  have hwhi : words n < 2 ^ 35 := by unfold words; omega
  have hgt : toWordSize n * 32 > UInt64.ofNat Memory.empty.len := by
    rw [gt_iff_lt, UInt64.lt_iff_toNat_lt, UInt64.toNat_mul, hv, UInt64.toNat_ofNat']
    simp only [Memory.empty, Memory.len, List.length_nil, UInt64.reduceToNat]
    omega
  simp only [memoryGasCost, if_neg hz, if_neg hnot, if_pos hgt]
  refine ⟨_, _, rfl, ?_⟩
  -- the square is at least `2 ^ 64`, and only its residue is divided
  have hsq : 2 ^ 64 ≤ words n * words n := by
    calc 2 ^ 64 = 2 ^ 32 * 2 ^ 32 := by norm_num
      _ ≤ words n * words n := Nat.mul_le_mul hwlo hwlo
  have hmod : words n * words n % 2 ^ 64 < 2 ^ 64 := Nat.mod_lt _ (by norm_num)
  have h0 : Memory.empty.lastGasCost = 0 := rfl
  rw [h0, UInt64.sub_zero, UInt64.toNat_add, UInt64.toNat_mul, UInt64.toNat_div,
    UInt64.toNat_mul, hv]
  simp only [Params.memoryGas, Params.quadCoeffDiv, UInt64.reduceToNat, memCost]
  omega

theorem memoryGasCost_wraps_at_bound :
    2 ^ 37 ≤ (0xffffffffe0 : UInt64).toNat ∧ (0xffffffffe0 : UInt64).toNat ≤ 0xffffffffe0 ∧
      ∃ fee mem, memoryGasCost Memory.empty 0xffffffffe0 = .ok (fee, mem) ∧
        fee.toNat < memCost (words 0xffffffffe0) :=
  ⟨by decide, by decide, memoryGasCost_wraps 0xffffffffe0 (by decide) (by decide)⟩

end Vm
