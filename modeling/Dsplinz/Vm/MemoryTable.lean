import Dsplinz.Lib.GoSlice
import Dsplinz.Vm.Machine

/-!
# Memory sizes and data windows

The helpers of `core/vm/common.go` and the memory size functions of
`core/vm/memory_table.go`. A memory size function reads the operands of an instruction
from the stack, before the instruction runs, and returns the end of the memory region it
will touch: `calcMemSize(off, l)` is `off + l`, or `0` for an empty region, which does not
grow the memory. The interpreter turns that end into a `uint64` with `bigUint64`, which
reports an overflow past `2 ^ 64`, and rounds it up to whole words with `toWordSize`.
-/

namespace Vm

open Common

/-! ### `common.go` -/

/-- `calcMemSize(off, l)`: the end of the region of `l` bytes at `off`, and `0` for an
empty region. -/
def calcMemSize (off l : Int) : Int := if l = 0 then 0 else off + l

/-- `bigUint64(v)`: `v.Uint64()`, and whether `v` does not fit 64 bits. -/
def bigUint64 (v : Int) : UInt64 × Bool := (GoBig.uint64 v, GoBig.bitLen v > 64)

/-- `toWordSize(size)`: the number of 32-byte words that hold `size` bytes. -/
def toWordSize (size : UInt64) : UInt64 :=
  if size > Math.maxUint64 - 31 then Math.maxUint64 / 32 + 1 else (size + 31) / 32

/-- The slice expression `data[lo:hi]`, which panics unless `lo ≤ hi ≤ len(data)`. -/
def sliceOf (data : List UInt8) (lo hi : UInt64) : Except Abort (List UInt8) :=
  if lo ≤ hi ∧ hi.toNat ≤ data.length then .ok (GoSlice.slice data lo.toNat hi.toNat)
  else .error .sliceBounds

/-- `getDataBig(data, start, size)`: the `size` bytes of `data` from `start` on, padded with
zeros past its end. -/
def getDataBig (data : List UInt8) (start size : Int) : Except Abort (List UInt8) := do
  -- `dlen := big.NewInt(int64(len(data)))`: a Go length is below `2 ^ 63`
  let dlen : Int := data.length
  let s := Math.bigMin start dlen
  let e := Math.bigMin (s + size) dlen
  let window ← sliceOf data (GoBig.uint64 s) (GoBig.uint64 e)
  -- `int(size.Uint64())`
  pure (rightPadBytes window (GoBig.uint64 size).toInt64.toInt)

/-! ### `memory_table.go` -/

/-- A `memorySizeFunc`: the end of the memory region an instruction touches, read from its
operands on the stack. -/
abbrev MemorySizeFunc := List Int → Except Abort Int

/-- `calcMemSize(stack.Back(i), stack.Back(j))`: the region of `Back(j)` bytes at `Back(i)`,
the shape of every memory size function but those of the calls. -/
def memoryRegion (i j : Nat) : MemorySizeFunc := fun stack => do
  return calcMemSize (← stackBack stack i) (← stackBack stack j)

/-- The region of the fixed size `l` at `stack.Back(0)`. -/
def memoryFixed (l : Int) : MemorySizeFunc := fun stack => do
  return calcMemSize (← stackBack stack 0) l

def memorySha3 : MemorySizeFunc := memoryRegion 0 1
def memoryCallDataCopy : MemorySizeFunc := memoryRegion 0 2
def memoryReturnDataCopy : MemorySizeFunc := memoryRegion 0 2
def memoryCodeCopy : MemorySizeFunc := memoryRegion 0 2
def memoryExtCodeCopy : MemorySizeFunc := memoryRegion 1 3
def memoryMLoad : MemorySizeFunc := memoryFixed 32
def memoryMStore8 : MemorySizeFunc := memoryFixed 1
def memoryMStore : MemorySizeFunc := memoryFixed 32
def memoryCreate : MemorySizeFunc := memoryRegion 1 2
def memoryReturn : MemorySizeFunc := memoryRegion 0 1
def memoryRevert : MemorySizeFunc := memoryRegion 0 1
def memoryLog : MemorySizeFunc := memoryRegion 0 1

/-- The larger of the input region at `Back(i)` and the output region at `Back(i + 2)`,
both of a call. -/
def memoryCallRegions (i : Nat) : MemorySizeFunc := fun stack => do
  let x := calcMemSize (← stackBack stack (i + 2)) (← stackBack stack (i + 3))
  let y := calcMemSize (← stackBack stack i) (← stackBack stack (i + 1))
  return Math.bigMax x y

def memoryCall : MemorySizeFunc := memoryCallRegions 3
def memoryCallCode : MemorySizeFunc := memoryCallRegions 3
def memoryDelegateCall : MemorySizeFunc := memoryCallRegions 2
def memoryStaticCall : MemorySizeFunc := memoryCallRegions 2

/-! ### Facts -/

theorem calcMemSize_of_ne {off l : Int} (h : l ≠ 0) : calcMemSize off l = off + l := if_neg h

theorem calcMemSize_nonneg {off l : Int} (h0 : 0 ≤ off) (h1 : 0 ≤ l) : 0 ≤ calcMemSize off l := by
  unfold calcMemSize
  split <;> omega

theorem toNat_toWordSize (size : UInt64) :
    (toWordSize size).toNat = (size.toNat + 31) / 32 := by
  have hlt := size.toNat_lt
  unfold toWordSize Math.maxUint64
  split
  · rename_i h
    have h' : 2 ^ 64 - 32 < size.toNat := by
      have := UInt64.lt_iff_toNat_lt.mp h
      simpa using this
    simp only [UInt64.toNat_add, UInt64.reduceToNat, UInt64.reduceDiv]
    omega
  · rename_i h
    have h' : size.toNat ≤ 2 ^ 64 - 32 := by
      have := mt UInt64.lt_iff_toNat_lt.mpr h
      simp at this
      omega
    simp only [UInt64.toNat_add, UInt64.toNat_div, UInt64.reduceToNat]
    omega

end Vm
