import Dsplinz.Lib.PanicState
import Dsplinz.Common.Basic
import Dsplinz.Vm.OpCodes

/-!
# The state of the EVM

The data the instructions of `core/vm` work on, and the primitive steps they are written
in:

* `Vm.Memory` (`memory.go`), whose accesses outside `[0, Len())` abort;
* `Vm.Contract` (`contract.go`), the code, input, gas and value of one frame;
* `Vm.Evm`, the part of `EVM` and `Interpreter` that every frame shares and changes (the
  state, the call depth, the read-only flag, the return data of the last call), and
  `Vm.Machine`, that together with the frame of `Interpreter.Run` (contract, memory,
  stack, program counter);
* `Vm.OpM`, the computations on a machine: a Go error keeps the state, an abort keeps
  nothing (`Vm.Abort`).

The world state is a type parameter `σ`, which the instructions modelled here never read.

The stack is the list of its items from the top down: Go's slice reversed, so that
`stack.Back(n)` is element `n` of the list. The integer pool (`intpool.go`) is not
modelled: every integer an instruction takes from it is overwritten before it is read.
-/

namespace Vm

open Common PanicState

/-- The errors the interpreter and the EVM return. -/
inductive VmError where
  | outOfGas
  | codeStoreOutOfGas
  | depth
  | insufficientBalance
  | contractAddressCollision
  | writeProtection
  | returnDataOutOfBounds
  | executionReverted
  | maxCodeSizeExceeded
  | gasUintOverflow
  /-- `fmt.Errorf("invalid opcode 0x%x", int(op))` -/
  | invalidOpcode (op : OpCode)
  /-- `fmt.Errorf("stack underflow (%d <=> %d)", len(st.data), n)` -/
  | stackUnderflow (len required : Nat)
  /-- `fmt.Errorf("stack limit reached %d (%d)", stack.len(), params.StackLimit)` -/
  | stackLimitReached (len limit : Nat)
  /-- `fmt.Errorf("invalid jump destination (%v) %v", nop, pos)` -/
  | invalidJump (op : OpCode) (dest : Int)
  /-- An error of a precompiled contract. -/
  | precompile (msg : String)
  deriving DecidableEq, Repr

/-- Why a computation of the model stops without an outcome: a Go panic, or the end of the
bound the model is run with. -/
inductive Abort where
  /-- An index of the stack's slice out of range. -/
  | stackIndex
  /-- An access to memory outside [0, Len()). (Go panics only past the capacity of the
  store; the model does not follow the capacity.) -/
  | memoryBounds
  /-- A slice expression outside the length of its slice. -/
  | sliceBounds
  /-- A store past the end of the bit vector of the jump destination analysis. -/
  | bitmapIndex
  /-- `big.Int.Bit` at a negative index. -/
  | bitIndex
  /-- `GasPool.AddGas` past `2 ^ 64`. -/
  | gasPool
  /-- The bound on the steps and the nesting of frames that the model is run with. -/
  | outOfFuel
  deriving DecidableEq, Repr

/-! ### Memory -/

/-- `vm.Memory`. -/
structure Memory where
  store : List UInt8
  lastGasCost : UInt64

namespace Memory

/-- `NewMemory()`. -/
def empty : Memory := { store := [], lastGasCost := 0 }

/-- `m.Len()`. -/
def len (m : Memory) : Nat := m.store.length

/-- `m.Resize(size)`: grow the store with zeros. -/
def resize (m : Memory) (size : UInt64) : Memory :=
  if m.store.length < size.toNat then
    { m with store := m.store ++ List.replicate (size.toNat - m.store.length) 0 }
  else m

end Memory

/-! ### Contracts -/

/-- `vm.Contract`, with the fields the EVM reads. -/
structure Contract where
  callerAddress : Address
  self : Address
  code : List UInt8
  codeAddr : Option Address
  input : List UInt8
  gas : UInt64
  value : Int

namespace Contract

/-- `NewContract(caller, object, value, gas)`. -/
def new (caller object : Address) (value : Int) (gas : UInt64) : Contract :=
  { callerAddress := caller, self := object, code := [], codeAddr := none, input := [],
    gas := gas, value := value }

end Contract

/-! ### Machines -/

/-- What every frame shares and may change: the world state, `evm.depth`,
`evm.callGasTemp`, and the interpreter's `readOnly` and `returnData`. -/
structure Evm (σ : Type) where
  stateDB : σ
  depth : Int
  callGasTemp : UInt64
  readOnly : Bool
  returnData : List UInt8

/-- A machine: the shared state and the frame of one `Interpreter.Run`. -/
structure Machine (σ : Type) extends Evm σ where
  contract : Contract
  mem : Memory
  stack : List Int
  pc : UInt64

/-- A computation on a machine. -/
abbrev OpM (σ : Type) := PanicState.M (Machine σ) VmError Abort

variable {σ : Type}

/-- `stack.pop()`. -/
def pop : OpM σ Int := do
  let m ← get
  match m.stack with
  | [] => abort .stackIndex
  | x :: rest =>
    set { m with stack := rest }
    pure x

/-- `stack.peek()`. -/
def peek : OpM σ Int := do
  match (← get).stack with
  | [] => abort .stackIndex
  | x :: _ => pure x

/-- `stack.Back(n)`, on the items of a stack from the top down. -/
def stackBack (stack : List Int) (n : Nat) : Except Abort Int :=
  match stack[n]? with
  | none => .error .stackIndex
  | some x => .ok x

/-- An update in place of the item `peek` returned. -/
def setTop (v : Int) : OpM σ Unit :=
  modify fun m => { m with stack := v :: m.stack.tail }

/-- `stack.push(d)`. -/
def push (d : Int) : OpM σ Unit :=
  modify fun m => { m with stack := d :: m.stack }

end Vm
