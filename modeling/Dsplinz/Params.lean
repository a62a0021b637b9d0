import Mathlib

/-!
# Protocol parameters and fork rules

The constants of `params/protocol_params.go` that the EVM and the state transition use,
the three gas tables of `params/gas_table.go`, and the fork schedule of
`params/config.go`: a fork is active from its block on (`isForked`), and the gas table is
chosen by the latest fork that repriced gas. (`Rules`, which the EVM computes once from
the same schedule, is read only for `IsByzantium`, which is `isByzantium` here.) From
`params/network_params.go`, the section size of the bloom-bits index.
-/

namespace Params

def callValueTransferGas : UInt64 := 9000
def callNewAccountGas : UInt64 := 25000
def txGas : UInt64 := 21000
def txGasContractCreation : UInt64 := 53000
def txDataZeroGas : UInt64 := 4
def quadCoeffDiv : UInt64 := 512
def sstoreSetGas : UInt64 := 20000
def logDataGas : UInt64 := 8
def callStipend : UInt64 := 2300
def sha3Gas : UInt64 := 30
def sha3WordGas : UInt64 := 6
def sstoreResetGas : UInt64 := 5000
def sstoreClearGas : UInt64 := 5000
def sstoreRefundGas : UInt64 := 15000
def jumpdestGas : UInt64 := 1
def createDataGas : UInt64 := 200
def callCreateDepth : UInt64 := 1024
def logGas : UInt64 := 375
def copyGas : UInt64 := 3
def stackLimit : UInt64 := 1024
def logTopicGas : UInt64 := 375
def createGas : UInt64 := 32000
def suicideRefundGas : UInt64 := 24000
def memoryGas : UInt64 := 3
def txDataNonZeroGas : UInt64 := 68
def maxCodeSize : Nat := 24576

/-- `BloomBitsBlocks` (`params/network_params.go`): the blocks of a section of the bloom-bits
index. -/
def bloomBitsBlocks : Nat := 4096

/-- `params.GasTable`: the prices that forks changed. -/
structure GasTable where
  extcodeSize : UInt64
  extcodeCopy : UInt64
  balance : UInt64
  sLoad : UInt64
  calls : UInt64
  suicide : UInt64
  expByte : UInt64
  createBySuicide : UInt64

def gasTableHomestead : GasTable :=
  { extcodeSize := 20, extcodeCopy := 20, balance := 20, sLoad := 50, calls := 40,
    suicide := 0, expByte := 10, createBySuicide := 0 }

def gasTableEIP150 : GasTable :=
  { extcodeSize := 700, extcodeCopy := 700, balance := 400, sLoad := 200, calls := 700,
    suicide := 5000, expByte := 10, createBySuicide := 25000 }

def gasTableEIP158 : GasTable :=
  { extcodeSize := 700, extcodeCopy := 700, balance := 400, sLoad := 200, calls := 700,
    suicide := 5000, expByte := 50, createBySuicide := 25000 }

/-- The fork blocks of `params.ChainConfig` that the EVM reads; `none` is a fork that is
not scheduled. -/
structure ChainConfig where
  homesteadBlock : Option Int
  eip150Block : Option Int
  eip158Block : Option Int
  byzantiumBlock : Option Int
  constantinopleBlock : Option Int

/-- `isForked(s, head)`: the fork at `s` is active at block `head`. -/
def isForked (s : Option Int) (head : Int) : Bool :=
  match s with
  | none => false
  | some s => s ≤ head

namespace ChainConfig

variable (c : ChainConfig) (num : Int)

def isHomestead : Bool := isForked c.homesteadBlock num
def isEIP150 : Bool := isForked c.eip150Block num
def isEIP158 : Bool := isForked c.eip158Block num
def isByzantium : Bool := isForked c.byzantiumBlock num
def isConstantinople : Bool := isForked c.constantinopleBlock num

/-- `c.GasTable(num)`, for a block number that is set. -/
def gasTable : GasTable :=
  if c.isEIP158 num then gasTableEIP158
  else if c.isEIP150 num then gasTableEIP150
  else gasTableHomestead

end ChainConfig

end Params
