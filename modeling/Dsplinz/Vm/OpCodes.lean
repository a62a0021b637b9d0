import Mathlib

/-!
# Opcodes

An opcode is a byte of code (`type OpCode byte`); these are the named ones of
`core/vm/opcodes.go`, with the values Go's constant blocks give them.
-/

namespace Vm

/-- `OpCode`: one byte of EVM code. -/
abbrev OpCode := UInt8

namespace OpCode

-- 0x0 range: arithmetic
def STOP : OpCode := 0x00
def ADD : OpCode := 0x01
def MUL : OpCode := 0x02
def SUB : OpCode := 0x03
def DIV : OpCode := 0x04
def SDIV : OpCode := 0x05
def MOD : OpCode := 0x06
def SMOD : OpCode := 0x07
def ADDMOD : OpCode := 0x08
def MULMOD : OpCode := 0x09
def EXP : OpCode := 0x0a
def SIGNEXTEND : OpCode := 0x0b

-- 0x10 range: comparison and bitwise logic
def LT : OpCode := 0x10
def GT : OpCode := 0x11
def SLT : OpCode := 0x12
def SGT : OpCode := 0x13
def EQ : OpCode := 0x14
def ISZERO : OpCode := 0x15
def AND : OpCode := 0x16
def OR : OpCode := 0x17
def XOR : OpCode := 0x18
def NOT : OpCode := 0x19
def BYTE : OpCode := 0x1a
def SHL : OpCode := 0x1b
def SHR : OpCode := 0x1c
def SAR : OpCode := 0x1d
def SHA3 : OpCode := 0x20

-- 0x30 range: closure state
def ADDRESS : OpCode := 0x30
def BALANCE : OpCode := 0x31
def ORIGIN : OpCode := 0x32
def CALLER : OpCode := 0x33
def CALLVALUE : OpCode := 0x34
def CALLDATALOAD : OpCode := 0x35
def CALLDATASIZE : OpCode := 0x36
def CALLDATACOPY : OpCode := 0x37
def CODESIZE : OpCode := 0x38
def CODECOPY : OpCode := 0x39
def GASPRICE : OpCode := 0x3a
def EXTCODESIZE : OpCode := 0x3b
def EXTCODECOPY : OpCode := 0x3c
def RETURNDATASIZE : OpCode := 0x3d
def RETURNDATACOPY : OpCode := 0x3e

-- 0x40 range: block operations
def BLOCKHASH : OpCode := 0x40
def COINBASE : OpCode := 0x41
def TIMESTAMP : OpCode := 0x42
def NUMBER : OpCode := 0x43
def DIFFICULTY : OpCode := 0x44
def GASLIMIT : OpCode := 0x45

-- 0x50 range: storage and execution
def POP : OpCode := 0x50
def MLOAD : OpCode := 0x51
def MSTORE : OpCode := 0x52
def MSTORE8 : OpCode := 0x53
def SLOAD : OpCode := 0x54
def SSTORE : OpCode := 0x55
def JUMP : OpCode := 0x56
def JUMPI : OpCode := 0x57
def PC : OpCode := 0x58
def MSIZE : OpCode := 0x59
def GAS : OpCode := 0x5a
def JUMPDEST : OpCode := 0x5b

-- 0x60 range: pushes, duplications and swaps
def PUSH1 : OpCode := 0x60
def PUSH2 : OpCode := 0x61
def PUSH3 : OpCode := 0x62
def PUSH4 : OpCode := 0x63
def PUSH5 : OpCode := 0x64
def PUSH6 : OpCode := 0x65
def PUSH7 : OpCode := 0x66
def PUSH8 : OpCode := 0x67
def PUSH9 : OpCode := 0x68
def PUSH10 : OpCode := 0x69
def PUSH11 : OpCode := 0x6a
def PUSH12 : OpCode := 0x6b
def PUSH13 : OpCode := 0x6c
def PUSH14 : OpCode := 0x6d
def PUSH15 : OpCode := 0x6e
def PUSH16 : OpCode := 0x6f
def PUSH17 : OpCode := 0x70
def PUSH18 : OpCode := 0x71
def PUSH19 : OpCode := 0x72
def PUSH20 : OpCode := 0x73
def PUSH21 : OpCode := 0x74
def PUSH22 : OpCode := 0x75
def PUSH23 : OpCode := 0x76
def PUSH24 : OpCode := 0x77
def PUSH25 : OpCode := 0x78
def PUSH26 : OpCode := 0x79
def PUSH27 : OpCode := 0x7a
def PUSH28 : OpCode := 0x7b
def PUSH29 : OpCode := 0x7c
def PUSH30 : OpCode := 0x7d
def PUSH31 : OpCode := 0x7e
def PUSH32 : OpCode := 0x7f
def DUP1 : OpCode := 0x80
def DUP2 : OpCode := 0x81
def DUP3 : OpCode := 0x82
def DUP4 : OpCode := 0x83
def DUP5 : OpCode := 0x84
def DUP6 : OpCode := 0x85
def DUP7 : OpCode := 0x86
def DUP8 : OpCode := 0x87
def DUP9 : OpCode := 0x88
def DUP10 : OpCode := 0x89
def DUP11 : OpCode := 0x8a
def DUP12 : OpCode := 0x8b
def DUP13 : OpCode := 0x8c
def DUP14 : OpCode := 0x8d
def DUP15 : OpCode := 0x8e
def DUP16 : OpCode := 0x8f
def SWAP1 : OpCode := 0x90
def SWAP2 : OpCode := 0x91
def SWAP3 : OpCode := 0x92
def SWAP4 : OpCode := 0x93
def SWAP5 : OpCode := 0x94
def SWAP6 : OpCode := 0x95
def SWAP7 : OpCode := 0x96
def SWAP8 : OpCode := 0x97
def SWAP9 : OpCode := 0x98
def SWAP10 : OpCode := 0x99
def SWAP11 : OpCode := 0x9a
def SWAP12 : OpCode := 0x9b
def SWAP13 : OpCode := 0x9c
def SWAP14 : OpCode := 0x9d
def SWAP15 : OpCode := 0x9e
def SWAP16 : OpCode := 0x9f

-- 0xa0 range: logging
def LOG0 : OpCode := 0xa0
def LOG1 : OpCode := 0xa1
def LOG2 : OpCode := 0xa2
def LOG3 : OpCode := 0xa3
def LOG4 : OpCode := 0xa4

-- 0xf0 range: closures
def CREATE : OpCode := 0xf0
def CALL : OpCode := 0xf1
def CALLCODE : OpCode := 0xf2
def RETURN : OpCode := 0xf3
def DELEGATECALL : OpCode := 0xf4
def STATICCALL : OpCode := 0xfa
def REVERT : OpCode := 0xfd
def SELFDESTRUCT : OpCode := 0xff

/-- `op.IsPush()`: the switch over `PUSH1` … `PUSH32`, which are the consecutive bytes
`0x60` … `0x7f`. -/
def isPush (op : OpCode) : Bool := decide (PUSH1 ≤ op ∧ op ≤ PUSH32)

end OpCode

end Vm
