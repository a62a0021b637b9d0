import Dsplinz.Asm.Lexer
import Dsplinz.Vm.OpCodes
import Dsplinz.Common.Basic
import Dsplinz.Lib.GoSlice

/-!
# The compiler of the EVM assembler

`core/asm`'s `Compiler` makes two passes over the tokens of a source. `Feed` reads them
once, counting in `pc` the bytes each one will take and recording, at each label
definition, `labels[name] = pc`. `Compile` reads them again line by line (`compileLine`) and
pushes the code of each line onto `binary`, a label used by `push` or `jump` standing for
the value `Feed` recorded; a line that is no statement is an error, and the loop goes on
with the next line.

| Go | here |
|---|---|
| `Compiler` | `Asm.Compiler`, without `debug`, which only prints |
| `c.binary`, a `[]interface{}` | a list of `Asm.BinItem`: an opcode, a `[]byte` or a `string` |
| a panic | `none` |
| the hex string `Compile` returns | the bytes it spells, `Asm.binBytes` |

`Compile` spells the binary with a type switch on `vm.OpCode` and `[]byte`; the third kind
of item, the `string` that `jump` pushes for a string operand, falls through the switch and
leaves nothing in the output. A Go `int` is modelled as an `Int`: `pc` and the label values
never come near the bounds of a 64-bit `int`.

Both loops run on fuel: `Feed` on the tokens as a list, `Compile` on their number, which is
enough because every line reads at least one token (`Asm.Compiler.compileLoop_add_fuel`).
-/

namespace Vm

open OpCode

/-- `vm.stringToOp`. -/
def stringToOpMap : List (String × Vm.OpCode) := [
  ("STOP", OpCode.STOP), ("ADD", OpCode.ADD), ("MUL", OpCode.MUL), ("SUB", OpCode.SUB),
  ("DIV", OpCode.DIV), ("SDIV", OpCode.SDIV), ("MOD", OpCode.MOD), ("SMOD", OpCode.SMOD),
  ("EXP", OpCode.EXP), ("NOT", OpCode.NOT), ("LT", OpCode.LT), ("GT", OpCode.GT),
  ("SLT", OpCode.SLT), ("SGT", OpCode.SGT), ("EQ", OpCode.EQ), ("ISZERO", OpCode.ISZERO),
  ("SIGNEXTEND", OpCode.SIGNEXTEND), ("AND", OpCode.AND), ("OR", OpCode.OR), ("XOR", OpCode.XOR),
  ("BYTE", OpCode.BYTE), ("SHL", OpCode.SHL), ("SHR", OpCode.SHR), ("SAR", OpCode.SAR),
  ("ADDMOD", OpCode.ADDMOD), ("MULMOD", OpCode.MULMOD), ("SHA3", OpCode.SHA3),
  ("ADDRESS", OpCode.ADDRESS), ("BALANCE", OpCode.BALANCE), ("ORIGIN", OpCode.ORIGIN),
  ("CALLER", OpCode.CALLER), ("CALLVALUE", OpCode.CALLVALUE),
  ("CALLDATALOAD", OpCode.CALLDATALOAD), ("CALLDATASIZE", OpCode.CALLDATASIZE),
  ("CALLDATACOPY", OpCode.CALLDATACOPY), ("DELEGATECALL", OpCode.DELEGATECALL),
  ("STATICCALL", OpCode.STATICCALL), ("CODESIZE", OpCode.CODESIZE),
  ("CODECOPY", OpCode.CODECOPY), ("GASPRICE", OpCode.GASPRICE),
  ("EXTCODESIZE", OpCode.EXTCODESIZE), ("EXTCODECOPY", OpCode.EXTCODECOPY),
  ("RETURNDATASIZE", OpCode.RETURNDATASIZE), ("RETURNDATACOPY", OpCode.RETURNDATACOPY),
  ("BLOCKHASH", OpCode.BLOCKHASH), ("COINBASE", OpCode.COINBASE),
  ("TIMESTAMP", OpCode.TIMESTAMP), ("NUMBER", OpCode.NUMBER), ("DIFFICULTY", OpCode.DIFFICULTY),
  ("GASLIMIT", OpCode.GASLIMIT), ("POP", OpCode.POP), ("MLOAD", OpCode.MLOAD),
  ("MSTORE", OpCode.MSTORE), ("MSTORE8", OpCode.MSTORE8), ("SLOAD", OpCode.SLOAD),
  ("SSTORE", OpCode.SSTORE), ("JUMP", OpCode.JUMP), ("JUMPI", OpCode.JUMPI), ("PC", OpCode.PC),
  ("MSIZE", OpCode.MSIZE), ("GAS", OpCode.GAS), ("JUMPDEST", OpCode.JUMPDEST),
  ("PUSH1", OpCode.PUSH1), ("PUSH2", OpCode.PUSH2), ("PUSH3", OpCode.PUSH3),
  ("PUSH4", OpCode.PUSH4), ("PUSH5", OpCode.PUSH5), ("PUSH6", OpCode.PUSH6),
  ("PUSH7", OpCode.PUSH7), ("PUSH8", OpCode.PUSH8), ("PUSH9", OpCode.PUSH9),
  ("PUSH10", OpCode.PUSH10), ("PUSH11", OpCode.PUSH11), ("PUSH12", OpCode.PUSH12),
  ("PUSH13", OpCode.PUSH13), ("PUSH14", OpCode.PUSH14), ("PUSH15", OpCode.PUSH15),
  ("PUSH16", OpCode.PUSH16), ("PUSH17", OpCode.PUSH17), ("PUSH18", OpCode.PUSH18),
  ("PUSH19", OpCode.PUSH19), ("PUSH20", OpCode.PUSH20), ("PUSH21", OpCode.PUSH21),
  ("PUSH22", OpCode.PUSH22), ("PUSH23", OpCode.PUSH23), ("PUSH24", OpCode.PUSH24),
  ("PUSH25", OpCode.PUSH25), ("PUSH26", OpCode.PUSH26), ("PUSH27", OpCode.PUSH27),
  ("PUSH28", OpCode.PUSH28), ("PUSH29", OpCode.PUSH29), ("PUSH30", OpCode.PUSH30),
  ("PUSH31", OpCode.PUSH31), ("PUSH32", OpCode.PUSH32), ("DUP1", OpCode.DUP1),
  ("DUP2", OpCode.DUP2), ("DUP3", OpCode.DUP3), ("DUP4", OpCode.DUP4), ("DUP5", OpCode.DUP5),
  ("DUP6", OpCode.DUP6), ("DUP7", OpCode.DUP7), ("DUP8", OpCode.DUP8), ("DUP9", OpCode.DUP9),
  ("DUP10", OpCode.DUP10), ("DUP11", OpCode.DUP11), ("DUP12", OpCode.DUP12),
  ("DUP13", OpCode.DUP13), ("DUP14", OpCode.DUP14), ("DUP15", OpCode.DUP15),
  ("DUP16", OpCode.DUP16), ("SWAP1", OpCode.SWAP1), ("SWAP2", OpCode.SWAP2),
  ("SWAP3", OpCode.SWAP3), ("SWAP4", OpCode.SWAP4), ("SWAP5", OpCode.SWAP5),
  ("SWAP6", OpCode.SWAP6), ("SWAP7", OpCode.SWAP7), ("SWAP8", OpCode.SWAP8),
  ("SWAP9", OpCode.SWAP9), ("SWAP10", OpCode.SWAP10), ("SWAP11", OpCode.SWAP11),
  ("SWAP12", OpCode.SWAP12), ("SWAP13", OpCode.SWAP13), ("SWAP14", OpCode.SWAP14),
  ("SWAP15", OpCode.SWAP15), ("SWAP16", OpCode.SWAP16), ("LOG0", OpCode.LOG0),
  ("LOG1", OpCode.LOG1), ("LOG2", OpCode.LOG2), ("LOG3", OpCode.LOG3), ("LOG4", OpCode.LOG4),
  ("CREATE", OpCode.CREATE), ("CALL", OpCode.CALL), ("RETURN", OpCode.RETURN),
  ("CALLCODE", OpCode.CALLCODE), ("REVERT", OpCode.REVERT),
  ("SELFDESTRUCT", OpCode.SELFDESTRUCT)
]

/-- `vm.StringToOp(str)`: `STOP`, the zero value, for a name the map does not hold. -/
def stringToOp (str : List Char) : Vm.OpCode :=
  match stringToOpMap.find? (fun p => p.1.toList = str) with
  | some (_, op) => op
  | none => 0

end Vm

namespace Asm

open Vm

/-! ### Values -/

/-- The bytes of a Go string: the UTF-8 encoding of its runes. -/
def utf8 (s : List Char) : List UInt8 := s.flatMap String.utf8EncodeChar

/-- `math.MustParseBig256(text).Bytes()`, made the one byte `0` when empty: the bytes of a
number token. `none` is the panic of `MustParseBig256`. -/
def numberBytes (text : List Char) : Option (List UInt8) :=
  (Common.Math.parseBig256 text).map fun x => if GoBig.bytes x = [] then [0] else GoBig.bytes x

variable (T : Tables)

/-- `strings.ToUpper(s)`, rune by rune. -/
def toUpper (s : List Char) : List Char := s.map T.toUpper

/-- `isPush(op)`. -/
def isPush (op : List Char) : Bool := toUpper T op = "PUSH".toList

/-- `isJump(op)`: `jump` or `jumpi`, of any case. -/
def isJump (op : List Char) : Bool :=
  toUpper T op = "JUMPI".toList ∨ toUpper T op = "JUMP".toList

/-- `toBinary(text)`. -/
def toBinary (text : List Char) : Vm.OpCode := stringToOp (toUpper T text)

/-- The three kinds of value the compiler pushes onto `binary`. -/
inductive BinItem where
  | op (o : Vm.OpCode)
  | bytes (b : List UInt8)
  /-- A Go `string`, as its bytes. -/
  | str (s : List UInt8)
  deriving DecidableEq, Repr

/-- What an item of `binary` adds to the output of `Compile`. -/
def BinItem.toBytes : BinItem → List UInt8
  | .op o => [o]
  | .bytes b => b
  | .str _ => []

/-- The bytes of a binary, which `Compile` returns in hex. -/
def binBytes (binary : List BinItem) : List UInt8 := binary.flatMap BinItem.toBytes

/-- The errors of `Compile`. -/
inductive CompileError where
  /-- `compileError`: `"%d syntax error: unexpected %v, expected %v"`. -/
  | compileError (got want : List Char) (lineno : Nat)
  /-- `"%d type error: unsupported string or number with size > 32"`. -/
  | typeError (lineno : Nat)
  deriving DecidableEq, Repr

/-- `compileErr(c, got, want)`. -/
def compileErr (c : Token) (got want : List Char) : CompileError := .compileError got want c.lineno

/-- `Compiler`. -/
structure Compiler where
  tokens : List Token
  binary : List BinItem
  labels : List Char → Int
  pc : Int
  pos : Nat

/-- `NewCompiler(debug)`. -/
def newCompiler : Compiler := ⟨[], [], fun _ => 0, 0, 0⟩

namespace Compiler

/-! ### The first pass -/

/-- One round of `Feed`'s loop. -/
def feedToken (c : Compiler) (i : Token) : Option Compiler := do
  let c ← match i.typ with
    | .number => (numberBytes i.text).map fun num => { c with pc := c.pc + num.length }
    | .stringValue => some { c with pc := c.pc + (utf8 i.text).length - 2 }
    | .element => some { c with pc := c.pc + 1 }
    | .labelDef => some { c with labels := Function.update c.labels i.text c.pc, pc := c.pc + 1 }
    | .label => some { c with pc := c.pc + 5 }
    | _ => some c
  some { c with tokens := c.tokens ++ [i] }

/-- `c.Feed(ch)`. -/
def feed (c : Compiler) (ch : List Token) : Option Compiler := ch.foldlM feedToken c

/-! ### The second pass -/

/-- `c.next()`: the token at `pos`, a panic past the end. -/
def next (c : Compiler) : Option (Token × Compiler) :=
  if h : c.pos < c.tokens.length then some (c.tokens[c.pos], { c with pos := c.pos + 1 })
  else none

/-- `c.pushBin(v)`. -/
def pushBin (c : Compiler) (v : BinItem) : Compiler := { c with binary := c.binary ++ [v] }

/-- `c.compileNumber(element)`. -/
def compileNumber (c : Compiler) (element : Token) : Option (Nat × Compiler) := do
  let num ← numberBytes element.text
  pure (num.length, c.pushBin (.bytes num))

/-- `big.NewInt(int64(c.labels[name])).Bytes()`. -/
def labelBytes (c : Compiler) (name : List Char) : List UInt8 := GoBig.bytes (c.labels name)

/-- The operand of a jump, pushed ahead of it: a number as its bytes, with no `PUSH`; a
string as a `string`, with its first byte and last two cut off; a label as `PUSH4` and the
four big-endian bytes of its value. -/
def jumpOperand (c : Compiler) (rvalue : Token) : Option (Except CompileError Compiler) :=
  match rvalue.typ with
  | .number => (c.compileNumber rvalue).map fun (_, c) => .ok c
  | .stringValue =>
    (GoSlice.sliceChecked (utf8 rvalue.text) 1 ((utf8 rvalue.text).length - 2)).map fun s =>
      .ok (c.pushBin (.str s))
  | .label =>
    -- `make([]byte, 4-len(pos))` panics for a value of more than four bytes
    let pos := c.labelBytes rvalue.text
    if pos.length ≤ 4 then
      some (.ok ((c.pushBin (.op OpCode.PUSH4)).pushBin (.bytes (List.replicate (4 - pos.length) 0 ++ pos))))
    else none
  | _ => some (.error (compileErr rvalue rvalue.text "number, string or label".toList))

/-- The value a push pushes: a number's bytes, a string's bytes between its quotes, and for
a label four bytes into which `copy` puts the bytes of its value from the left. -/
def pushValue (c : Compiler) (rvalue : Token) : Option (Except CompileError (List UInt8)) :=
  match rvalue.typ with
  | .number => (numberBytes rvalue.text).map .ok
  | .stringValue =>
    (GoSlice.sliceChecked (utf8 rvalue.text) 1 ((utf8 rvalue.text).length - 1)).map .ok
  | .label => some (.ok (GoSlice.copyAt (List.replicate 4 0) 0 (c.labelBytes rvalue.text)).1)
  | _ => some (.error (compileErr rvalue rvalue.text "number, string or label".toList))

/-- `c.compileElement(element)`: a jump reads its operand and pushes it, then the jump; a
push reads its value and pushes `PUSHn` and the value; any other word is one opcode. -/
def compileElement (c : Compiler) (element : Token) : Option (Option CompileError × Compiler) :=
  if isJump T element.text then do
    let (rvalue, c) ← c.next
    match ← c.jumpOperand rvalue with
    | .error e => pure (some e, c)
    | .ok c => pure (none, c.pushBin (.op (toBinary T element.text)))
  else if isPush T element.text then do
    let (rvalue, c) ← c.next
    match ← c.pushValue rvalue with
    | .error e => pure (some e, c)
    | .ok value =>
      if value.length > 32 then pure (some (.typeError rvalue.lineno), c)
      else
        pure (none, (c.pushBin (.op (UInt8.ofNat (OpCode.PUSH1.toNat - 1 + value.length)))).pushBin
          (.bytes value))
  else pure (none, c.pushBin (.op (toBinary T element.text)))

/-- `c.compileLabel()`. -/
def compileLabel (c : Compiler) : Compiler := c.pushBin (.op OpCode.JUMPDEST)

/-- The check that ends `compileLine`: the next token ends the line. -/
def expectLineEnd (c : Compiler) : Option (Option CompileError × Compiler) := do
  let (n, c) ← c.next
  if n.typ ≠ .lineEnd then pure (some (compileErr n n.text TokenType.lineEnd.toText), c)
  else pure (none, c)

/-- `c.compileLine()`: `lineStart`, then the end of the input, an empty line, a label
definition or an element, then `lineEnd`. -/
def compileLine (c : Compiler) : Option (Option CompileError × Compiler) := do
  let (n, c) ← c.next
  if n.typ ≠ .lineStart then
    return (some (compileErr n n.typ.toText TokenType.lineStart.toText), c)
  let (lvalue, c) ← c.next
  match lvalue.typ with
  | .eof => pure (none, c)
  | .element => do
    let (err, c) ← c.compileElement T lvalue
    match err with
    | some e => pure (some e, c)
    | none => c.expectLineEnd
  | .labelDef => c.compileLabel.expectLineEnd
  | .lineEnd => pure (none, c)
  | _ => pure (some (compileErr lvalue lvalue.text "label definition or element".toList), c)

/-- `for c.pos < len(c.tokens)`, collecting the errors. -/
def compileLoop : Nat → Compiler → List CompileError → Option (Compiler × List CompileError)
  | 0, c, errors => some (c, errors)
  | fuel + 1, c, errors =>
    if c.pos < c.tokens.length then do
      let (err, c) ← c.compileLine T
      compileLoop fuel c (errors ++ err.toList)
    else some (c, errors)

/-- `c.Compile()`: the bytes of the binary, and the errors. -/
def compile (c : Compiler) : Option (List UInt8 × List CompileError) := do
  let (c, errors) ← compileLoop T c.tokens.length c []
  pure (binBytes c.binary, errors)

end Compiler

end Asm
