import Dsplinz.Asm.Compiler

/-!
# What the assembler's two passes agree on

A program the compiler accepts is a list of statements, one a line (`Asm.Stmt`): the end
of the input, an empty line, a label definition, an opcode, or a `push` or jump with its
operand. `Asm.parseLine` says how `compileLine` reads one off the tokens, and
`Asm.Stmt.code` what it pushes for it; a run of `Compile` without errors is these two, line
after line (`Asm.Compiler.compileLoop_reads`). The offsets then come from sizes alone:

| pass | what it counts for a statement |
|---|---|
| `Feed` | `Asm.Stmt.pcSize`, the sum of `pc` over its tokens |
| `Compile` | the bytes of its code |

The two differ by `Asm.Stmt.extra` (`Asm.Stmt.code_length`): a `push` of a label is
counted as six bytes and written as five (the word `push` is counted as one byte and the
label as five more, `PUSH4` included), and a jump to a string is counted with the string's
length and written without the string, which the output skips. Every other statement is
counted as it is written. So the value `Feed` gives a label is the offset of its last
definition's `JUMPDEST` plus the `extra` of the statements before it
(`Asm.label_offsets`).
-/

namespace Asm

open Vm

/-! ### Statements -/

/-- The operand of a `push` or a jump. -/
inductive Operand where
  | number (text : List Char)
  | str (text : List Char)
  | label (name : List Char)
  deriving DecidableEq, Repr

/-- A line the compiler reads without an error. -/
inductive Stmt where
  /-- `lineStart eof`: `compileLine` returns without looking further. -/
  | stop
  /-- `lineStart lineEnd`. -/
  | blank
  | labelDef (name : List Char)
  /-- A word that is neither a push nor a jump, compiled as one opcode. -/
  | op (word : List Char)
  | push (word : List Char) (arg : Operand)
  /-- `jump` or `jumpi`, of any case, and its operand. -/
  | jump (word : List Char) (arg : Operand)
  deriving DecidableEq, Repr

/-- The operand a token stands for. -/
def Operand.ofToken (t : Token) : Option Operand :=
  match t.typ with
  | .number => some (.number t.text)
  | .stringValue => some (.str t.text)
  | .label => some (.label t.text)
  | _ => none

variable (T : Tables)

/-- The end of a line: a `lineEnd` token. -/
def lineEnd : List Token → Option (List Token)
  | e :: rest => if e.typ = .lineEnd then some rest else none
  | [] => none

/-- The statement an element starts, and the tokens after it: a push or a jump takes the
next token as its operand. -/
def parseElement (el : Token) : List Token → Option (Stmt × List Token)
  | toks =>
    if isJump T el.text ∨ isPush T el.text then
      match toks with
      | r :: rest => (Operand.ofToken r).map fun a =>
          (if isJump T el.text then .jump el.text a else .push el.text a, rest)
      | [] => none
    else some (.op el.text, toks)

/-- The statement `compileLine` reads off the tokens when it returns no error, and the
tokens after it. -/
def parseLine : List Token → Option (Stmt × List Token)
  | n :: lvalue :: rest =>
    if n.typ ≠ .lineStart then none
    else
      match lvalue.typ with
      | .eof => some (.stop, rest)
      | .lineEnd => some (.blank, rest)
      | .labelDef => (lineEnd rest).map fun rest => (.labelDef lvalue.text, rest)
      | .element =>
        (parseElement T lvalue rest).bind fun (s, rest) => (lineEnd rest).map fun rest => (s, rest)
      | _ => none
  | _ => none

/-! ### The code of a statement -/

/-- What a jump pushes ahead of itself for its operand, `none` where `Compile` panics. -/
def Operand.jumpCode (labels : List Char → Int) : Operand → Option (List BinItem)
  | .number t => (numberBytes t).map fun num => [.bytes num]
  | .str t => (GoSlice.sliceChecked (utf8 t) 1 ((utf8 t).length - 2)).map fun s => [.str s]
  | .label name =>
    let pos := GoBig.bytes (labels name)
    if pos.length ≤ 4 then
      some [.op OpCode.PUSH4, .bytes (List.replicate (4 - pos.length) 0 ++ pos)]
    else none

/-- The value a push pushes, `none` where `Compile` panics. -/
def Operand.pushValue (labels : List Char → Int) : Operand → Option (List UInt8)
  | .number t => numberBytes t
  | .str t => GoSlice.sliceChecked (utf8 t) 1 ((utf8 t).length - 1)
  | .label name => some (GoSlice.copyAt (List.replicate 4 0) 0 (GoBig.bytes (labels name))).1

/-- The items `Compile` pushes for a statement, with `labels` the values `Feed` recorded;
`none` where it panics or reports an error. -/
def Stmt.code (labels : List Char → Int) : Stmt → Option (List BinItem)
  | .stop => some []
  | .blank => some []
  | .labelDef _ => some [.op OpCode.JUMPDEST]
  | .op w => some [.op (toBinary T w)]
  | .jump w a => (a.jumpCode labels).map (· ++ [.op (toBinary T w)])
  | .push _ a => (a.pushValue labels).bind fun value =>
      if value.length > 32 then none
      else some [.op (UInt8.ofNat (OpCode.PUSH1.toNat - 1 + value.length)), .bytes value]


/-! ### Sizes -/

/-- What `Feed` adds to `pc` for a token. -/
def pcStep (t : Token) : Int :=
  match t.typ with
  | .number => ((numberBytes t.text).getD []).length
  | .stringValue => (utf8 t.text).length - 2
  | .element => 1
  | .labelDef => 1
  | .label => 5
  | _ => 0

/-- What `Feed` counts for an operand. -/
def Operand.pcSize : Operand → Int
  | .number t => ((numberBytes t).getD []).length
  | .str t => (utf8 t).length - 2
  | .label _ => 5

/-- What `Feed` counts for the tokens of a statement. -/
def Stmt.pcSize : Stmt → Int
  | .stop => 0
  | .blank => 0
  | .labelDef _ => 1
  | .op _ => 1
  | .push _ a => 1 + a.pcSize
  | .jump _ a => 1 + a.pcSize

/-- What `Feed` counts for a statement beyond the bytes of its code: the extra byte of a push
of a label, and the string of a jump, which the output skips. -/
def Stmt.extra : Stmt → Int
  | .push _ (.label _) => 1
  | .jump _ (.str t) => (utf8 t).length - 2
  | _ => 0

/-- The labels a statement defines. -/
def Stmt.defs : Stmt → List (List Char)
  | .labelDef name => [name]
  | _ => []

/-- The names of the label definitions among tokens. -/
def labelDefs (toks : List Token) : List (List Char) :=
  (toks.filter (·.typ = .labelDef)).map Token.text

theorem binBytes_append (a b : List BinItem) : binBytes (a ++ b) = binBytes a ++ binBytes b := by
  simp [binBytes]

/-- **What `Feed` counts for a statement is its code and its `extra`.** -/
theorem Stmt.code_length {labels : List Char → Int} {s : Stmt} {items : List BinItem}
    (h : s.code T labels = some items) :
    ((binBytes items).length : Int) + s.extra = s.pcSize := by
  cases s with
  | stop => cases h; rfl
  | blank => cases h; rfl
  | labelDef name => cases h; rfl
  | op w => cases h; rfl
  | jump w a =>
    obtain ⟨pre, hpre, rfl⟩ := Option.map_eq_some_iff.mp h
    cases a with
    | number t =>
      obtain ⟨num, hnum, rfl⟩ := Option.map_eq_some_iff.mp hpre
      simp [binBytes, BinItem.toBytes, Stmt.extra, Stmt.pcSize, Operand.pcSize, hnum]
      omega
    | str t =>
      obtain ⟨v, -, rfl⟩ := Option.map_eq_some_iff.mp hpre
      simp [binBytes, BinItem.toBytes, Stmt.extra, Stmt.pcSize, Operand.pcSize]
    | label name =>
      simp only [Operand.jumpCode] at hpre
      split at hpre
      · rename_i hlen
        cases hpre
        simp [binBytes, BinItem.toBytes, Stmt.extra, Stmt.pcSize, Operand.pcSize]
        omega
      · cases hpre
  | push w a =>
    obtain ⟨v, hv, h⟩ := Option.bind_eq_some_iff.mp h
    split at h
    · cases h
    · cases h
      cases a with
      | number t =>
        simp [binBytes, BinItem.toBytes, Stmt.extra, Stmt.pcSize, Operand.pcSize,
          show numberBytes t = some v from hv]
        omega
      | str t =>
        have hlen := GoSlice.length_sliceChecked (show _ = some v from hv)
        simp [binBytes, BinItem.toBytes, Stmt.extra, Stmt.pcSize, Operand.pcSize]
        omega
      | label name =>
        cases hv
        simp [binBytes, BinItem.toBytes, Stmt.extra, Stmt.pcSize, Operand.pcSize]

/-! ### The tokens of a statement -/

theorem lineEnd_eq_some {toks rest : List Token} (h : lineEnd toks = some rest) :
    ∃ e, toks = e :: rest ∧ e.typ = .lineEnd := by
  unfold lineEnd at h
  split at h
  · split at h
    · cases h
      exact ⟨_, rfl, by assumption⟩
    · cases h
  · cases h

theorem pcStep_of_ofToken {r : Token} {a : Operand} (h : Operand.ofToken r = some a) :
    pcStep r = a.pcSize ∧ r.typ ≠ .labelDef := by
  unfold Operand.ofToken at h
  split at h <;> cases h <;> simp_all [pcStep, Operand.pcSize]

theorem labelDefs_append (a b : List Token) : labelDefs (a ++ b) = labelDefs a ++ labelDefs b := by
  simp [labelDefs]

/-- The tokens after an element: nothing, or the operand of a push or a jump. -/
theorem parseElement_eq_some {el : Token} {toks rest : List Token} {s : Stmt}
    (h : parseElement T el toks = some (s, rest)) :
    ∃ seg, toks = seg ++ rest ∧ (seg.map pcStep).sum + 1 = s.pcSize ∧ labelDefs seg = [] ∧
      s.defs = [] := by
  unfold parseElement at h
  dsimp only at h
  by_cases hjp : isJump T el.text = true ∨ isPush T el.text = true
  · rw [if_pos hjp] at h
    cases toks with
    | nil => cases h
    | cons r toks' =>
      obtain ⟨a, ha, hs⟩ := Option.map_eq_some_iff.mp h
      obtain ⟨hpc, hdef⟩ := pcStep_of_ofToken ha
      cases hs
      refine ⟨[r], rfl, ?_, by simp [labelDefs, hdef], ?_⟩
      · split <;> simp [Stmt.pcSize, hpc] <;> omega
      · split <;> rfl
  · rw [if_neg hjp] at h
    cases h
    exact ⟨[], rfl, by simp [Stmt.pcSize], rfl, rfl⟩

/-- **The tokens of a statement**: a prefix of the tokens, of at least two, over which
`Feed` counts the statement's `pcSize` and finds the labels it defines. -/
theorem parseLine_eq_some {toks rest : List Token} {s : Stmt}
    (h : parseLine T toks = some (s, rest)) :
    ∃ seg, toks = seg ++ rest ∧ (seg.map pcStep).sum = s.pcSize ∧ labelDefs seg = s.defs ∧
      2 ≤ seg.length := by
  unfold parseLine at h
  split at h
  · rename_i n lv toks'
    split at h
    · cases h
    · rename_i hstart
      have hn : pcStep n = 0 ∧ n.typ ≠ .labelDef := by
        rw [not_not] at hstart
        simp [pcStep, hstart]
      split at h
      · rename_i heq
        cases h
        have hlv : pcStep lv = 0 := by simp [pcStep, heq]
        exact ⟨[n, lv], rfl, by simp [hn.1, hlv, Stmt.pcSize],
          by simp [labelDefs, hn.2, heq, Stmt.defs], le_rfl⟩
      · rename_i heq
        cases h
        have hlv : pcStep lv = 0 := by simp [pcStep, heq]
        exact ⟨[n, lv], rfl, by simp [hn.1, hlv, Stmt.pcSize],
          by simp [labelDefs, hn.2, heq, Stmt.defs], le_rfl⟩
      · rename_i heq
        obtain ⟨rest', hend, hs⟩ := Option.map_eq_some_iff.mp h
        cases hs
        obtain ⟨e, rfl, he⟩ := lineEnd_eq_some hend
        have hlv : pcStep lv = 1 := by simp [pcStep, heq]
        have he0 : pcStep e = 0 := by simp [pcStep, he]
        exact ⟨[n, lv, e], rfl, by simp [hn.1, hlv, he0, Stmt.pcSize],
          by simp [labelDefs, hn.2, heq, he, Stmt.defs], by simp⟩
      · rename_i heq
        obtain ⟨⟨s', toks''⟩, hel, h⟩ := Option.bind_eq_some_iff.mp h
        obtain ⟨rest', hend, hs⟩ := Option.map_eq_some_iff.mp h
        cases hs
        obtain ⟨seg, rfl, hsum, hdefs, hsdefs⟩ := parseElement_eq_some T hel
        obtain ⟨e, rfl, he⟩ := lineEnd_eq_some hend
        have hlv : pcStep lv = 1 := by simp [pcStep, heq]
        have he0 : pcStep e = 0 := by simp [pcStep, he]
        refine ⟨n :: lv :: seg ++ [e], by simp, ?_, ?_, by simp⟩
        · simp only [List.cons_append, List.map_cons, List.map_append, List.sum_cons,
            List.sum_append, hn.1, hlv, he0, List.map_nil, List.sum_nil]
          omega
        · simp [labelDefs, hn.2, heq, he, hsdefs] at hdefs ⊢
          exact hdefs
      · cases h
  · cases h

/-! ### A run of `Compile` without errors -/

/-- `Reads T labels toks prog`: the tokens `toks` are the lines of the statements of `prog`,
one after the other, and beside each statement stands its code. -/
inductive Reads (labels : List Char → Int) : List Token → List (Stmt × List BinItem) → Prop
  | nil : Reads labels [] []
  | cons {toks rest : List Token} {s : Stmt} {items : List BinItem}
      {prog : List (Stmt × List BinItem)} :
      parseLine T toks = some (s, rest) → s.code T labels = some items →
      Reads labels rest prog → Reads labels toks ((s, items) :: prog)

/-! ### The tokens `compileLine` reads -/

namespace Compiler

/-- The tokens from `pos` on. -/
def rest (c : Compiler) : List Token := c.tokens.drop c.pos

theorem next_eq_some {c c' : Compiler} {t : Token} (h : c.next = some (t, c')) :
    ∃ rest, c.rest = t :: rest ∧ c'.rest = rest ∧ c' = { c with pos := c.pos + 1 } := by
  unfold next at h
  split at h
  · rename_i hlt
    cases h
    exact ⟨_, List.drop_eq_getElem_cons hlt, rfl, rfl⟩
  · cases h

theorem pushBin_binary (c : Compiler) (v : BinItem) : (c.pushBin v).binary = c.binary ++ [v] :=
  rfl

/-- The operand a jump reads, and the items it pushes for it. -/
theorem jumpOperand_ok {c c' : Compiler} {r : Token} (h : c.jumpOperand r = some (.ok c')) :
    ∃ a items, Operand.ofToken r = some a ∧ a.jumpCode c.labels = some items ∧
      c' = { c with binary := c.binary ++ items } := by
  unfold jumpOperand at h
  split at h
  · rename_i hty
    obtain ⟨⟨n, c1⟩, hnum, hc1⟩ := Option.map_eq_some_iff.mp h
    cases hc1
    unfold compileNumber at hnum
    obtain ⟨num, hbytes, hc⟩ := Option.bind_eq_some_iff.mp hnum
    cases hc
    refine ⟨.number r.text, [.bytes num], by simp [Operand.ofToken, hty], ?_, rfl⟩
    simp [Operand.jumpCode, hbytes]
  · rename_i hty
    obtain ⟨s, hs, hc⟩ := Option.map_eq_some_iff.mp h
    cases hc
    exact ⟨.str r.text, [.str s], by simp [Operand.ofToken, hty], by simp [Operand.jumpCode, hs], rfl⟩
  · rename_i hty
    dsimp only at h
    split at h
    · rename_i hlen
      cases h
      refine ⟨.label r.text, [.op OpCode.PUSH4, .bytes (List.replicate (4 - (c.labelBytes r.text).length) 0 ++
        c.labelBytes r.text)], by simp [Operand.ofToken, hty], ?_, by simp [pushBin]⟩
      simp only [labelBytes] at hlen
      simp [Operand.jumpCode, labelBytes, hlen]
    · cases h
  · cases h

/-- The operand a push reads, and the value it pushes. -/
theorem pushValue_ok {c : Compiler} {r : Token} {value : List UInt8}
    (h : c.pushValue r = some (.ok value)) :
    ∃ a, Operand.ofToken r = some a ∧ a.pushValue c.labels = some value := by
  unfold pushValue at h
  split at h
  · rename_i hty
    obtain ⟨v, hv, hc⟩ := Option.map_eq_some_iff.mp h
    cases hc
    exact ⟨.number r.text, by simp [Operand.ofToken, hty], hv⟩
  · rename_i hty
    obtain ⟨v, hv, hc⟩ := Option.map_eq_some_iff.mp h
    cases hc
    exact ⟨.str r.text, by simp [Operand.ofToken, hty], hv⟩
  · rename_i hty
    cases h
    exact ⟨.label r.text, by simp [Operand.ofToken, hty], rfl⟩
  · cases h

@[simp] theorem rest_pushBin (c : Compiler) (v : BinItem) : (c.pushBin v).rest = c.rest := rfl

/-- **An element compiled without an error** is a statement read off the tokens, and what
the compiler pushes is its code. -/
theorem compileElement_ok {c c' : Compiler} {el : Token} (h : c.compileElement T el = some (none, c')) :
    ∃ s items, parseElement T el c.rest = some (s, c'.rest) ∧ s.code T c.labels = some items ∧
      c'.tokens = c.tokens ∧ c'.labels = c.labels ∧ c'.binary = c.binary ++ items := by
  unfold compileElement at h
  by_cases hj : isJump T el.text = true
  · -- a jump: its operand, then the jump
    rw [if_pos hj] at h
    obtain ⟨⟨r, c1⟩, hnext, h⟩ := Option.bind_eq_some_iff.mp h
    obtain ⟨toks, hrest, hrest1, rfl⟩ := next_eq_some hnext
    obtain ⟨e, he, h⟩ := Option.bind_eq_some_iff.mp h
    cases e with
    | error e => cases h
    | ok c2 =>
      cases h
      obtain ⟨a, items, ha, hcode, rfl⟩ := jumpOperand_ok he
      refine ⟨.jump el.text a, items ++ [.op (toBinary T el.text)], ?_, ?_, rfl, rfl, ?_⟩
      · rw [hrest]
        simp only [parseElement, hj, ha]
        exact hrest1 ▸ rfl
      · simp [Stmt.code, hcode]
      · simp [pushBin]
  · rw [if_neg hj] at h
    by_cases hp : isPush T el.text = true
    · -- a push: its value, behind `PUSHn`
      rw [if_pos hp] at h
      obtain ⟨⟨r, c1⟩, hnext, h⟩ := Option.bind_eq_some_iff.mp h
      obtain ⟨toks, hrest, hrest1, rfl⟩ := next_eq_some hnext
      obtain ⟨e, he, h⟩ := Option.bind_eq_some_iff.mp h
      cases e with
      | error e => cases h
      | ok value =>
        dsimp only at h
        split at h
        · cases h
        · rename_i hsize
          cases h
          obtain ⟨a, ha, hvalue⟩ := pushValue_ok he
          refine ⟨.push el.text a, [.op (UInt8.ofNat (OpCode.PUSH1.toNat - 1 + value.length)),
            .bytes value], ?_, ?_, rfl, rfl, by simp [pushBin]⟩
          · rw [hrest]
            simp only [parseElement, hj, hp, ha]
            exact hrest1 ▸ rfl
          · simp [Stmt.code, hvalue, hsize]
    · -- any other word: one opcode
      rw [if_neg hp] at h
      cases h
      refine ⟨.op el.text, _, ?_, rfl, rfl, rfl, rfl⟩
      simp [parseElement, hj, hp]

/-- The end of a line, as `expectLineEnd` checks it. -/
theorem expectLineEnd_ok {c c' : Compiler} (h : c.expectLineEnd = some (none, c')) :
    lineEnd c.rest = some c'.rest ∧ c' = { c with pos := c.pos + 1 } := by
  unfold expectLineEnd at h
  obtain ⟨⟨e, c1⟩, he, h⟩ := Option.bind_eq_some_iff.mp h
  obtain ⟨toks, hrest, hrest1, rfl⟩ := next_eq_some he
  dsimp only at h
  split at h
  · cases h
  · rename_i hend
    cases h
    refine ⟨?_, rfl⟩
    rw [hrest, ← hrest1]
    simp [lineEnd, not_not.mp hend]

/-- **A line compiled without an error** is a statement read off the tokens, and what the
compiler pushes is its code. -/
theorem compileLine_ok {c c' : Compiler} (h : c.compileLine T = some (none, c')) :
    ∃ s items, parseLine T c.rest = some (s, c'.rest) ∧ s.code T c.labels = some items ∧
      c'.tokens = c.tokens ∧ c'.labels = c.labels ∧ c'.binary = c.binary ++ items := by
  unfold compileLine at h
  obtain ⟨⟨n, c1⟩, hn, h⟩ := Option.bind_eq_some_iff.mp h
  obtain ⟨toks1, hrest, hrest1, rfl⟩ := next_eq_some hn
  dsimp only at h
  split at h
  · cases h
  · rename_i hstart
    obtain ⟨⟨lv, c2⟩, hlv, h⟩ := Option.bind_eq_some_iff.mp h
    obtain ⟨toks2, hrest2, hrest2', rfl⟩ := next_eq_some hlv
    have hc : c.rest = n :: lv :: toks2 := by rw [hrest, ← hrest1, hrest2]
    dsimp only at h
    split at h
    · -- the end of the input
      rename_i heq
      cases h
      refine ⟨.stop, [], ?_, rfl, rfl, rfl, by simp⟩
      rw [hc, ← hrest2']
      simp [parseLine, hstart, heq]
    · -- an element, then the end of the line
      rename_i heq
      obtain ⟨⟨err, c3⟩, hel, h⟩ := Option.bind_eq_some_iff.mp h
      cases err with
      | some e => cases h
      | none =>
        obtain ⟨s, items, hparse, hcode, htok, hlab, hbin⟩ := compileElement_ok T hel
        obtain ⟨hend, rfl⟩ := expectLineEnd_ok h
        refine ⟨s, items, ?_, hcode, htok, hlab, hbin⟩
        rw [hrest2'] at hparse
        rw [hc]
        simp [parseLine, hstart, heq, hparse, hend]
    · -- a label definition, then the end of the line
      rename_i heq
      obtain ⟨hend, rfl⟩ := expectLineEnd_ok h
      refine ⟨.labelDef lv.text, [.op OpCode.JUMPDEST], ?_, rfl, rfl, rfl, rfl⟩
      rw [compileLabel, rest_pushBin, hrest2'] at hend
      rw [hc]
      simp only [parseLine, hstart, heq, hend, if_false, Option.map_some]
      rfl
    · -- an empty line
      rename_i heq
      cases h
      refine ⟨.blank, [], ?_, rfl, rfl, rfl, by simp⟩
      rw [hc, ← hrest2']
      simp [parseLine, hstart, heq]
    · cases h

/-- The errors of the loop only accumulate. -/
theorem compileLoop_errors :
    ∀ (fuel : Nat) (c : Compiler) (errs : List CompileError) {c' : Compiler}
      {errs' : List CompileError}, compileLoop T fuel c errs = some (c', errs') →
      ∃ more, errs' = errs ++ more
  | 0, c, errs, c', errs', h => by
    cases h
    exact ⟨[], by simp⟩
  | fuel + 1, c, errs, c', errs', h => by
    unfold compileLoop at h
    split at h
    · obtain ⟨⟨err, c1⟩, -, h⟩ := Option.bind_eq_some_iff.mp h
      obtain ⟨more, rfl⟩ := compileLoop_errors fuel c1 _ h
      exact ⟨err.toList ++ more, by simp⟩
    · cases h
      exact ⟨[], by simp⟩

/-- **A run of `Compile` without errors reads the tokens as statements**, and pushes the code
of each, in order. The induction is on the fuel, which is never short since every line is at
least two tokens. -/
theorem compileLoop_reads :
    ∀ (fuel : Nat) (c c' : Compiler), c.rest.length ≤ fuel →
      compileLoop T fuel c [] = some (c', []) →
      ∃ prog, Reads T c.labels c.rest prog ∧ c'.binary = c.binary ++ prog.flatMap Prod.snd ∧
        c'.labels = c.labels
  | 0, c, c', hlen, h => by
    cases h
    refine ⟨[], ?_, by simp, rfl⟩
    rw [List.eq_nil_of_length_eq_zero (Nat.le_zero.mp hlen)]
    exact .nil
  | fuel + 1, c, c', hlen, h => by
    unfold compileLoop at h
    split at h
    · obtain ⟨⟨err, c1⟩, hline, h⟩ := Option.bind_eq_some_iff.mp h
      -- no error so far, so none in this line
      obtain ⟨more, hmore⟩ := compileLoop_errors T fuel c1 _ h
      have herr : err = none := by
        cases err with
        | none => rfl
        | some e => simp at hmore
      subst herr
      obtain ⟨s, items, hparse, hcode, htok, hlab, hbin⟩ := compileLine_ok T hline
      obtain ⟨seg, hseg, -, -, hseglen⟩ := parseLine_eq_some T hparse
      have hlen1 : c1.rest.length ≤ fuel := by
        have := congrArg List.length hseg
        simp only [List.length_append] at this
        omega
      obtain ⟨prog, hreads, hbin', hlab'⟩ := compileLoop_reads fuel c1 c' hlen1 h
      rw [hlab] at hreads hlab'
      refine ⟨(s, items) :: prog, .cons hparse hcode hreads, ?_, hlab'⟩
      simp [hbin', hbin]
    · rename_i hend
      cases h
      refine ⟨[], ?_, by simp, rfl⟩
      rw [show c.rest = [] from List.drop_eq_nil_of_le (Nat.le_of_not_lt hend)]
      exact .nil

/-! ### The first pass -/

/-- One round of `Feed`: the token is kept, `pc` grows by `pcStep`, and a label definition
records the `pc` before it. -/
theorem feedToken_eq {c c' : Compiler} {t : Token} (h : c.feedToken t = some c') :
    c'.tokens = c.tokens ++ [t] ∧ c'.pos = c.pos ∧ c'.binary = c.binary ∧
      c'.pc = c.pc + pcStep t ∧
      c'.labels = if t.typ = .labelDef then Function.update c.labels t.text c.pc else c.labels := by
  unfold feedToken at h
  dsimp only at h
  split at h
  · rename_i hty
    obtain ⟨c1, h1, h⟩ := Option.bind_eq_some_iff.mp h
    obtain ⟨num, hnum, rfl⟩ := Option.map_eq_some_iff.mp h1
    cases h
    simp [pcStep, hty, hnum]
  all_goals
    obtain ⟨c1, h1, h⟩ := Option.bind_eq_some_iff.mp h
    cases h1
    cases h
  all_goals simp_all [pcStep]
  omega

/-- **What `Feed` records.** It keeps the tokens, counts `pcStep` over them, and gives each
label defined the `pc` before its last definition; the other labels keep their values. -/
theorem feed_eq :
    ∀ (toks : List Token) (c c' : Compiler), c.feed toks = some c' →
      c'.tokens = c.tokens ++ toks ∧ c'.pos = c.pos ∧ c'.binary = c.binary ∧
      (∀ L, L ∉ labelDefs toks → c'.labels L = c.labels L) ∧
      ∀ pre t post, toks = pre ++ t :: post → t.typ = .labelDef → t.text ∉ labelDefs post →
        c'.labels t.text = c.pc + (pre.map pcStep).sum
  | [], c, c', h => by
    cases h
    refine ⟨by simp, rfl, rfl, fun _ _ => rfl, ?_⟩
    intro pre t post hsplit
    simp at hsplit
  | t0 :: toks, c, c', h => by
    unfold feed at h
    rw [List.foldlM_cons] at h
    obtain ⟨c1, h1, h⟩ := Option.bind_eq_some_iff.mp h
    obtain ⟨htok1, hpos1, hbin1, hpc1, hlab1⟩ := feedToken_eq h1
    obtain ⟨htok, hpos, hbin, hkeep, hdef⟩ := feed_eq toks c1 c' h
    -- the labels the first token leaves alone
    have hlab0 : ∀ L, (t0.typ = .labelDef → L ≠ t0.text) → c1.labels L = c.labels L := by
      intro L hL
      rw [hlab1]
      split
      · rename_i hty
        exact Function.update_of_ne (hL hty) _ _
      · rfl
    refine ⟨by simp [htok, htok1], hpos.trans hpos1, hbin.trans hbin1, ?_, ?_⟩
    · intro L hL
      have hL' : L ∉ labelDefs toks := by
        intro h
        simp only [labelDefs, List.mem_map, List.mem_filter, decide_eq_true_eq] at h
        obtain ⟨a, ⟨ha, hty⟩, htext⟩ := h
        exact hL (by
          simp only [labelDefs, List.mem_map, List.mem_filter, decide_eq_true_eq, List.mem_cons]
          exact ⟨a, ⟨Or.inr ha, hty⟩, htext⟩)
      rw [hkeep L hL']
      exact hlab0 L fun hty hL0 => hL (by simp [labelDefs, hty, hL0])
    · intro pre t post hsplit hty hpost
      cases pre with
      | nil =>
        -- the first token is the definition
        simp only [List.nil_append, List.cons.injEq] at hsplit
        obtain ⟨h0, rfl⟩ := hsplit
        subst h0
        rw [hkeep t0.text hpost, hlab1, if_pos hty, Function.update_self]
        simp
      | cons p pre =>
        simp only [List.cons_append, List.cons.injEq] at hsplit
        obtain ⟨rfl, rfl⟩ := hsplit
        rw [hdef pre t post rfl hty hpost, hpc1]
        simp only [List.map_cons, List.sum_cons]
        ring

end Compiler

/-! ### Offsets -/

/-- Every statement a run reads stands beside its code. -/
theorem Reads.code {labels : List Char → Int} {toks : List Token}
    {prog : List (Stmt × List BinItem)} (h : Reads T labels toks prog) :
    ∀ x ∈ prog, x.1.code T labels = some x.2 := by
  induction h with
  | nil => simp
  | cons _ hcode _ ih =>
    intro x hx
    rcases List.mem_cons.mp hx with rfl | hx
    · exact hcode
    · exact ih x hx

/-- The tokens of the first statements of a run, over which `Feed` counts the bytes of their
code and their `extra`, and finds the labels they define. -/
theorem Reads.split {labels : List Char → Int} :
    ∀ {toks : List Token} (pre : List (Stmt × List BinItem)) {post : List (Stmt × List BinItem)},
      Reads T labels toks (pre ++ post) →
      ∃ tpre tpost, toks = tpre ++ tpost ∧ Reads T labels tpost post ∧
        (tpre.map pcStep).sum =
          ((binBytes (pre.flatMap Prod.snd)).length : Int) + (pre.map fun x => x.1.extra).sum ∧
        labelDefs tpre = pre.flatMap fun x => x.1.defs
  | toks, [], post, h => ⟨[], toks, rfl, h, by simp [binBytes], by simp [labelDefs]⟩
  | toks, (s, items) :: pre, post, h => by
    cases h with
    | cons hparse hcode hrest =>
      obtain ⟨seg, rfl, hsum, hdefs, -⟩ := parseLine_eq_some T hparse
      obtain ⟨tpre, tpost, rfl, hpost, hsum', hdefs'⟩ := Reads.split pre hrest
      refine ⟨seg ++ tpre, tpost, by simp, hpost, ?_, ?_⟩
      · have hlen := Stmt.code_length T hcode
        simp only [List.map_append, List.sum_append, hsum, hsum', List.flatMap_cons,
          binBytes_append, List.length_append, List.map_cons, List.sum_cons]
        push_cast
        linarith
      · simp [labelDefs_append, hdefs, hdefs']

/-- A label definition is read off three tokens: `lineStart`, the definition, `lineEnd`. -/
theorem parseLine_labelDef {toks rest : List Token} {name : List Char}
    (h : parseLine T toks = some (.labelDef name, rest)) :
    ∃ n lv e, toks = n :: lv :: e :: rest ∧ pcStep n = 0 ∧ lv.typ = .labelDef ∧
      lv.text = name ∧ e.typ = .lineEnd := by
  unfold parseLine at h
  split at h
  · rename_i n lv toks'
    split at h
    · cases h
    · rename_i hstart
      have hn : pcStep n = 0 := by
        rw [not_not] at hstart
        simp [pcStep, hstart]
      split at h
      · cases h
      · cases h
      · rename_i heq
        obtain ⟨rest', hend, hs⟩ := Option.map_eq_some_iff.mp h
        cases hs
        obtain ⟨e, rfl, he⟩ := lineEnd_eq_some hend
        exact ⟨n, lv, e, rfl, hn, heq, rfl, he⟩
      · -- an element defines no label
        obtain ⟨⟨s', toks''⟩, hel, h⟩ := Option.bind_eq_some_iff.mp h
        obtain ⟨rest', -, hs⟩ := Option.map_eq_some_iff.mp h
        cases hs
        obtain ⟨-, -, -, -, hdefs⟩ := parseElement_eq_some T hel
        simp [Stmt.defs] at hdefs
      · cases h
  · cases h

/-- **The value `Feed` gives a label**: the byte offset of the `JUMPDEST` of its last
definition, plus the `extra` of the statements before it. -/
theorem labels_eq_offset {toks : List Token} {c : Compiler} {prog : List (Stmt × List BinItem)}
    (hfeed : newCompiler.feed toks = some c) (hreads : Reads T c.labels toks prog)
    {pre post : List (Stmt × List BinItem)} {name : List Char}
    (hprog : prog = pre ++ (.labelDef name, [.op OpCode.JUMPDEST]) :: post)
    (hlast : ∀ x ∈ post, x.1 ≠ .labelDef name) :
    c.labels name =
      ((binBytes (pre.flatMap Prod.snd)).length : Int) + (pre.map fun x => x.1.extra).sum := by
  subst hprog
  obtain ⟨tpre, trest, rfl, hrest, hsum, -⟩ := Reads.split T pre hreads
  cases hrest with
  | cons hparse _ hpost =>
    obtain ⟨n, lv, e, rfl, hn, hlv, rfl, he⟩ := parseLine_labelDef T hparse
    -- no later definition of the same label
    obtain ⟨tpost, tnil, rfl, hnil, -, hdefs⟩ := Reads.split T post
      (by simpa using hpost : Reads T c.labels _ (post ++ []))
    cases hnil
    rw [List.append_nil] at hfeed
    have hnot : lv.text ∉ labelDefs (e :: tpost) := by
      have he' : labelDefs [e] = [] := by simp [labelDefs, he]
      rw [show e :: tpost = [e] ++ tpost from rfl, labelDefs_append, he', List.nil_append, hdefs]
      intro hmem
      obtain ⟨⟨s, items⟩, hx, hmem⟩ := List.mem_flatMap.mp hmem
      apply hlast _ hx
      cases s <;> simp_all [Stmt.defs]
    have := (Compiler.feed_eq (tpre ++ n :: lv :: e :: tpost) newCompiler c hfeed).2.2.2.2
      (tpre ++ [n]) lv (e :: tpost) (by simp) hlv hnot
    rw [this]
    simp [newCompiler, hn, hsum]

/-- The code of a push of a label: `PUSH4`, then the bytes of the label's value copied into
four zero bytes from the left. -/
theorem Stmt.code_push_label {labels : List Char → Int} {w name : List Char}
    {items : List BinItem} (h : (Stmt.push w (.label name)).code T labels = some items) :
    binBytes items = OpCode.PUSH4 :: ((GoBig.bytes (labels name)).take 4 ++
      List.replicate (4 - (GoBig.bytes (labels name)).length) 0) := by
  simp only [Stmt.code, Operand.pushValue, Option.bind_some, GoSlice.length_copyAt,
    List.length_replicate] at h
  cases h
  have hop : UInt8.ofNat (OpCode.PUSH1.toNat - 1 + 4) = OpCode.PUSH4 := rfl
  simp only [binBytes, BinItem.toBytes, List.flatMap_cons, List.flatMap_nil, List.append_nil,
    GoSlice.copyAt_replicate, hop, List.singleton_append]

/-- The code of a jump to a label: `PUSH4`, the four big-endian bytes of the label's value,
then the jump. -/
theorem Stmt.code_jump_label {labels : List Char → Int} {w name : List Char}
    {items : List BinItem} (h : (Stmt.jump w (.label name)).code T labels = some items) :
    binBytes items = OpCode.PUSH4 :: BigEndian.lowBytes (labels name).natAbs 4 ++ [toBinary T w] := by
  obtain ⟨pre, hpre, rfl⟩ := Option.map_eq_some_iff.mp h
  simp only [Operand.jumpCode] at hpre
  split at hpre
  · rename_i hlen
    cases hpre
    simp [binBytes, BinItem.toBytes, GoBig.replicate_append_bytes hlen]
  · cases hpre

/-- **The assembler's labels, as `Lex`, `Feed` and `Compile` compute them.** A source they
accept without errors is a program of statements whose code is the output; the value `Feed`
gives a label is the byte offset of its last definition's `JUMPDEST` plus the `extra` of the
statements before it; a push of a label writes `PUSH4` and the value's bytes from the left of
four; and a jump to a label writes `PUSH4`, the value's four big-endian bytes, and the jump. -/
theorem label_offsets {src : List Char} {c : Compiler} {bin : List UInt8}
    (hfeed : newCompiler.feed (lex T src) = some c) (hcomp : c.compile T = some (bin, [])) :
    ∃ prog : List (Stmt × List BinItem), Reads T c.labels (lex T src) prog ∧
      bin = binBytes (prog.flatMap Prod.snd) ∧
      (∀ pre name post, prog = pre ++ (.labelDef name, [.op OpCode.JUMPDEST]) :: post →
        (∀ x ∈ post, x.1 ≠ .labelDef name) →
        c.labels name =
          ((binBytes (pre.flatMap Prod.snd)).length : Int) + (pre.map fun x => x.1.extra).sum) ∧
      (∀ x ∈ prog, ∀ w name, x.1 = .push w (.label name) →
        binBytes x.2 = OpCode.PUSH4 :: ((GoBig.bytes (c.labels name)).take 4 ++
          List.replicate (4 - (GoBig.bytes (c.labels name)).length) 0)) ∧
      (∀ x ∈ prog, ∀ w name, x.1 = .jump w (.label name) →
        binBytes x.2 = OpCode.PUSH4 :: BigEndian.lowBytes (c.labels name).natAbs 4 ++
          [toBinary T w]) := by
  unfold Compiler.compile at hcomp
  obtain ⟨⟨c', errs⟩, hloop, hres⟩ := Option.bind_eq_some_iff.mp hcomp
  cases hres
  obtain ⟨htok, hpos, hbin, -, -⟩ := Compiler.feed_eq _ _ _ hfeed
  have hrest : c.rest = lex T src := by simp [Compiler.rest, htok, hpos, newCompiler]
  obtain ⟨prog, hreads, hbin', -⟩ :=
    Compiler.compileLoop_reads T _ c c' (by rw [hrest, htok]; simp [newCompiler]) hloop
  rw [hrest] at hreads
  refine ⟨prog, hreads, by simp [hbin', hbin, newCompiler],
    fun pre name post hprog hlast => labels_eq_offset T hfeed hreads hprog hlast, ?_, ?_⟩
  · intro x hx w name hx1
    exact Stmt.code_push_label T (hx1 ▸ hreads.code T x hx)
  · intro x hx w name hx1
    exact Stmt.code_jump_label T (hx1 ▸ hreads.code T x hx)

/-- `push @L` then `L:`: `Feed` gives `L` the value `6`, the `JUMPDEST` is the sixth byte, at
offset `5`, and the push writes `6` from the left of its four bytes. -/
theorem label_offsets_push_then_define :
    ∃ c, newCompiler.feed (lex asciiTables "push @L\nL:\n".toList) = some c ∧
      c.compile asciiTables = some ([0x63, 6, 0, 0, 0, 0x5b], []) ∧ c.labels "L".toList = 6 ∧
      ∃ prog : List (Stmt × List BinItem),
        Reads asciiTables c.labels (lex asciiTables "push @L\nL:\n".toList) prog ∧
        [0x63, 6, 0, 0, 0, 0x5b] = binBytes (prog.flatMap Prod.snd) := by
  have hsome : (newCompiler.feed (lex asciiTables "push @L\nL:\n".toList)).isSome := by
    decide +kernel
  obtain ⟨c, hfeed⟩ := Option.isSome_iff_exists.mp hsome
  have hcomp : (newCompiler.feed (lex asciiTables "push @L\nL:\n".toList)).bind
      (Compiler.compile asciiTables) = some ([0x63, 6, 0, 0, 0, 0x5b], []) := by
    decide +kernel
  have hL : (newCompiler.feed (lex asciiTables "push @L\nL:\n".toList)).map
      (fun c => c.labels "L".toList) = some 6 := by
    decide +kernel
  rw [hfeed, Option.bind_some] at hcomp
  rw [hfeed, Option.map_some, Option.some_inj] at hL
  obtain ⟨prog, hreads, hbin, -⟩ := label_offsets asciiTables hfeed hcomp
  exact ⟨_, hfeed, hcomp, hL, prog, hreads, hbin⟩

end Asm
