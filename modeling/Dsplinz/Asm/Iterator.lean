import Dsplinz.Vm.Analysis
import Dsplinz.Lib.GoSlice

/-!
# The instruction iterator of the disassembler

`core/asm/asm.go` reads a contract's code one instruction at a time.
`NewInstructionIterator(code)` makes an iterator; each `Next()` moves it to the next
instruction and says whether there is one, and `PC()`, `Op()` and `Arg()` read where it
stands, the opcode there and the immediate of a push. A push whose immediate runs past the
end of the code stops the iteration with an error. `Disassemble` drains the iterator.

The JUMPDEST analysis of `core/vm/analysis.go` reads the same code with a loop of its own and
marks the immediates in a bit vector (`Vm.codeBitmap`). Both are passes of the walk of
`Walk`, which steps from each instruction over its immediate to the next; the iterator's
state between two `Next()` calls says where it stands on that walk:

| state | meaning | theorem |
|---|---|---|
| `Ready code it q` | no error yet, and the next `Next()` reads at `q` | `ready_new`, `Ready.next_of_fits` |
| `Instruction.At code x` | `x` is the opcode at its position, with its immediate | `drain_spec` |
| `TruncatedPushAt code b` | the code ends in a push at `b` whose immediate it cuts | `Ready.next_of_incomplete`, `TruncatedPushAt.unique` |

The results:

* `Asm.drain_spec` – from any ready state on a position of the walk, draining the iterator
  yields the walk's positions from there to the end of the code, each with its opcode and
  immediate, and ends either cleanly or with the error of a trailing truncated push, which
  is then the one position of the walk it did not yield;
* `Asm.iterator_agrees_with_bitmap` – hence the positions the iterator yields are exactly
  those `codeBitmap` marks as code, less a trailing truncated push;
* `Asm.disassemble_eq_error_iff` – `Disassemble` fails exactly on a code that ends in a
  truncated push, with the error of that push.

The Go iterator keeps `pc` in a `uint64` and `len(code)` is an `int`: a slice is shorter
than `2 ^ 63`, so `it.pc + 1 + a` never wraps and the model keeps `pc` in `Nat`. A nil and
an empty `arg` are one list here; `Next` and `Disassemble` only read its length.
-/

namespace Asm

open Vm Vm.OpCode

/-- The error `Next` records: `fmt.Errorf("incomplete push instruction at %v", it.pc)`. -/
inductive IterError
  /-- A push at this position whose immediate runs past the end of the code. -/
  | incompletePush (pc : Nat)
  deriving DecidableEq, Repr

/-- The text of the error. -/
def IterError.text : IterError → String
  | .incompletePush pc => "incomplete push instruction at " ++ toString pc

/-- `instructionIterator`. -/
structure InstructionIterator where
  code : List UInt8
  pc : Nat
  arg : List UInt8
  op : OpCode
  error : Option IterError
  started : Bool
  deriving DecidableEq, Repr

/-- `NewInstructionIterator(code)`: every other field at its zero value. -/
def newInstructionIterator (code : List UInt8) : InstructionIterator :=
  { code, pc := 0, arg := [], op := STOP, error := none, started := false }

namespace InstructionIterator

/-- The first half of `Next`: move past the current instruction and its immediate, or start
at the first. A nil `arg` has length zero, so the guard `it.arg != nil` adds nothing. -/
def moveOn (it : InstructionIterator) : InstructionIterator :=
  if it.started then { it with pc := it.pc + it.arg.length + 1 } else { it with started := true }

/-- The second half of `Next`: past the end there is no instruction; otherwise read the
opcode at `pc`, and the immediate of a push, which must lie within the code. -/
def decode (it : InstructionIterator) : Bool × InstructionIterator :=
  if h : it.code.length ≤ it.pc then (false, it)
  else
    let it := { it with op := it.code[it.pc] }
    if it.op.isPush then
      let a := it.op.toNat - PUSH1.toNat + 1
      let u := it.pc + 1 + a
      if it.code.length ≤ it.pc ∨ it.code.length < u then
        (false, { it with error := some (.incompletePush it.pc) })
      else (true, { it with arg := GoSlice.slice it.code (it.pc + 1) u })
    else (true, { it with arg := [] })

/-- `it.Next()`: whether there is a next instruction, and the iterator moved onto it. After
an error or past the end it stays where it is. -/
def next (it : InstructionIterator) : Bool × InstructionIterator :=
  if it.error.isSome ∨ it.code.length ≤ it.pc then (false, it) else it.moveOn.decode

end InstructionIterator

/-- One instruction as the iterator shows it: `PC()`, `Op()` and `Arg()` after a `Next()`
that returned true. -/
structure Instruction where
  pc : Nat
  op : OpCode
  arg : List UInt8
  deriving DecidableEq, Repr

/-- The loop `for it.Next() { ... }`, for at most `fuel` rounds: the instructions the
iterator shows, and the iterator once a `Next()` has returned false. -/
def drain : Nat → InstructionIterator → List Instruction × InstructionIterator
  | 0, it => ([], it)
  | fuel + 1, it =>
    match it.next with
    | (true, it') => (⟨it'.pc, it'.op, it'.arg⟩ :: (drain fuel it').1, (drain fuel it').2)
    | (false, it') => ([], it')

/-- The whole iteration over a code: `n + 1` rounds see out a code of `n` bytes, for each
round that yields moves past at least one byte (`drain_spec`). -/
def iterate (code : List UInt8) : List Instruction × InstructionIterator :=
  drain (code.length + 1) (newInstructionIterator code)

/-- The width of an immediate is what `Next` computes for a push, and none for any other
opcode. -/
theorem pushWidth_isPush (op : OpCode) :
    pushWidth op = if op.isPush then op.toNat - PUSH1.toNat + 1 else 0 := by
  have hiff : op.isPush = true ↔ 0x60 ≤ op.toNat ∧ op.toNat ≤ 0x7f := by
    simp [OpCode.isPush, PUSH1, PUSH32, UInt8.le_iff_toNat_le]
  have hpush1 : PUSH1.toNat = 0x60 := rfl
  rw [pushWidth_eq]
  by_cases h : op.isPush
  · have hrange := hiff.mp h
    rw [if_pos hrange, if_pos h, hpush1]
    omega
  · rw [if_neg (mt hiff.mpr h), if_neg h]

/-- A push on the walk whose immediate runs past the end of the code: the code ends in it. -/
def TruncatedPushAt (code : List UInt8) (b : Nat) : Prop :=
  Walk.Boundary pushWidth code b ∧ ∃ op, code[b]? = some op ∧ code.length < b + 1 + pushWidth op

/-- A code ends in at most one truncated push: a second one would lie inside the first's
immediate. -/
theorem TruncatedPushAt.unique {code : List UInt8} {b c : Nat} (hb : TruncatedPushAt code b)
    (hc : TruncatedPushAt code c) : b = c := by
  obtain ⟨hbw, op, hop, hbcut⟩ := hb
  obtain ⟨hcw, op', hop', hccut⟩ := hc
  have hblt : b < code.length := (List.getElem?_eq_some_iff.mp hop).1
  have hclt : c < code.length := (List.getElem?_eq_some_iff.mp hop').1
  rcases Nat.lt_trichotomy b c with hlt | heq | hgt
  · exact (Walk.not_boundary_of_inside hbw hop hcw hlt (by omega)).elim
  · exact heq
  · exact (Walk.not_boundary_of_inside hcw hop' hbw hgt (by omega)).elim

/-- `x` is the instruction of `code` at its position: its opcode, and the immediate of a
push, inside the code. -/
structure Instruction.At (code : List UInt8) (x : Instruction) : Prop where
  op : code[x.pc]? = some x.op
  fits : x.pc + 1 + pushWidth x.op ≤ code.length
  arg : x.arg = GoSlice.slice code (x.pc + 1) (x.pc + 1 + pushWidth x.op)

/-- The argument of an instruction is as wide as its opcode's immediate. -/
theorem Instruction.At.length_arg {code : List UInt8} {x : Instruction} (h : x.At code) :
    x.arg.length = pushWidth x.op := by
  rw [h.arg, GoSlice.length_slice]
  have := h.fits
  omega

/-! ### One call of `Next` -/

namespace InstructionIterator

variable {code : List UInt8} {it : InstructionIterator} {q : Nat}

@[simp] theorem moveOn_code (it : InstructionIterator) : it.moveOn.code = it.code := by
  unfold moveOn
  split <;> rfl

@[simp] theorem moveOn_error (it : InstructionIterator) : it.moveOn.error = it.error := by
  unfold moveOn
  split <;> rfl

@[simp] theorem moveOn_started (it : InstructionIterator) : it.moveOn.started = true := by
  unfold moveOn
  split
  · assumption
  · rfl

theorem moveOn_pc_of_started (h : it.started = true) :
    it.moveOn.pc = it.pc + it.arg.length + 1 := by
  rw [moveOn, if_pos h]

theorem next_of_error (h : it.error.isSome) : it.next = (false, it) := if_pos (.inl h)

theorem next_of_le (h : it.code.length ≤ it.pc) : it.next = (false, it) := if_pos (.inr h)

theorem decode_of_le (h : it.code.length ≤ it.pc) : it.decode = (false, it) := dif_pos h

/-- **Decoding a push cut by the end of the code** records the error at its position. -/
theorem decode_of_incomplete (hc : it.code = code) (hp : it.pc = q) (hq : q < code.length)
    (hcut : code.length < q + 1 + pushWidth code[q]) :
    it.decode = (false, { it with op := code[q], error := some (.incompletePush q) }) := by
  subst hc hp
  have hpush : OpCode.isPush it.code[it.pc] = true := by
    by_contra h
    rw [pushWidth_isPush, if_neg h] at hcut
    omega
  rw [pushWidth_isPush, if_pos hpush] at hcut
  unfold decode
  rw [dif_neg (by omega)]
  simp only [hpush, if_true]
  rw [if_pos (.inr hcut)]

/-- **Decoding an instruction within the code** reads its opcode and immediate. -/
theorem decode_of_fits (hc : it.code = code) (hp : it.pc = q) (hq : q < code.length)
    (hfit : q + 1 + pushWidth code[q] ≤ code.length) :
    it.decode = (true, { it with
      op := code[q], arg := GoSlice.slice code (q + 1) (q + 1 + pushWidth code[q]) }) := by
  subst hc hp
  unfold decode
  rw [dif_neg (by omega)]
  by_cases hpush : OpCode.isPush it.code[it.pc]
  · have hw := pushWidth_isPush it.code[it.pc]
    rw [if_pos hpush] at hw
    rw [hw] at hfit ⊢
    simp only [hpush, if_true]
    rw [if_neg (by omega)]
  · have hw := pushWidth_isPush it.code[it.pc]
    rw [if_neg hpush] at hw
    rw [hw, Nat.add_zero, GoSlice.slice_self]
    simp only [hpush, Bool.false_eq_true, if_false]

/-! ### The iterator between two calls -/

/-- The iterator between two `Next()` calls on its way over `code`: no error yet, and the
next `Next()` reads at `q`, which is `0` before the first call and just past the current
instruction and its immediate after it. -/
structure Ready (code : List UInt8) (it : InstructionIterator) (q : Nat) : Prop where
  code_eq : it.code = code
  error_eq : it.error = none
  moveOn_pc : it.moveOn.pc = q
  inside : it.started = true → it.pc < code.length
  fresh : it.started = false → it.pc = 0

theorem ready_new (code : List UInt8) : Ready code (newInstructionIterator code) 0 where
  code_eq := rfl
  error_eq := rfl
  moveOn_pc := rfl
  inside := nofun
  fresh := fun _ => rfl

/-- Below the end of the code, `Next` moves on and decodes. -/
theorem Ready.next_eq (h : Ready code it q) (hq : q < code.length) :
    it.next = it.moveOn.decode := by
  unfold next
  rw [if_neg]
  rintro (he | hle)
  · rw [h.error_eq] at he
    exact Bool.false_ne_true he
  · cases hs : it.started
    · -- before the first call `moveOn` only sets `started`
      have hpc : it.moveOn.pc = it.pc := by rw [moveOn, if_neg (by simp [hs])]
      rw [h.code_eq] at hle
      have := h.moveOn_pc
      omega
    · have := h.inside hs
      rw [h.code_eq] at hle
      omega

/-- **The end of the code**: `Next` returns false, and so does every later call. -/
theorem Ready.next_of_end (h : Ready code it q) (hq : code.length ≤ q) :
    it.next.1 = false ∧ it.next.2.next = (false, it.next.2) ∧ it.next.2.error = none := by
  by_cases hpc : it.code.length ≤ it.pc
  · rw [next_of_le hpc]
    exact ⟨rfl, next_of_le hpc, h.error_eq⟩
  · have hnext : it.next = it.moveOn.decode := by
      unfold next
      rw [if_neg]
      rintro (he | hle)
      · rw [h.error_eq] at he
        exact Bool.false_ne_true he
      · exact hpc hle
    have hmove : it.moveOn.code.length ≤ it.moveOn.pc := by
      rw [moveOn_code, h.code_eq, h.moveOn_pc]
      exact hq
    rw [hnext, decode_of_le hmove]
    exact ⟨rfl, next_of_le hmove, by rw [moveOn_error, h.error_eq]⟩

/-- **An instruction within the code**: `Next` returns true, standing on it with its opcode
and immediate, and the next call reads just past them. -/
theorem Ready.next_of_fits (h : Ready code it q) (hq : q < code.length)
    (hfit : q + 1 + pushWidth code[q] ≤ code.length) :
    ∃ it', it.next = (true, it') ∧ it'.pc = q ∧ it'.op = code[q] ∧
      it'.arg = GoSlice.slice code (q + 1) (q + 1 + pushWidth code[q]) ∧
      Ready code it' (q + 1 + pushWidth code[q]) := by
  have hc : it.moveOn.code = code := (moveOn_code it).trans h.code_eq
  rw [h.next_eq hq, decode_of_fits hc h.moveOn_pc hq hfit]
  refine ⟨_, rfl, h.moveOn_pc, rfl, rfl, ?_⟩
  have hlen := GoSlice.length_slice code (q + 1) (q + 1 + pushWidth code[q])
  constructor
  · exact hc
  · exact (moveOn_error it).trans h.error_eq
  · refine (moveOn_pc_of_started ?_).trans ?_
    · exact moveOn_started it
    · simp only [hlen, h.moveOn_pc]
      omega
  · intro _
    simp only [h.moveOn_pc]
    exact hq
  · simp

/-- **A push cut by the end of the code**: `Next` returns false with the error at its
position, and so does every later call. -/
theorem Ready.next_of_incomplete (h : Ready code it q) (hq : q < code.length)
    (hcut : code.length < q + 1 + pushWidth code[q]) :
    ∃ it', it.next = (false, it') ∧ it'.error = some (.incompletePush q) ∧
      it'.next = (false, it') := by
  have hc : it.moveOn.code = code := (moveOn_code it).trans h.code_eq
  rw [h.next_eq hq, decode_of_incomplete hc h.moveOn_pc hq hcut]
  exact ⟨_, rfl, rfl, next_of_error rfl⟩

end InstructionIterator

/-! ### Draining the iterator -/

theorem drain_succ_of_true {it it' : InstructionIterator} (fuel : Nat) (h : it.next = (true, it')) :
    drain (fuel + 1) it = (⟨it'.pc, it'.op, it'.arg⟩ :: (drain fuel it').1, (drain fuel it').2) := by
  simp only [drain, h]

theorem drain_succ_of_false {it it' : InstructionIterator} (fuel : Nat)
    (h : it.next = (false, it')) : drain (fuel + 1) it = ([], it') := by
  simp only [drain, h]

/-- What draining the iterator from position `q` yields, against a test `f` of the walk's
positions: cleanly, the positions of the walk from `q` to the end, where the code has no
truncated push from `q` on; or, stopped by the error of a truncated push, those positions
less the push's own, the last of them. -/
def Yields (code : List UInt8) (f : Nat → Bool) (q : Nat) (xs : List Instruction) :
    Option IterError → Prop
  | none => (∀ b, q ≤ b → ¬ TruncatedPushAt code b) ∧
      xs.map Instruction.pc = (List.range' q (code.length - q)).filter f
  | some (.incompletePush b) => TruncatedPushAt code b ∧
      xs.map Instruction.pc ++ [b] = (List.range' q (code.length - q)).filter f

section Yields

variable {code : List UInt8} {f : Nat → Bool}

theorem yields_end {q : Nat} (hq : code.length ≤ q) : Yields code f q [] none := by
  refine ⟨fun b hb htr => ?_, ?_⟩
  · obtain ⟨-, op, hop, -⟩ := htr
    have := (List.getElem?_eq_some_iff.mp hop).1
    omega
  · rw [Nat.sub_eq_zero_of_le hq, List.range'_zero, List.filter_nil, List.map_nil]

theorem yields_truncated (hf : ∀ p < code.length, f p = true ↔ Walk.Boundary pushWidth code p)
    {q : Nat} (hq : Walk.Boundary pushWidth code q) (hlt : q < code.length)
    (hcut : code.length < q + 1 + pushWidth code[q]) :
    Yields code f q [] (some (.incompletePush q)) := by
  have hget : code[q]? = some code[q] := List.getElem?_eq_getElem hlt
  refine ⟨⟨hq, code[q], hget, hcut⟩, ?_⟩
  rw [Walk.filter_range'_of_boundary hf hq hget, Nat.sub_eq_zero_of_le (by omega),
    List.range'_zero, List.filter_nil]
  rfl

/-- **One yielded instruction**: an instruction within the code at a position `q` of the
walk, followed by what the walk yields from the next instruction on. -/
theorem Yields.cons (hf : ∀ p < code.length, f p = true ↔ Walk.Boundary pushWidth code p)
    {q : Nat} (hq : Walk.Boundary pushWidth code q) (hlt : q < code.length)
    (hfit : q + 1 + pushWidth code[q] ≤ code.length) {op : OpCode} {arg : List UInt8}
    {xs : List Instruction} {err : Option IterError}
    (h : Yields code f (q + 1 + pushWidth code[q]) xs err) :
    Yields code f q (⟨q, op, arg⟩ :: xs) err := by
  have hget : code[q]? = some code[q] := List.getElem?_eq_getElem hlt
  have hlist := Walk.filter_range'_of_boundary hf hq hget
  match err, h with
  | none, ⟨hnone, hpcs⟩ =>
    refine ⟨fun b hb htr => ?_, by rw [hlist, List.map_cons, hpcs]⟩
    obtain ⟨hbw, op', hop', hcut⟩ := htr
    rcases Nat.lt_or_ge b (q + 1 + pushWidth code[q]) with hin | hout
    · rcases Nat.lt_or_eq_of_le hb with hgt | rfl
      · exact Walk.not_boundary_of_inside hq hget hbw hgt (by omega)
      · rw [hget, Option.some.injEq] at hop'
        subst hop'
        omega
    · exact hnone b hout ⟨hbw, op', hop', hcut⟩
  | some (.incompletePush b), ⟨htr, hpcs⟩ =>
    exact ⟨htr, by rw [hlist, List.map_cons, List.cons_append, hpcs]⟩

end Yields

/-- **Draining the iterator.** From any ready state whose next read is at a position `q` of
the walk, a drain with enough rounds ends because `Next` returned false, yields only
instructions of the code with their immediates, and yields the walk's positions from `q`
on as `Yields` says. By induction on the rounds; each round is one of the three outcomes
of `Next`. -/
theorem drain_spec {code : List UInt8} {f : Nat → Bool}
    (hf : ∀ p < code.length, f p = true ↔ Walk.Boundary pushWidth code p) :
    ∀ (fuel : Nat) (it : InstructionIterator) (q : Nat), it.Ready code q →
      Walk.Boundary pushWidth code q → code.length + 1 ≤ q + fuel →
      (drain fuel it).2.next.1 = false ∧ (∀ x ∈ (drain fuel it).1, x.At code) ∧
        Yields code f q (drain fuel it).1 (drain fuel it).2.error := by
  intro fuel
  induction fuel with
  | zero =>
    intro it q hr _ hfuel
    -- no round left: the walk is past the end already
    obtain ⟨hfalse, -, -⟩ := hr.next_of_end (by omega)
    refine ⟨hfalse, nofun, ?_⟩
    simp only [drain, hr.error_eq]
    exact yields_end (by omega)
  | succ fuel ih =>
    intro it q hr hq hfuel
    by_cases hend : code.length ≤ q
    · obtain ⟨hfalse, hstay, herr⟩ := hr.next_of_end hend
      have hnext : it.next = (false, it.next.2) := by rw [← hfalse]
      rw [drain_succ_of_false fuel hnext, hstay, herr]
      exact ⟨rfl, nofun, yields_end hend⟩
    have hlt : q < code.length := by omega
    by_cases hfit : q + 1 + pushWidth code[q] ≤ code.length
    · -- an instruction within the code: yielded, and the walk goes on past it
      obtain ⟨it', hnext, hpc, hop, harg, hr'⟩ := hr.next_of_fits hlt hfit
      have hget : code[q]? = some code[q] := List.getElem?_eq_getElem hlt
      obtain ⟨hfalse, hat, hy⟩ := ih it' _ hr' (.step hget hq) (by omega)
      rw [drain_succ_of_true fuel hnext]
      refine ⟨hfalse, ?_, ?_⟩
      · rintro x (_ | ⟨_, hx⟩)
        · exact ⟨by rw [hpc, hop, hget], by rw [hpc, hop]; exact hfit,
            by rw [hpc, hop, harg]⟩
        · exact hat x hx
      · rw [hpc]
        exact Yields.cons hf hq hlt hfit hy
    · -- a push cut by the end of the code
      obtain ⟨it', hnext, herr, hstay⟩ := hr.next_of_incomplete hlt (by omega)
      rw [drain_succ_of_false fuel hnext, hstay, herr]
      exact ⟨rfl, nofun, yields_truncated hf hq hlt (by omega)⟩

/-! ### Against the JUMPDEST analysis -/

/-- Below the end of the code, `codeBitmap` marks as code exactly the positions of the walk. -/
theorem codeSegment_iff_boundary {code : List UInt8} {bits : Bitvec}
    (hbm : codeBitmap code = some bits) :
    ∀ p < code.length, (bits.codeSegment p == some true) = true ↔
      Walk.Boundary pushWidth code p := by
  obtain ⟨bits', hbm', hlen, hmarks⟩ := codeBitmap_spec code
  rw [hbm, Option.some.injEq] at hbm'
  subst hbm'
  intro p hp
  rw [Bitvec.codeSegment_eq (by omega), Walk.boundary_iff_not_inData hp, ← hmarks p]
  simp

/-- **The disassembler and the JUMPDEST analysis agree on instruction boundaries.** For every
code, the iteration ends because `Next` returned false; each instruction it yields is the
opcode at its `PC()` with the whole immediate of a push as `Arg()`; and the positions it
yields are, in order, those below the length of the code that `codeBitmap` marks as code,
less the last of them when the code ends in a push whose immediate it cuts, where the
iteration stops with the error of that push. -/
theorem iterator_agrees_with_bitmap (code : List UInt8) :
    ∃ bits, codeBitmap code = some bits ∧ (iterate code).2.next.1 = false ∧
      (∀ x ∈ (iterate code).1, code[x.pc]? = some x.op ∧
        x.arg = GoSlice.slice code (x.pc + 1) (x.pc + 1 + pushWidth x.op) ∧
        x.arg.length = pushWidth x.op) ∧
      (((iterate code).2.error = none ∧ (∀ b, ¬ TruncatedPushAt code b) ∧
          (iterate code).1.map Instruction.pc =
            (List.range code.length).filter (fun p => bits.codeSegment p == some true)) ∨
        ∃ b, (iterate code).2.error = some (.incompletePush b) ∧ TruncatedPushAt code b ∧
          (iterate code).1.map Instruction.pc ++ [b] =
            (List.range code.length).filter (fun p => bits.codeSegment p == some true)) := by
  obtain ⟨bits, hbm, -, -⟩ := codeBitmap_spec code
  obtain ⟨hend, hat, hy⟩ := drain_spec (codeSegment_iff_boundary hbm) (code.length + 1) _ 0
    (InstructionIterator.ready_new code) .zero (by omega)
  refine ⟨bits, hbm, hend, fun x hx => ⟨(hat x hx).op, (hat x hx).arg, (hat x hx).length_arg⟩, ?_⟩
  rw [List.range_eq_range']
  -- `Yields` from position `0`, read by the error the iteration ended with
  match herr : (iterate code).2.error, hy with
  | none, hy =>
    rw [iterate, herr] at *
    exact .inl ⟨rfl, fun b => hy.1 b (Nat.zero_le b), by simpa using hy.2⟩
  | some (.incompletePush b), hy =>
    rw [iterate, herr] at *
    exact .inr ⟨b, rfl, hy.1, by simpa using hy.2⟩

example : (iterate [PUSH2, 1, 2, JUMPDEST, PUSH1]).1.map Instruction.pc = [0, 3] ∧
    (iterate [PUSH2, 1, 2, JUMPDEST, PUSH1]).2.error = some (.incompletePush 4) := by
  decide

end Asm
