import Mathlib

/-!
# The lexer of the EVM assembler

`core/asm`'s `Lex` turns a source text into the tokens the compiler reads. It is a
state machine of Go functions, each returning the next one: `lexLine` reads runes until
one starts a token, hands over to the function for that token (`lexComment`, `lexLabel`,
`lexInsideString`, `lexNumber`, `lexElement`), which emits it and hands back to
`lexLine`; a rune no case takes, or the end of the input, stops the machine. The tokens
go over a channel, read here as the list of what was sent.

| Go | here |
|---|---|
| `l.input[l.pos:]` | the unread input, an argument of each function |
| `l.input[l.start:l.pos]` | `Asm.Lexer.blob`, read and not yet emitted or ignored |
| `stateFn` | `Asm.StateFn`, `none` for `nil` |
| `Lex` | `Asm.lex` |

The source is taken as the runes it decodes to. The rune classes of `unicode` and the case
mapping of `strings.ToUpper` are not written out: the model is stated for any tables
(`Asm.Tables`), and every result holds whatever they say.

The machine runs on fuel, one unit per state function called. Every call of `lexLine` that
hands over has read a rune, and the function it hands over to returns to it, so twice the
length of the input, and two more, is enough (`Asm.run_add_fuel`).
-/

namespace Asm

/-- The Unicode tables the assembler consults: `unicode.IsLetter`, `unicode.IsSpace`,
`unicode.IsNumber`, and the case mapping `strings.ToUpper` applies to each rune. -/
structure Tables where
  isLetter : Char → Bool
  isSpace : Char → Bool
  isNumber : Char → Bool
  toUpper : Char → Char

/-- The tables on ASCII runes, where they agree with Unicode's. -/
def asciiTables : Tables where
  isLetter c := c.isAlpha
  isSpace c := c = ' ' ∨ c = '\t' ∨ c = '\n' ∨ c = '\x0B' ∨ c = '\x0C' ∨ c = '\r'
  isNumber c := c.isDigit
  toUpper c := c.toUpper

/-- `tokenType`. -/
inductive TokenType where
  /-- The end of the input. -/
  | eof
  /-- Sent when a line starts. -/
  | lineStart
  /-- Sent when a line ends. -/
  | lineEnd
  | invalidStatement
  /-- A word: an opcode, `push`, `jump` or `jumpi`. -/
  | element
  /-- A use of a label, `@name`. -/
  | label
  /-- A definition of a label, `name:`. -/
  | labelDef
  | number
  /-- A quoted string, quotes included. -/
  | stringValue
  deriving DecidableEq, Repr

/-- `tokenType.String()`, through `stringtokenTypes`. -/
def TokenType.toText : TokenType → List Char
  | .eof => "EOF".toList
  | .lineStart => "new line".toList
  | .lineEnd => "end of line".toList
  | .invalidStatement => "invalid statement".toList
  | .element => "element".toList
  | .label => "label".toList
  | .labelDef => "label definition".toList
  | .number => "number".toList
  | .stringValue => "string".toList

/-- `token`: its type, its line and its text. -/
structure Token where
  typ : TokenType
  lineno : Nat
  text : List Char
  deriving DecidableEq, Repr

/-- `Numbers`. -/
def numbers : List Char := "1234567890".toList

/-- `HexadecimalNumbers`. -/
def hexadecimalNumbers : List Char := numbers ++ "aAbBcCdDeEfF".toList

/-- `Alpha`. -/
def alpha : List Char := "abcdefghijklmnopqrstuwvxyzABCDEFGHIJKLMNOPQRSTUWVXYZ".toList

/-! ### The lexer's state and its primitives -/

/-- `lexer`, without its input: what has been read since the last token, the line, and the
tokens sent so far. -/
structure Lexer where
  blob : List Char
  lineno : Nat
  tokens : List Token
  deriving Repr

namespace Lexer

/-- `l.emit(t)`: send the token of the text read, and start the next one here. -/
def emit (l : Lexer) (t : TokenType) : Lexer :=
  { l with blob := [], tokens := l.tokens ++ [⟨t, l.lineno, l.blob⟩] }

/-- `l.ignore()`: drop the text read. -/
def ignore (l : Lexer) : Lexer := { l with blob := [] }

/-- Runes read by `l.next()`, added to the text of the token. -/
def read (l : Lexer) (cs : List Char) : Lexer := { l with blob := l.blob ++ cs }

end Lexer

/-- `l.peek()`: the next rune, `0` at the end. -/
def peek : List Char → Char
  | [] => '\x00'
  | c :: _ => c

/-- `l.accept(valid)`: read the next rune if it is one of `valid`. -/
def accept (valid : List Char) (input : List Char) (l : Lexer) : Bool × List Char × Lexer :=
  match input with
  | c :: cs => if c ∈ valid then (true, cs, l.read [c]) else (false, input, l)
  | [] => (false, [], l)

/-- `l.acceptRun(valid)`: read the runes of `valid` that come next, as many as there are. -/
def acceptRun (valid : List Char) (input : List Char) (l : Lexer) : List Char × Lexer :=
  (input.dropWhile (· ∈ valid), l.read (input.takeWhile (· ∈ valid)))

/-- `l.acceptRunUntil(until)`: read up to and including `untilRune`; a `0` rune before it, or the
end of the input, stops the loop with `false`. -/
def acceptRunUntil (untilRune : Char) : List Char → Lexer → Bool × List Char × Lexer
  | [], l => (false, [], l)
  | c :: cs, l =>
    if c = untilRune then (true, cs, l.read [c])
    else if c = '\x00' then (false, cs, l.read [c])
    else acceptRunUntil untilRune cs (l.read [c])

/-! ### The state functions -/

/-- `stateFn`: the state functions of the lexer. -/
inductive StateFn where
  | lexLine
  | lexComment
  | lexLabel
  | lexInsideString
  | lexNumber
  | lexElement
  deriving DecidableEq, Repr

variable (T : Tables)

/-- `lexLine`: skip spaces and newlines, sending `lineEnd` and `lineStart` at each newline,
until a rune starts a token, and hand over to the function for it. -/
def lexLine : List Char → Lexer → Option StateFn × List Char × Lexer
  -- `l.next()` at the end reads `0`, which the `default` case takes
  | [], l => (none, [], l)
  | r :: input, l =>
    let l := l.read [r]
    if r = '\n' then
      lexLine input (Lexer.emit { l.emit .lineEnd with lineno := l.lineno + 1 } .lineStart)
    else if r = ';' ∧ peek input = ';' then (some .lexComment, input, l)
    else if T.isSpace r then lexLine input l.ignore
    else if T.isLetter r ∨ r = '_' then (some .lexElement, input, l)
    else if T.isNumber r then (some .lexNumber, input, l)
    else if r = '@' then (some .lexLabel, input, l.ignore)
    else if r = '"' then (some .lexInsideString, input, l)
    else (none, input, l)

/-- `lexComment`: drop the rest of the line, its newline included. -/
def lexComment (input : List Char) (l : Lexer) : Option StateFn × List Char × Lexer :=
  let (_, input, l) := acceptRunUntil '\n' input l
  (some .lexLine, input, l.ignore)

/-- `lexLabel`: the name after `@`. -/
def lexLabel (input : List Char) (l : Lexer) : Option StateFn × List Char × Lexer :=
  let (input, l) := acceptRun (alpha ++ ['_']) input l
  (some .lexLine, input, l.emit .label)

/-- `lexInsideString`: a string up to its closing quote; an unterminated one is not sent. -/
def lexInsideString (input : List Char) (l : Lexer) : Option StateFn × List Char × Lexer :=
  let (found, input, l) := acceptRunUntil '"' input l
  (some .lexLine, input, if found then l.emit .stringValue else l)

/-- `lexNumber`: a decimal number, or a hexadecimal one once a `0`, `x` or `X` follows the
first digit. -/
def lexNumber (input : List Char) (l : Lexer) : Option StateFn × List Char × Lexer :=
  let (zero, input, l) := accept ['0'] input l
  let (hex, input, l) := if zero then (true, input, l) else accept ['x', 'X'] input l
  let (input, l) := acceptRun (if hex then hexadecimalNumbers else numbers) input l
  (some .lexLine, input, l.emit .number)

/-- `lexElement`: a word, which is a label definition when a `:` follows it. -/
def lexElement (input : List Char) (l : Lexer) : Option StateFn × List Char × Lexer :=
  let (input, l) := acceptRun (alpha ++ ['_'] ++ numbers) input l
  if peek input = ':' then
    let (_, input, l) := accept [':'] (input) (l.emit .labelDef)
    (some .lexLine, input, l.ignore)
  else (some .lexLine, input, l.emit .element)

/-- `l.state(l)`. -/
def step : StateFn → List Char → Lexer → Option StateFn × List Char × Lexer
  | .lexLine => lexLine T
  | .lexComment => lexComment
  | .lexLabel => lexLabel
  | .lexInsideString => lexInsideString
  | .lexNumber => lexNumber
  | .lexElement => lexElement

/-- `for l.state != nil { l.state = l.state(l) }`, one unit of fuel a call. -/
def run : Nat → Option StateFn → List Char → Lexer → Lexer
  | _, none, _, l => l
  | 0, some _, _, l => l
  | fuel + 1, some s, input, l =>
    let (s, input, l) := step T s input l
    run fuel s input l

/-- The fuel the machine needs from state `s` with `input` left to read: two units a rune,
and one for the last call of `lexLine`, or two when another state function comes first. -/
def fuelFor : Option StateFn → List Char → Nat
  | none, _ => 0
  | some .lexLine, input => 2 * input.length + 1
  | some _, input => 2 * input.length + 2

/-- `Lex(name, source, debug)`: `lineStart`, the tokens of the source, then `eof`. -/
def lex (source : List Char) : List Token :=
  let l := run T (fuelFor (some .lexLine) source) (some .lexLine) source
    (Lexer.emit { blob := [], lineno := 0, tokens := [] } .lineStart)
  (l.emit .eof).tokens

/-! ### The fuel is enough -/

theorem acceptRunUntil_length (untilRune : Char) :
    ∀ (input : List Char) (l : Lexer), (acceptRunUntil untilRune input l).2.1.length ≤ input.length
  | [], _ => Nat.le_refl _
  | c :: cs, l => by
    unfold acceptRunUntil
    split_ifs
    · exact Nat.le_succ _
    · exact Nat.le_succ _
    · exact Nat.le_succ_of_le (acceptRunUntil_length untilRune cs _)

theorem accept_length (valid input : List Char) (l : Lexer) :
    (accept valid input l).2.1.length ≤ input.length := by
  unfold accept
  split
  · split_ifs
    · exact Nat.le_succ _
    · exact Nat.le_refl _
  · exact Nat.le_refl _

theorem acceptRun_length (valid input : List Char) (l : Lexer) :
    (acceptRun valid input l).1.length ≤ input.length :=
  (List.dropWhile_suffix _).length_le

/-- `lexLine` hands over only after reading a rune. -/
theorem lexLine_length :
    ∀ (input : List Char) (l : Lexer) (s : StateFn),
      (lexLine T input l).1 = some s → (lexLine T input l).2.1.length < input.length
  | [], _, _, h => by simp [lexLine] at h
  | r :: input, l, s, h => by
    unfold lexLine at h ⊢
    dsimp only at h ⊢
    split_ifs at h ⊢
    · exact Nat.lt_succ_of_lt (lexLine_length input _ s h)
    · exact Nat.lt_succ_self _
    · exact Nat.lt_succ_of_lt (lexLine_length input _ s h)
    all_goals exact Nat.lt_succ_self _

/-- Every other state function returns to `lexLine`, having read nothing back. -/
theorem step_of_ne_lexLine {s : StateFn} (hs : s ≠ .lexLine) (input : List Char) (l : Lexer) :
    (step T s input l).1 = some .lexLine ∧ (step T s input l).2.1.length ≤ input.length := by
  cases s with
  | lexLine => exact absurd rfl hs
  | lexComment => exact ⟨rfl, acceptRunUntil_length _ input l⟩
  | lexLabel => exact ⟨rfl, acceptRun_length _ input l⟩
  | lexInsideString => exact ⟨rfl, acceptRunUntil_length _ input l⟩
  | lexNumber =>
    refine ⟨rfl, ?_⟩
    simp only [step, lexNumber]
    have h0 := accept_length ['0'] input l
    split
    · exact Nat.le_trans (acceptRun_length _ _ _) h0
    · exact Nat.le_trans (Nat.le_trans (acceptRun_length _ _ _) (accept_length _ _ _)) h0
  | lexElement =>
    simp only [step, lexElement]
    have h1 := acceptRun_length (alpha ++ ['_'] ++ numbers) input l
    split
    · exact ⟨rfl, Nat.le_trans (accept_length _ _ _) h1⟩
    · exact ⟨rfl, h1⟩

/-- One call of a state function spends one unit of the fuel `fuelFor` asks for. -/
theorem fuelFor_step (s : StateFn) (input : List Char) (l : Lexer) :
    fuelFor (step T s input l).1 (step T s input l).2.1 < fuelFor (some s) input := by
  by_cases hs : s = .lexLine
  · subst hs
    cases h : (lexLine T input l).1 with
    | none => simp [fuelFor, step, h]
    | some s' =>
      have hlt := lexLine_length T input l s' h
      simp only [step, h, fuelFor]
      split <;> omega
  · obtain ⟨hnext, hle⟩ := step_of_ne_lexLine T hs input l
    rw [hnext]
    cases s <;> simp only [fuelFor] at hle ⊢ <;> first | exact absurd rfl hs | omega

/-- **The lexer's fuel is enough**: from any state, more fuel than `fuelFor` asks for changes
nothing, so `lex` is the machine run to its end. -/
theorem run_add_fuel :
    ∀ (fuel : Nat) (s : Option StateFn) (input : List Char) (l : Lexer),
      fuelFor s input ≤ fuel → ∀ k, run T (fuel + k) s input l = run T fuel s input l
  | _, none, _, _, _, k => by simp [run]
  | 0, some s, input, l, h, k => by
    cases s <;> simp [fuelFor] at h
  | fuel + 1, some s, input, l, h, k => by
    have hstep := fuelFor_step T s input l
    rcases hst : step T s input l with ⟨s', input', l'⟩
    rw [hst] at hstep
    rw [Nat.add_right_comm]
    simp only [run, hst]
    exact run_add_fuel fuel s' input' l' (by simp only at hstep; omega) k

theorem run_add_fuel_push :
    run asciiTables (fuelFor (some .lexLine) "push 1".toList + 10) (some .lexLine) "push 1".toList
        (Lexer.emit { blob := [], lineno := 0, tokens := [] } .lineStart) =
      run asciiTables (fuelFor (some .lexLine) "push 1".toList) (some .lexLine) "push 1".toList
        (Lexer.emit { blob := [], lineno := 0, tokens := [] } .lineStart) :=
  run_add_fuel asciiTables _ _ _ _ le_rfl 10

end Asm
