import TwoPass.Machine.Mnemonic
import TwoPass.Text.Piece

/-! The lines of a source. Blanks and commas separate the tokens of a line, and a semicolon starts a
comment that runs to its end. The mnemonic table decides how the tokens are read as a statement: a
first token that it does not know labels the statement.

A number has an optional sign, then decimal digits, or binary, octal or hexadecimal ones behind 0b,
0o or 0x. The digits give at most the largest constant; the sign is applied after that. -/

namespace TwoPass.Source

def isSeparator (c : Char) : Bool :=
  Text.isBlank c || c == ','

def tokens (line : Text) : List Text :=
  Text.pieces isSeparator (Text.before ';' line)

def isLiteral : Text → Bool
  | '=' :: _ => true
  | _ => false

theorem isLiteral_cons {c : Char} {t : Text} : isLiteral (c :: t) = true ↔ c = '=' := by
  by_cases h : c = '='
  · simp [h, isLiteral]
  · simp only [h, iff_false, Bool.not_eq_true]
    unfold isLiteral
    split
    · next he => exact absurd (List.cons.inj he).1 h
    · rfl

/-- The number that unsigned digits give, in the radix that they announce. -/
def unsigned? : Text → Option Nat
  | '0' :: 'b' :: digits => Numeral.magnitude? 2 digits
  | '0' :: 'o' :: digits => Numeral.magnitude? 8 digits
  | '0' :: 'x' :: digits => Numeral.magnitude? 16 digits
  | digits => Numeral.magnitude? 10 digits

def largest : Nat :=
  9223372036854775807

def bounded? (t : Text) : Option Nat :=
  (unsigned? t).filter (· ≤ largest)

def number? : Text → Option Int
  | '-' :: t => (bounded? t).map fun n => -(n : Int)
  | '+' :: t => (bounded? t).map Int.ofNat
  | t => (bounded? t).map Int.ofNat

def address? (t : Text) : Option Address :=
  (number? t).bind fun v =>
    if h : 0 ≤ v ∧ v < 65536 then some ⟨v.toNat, by omega⟩ else none

/-- The text between single quotes, when a text is such; otherwise the text itself. -/
def unquoted (t : Text) : Text :=
  match t with
  | '\x27' :: rest => if rest.getLast? = some '\x27' then rest.dropLast else t
  | _ => t

/-- The operand of a statement that lays out a constant; it may stand between single quotes. -/
def constant? (t : Text) : Option Constant :=
  (number? (unquoted t)).bind Constant.ofInt?

inductive Statement
  | blank
  /-- A single token that is not a mnemonic. -/
  | bareLabel (name : Text)
  /-- A label with something behind it that is not a mnemonic. -/
  | unknown (name : Text)
  | instruction (label : Option Text) (mnemonic : Mnemonic) (operands : List Text)
deriving DecidableEq

namespace Statement

def ofTokens (table : MnemonicTable) : List Text → Statement
  | [] => .blank
  | first :: rest =>
    match table.find? first with
    | some m => .instruction none m rest
    | none =>
      match rest with
      | [] => .bareLabel first
      | second :: operands =>
        match table.find? second with
        | some m => .instruction (some first) m operands
        | none => .unknown second

def ofLine (table : MnemonicTable) (line : Text) : Statement :=
  ofTokens table (tokens line)

theorem ofTokens_eq_blank_iff {table : MnemonicTable} {ts : List Text} :
    ofTokens table ts = .blank ↔ ts = [] := by
  fun_cases ofTokens table ts <;> simp

end Statement

end TwoPass.Source
