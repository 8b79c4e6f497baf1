import TwoPass.Proofs.SymbolLog
import TwoPass.Setup
import TwoPass.Source.Statement
import TwoPass.Text.Line

/-! What a source says, before any table is built. Its rows through the end of the program give
the location counter, the sightings of names and the occurrences of literals, in order. -/

namespace TwoPass.Source

structure Row where
  line : Nat
  statement : Statement
deriving DecidableEq

structure Instruction where
  mnemonic : Mnemonic
  operands : List Text
deriving DecidableEq

namespace Statement

def isEnd : Statement → Bool
  | .instruction _ m _ => m.kind = .directive && m.name = "END".toList
  | _ => false

/-- The number that a statement's first operand gives, and zero when there is none. -/
def operandValue : List Text → Nat
  | [] => 0
  | t :: _ => ((address? t).map (·.val)).getD 0

/-- The location counter behind a statement. It is not bounded here. -/
def counterAfter (l : Nat) : Statement → Nat
  | .instruction _ m tokens =>
    match m.kind with
    | .directive => if m.name = "START".toList then operandValue tokens else l
    | .imperative => l + m.length.val
    | .declarative => l + if m.name = "DS".toList then operandValue tokens else m.length.val
  | _ => l

end Statement

def isSymbolOperand (registers : RegisterTable) (t : Text) : Bool :=
  (registers.code? t).isNone && !isLiteral t

def isLiteralOperand (registers : RegisterTable) (t : Text) : Bool :=
  (registers.code? t).isNone && isLiteral t

namespace Statement

def labelSightings (role : Role) (line l : Nat) (label : Option Text) : List Sighting :=
  label.toList.map fun name => ⟨name, line, role, l⟩

def operandSightings (registers : RegisterTable) (line l : Nat) (tokens : List Text) :
    List Sighting :=
  (tokens.filter (isSymbolOperand registers)).map fun name => ⟨name, line, .mention, l⟩

/-- A label is sighted before the operands, and only instructions have operands that are names. -/
def sightings (registers : RegisterTable) (line l : Nat) : Statement → List Sighting
  | .bareLabel name => [⟨name, line, .plain, l⟩]
  | .instruction label m tokens =>
    match m.kind with
    | .directive => labelSightings .plain line l label
    | .imperative =>
      labelSightings .plain line l label ++ operandSightings registers line l tokens
    | .declarative => labelSightings .data line l label
  | _ => []

end Statement

def Statement.instruction? : Statement → Option Instruction
  | .instruction _ m tokens => some ⟨m, tokens⟩
  | _ => none

def Instruction.literals (registers : RegisterTable) (i : Instruction) : List Text :=
  if i.mnemonic.kind = .imperative then i.operands.filter (isLiteralOperand registers) else []

def rowsOfLines (table : MnemonicTable) (ls : List (Nat × Text)) : List Row :=
  ls.map fun (line, t) => ⟨line, .ofLine table t⟩

def throughEnd : List Row → List Row
  | [] => []
  | r :: rs => if r.statement.isEnd then [r] else r :: throughEnd rs

def afterEnd : List Row → List Row
  | [] => []
  | r :: rs => if r.statement.isEnd then rs else afterEnd rs

/-- The rows of a source that count: those up to the end of the program, that one included. -/
def program (table : MnemonicTable) (source : Text) : List Row :=
  throughEnd (rowsOfLines table (Text.numbered (Text.lines source)))

def sightings (registers : RegisterTable) : Nat → List Row → List Sighting
  | _, [] => []
  | l, r :: rs =>
    r.statement.sightings registers r.line l ++ sightings registers (r.statement.counterAfter l) rs

def instructions (rs : List Row) : List Instruction :=
  rs.filterMap (·.statement.instruction?)

def literals (registers : RegisterTable) (is : List Instruction) : List Text :=
  is.flatMap (·.literals registers)

def sightingsOf (machine : Machine) (source : Text) : List Sighting :=
  sightings machine.registers 0 (program machine.mnemonics source)

def instructionsOf (machine : Machine) (source : Text) : List Instruction :=
  instructions (program machine.mnemonics source)

theorem instructions_cons (r : Row) (rs : List Row) :
    instructions (r :: rs) = r.statement.instruction?.toList ++ instructions rs := by
  cases hi : r.statement.instruction? <;> simp [instructions, hi]

theorem literals_append (registers : RegisterTable) (is js : List Instruction) :
    literals registers (is ++ js) = literals registers is ++ literals registers js := by
  simp [literals]

end TwoPass.Source
