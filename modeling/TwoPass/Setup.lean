import TwoPass.Machine.Mnemonic
import TwoPass.Machine.Register
import TwoPass.Text.Line
import TwoPass.Text.Piece

/-! What a source is assembled for: a machine, which is the mnemonics and the registers that it
knows, and options that the user may turn on. The built-in machine has ten mnemonics and four
registers; settings may replace both.

A text may define the mnemonics instead: one to a line, as name, class, opcode and length. Empty
lines and lines that open with a semicolon or a hash define nothing. -/

namespace TwoPass

namespace Mnemonic

/-- Reads the fields of a trimmed line; what follows the fourth is not looked at. -/
def ofDefinition (line : Nat) (t : Text) : Except Fault Mnemonic :=
  match Text.words t with
  | name :: tag :: opcode :: length :: _ =>
    match StatementClass.ofTag? tag with
    | none => .error (.unknownClass line tag)
    | some kind =>
      match Numeral.below? 256 opcode, Numeral.below? 65536 length with
      | some code, some words => .ok ⟨name, kind, code, words⟩
      | _, _ => .error (.malformedDefinition line t)
  | _ => .error (.malformedDefinition line t)

end Mnemonic

namespace MnemonicTable

def isEntry : Text → Bool
  | [] => false
  | c :: _ => c ≠ ';' && c ≠ '#'

def definitionLines (source : Text) : List (Nat × Text) :=
  ((Text.numbered (Text.lines source)).map fun (line, t) => (line, Text.trim t)).filter
    fun (_, t) => isEntry t

def ofDefinitionText (source : Text) : Except Fault MnemonicTable :=
  ((definitionLines source).mapM fun (line, t) => Mnemonic.ofDefinition line t).map ofList

end MnemonicTable

structure Machine where
  mnemonics : MnemonicTable
  registers : RegisterTable
deriving DecidableEq

def MnemonicTable.builtin : MnemonicTable :=
  ⟨[⟨"START".toList, .directive, 1, 0⟩,
    ⟨"END".toList, .directive, 2, 0⟩,
    ⟨"LTORG".toList, .directive, 3, 0⟩,
    ⟨"DS".toList, .declarative, 1, 1⟩,
    ⟨"DC".toList, .declarative, 2, 1⟩,
    ⟨"ADD".toList, .imperative, 1, 1⟩,
    ⟨"SUB".toList, .imperative, 2, 1⟩,
    ⟨"MULT".toList, .imperative, 3, 1⟩,
    ⟨"MOVER".toList, .imperative, 4, 1⟩,
    ⟨"MOVEM".toList, .imperative, 5, 1⟩]⟩

def RegisterTable.builtin : RegisterTable :=
  ⟨[⟨"AREG".toList, 1⟩, ⟨"BREG".toList, 2⟩, ⟨"CREG".toList, 3⟩, ⟨"DREG".toList, 4⟩]⟩

def Machine.builtin : Machine :=
  ⟨.builtin, .builtin⟩

structure Options where
  /-- A label that is defined again is a fault, not a warning. -/
  strictLabels : Bool := false
  /-- Equal literals share one entry of the literal table. -/
  mergeLiterals : Bool := false
deriving DecidableEq

structure Setup where
  machine : Machine
  options : Options
deriving DecidableEq

structure Settings where
  options : Options
  /-- The registers as listed; their names are distinct. -/
  registers : Option (List Register)
  mnemonics : Option (List Mnemonic)
deriving DecidableEq

namespace Settings

def standard : Settings :=
  ⟨{}, none, none⟩

/-- The machine that the settings describe. Two registers may still have one code. -/
def machine (s : Settings) : Except Fault Machine :=
  let mnemonics := s.mnemonics.elim .builtin MnemonicTable.ofList
  match s.registers with
  | none => .ok ⟨mnemonics, .builtin⟩
  | some rs => (RegisterTable.ofList rs).map (⟨mnemonics, ·⟩)

end Settings

end TwoPass
