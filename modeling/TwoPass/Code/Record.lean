import TwoPass.Machine.Mnemonic
import TwoPass.Text.Line

/-! Records, the units of intermediate code, and the texts that they are written as. A record has a
location or none, a tag, and operands, which name symbols and literals by their places in their
tables, so that the code needs no names. -/

namespace TwoPass

/-- The place of an entry in a table. Entries are numbered from one. -/
structure Ordinal where
  index : Nat
deriving DecidableEq

namespace Ordinal

def number (o : Ordinal) : Nat :=
  o.index + 1

def ofNumber? : Nat → Option Ordinal
  | 0 => none
  | n + 1 => some ⟨n⟩

theorem ofNumber?_number (o : Ordinal) : ofNumber? o.number = some o :=
  rfl

theorem number_of_ofNumber? {n : Nat} {o : Ordinal} (h : ofNumber? n = some o) : o.number = n := by
  cases n with
  | zero => simp [ofNumber?] at h
  | succ n =>
    cases h
    rfl

end Ordinal

inductive Operand
  | register (code : Code)
  | symbol (ordinal : Ordinal)
  | literal (ordinal : Ordinal)
  | constant (value : Constant)
deriving DecidableEq

namespace Operand

def pair (letter : Char) (value : Text) : Text :=
  '(' :: letter :: ',' :: value ++ [')']

/-- A register is written as its code alone, all else with the letter of its kind. -/
def text : Operand → Text
  | register code => Numeral.decimal code.val
  | symbol o => pair 'S' (Numeral.decimal o.number)
  | literal o => pair 'L' (Numeral.decimal o.number)
  | constant c => pair 'C' (Numeral.signedDecimal c.value)

def register? : Operand → Option Code
  | register code => some code
  | _ => none

end Operand

/-- What a record is for: a statement of some class and opcode, or a text that names no class. -/
inductive Tag
  | statement (kind : StatementClass) (opcode : Code)
  | unrecognized (text : Text)
deriving DecidableEq

def Tag.text : Tag → Text
  | .statement kind opcode => '(' :: kind.tag ++ ',' :: Numeral.twoDigits opcode.val ++ [')']
  | .unrecognized t => '(' :: t ++ [')']

structure Record where
  location : Option Address
  tag : Tag
  operands : List Operand
deriving DecidableEq

namespace Record

def kind? (r : Record) : Option StatementClass :=
  match r.tag with
  | .statement kind _ => some kind
  | .unrecognized _ => none

def text (r : Record) : Text :=
  (match r.location with
    | some a => Numeral.decimal a.val ++ [' ']
    | none => []) ++
  r.tag.text ++ r.operands.flatMap fun o => ' ' :: o.text

def streamText (rs : List Record) : Text :=
  Text.unlines (rs.map text)

end Record

end TwoPass
