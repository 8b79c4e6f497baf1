import TwoPass.Code.Record

/-! Faults, which end a run, and warnings, which the first pass gives without stopping: one
constructor for each cause, with the message for the user and the source line to blame. -/

namespace TwoPass

inductive RecordDefect
  | unbalanced
  | location
  | missingTag
  | opcode
  | operand
deriving DecidableEq

def RecordDefect.text : RecordDefect → Text
  | unbalanced => "unbalanced parenthesis".toList
  | location => "bad location".toList
  | missingTag => "missing tag".toList
  | opcode => "bad opcode".toList
  | operand => "bad operand".toList

/-- Why intermediate code and its tables do not fit together. -/
inductive Corruption
  | record (defect : RecordDefect) (line : Text)
  | dumpEntry (line : Text)
  | repeatedSymbol (name : Text)
  | unpooledLiteral (text : Text) (line : Nat)
  | symbolOutOfRange (ordinal : Ordinal) (record : Record)
  | literalOutOfRange (ordinal : Ordinal) (record : Record)
deriving DecidableEq

def quoted (t : Text) : Text :=
  "`".toList ++ t ++ "`".toList

namespace Corruption

def outOfRange (noun : String) (o : Ordinal) (r : Record) : Text :=
  noun.toList ++ " #".toList ++ Numeral.decimal o.number ++ " out of range in ".toList ++
    quoted r.text

def text : Corruption → Text
  | record defect line => defect.text ++ " in ".toList ++ quoted line
  | dumpEntry line => "bad table entry ".toList ++ quoted line
  | repeatedSymbol name => "symbol ".toList ++ quoted name ++ " listed twice".toList
  | unpooledLiteral t line =>
    "literal ".toList ++ t ++ " from line ".toList ++ Numeral.decimal line ++
      " was never pooled".toList
  | symbolOutOfRange o r => outOfRange "symbol" o r
  | literalOutOfRange o r => outOfRange "literal" o r

end Corruption

inductive Fault
  | malformedDefinition (line : Nat) (text : Text)
  | unknownClass (line : Nat) (tag : Text)
  | registerConflict (name : Text)
  | unknownMnemonic (line : Nat) (name : Text)
  | badNumber (line : Nat) (text : Text)
  | missingOperand (line : Nat) (mnemonic : Text)
  | undefinedSymbol (line : Nat) (name : Text)
  | labelRedefined (line : Nat) (name : Text)
  | addressOverflow (line : Nat)
  | missingEnd
  | corrupt (corruption : Corruption)
  | invalidSettings (reason : Text)
  | unreadable (path : Text)
  | unwritable (path : Text)
deriving DecidableEq

namespace Fault

def message : Fault → Text
  | malformedDefinition line t =>
    "Malformed table entry at line ".toList ++ Numeral.decimal line ++ ": ".toList ++ quoted t
  | unknownClass line tag =>
    "Unknown statement class ".toList ++ quoted tag ++ " at line ".toList ++ Numeral.decimal line
  | registerConflict name =>
    "Register ".toList ++ quoted name ++ " conflicts with an existing entry".toList
  | unknownMnemonic _ name => "Unknown mnemonic: ".toList ++ quoted name
  | badNumber _ t => "Cannot parse ".toList ++ quoted t ++ " as a number".toList
  | missingOperand _ mnemonic => quoted mnemonic ++ " requires an operand".toList
  | undefinedSymbol _ name => "Undefined symbol: ".toList ++ quoted name
  | labelRedefined _ name => "Re-defined label: ".toList ++ quoted name
  | addressOverflow _ => "Location counter overflow".toList
  | missingEnd => "Missing END directive".toList
  | corrupt c => "Corrupt intermediate stream: ".toList ++ c.text
  | invalidSettings reason => "Invalid config: ".toList ++ reason
  | unreadable path => "Failed to open file: ".toList ++ path
  | unwritable path => "Failed to create file: ".toList ++ path

/-- The source line at fault, counted from one. Faults of the machine's definition carry the line
of another text and so have none. -/
def line? : Fault → Option Nat
  | unknownMnemonic line _ => some line
  | badNumber line _ => some line
  | missingOperand line _ => some line
  | undefinedSymbol line _ => some line
  | labelRedefined line _ => some line
  | addressOverflow line => some line
  | _ => none

end Fault

inductive Remark
  /-- A plain label came again; its address stays. -/
  | labelIgnored (name : Text) (kept : Address)
  /-- A data statement gave a new address to a label that had one. -/
  | labelOverwritten (name : Text) (previous : Address)
  /-- A line holds one token, which is not a mnemonic. -/
  | bareLabel (name : Text)
  | afterEnd
deriving DecidableEq

def Remark.text : Remark → Text
  | labelIgnored name kept =>
    "Re-defined label: ".toList ++ quoted name ++ " (keeping address ".toList ++
      Numeral.decimal kept.val ++ ")".toList
  | labelOverwritten name previous =>
    "Re-defined label: ".toList ++ quoted name ++ " (address ".toList ++
      Numeral.decimal previous.val ++ " overwritten)".toList
  | bareLabel name => quoted name ++ " is not a mnemonic; taken as a label".toList
  | afterEnd => "Statement after END is ignored".toList

structure Warning where
  line : Nat
  remark : Remark
deriving DecidableEq

end TwoPass
