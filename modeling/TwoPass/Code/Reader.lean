import TwoPass.Fault
import TwoPass.Text.Line
import TwoPass.Text.Piece

/-! Reading intermediate code. A line is split into words: stretches without blanks and parentheses,
and groups between parentheses. A group ends at the first closing parenthesis, and a closing
parenthesis outside a group, or a group that does not end, makes the line unbalanced.

The layout is free: blanks may stand between and around the words of a record and around the pieces
inside parentheses, and a register may be a bare number or a group. A tag that names no class is
kept as it is, and the operands behind it are dropped. -/

namespace TwoPass

namespace Code

inductive Word
  | bare (text : Text)
  | group (text : Text)
deriving DecidableEq

/-- Where the scan of a line stands; the characters of an unfinished word are held last first. -/
inductive Scan
  | gap
  | bare (held : Text)
  | group (held : Text)

def wordsFrom? : Scan → Text → Option (List Word)
  | .gap, [] => some []
  | .bare held, [] => some [.bare held.reverse]
  | .group _, [] => none
  | .gap, c :: cs =>
    if Text.isBlank c then wordsFrom? .gap cs
    else if c = '(' then wordsFrom? (.group []) cs
    else if c = ')' then none
    else wordsFrom? (.bare [c]) cs
  | .bare held, c :: cs =>
    if Text.isBlank c then (wordsFrom? .gap cs).map (.bare held.reverse :: ·)
    else if c = '(' then (wordsFrom? (.group []) cs).map (.bare held.reverse :: ·)
    else if c = ')' then none
    else wordsFrom? (.bare (c :: held)) cs
  | .group held, c :: cs =>
    if c = ')' then (wordsFrom? .gap cs).map (.group held.reverse :: ·)
    else wordsFrom? (.group (c :: held)) cs

def words? (line : Text) : Option (List Word) :=
  wordsFrom? .gap line

end Code

namespace Operand

/-- Ordinals are read from numbers below this bound. -/
def ordinalBound : Nat :=
  18446744073709551616

def readOrdinal? (t : Text) : Option Ordinal :=
  (Numeral.below? ordinalBound t).bind fun n => Ordinal.ofNumber? n.val

def readConstant? (t : Text) : Option Constant :=
  (Numeral.signed? t).bind Constant.ofInt?

def readRegister? (t : Text) : Option Operand :=
  (Numeral.below? 256 t).map .register

def readGroup? (t : Text) : Option Operand :=
  match Text.splitAt? ',' t with
  | none => readRegister? (Text.trim t)
  | some (kind, value) =>
    match Text.trim kind with
    | ['S'] => (readOrdinal? (Text.trim value)).map .symbol
    | ['L'] => (readOrdinal? (Text.trim value)).map .literal
    | ['C'] => (readConstant? (Text.trim value)).map .constant
    | _ => none

def readWord? : Code.Word → Option Operand
  | .bare t => readRegister? t
  | .group t => readGroup? t

end Operand

namespace Tag

/-- The class that a tag names, with the text of its opcode. -/
def classAndOpcode? (t : Text) : Option (StatementClass × Text) :=
  (Text.splitAt? ',' t).bind fun (kind, opcode) =>
    (StatementClass.ofTag? (Text.trim kind)).map fun k => (k, Text.trim opcode)

end Tag

namespace Record

def readTagged (location : Option Address) : List Code.Word → Except RecordDefect Record
  | .group tag :: rest =>
    match Tag.classAndOpcode? tag with
    | none => .ok ⟨location, .unrecognized tag, []⟩
    | some (kind, opcode) =>
      match Numeral.below? 256 opcode with
      | none => .error .opcode
      | some code =>
        match rest.mapM Operand.readWord? with
        | none => .error .operand
        | some operands => .ok ⟨location, .statement kind code, operands⟩
  | _ => .error .missingTag

def readWords : List Code.Word → Except RecordDefect Record
  | .bare t :: rest =>
    match Numeral.below? 65536 t with
    | none => .error .location
    | some a => readTagged (some a) rest
  | ws => readTagged none ws

def readLine (line : Text) : Except RecordDefect Record :=
  match Code.words? line with
  | none => .error .unbalanced
  | some ws => readWords ws

def read (line : Text) : Except Fault Record :=
  match readLine line with
  | .ok r => .ok r
  | .error defect => .error (.corrupt (.record defect (Text.trim line)))

/-- Reads a stream, one record from each line that is not blank. -/
def readStream (source : Text) : Except Fault (List Record) :=
  ((Text.lines source).filter fun line => !Text.isAllBlank line).mapM read

end Record

end TwoPass
