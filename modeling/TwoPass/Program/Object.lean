import TwoPass.Table.Frozen

/-! Objects, what the second pass makes of records. An instruction becomes an opcode, a register
and an address; any other record keeps its place and becomes nothing. A listing shows each record
with its object. -/

namespace TwoPass

inductive Object
  | code (opcode register : Code) (address : Address)
  | placeholder
deriving DecidableEq

def Object.text : Object → Text
  | .code opcode register address =>
    Numeral.twoDigits opcode.val ++ ' ' :: Numeral.decimal register.val ++
      ' ' :: Numeral.decimal address.val
  | .placeholder => "----".toList

structure FrozenTables where
  symbols : FrozenTable
  literals : FrozenTable
deriving DecidableEq

namespace FrozenTables

/-- The address of an operand, for the operands that have one. An ordinal that its table does not
reach is a fault of the record. -/
def operandAddress (tables : FrozenTables) (r : Record) :
    Operand → Except Corruption (Option Address)
  | .register _ => .ok none
  | .constant _ => .ok none
  | .symbol o =>
    match tables.symbols.address? o with
    | some a => .ok (some a)
    | none => .error (.symbolOutOfRange o r)
  | .literal o =>
    match tables.literals.address? o with
    | some a => .ok (some a)
    | none => .error (.literalOutOfRange o r)

def addresses (tables : FrozenTables) (r : Record) :
    List Operand → Except Corruption (List Address)
  | [] => .ok []
  | o :: os =>
    match operandAddress tables r o with
    | .error c => .error c
    | .ok none => addresses tables r os
    | .ok (some a) => (addresses tables r os).map (a :: ·)

/-- The object of one record. Of several registers or addresses the first is encoded, and zero
stands for none. -/
def resolve (tables : FrozenTables) (r : Record) : Except Fault Object :=
  match r.tag with
  | .statement .imperative opcode =>
    match addresses tables r r.operands with
    | .error c => .error (.corrupt c)
    | .ok as => .ok (.code opcode ((r.operands.findSome? Operand.register?).getD 0) (as.headD 0))
  | _ => .ok .placeholder

/-- The objects of a stream; the first record at fault is the fault of all. -/
def resolveAll (tables : FrozenTables) (rs : List Record) : Except Fault (List Object) :=
  rs.mapM (resolve tables)

end FrozenTables

def arrow : Text :=
  "      ->      ".toList

def listing (rs : List Record) (os : List Object) : Text :=
  Text.unlines ((rs.zip os).map fun (r, o) => r.text ++ arrow ++ o.text)

end TwoPass
