import TwoPass.Program.Draft
import TwoPass.Program.Object
import TwoPass.Text.Line

/-! Programs: intermediate code with frozen tables. A program comes from a source, by the first
pass, or from the texts of its parts; the second pass turns it into objects. -/

namespace TwoPass

structure Program where
  records : List Record
  tables : FrozenTables
  warnings : List Warning
deriving DecidableEq

namespace Draft

/-- Closes a draft, which must have ended and must have an address for every name. -/
def finish (d : Draft) : Except Fault Program :=
  if d.ended then
    match d.symbols.freeze with
    | .error f => .error f
    | .ok symbols =>
      match d.literals.freeze with
      | .error f => .error f
      | .ok literals => .ok ⟨d.records, ⟨symbols, literals⟩, d.warnings⟩
  else .error .missingEnd

end Draft

def Outcome.finish (o : Outcome) : Except Fault Program :=
  match o.fault with
  | some f => .error f
  | none => o.draft.finish

namespace Program

/-- The first pass over the lines of a source, numbered from one. -/
def ofSource (setup : Setup) (source : Text) : Except Fault Program :=
  (Draft.statements setup (Text.numbered (Text.lines source)) (.start setup.options)).finish

/-- A program from parts that were written down; it carries no warnings. -/
def ofParts (records : List Record) (symbols literals : FrozenTable) : Program :=
  ⟨records, ⟨symbols, literals⟩, []⟩

def symbols (p : Program) : FrozenTable :=
  p.tables.symbols

def literals (p : Program) : FrozenTable :=
  p.tables.literals

def objects (p : Program) : Except Fault (List Object) :=
  p.tables.resolveAll p.records

def assemble (setup : Setup) (source : Text) : Except Fault (Program × List Object) :=
  match ofSource setup source with
  | .error f => .error f
  | .ok p =>
    match p.objects with
    | .error f => .error f
    | .ok os => .ok (p, os)

end Program

end TwoPass
