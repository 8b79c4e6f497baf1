import TwoPass.Setup
import TwoPass.Source.Statement
import TwoPass.Table.Literal
import TwoPass.Table.Symbol

/-! The first pass, statement by statement. A draft is a program that is being read: its location
counter, its tables and what it has emitted so far. A statement that fails keeps what it had
changed before the fault. -/

namespace TwoPass

structure Draft where
  location : Address
  symbols : SymbolTable
  literals : LiteralTable
  records : List Record
  warnings : List Warning
  ended : Bool
deriving DecidableEq

/-- The draft that a step leaves, and the fault that stopped the step, if one did. -/
structure Outcome where
  draft : Draft
  fault : Option Fault
deriving DecidableEq

namespace Outcome

def done (d : Draft) : Outcome :=
  ⟨d, none⟩

def fail (d : Draft) (f : Fault) : Outcome :=
  ⟨d, some f⟩

def andThen (o : Outcome) (step : Draft → Outcome) : Outcome :=
  match o.fault with
  | none => step o.draft
  | some _ => o

@[simp] theorem done_andThen (d : Draft) (step : Draft → Outcome) :
    (done d).andThen step = step d :=
  rfl

@[simp] theorem fail_andThen (d : Draft) (f : Fault) (step : Draft → Outcome) :
    (fail d f).andThen step = fail d f :=
  rfl

theorem andThen_assoc (o : Outcome) (f g : Draft → Outcome) :
    (o.andThen f).andThen g = o.andThen fun d => (f d).andThen g := by
  obtain ⟨d, _ | e⟩ := o <;> rfl

end Outcome

namespace Draft

def start (options : Options) : Draft :=
  ⟨0, .empty, .empty options.mergeLiterals, [], [], false⟩

def warn (d : Draft) (line : Nat) (remark : Remark) : Draft :=
  { d with warnings := d.warnings ++ [⟨line, remark⟩] }

def emit (d : Draft) (r : Record) : Draft :=
  { d with records := d.records ++ [r] }

def advance (d : Draft) (words : Address) (line : Nat) : Outcome :=
  match Location.advance d.location words line with
  | .ok next => .done { d with location := next }
  | .error f => .fail d f

def defineLabel (options : Options) (line : Nat) (name : Text) (d : Draft) : Outcome :=
  match d.symbols.define name d.location line with
  | (.alreadyDefined _ kept, symbols) =>
    let defined := { d with symbols := symbols }
    if options.strictLabels then .fail defined (.labelRedefined line name)
    else .done (defined.warn line (.labelIgnored name kept))
  | (_, symbols) => .done { d with symbols := symbols }

/-- Binds the label of a data statement to the location counter, and complains after that. -/
def bindLabel (options : Options) (line : Nat) (name : Text) (d : Draft) : Outcome :=
  match d.symbols.bind name d.location line with
  | (none, symbols) => .done { d with symbols := symbols }
  | (some previous, symbols) =>
    let bound := { d with symbols := symbols }
    if options.strictLabels then .fail bound (.labelRedefined line name)
    else .done (bound.warn line (.labelOverwritten name previous))

def withLabel (step : Text → Draft → Outcome) (label : Option Text) (d : Draft) : Outcome :=
  match label with
  | none => .done d
  | some name => step name d

/-- What an operand of an instruction stands for: a register, a literal or a symbol. -/
def operand (registers : RegisterTable) (line : Nat) (token : Text) (d : Draft) :
    Operand × Draft :=
  match registers.code? token with
  | some code => (.register code, d)
  | none =>
    if Source.isLiteral token then
      let (ordinal, literals) := d.literals.add token line
      (.literal ordinal, { d with literals := literals })
    else
      let (ordinal, symbols) := d.symbols.reference token line
      (.symbol ordinal, { d with symbols := symbols })

def operands (registers : RegisterTable) (line : Nat) :
    List Text → Draft → List Operand × Draft
  | [], d => ([], d)
  | token :: later, d =>
    let (first, d) := operand registers line token d
    let (others, d) := operands registers line later d
    (first :: others, d)

def poolLiterals (line : Nat) (d : Draft) : Outcome :=
  let pooling := LiteralTable.pool line d.location d.literals.entries
  let literals := { d.literals with entries := pooling.entries }
  ⟨{ d with location := pooling.location, literals := literals }, pooling.fault⟩

/-- The location that a program starts at: zero, or its operand unless that is no address. -/
def origin : List Text → Except Text Address
  | [] => .ok 0
  | t :: _ =>
    match Source.address? t with
    | some a => .ok a
    | none => .error t

def setOrigin (line : Nat) (opcode : Code) (tokens : List Text) (d : Draft) : Outcome :=
  match origin tokens with
  | .error t => .fail d (.badNumber line t)
  | .ok a =>
    let recorded := d.emit ⟨none, .statement .directive opcode, [.constant (.ofAddress a)]⟩
    .done { recorded with location := a }

/-- The directives START and END steer the pass; any other is only recorded. -/
def directive (line : Nat) (m : Mnemonic) (tokens : List Text) (d : Draft) : Outcome :=
  if m.name = "START".toList then setOrigin line m.opcode tokens d
  else
    let recorded := d.emit ⟨none, .statement .directive m.opcode, []⟩
    if m.name = "END".toList then
      (poolLiterals line recorded).andThen fun d => .done { d with ended := true }
    else .done recorded

/-- An instruction is recorded at the location counter, which moves past it. -/
def imperative (registers : RegisterTable) (line : Nat) (m : Mnemonic) (tokens : List Text)
    (d : Draft) : Outcome :=
  let (ops, d) := operands registers line tokens d
  (d.emit ⟨some d.location, .statement .imperative m.opcode, ops⟩).advance m.length line

/-- The constant of a data statement and the words that it occupies. DS reserves as many words as
its operand says. -/
def layout? (m : Mnemonic) (t : Text) : Option (Constant × Address) :=
  if m.name = "DS".toList then (Source.address? t).map fun words => (.ofAddress words, words)
  else (Source.constant? t).map fun c => (c, m.length)

/-- Data is checked before its label is bound, and recorded after that. -/
def declarative (options : Options) (line : Nat) (label : Option Text) (m : Mnemonic)
    (tokens : List Text) (d : Draft) : Outcome :=
  match tokens with
  | [] => .fail d (.missingOperand line m.name)
  | t :: _ =>
    match layout? m t with
    | none => .fail d (.badNumber line t)
    | some (value, words) =>
      (withLabel (bindLabel options line) label d).andThen fun d =>
        (d.emit ⟨some d.location, .statement .declarative m.opcode, [.constant value]⟩).advance
          words line

def execute (setup : Setup) (line : Nat) (d : Draft) : Source.Statement → Outcome
  | .blank => .done d
  | .bareLabel name =>
    defineLabel setup.options line name (d.warn line (.bareLabel name))
  | .unknown name => .fail d (.unknownMnemonic line name)
  | .instruction label m tokens =>
    match m.kind with
    | .directive =>
      (withLabel (defineLabel setup.options line) label d).andThen (directive line m tokens)
    | .imperative =>
      (withLabel (defineLabel setup.options line) label d).andThen
        (imperative setup.machine.registers line m tokens)
    | .declarative => declarative setup.options line label m tokens d

/-- Reads a line. Nothing after the end of the program has an effect, but it is remarked on. -/
def statement (setup : Setup) (line : Nat) (t : Text) (d : Draft) : Outcome :=
  match Source.Statement.ofLine setup.machine.mnemonics t with
  | .blank => .done d
  | s => if d.ended then .done (d.warn line .afterEnd) else execute setup line d s

def statements (setup : Setup) : List (Nat × Text) → Draft → Outcome
  | [], d => .done d
  | (line, t) :: later, d => (statement setup line t d).andThen (statements setup later)

end Draft

end TwoPass
