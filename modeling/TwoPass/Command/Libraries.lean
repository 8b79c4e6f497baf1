import TwoPass.Command.Session
import TwoPass.Text.Piece
import TwoPass.Yaml.Settings

/-! The libraries that the program runs with. Its arguments may stand in any order; an option with a
value takes the rest of its argument or the next argument, letters may share one hyphen, and no
option may come twice. -/

namespace TwoPass.Command

inductive Flag
  | strict
  | mergeLiterals
  | secondPass
  | dump
deriving DecidableEq

inductive Field
  | mnemonics
  | settings
  | outputDirectory
  | symbols
  | literals
deriving DecidableEq

inductive Choice
  | flag (f : Flag)
  | field (f : Field)
  | help
  | version
deriving DecidableEq

def longChoices : List (String × Choice) :=
  [("mot", .field .mnemonics), ("config", .field .settings), ("out-dir", .field .outputDirectory),
    ("strict", .flag .strict), ("merge-literals", .flag .mergeLiterals),
    ("pass2", .flag .secondPass), ("symtab", .field .symbols), ("littab", .field .literals),
    ("dump", .flag .dump), ("help", .help), ("version", .version)]

def shortChoices : List (Char × Choice) :=
  [('m', .field .mnemonics), ('c', .field .settings), ('o', .field .outputDirectory),
    ('d', .flag .dump), ('h', .help), ('V', .version)]

def longChoice? (name : Text) : Option Choice :=
  (longChoices.find? fun (n, _) => n.toList = name).map (·.2)

def shortChoice? (letter : Char) : Option Choice :=
  (shortChoices.find? fun (c, _) => c = letter).map (·.2)

/-- The arguments that have been read. -/
structure Given where
  input : Option Text
  flags : List Flag
  fields : List (Field × Text)
deriving DecidableEq

namespace Given

def none : Given :=
  ⟨Option.none, [], []⟩

def has (a : Given) (f : Flag) : Bool :=
  a.flags.contains f

def get? (a : Given) (f : Field) : Option Text :=
  (a.fields.find? (·.1 = f)).map (·.2)

def addFlag? (a : Given) (f : Flag) : Option Given :=
  if a.has f then Option.none else some { a with flags := f :: a.flags }

def addField? (a : Given) (f : Field) (value : Text) : Option Given :=
  if (a.get? f).isSome then Option.none else some { a with fields := (f, value) :: a.fields }

def addInput? (a : Given) (path : Text) : Option Given :=
  if a.input.isSome then Option.none else some { a with input := some path }

/-- The second pass alone needs the dump of the symbols. -/
def isComplete (a : Given) : Bool :=
  !a.has .secondPass || (a.get? .symbols).isSome

def arguments (a : Given) : Arguments where
  source := a.input.getD "input.txt".toList
  mnemonics := a.get? .mnemonics
  settings := a.get? .settings
  outputDirectory := a.get? .outputDirectory
  strict := a.has .strict
  mergeLiterals := a.has .mergeLiterals
  secondPass := a.has .secondPass
  symbols := a.get? .symbols
  literals := a.get? .literals
  dump := a.has .dump

end Given

inductive Request
  | run (a : Given)
  | help
  | version
deriving DecidableEq

inductive Expecting
  | anything
  /-- The option before still lacks its value. -/
  | valueOf (f : Field)
  | inputs
deriving DecidableEq

/-- What a single argument leads to; `none` says that it is wrong. -/
inductive Progress
  | wrong
  | finished (r : Request)
  | ongoing (e : Expecting) (a : Given)
deriving DecidableEq

def Progress.ofArguments? (e : Expecting) : Option Given → Progress
  | some a => .ongoing e a
  | none => .wrong

def readLetters (a : Given) : Text → Progress
  | [] => .ongoing .anything a
  | c :: cs =>
    match shortChoice? c with
    | none => .wrong
    | some .help => .finished .help
    | some .version => .finished .version
    | some (.flag f) =>
      match a.addFlag? f with
      | none => .wrong
      | some b => readLetters b cs
    | some (.field f) =>
      match cs with
      | [] => .ongoing (.valueOf f) a
      | '=' :: value => .ofArguments? .anything (a.addField? f value)
      | value => .ofArguments? .anything (a.addField? f value)

/-- Reads the name behind two hyphens, which an equals sign and a value may follow. -/
def readName (a : Given) (t : Text) : Progress :=
  let (name, value) : Text × Option Text :=
    match Text.splitAt? '=' t with
    | some (name, value) => (name, some value)
    | none => (t, none)
  match longChoice? name, value with
  | some .help, none => .finished .help
  | some .version, none => .finished .version
  | some (.flag f), none => .ofArguments? .anything (a.addFlag? f)
  | some (.field f), none => .ongoing (.valueOf f) a
  | some (.field f), some value => .ofArguments? .anything (a.addField? f value)
  | _, _ => .wrong

/-- Whether an argument begins like an option. A single hyphen does not. -/
def isOption : Text → Bool
  | '-' :: _ :: _ => true
  | _ => false

def readArgument (e : Expecting) (a : Given) (t : Text) : Progress :=
  match e with
  | .inputs => .ofArguments? .inputs (a.addInput? t)
  | .valueOf f => if isOption t then .wrong else .ofArguments? .anything (a.addField? f t)
  | .anything =>
    match t with
    | ['-', '-'] => .ongoing .inputs a
    | '-' :: '-' :: name => readName a name
    | '-' :: c :: cs => readLetters a (c :: cs)
    | t => .ofArguments? .anything (a.addInput? t)

/-- Reads arguments from left to right, up to one that is wrong or ends the reading. -/
def readArguments (e : Expecting) (a : Given) : List Text → Option Request
  | [] =>
    match e with
    | .valueOf _ => none
    | _ => if a.isComplete then some (.run a) else none
  | t :: ts =>
    match readArgument e a t with
    | .wrong => none
    | .finished r => some r
    | .ongoing e b => readArguments e b ts

def request? (ts : List Text) : Option Request :=
  readArguments .anything .none ts

def versionLine : Text :=
  "pasm 0.1.0\n".toList

def helpText : Text :=
  versionLine ++ "  Two-pass assembler for the pseudo machine\n".toList

/-- The code is two when the arguments are wrong. -/
def ofArguments (ts : List Text) : Except Ending Arguments :=
  match request? ts with
  | none => .error ⟨[], 2⟩
  | some .help => .error ⟨helpText, 0⟩
  | some .version => .error ⟨versionLine, 0⟩
  | some (.run a) => .ok a.arguments

def ofSettings : Option Bytes → Except Text Settings
  | none => .error "Is a directory (os error 21)".toList
  | some contents =>
    ((Text.ofBytes? contents).bind Settings.ofText?).elim (.error "malformed settings".toList) .ok

def libraries : Libraries :=
  ⟨ofArguments, ofSettings, Console.terminal⟩

end TwoPass.Command
