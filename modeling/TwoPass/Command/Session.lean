import TwoPass.Code.Reader
import TwoPass.Command.Script
import TwoPass.Console.Report
import TwoPass.Setup

/-! The command: it reads a source and what the assembler needs beside it, runs both passes, says
what it is doing, and writes its results to a directory when it is given one. Run with a stream of
intermediate code it does the second pass alone. -/

namespace TwoPass.Command

structure Arguments where
  /-- The source file, or the intermediate code when only the second pass runs. -/
  source : Text
  mnemonics : Option Text
  settings : Option Text
  outputDirectory : Option Text
  strict : Bool
  mergeLiterals : Bool
  secondPass : Bool
  symbols : Option Text
  literals : Option Text
  dump : Bool
deriving DecidableEq

/-- How the reading of the arguments ends a run before it begins. -/
structure Ending where
  printed : Text
  exitCode : Nat
deriving DecidableEq

/-- What the command leaves to others: to read its arguments, to read the settings in a YAML file,
and to paint what it prints. -/
structure Libraries where
  arguments : List Text → Except Ending Arguments
  /-- The settings that the bytes of a file stand for, or a complaint. A file that opens may fail to
  be read, as a directory does; there are no bytes then. -/
  settings : Option Bytes → Except Text Settings
  paint : Console.Paint

/-- A part of the command, which a fault may stop. -/
abbrev Action := ExceptT Fault Script

namespace Action

def ofExcept {α : Type} (r : Except Fault α) : Action α :=
  ExceptT.mk (.done r)

def print (t : Text) : Action Unit :=
  ExceptT.mk (.print t (.done (.ok ())))

def printLine (t : Text) : Action Unit :=
  print (t ++ ['\n'])

def announce (path : Text) : Action Unit :=
  printLine ("  < ".toList ++ path)

/-- What is read at a path, when it is text. -/
def textAt (path : Text) : Reading → Except Fault Text
  | .contents bytes => (Text.ofBytes? bytes).elim (.error (.unreadable path)) .ok
  | _ => .error (.unreadable path)

def read (path : Text) : Action Text :=
  ExceptT.mk (.read path fun r => .done (textAt path r))

/-- What is read at a path as settings. -/
def settingsAt (lib : Libraries) (path : Text) : Reading → Except Fault Settings
  | .contents bytes => (lib.settings (some bytes)).mapError .invalidSettings
  | .unreadable => (lib.settings none).mapError .invalidSettings
  | .missing => .error (.unreadable path)

def readSettings (lib : Libraries) (path : Text) : Action Settings :=
  ExceptT.mk (.read path fun r => .done (settingsAt lib path r))

def inDirectory (directory name : Text) : Text :=
  if directory.isEmpty || directory.getLast? == some '/' then directory ++ name
  else directory ++ '/' :: name

/-- Writes a file into a directory, and says so before. -/
def write (directory name contents : Text) : Action Unit := do
  let path := inDirectory directory name
  printLine ("  > ".toList ++ path)
  ExceptT.mk (.write path contents.bytes fun
    | true => .done (.ok ())
    | false => .done (.error (.unwritable path)))

end Action

namespace Output

def stream : Text := "output_pass1.txt".toList

def symbols : Text := "symtab.txt".toList

def literals : Text := "littab.txt".toList

def objects : Text := "output_pass2.txt".toList

end Output

variable (lib : Libraries)

/-- What is shown of a warning. A label that was ignored earns a note on how to reject it. -/
def warningReport (file : Text) (source : List Text) (w : Warning) : Text :=
  w.report lib.paint file source ++
    match w.remark with
    | .labelIgnored _ _ =>
      Console.Message.headline lib.paint ⟨.note,
        "The first definition is kept. Pass --strict to reject redefinitions.".toList⟩
    | _ => []

def loadSetup (a : Arguments) : Action Setup := do
  Action.printLine "1. Load Tables".toList
  let settings ← match a.settings with
    | none => pure Settings.standard
    | some path => do
      Action.announce path
      Action.readSettings lib path
  let options : Options :=
    ⟨settings.options.strictLabels || a.strict, settings.options.mergeLiterals || a.mergeLiterals⟩
  let machine ← Action.ofExcept settings.machine
  let mnemonics ← match a.mnemonics with
    | none => pure machine.mnemonics
    | some path => do
      Action.announce path
      Action.ofExcept (MnemonicTable.ofDefinitionText (← Action.read path))
  Action.printLine ("  ".toList ++ Numeral.decimal mnemonics.size ++ " mnemonics, ".toList ++
    Numeral.decimal machine.registers.size ++ " registers".toList)
  pure ⟨⟨mnemonics, machine.registers⟩, options⟩

def assemble (a : Arguments) (source : Text) : Action Unit := do
  let setup ← loadSetup lib a
  Action.printLine "2. Pass 1".toList
  Action.announce a.source
  let program ← Action.ofExcept (Program.ofSource setup source)
  Action.print (program.warnings.flatMap (warningReport lib a.source (Text.lines source)))
  Action.printLine "3. Pass 2".toList
  let objects ← Action.ofExcept program.objects
  if a.dump then
    Action.print (Console.tables lib.paint program)
    Action.printLine "=== OBJECT CODE ===".toList
    Action.print (Console.listing lib.paint program.records objects)
  match a.outputDirectory with
  | none => pure ()
  | some directory => do
    Action.write directory Output.stream (Record.streamText program.records)
    Action.write directory Output.symbols program.symbols.dump
    Action.write directory Output.literals program.literals.dump
    Action.write directory Output.objects (listing program.records objects)

def loadTable (path : Option Text) (reader : Text → Except Fault FrozenTable) :
    Action FrozenTable :=
  match path with
  | none => pure .empty
  | some path => do
    Action.announce path
    Action.ofExcept (reader (← Action.read path))

def resolve (a : Arguments) (source : Text) : Action Unit := do
  Action.printLine "1. Read Intermediate Code and Tables".toList
  let records ← Action.ofExcept (Record.readStream source)
  let symbols ← loadTable a.symbols FrozenTable.readSymbols
  let literals ← loadTable a.literals FrozenTable.readLiterals
  Action.printLine "2. Pass 2".toList
  let objects ← Action.ofExcept (Program.ofParts records symbols literals).objects
  Action.print (Console.listing lib.paint records objects)
  match a.outputDirectory with
  | none => pure ()
  | some directory => Action.write directory Output.objects (listing records objects)

/-- Carries out an action on the lines of a source, and reports its fault. The exit code is one
after a fault. -/
def concluding (file : Text) (source : List Text) (action : Action Unit) : Script Nat :=
  action.run.bind fun
    | .ok () => .done 0
    | .error f => .print (f.report lib.paint file source) (.done 1)

def runWith (a : Arguments) : Script Nat :=
  .print "Two-Pass Assembler\n".toList (.read a.source fun r =>
    match Action.textAt a.source r with
    | .ok source =>
      concluding lib a.source (Text.lines source)
        (if a.secondPass then resolve lib a source else assemble lib a source)
    | .error f => .print (f.report lib.paint a.source []) (.done 1))

/-- The command, from its arguments to its exit code. -/
def start (arguments : List Text) : Script Nat :=
  match lib.arguments arguments with
  | .error e => .print e.printed (.done e.exitCode)
  | .ok a => runWith lib a

end TwoPass.Command
