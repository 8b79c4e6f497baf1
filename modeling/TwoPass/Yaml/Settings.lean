import TwoPass.Setup
import TwoPass.Yaml.Core
import TwoPass.Yaml.Node

/-! Settings written as a YAML map. Entries of the map that are no settings are not looked at. -/

namespace TwoPass.Settings

open Yaml (Node)

def scalar? : Node → Option Yaml.Scalar
  | .scalar s => some s
  | _ => none

/-- The entries of a map whose keys are all scalars, by the texts of the keys. -/
def fields? (entries : List (Node × Node)) : Option (List (Text × Node)) :=
  entries.mapM fun (k, v) => (scalar? k).map fun s => (s.text, v)

/-- The value of a field that may be missing but must not come twice. -/
def field? (fields : List (Text × Node)) (name : String) : Option (Option Node) :=
  match fields.filter (·.1 = name.toList) with
  | [] => some none
  | [(_, v)] => some (some v)
  | _ => none

def required? (fields : List (Text × Node)) (name : String) : Option Node :=
  (field? fields name).join

def flag? (fields : List (Text × Node)) (name : String) : Option Bool :=
  match field? fields name with
  | none => none
  | some none => some false
  | some (some v) => (scalar? v).bind Yaml.Scalar.boolean?

def mnemonic? : Node → Option Mnemonic
  | .map entries => do
    let fields ← fields? entries
    let name ← scalar? (← required? fields "name")
    let kind ← scalar? (← required? fields "class")
    let opcode ← scalar? (← required? fields "opcode")
    let length ← scalar? (← required? fields "length")
    some ⟨name.text, ← StatementClass.ofTag? kind.text, ← opcode.below? 256,
      ← length.below? 65536⟩
  | _ => none

/-- What a scalar says in the place of a list or a map: that there is none, or, when only a tag is
written, that it is empty. -/
def absentOrEmpty? {α : Type} (s : Yaml.Scalar) : Option (Option (List α)) :=
  if s.isAbsent then some none
  else if s.isUnwritten then some (some [])
  else none

def mnemonics? : Node → Option (Option (List Mnemonic))
  | .list items => (items.mapM mnemonic?).map some
  | .scalar s => absentOrEmpty? s
  | .map _ => none

def placeRegister (r : Register) : List Register → List Register
  | [] => [r]
  | e :: es => if e.name = r.name then r :: es else e :: placeRegister r es

def register? (entry : Node × Node) : Option Register := do
  let name ← scalar? entry.1
  let code ← scalar? entry.2
  some ⟨name.text, ← code.below? 256⟩

def registers? : Node → Option (Option (List Register))
  | .map entries =>
    (entries.mapM register?).map fun rs => some (rs.foldl (fun kept r => placeRegister r kept) [])
  | .scalar s => absentOrEmpty? s
  | .list _ => none

/-- Whether a value that nobody looks at can be read, which it cannot when it is nested too far. -/
def isReadable (v : Node) : Bool :=
  v.depth ≤ 127 && v.allScalars Yaml.Scalar.hasValue

def ofFields? (fields : List (Text × Node)) : Option Settings := do
  let options : Options := ⟨← flag? fields "strict_labels", ← flag? fields "merge_literals"⟩
  let registers ← ((← field? fields "registers").mapM registers?)
  let mnemonics ← ((← field? fields "mot").mapM mnemonics?)
  let others := fields.filter fun (name, _) =>
    name ≠ "registers".toList && name ≠ "mot".toList
  if others.all fun (_, v) => isReadable v then
    some ⟨options, registers.join, mnemonics.join⟩
  else none

def ofNode? : Node → Option Settings
  | .map entries => (fields? entries).bind ofFields?
  | .scalar s => if s.isUnwritten then some standard else none
  | .list _ => none

def ofText? (source : Text) : Option Settings :=
  (Node.ofText? source).bind ofNode?

end TwoPass.Settings
