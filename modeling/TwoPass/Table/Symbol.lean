import TwoPass.Fault

/-! The symbol table while a program is read. A name takes its place when it is first mentioned
and never moves. A plain label gives an address only to a name without one; the label of a data
statement always gives its own. -/

namespace TwoPass

structure SymbolEntry where
  name : Text
  address : Option Address
  /-- The line that mentions the name first. -/
  line : Nat
deriving DecidableEq

structure SymbolTable where
  entries : List SymbolEntry
deriving DecidableEq

inductive LabelOutcome
  /-- The name was new. -/
  | inserted (ordinal : Ordinal)
  /-- The name had been mentioned and had no address. -/
  | resolved (ordinal : Ordinal)
  /-- The name had an address, which it keeps. -/
  | alreadyDefined (ordinal : Ordinal) (kept : Address)
deriving DecidableEq

namespace SymbolTable

def empty : SymbolTable :=
  ⟨[]⟩

def find? (table : SymbolTable) (name : Text) : Option SymbolEntry :=
  table.entries.find? (·.name = name)

/-- The place of a name; for a name that is not in the table, the next free place. -/
def place (table : SymbolTable) (name : Text) : Ordinal :=
  ⟨table.entries.findIdx (·.name = name)⟩

def get? (table : SymbolTable) (name : Text) : Option (Ordinal × Option Address) :=
  (table.find? name).map fun e => (table.place name, e.address)

def size (table : SymbolTable) : Nat :=
  table.entries.length

def push (table : SymbolTable) (e : SymbolEntry) : SymbolTable :=
  ⟨table.entries ++ [e]⟩

def setAddress (table : SymbolTable) (name : Text) (address : Address) : SymbolTable :=
  ⟨table.entries.map fun e => if e.name = name then { e with address := some address } else e⟩

/-- Mentions a name as an operand, and says which entry stands for it. -/
def reference (table : SymbolTable) (name : Text) (line : Nat) : Ordinal × SymbolTable :=
  match table.find? name with
  | some _ => (table.place name, table)
  | none => (table.place name, table.push ⟨name, none, line⟩)

/-- Defines a plain label: the first definition wins. -/
def define (table : SymbolTable) (name : Text) (address : Address) (line : Nat) :
    LabelOutcome × SymbolTable :=
  match table.find? name with
  | none => (.inserted (table.place name), table.push ⟨name, some address, line⟩)
  | some e =>
    match e.address with
    | none => (.resolved (table.place name), table.setAddress name address)
    | some kept => (.alreadyDefined (table.place name) kept, table)

/-- Binds the label of a data statement: the last definition wins. The answer is the address that
the name had before. -/
def bind (table : SymbolTable) (name : Text) (address : Address) (line : Nat) :
    Option Address × SymbolTable :=
  match table.find? name with
  | none => (none, table.push ⟨name, some address, line⟩)
  | some e => (e.address, table.setAddress name address)

theorem find?_push (table : SymbolTable) (e : SymbolEntry) (name : Text) :
    (table.push e).find? name =
      (table.find? name).or (if e.name = name then some e else none) := by
  simp [find?, push, List.find?_append, List.find?_singleton]

theorem map_name_setAddress (table : SymbolTable) (name : Text) (address : Address) :
    (table.setAddress name address).entries.map (·.name) = table.entries.map (·.name) := by
  simp only [setAddress, List.map_map]
  apply List.map_congr_left
  intro e _
  by_cases h : e.name = name <;> simp [h]

end SymbolTable

end TwoPass
