import TwoPass.Table.Literal
import TwoPass.Table.Symbol
import TwoPass.Text.Line
import TwoPass.Text.Piece

/-! Frozen tables, in which every entry has its address. The text of a table is a dump, one entry
to a line: the name, a tab and the address. A dump may set the two apart by any blanks; its rows
give the places of the entries, so a table of symbols refuses a name that comes twice. -/

namespace TwoPass

structure FrozenEntry where
  name : Text
  address : Address
deriving DecidableEq

def FrozenEntry.text (e : FrozenEntry) : Text :=
  e.name ++ '\t' :: Numeral.decimal e.address.val

structure FrozenTable where
  entries : List FrozenEntry
deriving DecidableEq

namespace FrozenTable

def empty : FrozenTable :=
  ⟨[]⟩

def size (table : FrozenTable) : Nat :=
  table.entries.length

def address? (table : FrozenTable) (o : Ordinal) : Option Address :=
  (table.entries[o.index]?).map (·.address)

def get? (table : FrozenTable) (name : Text) : Option Address :=
  (table.entries.find? (·.name = name)).map (·.address)

/-- Keeps the first of several entries with one name. -/
def ofSymbols (es : List FrozenEntry) : FrozenTable :=
  ⟨es.foldl (fun kept e => if kept.any (·.name = e.name) then kept else kept ++ [e]) []⟩

def dump (table : FrozenTable) : Text :=
  Text.unlines (table.entries.map FrozenEntry.text)

/-- Reads a trimmed line of a dump: what follows the last blank is the address. -/
def readEntry? (line : Text) : Option FrozenEntry :=
  match Text.splitLast? Text.isBlank line with
  | none => none
  | some (left, right) =>
    let name := Text.trimEnd left
    if name.isEmpty then none else (Numeral.below? 65536 right).map (⟨name, ·⟩)

/-- Reads the lines of a dump, blank ones aside. A dump of distinct entries refuses the names that
it has seen. -/
def readLines (distinct : Bool) (seen : List Text) :
    List Text → Except Corruption (List FrozenEntry)
  | [] => .ok []
  | line :: later =>
    if Text.isAllBlank line then readLines distinct seen later
    else
      match readEntry? (Text.trim line) with
      | none => .error (.dumpEntry (Text.trim line))
      | some e =>
        if distinct && seen.contains e.name then .error (.repeatedSymbol e.name)
        else (readLines distinct (e.name :: seen) later).map (e :: ·)

def readDump (distinct : Bool) (dump : Text) : Except Fault FrozenTable :=
  match readLines distinct [] (Text.lines dump) with
  | .ok es => .ok ⟨es⟩
  | .error c => .error (.corrupt c)

def readSymbols (dump : Text) : Except Fault FrozenTable :=
  readDump true dump

def readLiterals (dump : Text) : Except Fault FrozenTable :=
  readDump false dump

end FrozenTable

def SymbolEntry.freeze (e : SymbolEntry) : Except Fault FrozenEntry :=
  match e.address with
  | some a => .ok ⟨e.name, a⟩
  | none => .error (.undefinedSymbol e.line e.name)

/-- Freezes the symbols; the first that is undefined is the fault. -/
def SymbolTable.freeze (table : SymbolTable) : Except Fault FrozenTable :=
  (table.entries.mapM SymbolEntry.freeze).map .mk

def LiteralEntry.freeze (e : LiteralEntry) : Except Fault FrozenEntry :=
  match e.address with
  | some a => .ok ⟨e.text, a⟩
  | none => .error (.corrupt (.unpooledLiteral e.text e.line))

/-- Freezes the literals, all of which must have been pooled. -/
def LiteralTable.freeze (table : LiteralTable) : Except Fault FrozenTable :=
  (table.entries.mapM LiteralEntry.freeze).map .mk

end TwoPass
