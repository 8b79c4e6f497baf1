import TwoPass.Fault

/-! The location counter and the literal table while a program is read. The counter is an address
that only moves forward as words are laid out, and it never passes the last address. Literals take
their places as they occur and get their addresses together, from a pool of words behind the
program. -/

namespace TwoPass

namespace Location

/-- The counter after some words, unless they do not fit; the line is the one at fault then. -/
def advance (location words : Address) (line : Nat) : Except Fault Address :=
  match location.advance? words with
  | some next => .ok next
  | none => .error (.addressOverflow line)

/-- Hands out one word: its address and the counter behind it. -/
def take (location : Address) (line : Nat) : Except Fault (Address × Address) :=
  (advance location 1 line).map fun next => (location, next)

end Location

structure LiteralEntry where
  text : Text
  address : Option Address
  line : Nat
deriving DecidableEq

structure LiteralTable where
  entries : List LiteralEntry
  /-- Literals of one text share an entry as long as it has no address. -/
  merging : Bool
deriving DecidableEq

/-- What pooling leaves: the entries, the location counter, and the fault if the words ran out. -/
structure Pooling where
  entries : List LiteralEntry
  location : Address
  fault : Option Fault
deriving DecidableEq

namespace LiteralTable

def empty (merging : Bool) : LiteralTable :=
  ⟨[], merging⟩

def size (table : LiteralTable) : Nat :=
  table.entries.length

def shares (text : Text) (e : LiteralEntry) : Bool :=
  e.address.isNone && e.text = text

/-- Adds an occurrence of a literal, and says which entry stands for it. -/
def add (table : LiteralTable) (text : Text) (line : Nat) : Ordinal × LiteralTable :=
  if table.merging && table.entries.any (shares text) then
    (⟨table.entries.findIdx (shares text)⟩, table)
  else
    let e : LiteralEntry := ⟨text, none, line⟩
    (⟨table.entries.length⟩, { table with entries := table.entries ++ [e] })

/-- Hands a word to each entry without an address, in order, until the words run out. -/
def pool (line : Nat) (location : Address) : List LiteralEntry → Pooling
  | [] => ⟨[], location, none⟩
  | e :: es =>
    match e.address with
    | some _ =>
      let rest := pool line location es
      { rest with entries := e :: rest.entries }
    | none =>
      match Location.take location line with
      | .error f => ⟨e :: es, location, some f⟩
      | .ok (taken, next) =>
        let rest := pool line next es
        { rest with entries := { e with address := some taken } :: rest.entries }

theorem map_text_pool (line : Nat) (location : Address) (es : List LiteralEntry) :
    (pool line location es).entries.map (·.text) = es.map (·.text) := by
  induction es generalizing location with
  | nil => rfl
  | cons e es ih =>
    rw [pool]
    split
    · simp [ih]
    · split
      · rfl
      · simp [ih]

end LiteralTable

end TwoPass
