import TwoPass.Machine.Word

/-! Mnemonics and their table. A mnemonic belongs to one of three classes of statement, and the
table keeps one definition for each name: a later one replaces an earlier one in its place. -/

namespace TwoPass

/-- What a statement does: it steers the assembler, it becomes an instruction, or it lays out
data. -/
inductive StatementClass
  | directive
  | imperative
  | declarative
deriving DecidableEq

namespace StatementClass

def tag : StatementClass → Text
  | directive => "AD".toList
  | imperative => "IS".toList
  | declarative => "DL".toList

def ofTag? (t : Text) : Option StatementClass :=
  [directive, imperative, declarative].find? (·.tag = t)

theorem ofTag?_tag (c : StatementClass) : ofTag? c.tag = some c := by
  cases c <;> decide

theorem tag_of_ofTag? {t : Text} {c : StatementClass} (h : ofTag? t = some c) : c.tag = t := by
  simpa using List.find?_some h

end StatementClass

structure Mnemonic where
  name : Text
  kind : StatementClass
  opcode : Code
  /-- The words that one statement occupies. -/
  length : Address
deriving DecidableEq

/-- The mnemonics in the order in which their names were first defined. -/
structure MnemonicTable where
  entries : List Mnemonic
deriving DecidableEq

namespace MnemonicTable

def empty : MnemonicTable :=
  ⟨[]⟩

def find? (table : MnemonicTable) (name : Text) : Option Mnemonic :=
  table.entries.find? (·.name = name)

def contains (table : MnemonicTable) (name : Text) : Bool :=
  (table.find? name).isSome

def placeIn (m : Mnemonic) : List Mnemonic → List Mnemonic
  | [] => [m]
  | e :: es => if e.name = m.name then m :: es else e :: placeIn m es

def define (table : MnemonicTable) (m : Mnemonic) : MnemonicTable :=
  ⟨placeIn m table.entries⟩

def ofList (ms : List Mnemonic) : MnemonicTable :=
  ms.foldl define empty

def size (table : MnemonicTable) : Nat :=
  table.entries.length

theorem find?_define (table : MnemonicTable) (m : Mnemonic) (name : Text) :
    (table.define m).find? name = if m.name = name then some m else table.find? name := by
  obtain ⟨entries⟩ := table
  simp only [define, find?]
  induction entries with
  | nil => by_cases h : m.name = name <;> simp [placeIn, h]
  | cons e es ih =>
    by_cases he : e.name = m.name
    · by_cases h : m.name = name <;> simp [placeIn, he, h]
    · by_cases hn : e.name = name
      · have h : m.name ≠ name := fun h => he (hn.trans h.symm)
        rw [placeIn, if_neg he, if_neg h]
        simp [hn]
      · simp [placeIn, he, hn, ih]

end MnemonicTable

end TwoPass
