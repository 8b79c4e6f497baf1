import Mathlib.Data.List.Find
import TwoPass.Program
import TwoPass.Proofs.Reading

/-! Relabelling: other names for the symbols and other numbers for the lines. It acts on the tables
and on all that a run says about its source, and lookups depend on a name only by comparing it with
other names. -/

namespace TwoPass

structure Relabelling where
  name : Text → Text
  line : Nat → Nat

namespace Relabelling

/-- Distinct names stay distinct, and no name turns into something else than a symbol. -/
structure Keeps (σ : Relabelling) (registers : RegisterTable) : Prop where
  injective : Function.Injective σ.name
  symbol : ∀ x, Source.isSymbolOperand registers x = true →
    Source.isSymbolOperand registers (σ.name x) = true

theorem keeps_of_lines (g : Nat → Nat) (registers : RegisterTable) :
    Keeps ⟨id, g⟩ registers :=
  ⟨Function.injective_id, fun _ h => h⟩

end Relabelling

section Actions

variable (σ : Relabelling)

def SymbolEntry.relabel (e : SymbolEntry) : SymbolEntry :=
  ⟨σ.name e.name, e.address, σ.line e.line⟩

def SymbolTable.relabel (table : SymbolTable) : SymbolTable :=
  ⟨table.entries.map (.relabel σ)⟩

def LiteralEntry.relabel (e : LiteralEntry) : LiteralEntry :=
  { e with line := σ.line e.line }

def LiteralTable.relabel (table : LiteralTable) : LiteralTable :=
  { table with entries := table.entries.map (.relabel σ) }

def Corruption.relabel : Corruption → Corruption
  | .unpooledLiteral t line => .unpooledLiteral t (σ.line line)
  | c => c

/-- The names in a fault that are those of symbols; a mnemonic or a number is not. -/
def Fault.relabel : Fault → Fault
  | .unknownMnemonic line name => .unknownMnemonic (σ.line line) name
  | .badNumber line t => .badNumber (σ.line line) t
  | .missingOperand line mnemonic => .missingOperand (σ.line line) mnemonic
  | .undefinedSymbol line name => .undefinedSymbol (σ.line line) (σ.name name)
  | .labelRedefined line name => .labelRedefined (σ.line line) (σ.name name)
  | .addressOverflow line => .addressOverflow (σ.line line)
  | .corrupt c => .corrupt (c.relabel σ)
  | f => f

def Remark.relabel : Remark → Remark
  | .labelIgnored name kept => .labelIgnored (σ.name name) kept
  | .labelOverwritten name previous => .labelOverwritten (σ.name name) previous
  | .bareLabel name => .bareLabel (σ.name name)
  | .afterEnd => .afterEnd

def Warning.relabel (w : Warning) : Warning :=
  ⟨σ.line w.line, w.remark.relabel σ⟩

def Pooling.relabel (p : Pooling) : Pooling :=
  ⟨p.entries.map (.relabel σ), p.location, p.fault.map (.relabel σ)⟩

def FrozenTable.rename (f : Text → Text) (table : FrozenTable) : FrozenTable :=
  ⟨table.entries.map fun e => ⟨f e.name, e.address⟩⟩

def Draft.relabel (d : Draft) : Draft :=
  { d with
    symbols := d.symbols.relabel σ
    literals := d.literals.relabel σ
    warnings := d.warnings.map (.relabel σ) }

def Outcome.relabel (o : Outcome) : Outcome :=
  ⟨o.draft.relabel σ, o.fault.map (.relabel σ)⟩

def Program.relabel (p : Program) : Program :=
  ⟨p.records, ⟨p.symbols.rename σ.name, p.literals⟩, p.warnings.map (.relabel σ)⟩

def Source.relabelOperand (registers : RegisterTable) (t : Text) : Text :=
  if isSymbolOperand registers t then σ.name t else t

/-- Other names for what a statement labels and for the symbols among the operands of an
instruction. -/
def Source.Statement.relabel (registers : RegisterTable) : Statement → Statement
  | .blank => .blank
  | .bareLabel name => .bareLabel (σ.name name)
  | .unknown name => .unknown name
  | .instruction label m tokens =>
    .instruction (label.map σ.name) m
      (if m.kind = .imperative then tokens.map (relabelOperand σ registers) else tokens)

def Source.Row.relabel (registers : RegisterTable) (r : Row) : Row :=
  ⟨σ.line r.line, r.statement.relabel σ registers⟩

end Actions

variable {σ : Relabelling} {registers : RegisterTable}

theorem Fault.line?_relabel (f : Fault) : (f.relabel σ).line? = f.line?.map σ.line := by
  cases f <;> rfl

namespace SymbolTable

theorem relabel_push (table : SymbolTable) (e : SymbolEntry) :
    (table.push e).relabel σ = (table.relabel σ).push (e.relabel σ) := by
  simp [relabel, push]

section Names

variable (hσ : Function.Injective σ.name)

include hσ

theorem name_relabel_iff (name : Text) :
    (fun e : SymbolEntry => decide ((e.relabel σ).name = σ.name name)) =
      fun e => decide (e.name = name) := by
  funext e
  exact decide_eq_decide.2 hσ.eq_iff

theorem find?_relabel (table : SymbolTable) (name : Text) :
    (table.relabel σ).find? (σ.name name) = (table.find? name).map (.relabel σ) := by
  rw [find?, relabel, List.find?_map, Function.comp_def, name_relabel_iff hσ, find?]

theorem place_relabel (table : SymbolTable) (name : Text) :
    (table.relabel σ).place (σ.name name) = table.place name := by
  rw [place, relabel, List.findIdx_map, Function.comp_def, name_relabel_iff hσ, place]

theorem setAddress_relabel (table : SymbolTable) (name : Text) (a : Address) :
    (table.relabel σ).setAddress (σ.name name) a = (table.setAddress name a).relabel σ := by
  simp only [setAddress, relabel, List.map_map]
  congr 1
  apply List.map_congr_left
  intro e _
  have hname : (e.relabel σ).name = σ.name name ↔ e.name = name := hσ.eq_iff
  by_cases h : e.name = name
  · simp [h, SymbolEntry.relabel]
  · simp [hname, h]

theorem reference_relabel (table : SymbolTable) (name : Text) (line : Nat) :
    (table.relabel σ).reference (σ.name name) (σ.line line) =
      (table.reference name line).map id (.relabel σ) := by
  unfold reference
  rw [find?_relabel hσ, place_relabel hσ]
  cases table.find? name with
  | none => simp [relabel_push, SymbolEntry.relabel]
  | some e => rfl

theorem define_relabel (table : SymbolTable) (name : Text) (a : Address) (line : Nat) :
    (table.relabel σ).define (σ.name name) a (σ.line line) =
      (table.define name a line).map id (.relabel σ) := by
  unfold define
  rw [find?_relabel hσ, place_relabel hσ]
  cases table.find? name with
  | none => simp [relabel_push, SymbolEntry.relabel]
  | some e =>
    have haddress : (e.relabel σ).address = e.address := rfl
    simp only [Option.map_some, haddress]
    cases e.address with
    | none => simp [setAddress_relabel hσ]
    | some kept => rfl

theorem bind_relabel (table : SymbolTable) (name : Text) (a : Address) (line : Nat) :
    (table.relabel σ).bind (σ.name name) a (σ.line line) =
      (table.bind name a line).map id (.relabel σ) := by
  unfold bind
  rw [find?_relabel hσ]
  cases table.find? name with
  | none => simp [relabel_push, SymbolEntry.relabel]
  | some e => simp [setAddress_relabel hσ, SymbolEntry.relabel]

end Names

end SymbolTable

theorem Location.advance_relabel (location words : Address) (line : Nat) :
    advance location words (σ.line line) = (advance location words line).mapError (.relabel σ) := by
  unfold advance
  cases location.advance? words <;> rfl

theorem Location.take_relabel (location : Address) (line : Nat) :
    take location (σ.line line) = (take location line).mapError (.relabel σ) := by
  rw [take, take, advance_relabel]
  cases advance location 1 line <;> rfl

namespace LiteralTable

theorem shares_relabel (text : Text) :
    (fun e : LiteralEntry => shares text (e.relabel σ)) = shares text :=
  rfl

theorem add_relabel (table : LiteralTable) (text : Text) (line : Nat) :
    (table.relabel σ).add text (σ.line line) = (table.add text line).map id (.relabel σ) := by
  unfold add
  simp only [relabel, List.any_map, List.findIdx_map, List.length_map, Function.comp_def,
    shares_relabel]
  split
  · rfl
  · simp [relabel, LiteralEntry.relabel]

theorem pool_relabel (line : Nat) (location : Address) (es : List LiteralEntry) :
    pool (σ.line line) location (es.map (.relabel σ)) = (pool line location es).relabel σ := by
  induction es generalizing location with
  | nil => rfl
  | cons e es ih =>
    have haddress : (e.relabel σ).address = e.address := rfl
    simp only [List.map_cons, pool, haddress, Location.take_relabel]
    cases e.address with
    | some a => simp [ih, Pooling.relabel]
    | none =>
      cases Location.take location line with
      | error f => rfl
      | ok words =>
        simp only [Except.mapError, ih, Pooling.relabel, List.map_cons]
        rfl

end LiteralTable

/-- What each step of a traversal does under other names, the traversal does. -/
theorem mapM_relabel {α β : Type} {f : α → Except Fault β} {onItem : α → α} {onResult : β → β}
    {onFault : Fault → Fault}
    (h : ∀ a, f (onItem a) = ((f a).mapError onFault).map onResult) (as : List α) :
    (as.map onItem).mapM f = ((as.mapM f).mapError onFault).map (List.map onResult) := by
  induction as with
  | nil => rfl
  | cons a as ih =>
    rw [List.map_cons, List.mapM_cons, List.mapM_cons, h, ih]
    cases f a with
    | error e => rfl
    | ok b => cases as.mapM f <;> rfl

theorem SymbolEntry.freeze_relabel (e : SymbolEntry) :
    (e.relabel σ).freeze =
      (e.freeze.mapError (.relabel σ)).map fun s => ⟨σ.name s.name, s.address⟩ := by
  unfold freeze relabel
  cases e.address <;> rfl

theorem LiteralEntry.freeze_relabel (e : LiteralEntry) :
    (e.relabel σ).freeze = (e.freeze.mapError (.relabel σ)).map id := by
  unfold freeze relabel
  cases e.address <;> rfl

theorem SymbolTable.freeze_relabel (table : SymbolTable) :
    (table.relabel σ).freeze =
      (table.freeze.mapError (.relabel σ)).map (.rename σ.name) := by
  rw [freeze, freeze, relabel, mapM_relabel SymbolEntry.freeze_relabel]
  cases table.entries.mapM SymbolEntry.freeze <;> rfl

theorem LiteralTable.freeze_relabel (table : LiteralTable) :
    (table.relabel σ).freeze = table.freeze.mapError (.relabel σ) := by
  rw [freeze, freeze, relabel, mapM_relabel LiteralEntry.freeze_relabel]
  cases table.entries.mapM LiteralEntry.freeze with
  | error f => rfl
  | ok es => simp [Except.mapError, Except.map]

end TwoPass
