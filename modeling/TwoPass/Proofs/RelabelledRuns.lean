import TwoPass.Proofs.Relabelling
import TwoPass.Proofs.Run

/-! Relabelled runs. A step of the first pass on a relabelled draft does what it does on the draft
itself, and so a run over relabelled rows ends in the relabelled program or the relabelled fault. -/

namespace TwoPass

variable {σ : Relabelling} {setup : Setup} {registers : RegisterTable}

theorem Outcome.relabel_andThen {o : Outcome} {step next : Draft → Outcome}
    (h : ∀ e : Draft, next (e.relabel σ) = (step e).relabel σ) :
    (o.relabel σ).andThen next = (o.andThen step).relabel σ := by
  obtain ⟨d, _ | f⟩ := o
  · exact h d
  · rfl

namespace Draft

theorem warn_relabel (d : Draft) (line : Nat) (remark : Remark) :
    (d.relabel σ).warn (σ.line line) (remark.relabel σ) = (d.warn line remark).relabel σ := by
  simp [warn, relabel, Warning.relabel]

theorem advance_relabel (d : Draft) (words : Address) (line : Nat) :
    (d.relabel σ).advance words (σ.line line) = (d.advance words line).relabel σ := by
  have hlocation : (d.relabel σ).location = d.location := rfl
  unfold advance
  rw [Location.advance_relabel, hlocation]
  cases Location.advance d.location words line <;> rfl

section Labels

variable (hσ : Function.Injective σ.name)

include hσ

theorem defineLabel_relabel (options : Options) (line : Nat) (name : Text) (d : Draft) :
    defineLabel options (σ.line line) (σ.name name) (d.relabel σ) =
      (defineLabel options line name d).relabel σ := by
  have hdefine : (d.relabel σ).symbols.define (σ.name name) (d.relabel σ).location
      (σ.line line) = (d.symbols.define name d.location line).map id (.relabel σ) :=
    SymbolTable.define_relabel hσ d.symbols name d.location line
  unfold defineLabel
  rw [hdefine]
  obtain ⟨outcome, symbols⟩ := d.symbols.define name d.location line
  cases outcome with
  | inserted o => rfl
  | resolved o => rfl
  | alreadyDefined o kept =>
    simp only [Prod.map_apply, id_eq]
    split
    · rfl
    · exact congrArg Outcome.done
        (warn_relabel { d with symbols := symbols } line (.labelIgnored name kept))

theorem bindLabel_relabel (options : Options) (line : Nat) (name : Text) (d : Draft) :
    bindLabel options (σ.line line) (σ.name name) (d.relabel σ) =
      (bindLabel options line name d).relabel σ := by
  have hbind : (d.relabel σ).symbols.bind (σ.name name) (d.relabel σ).location
      (σ.line line) = (d.symbols.bind name d.location line).map id (.relabel σ) :=
    SymbolTable.bind_relabel hσ d.symbols name d.location line
  unfold bindLabel
  rw [hbind]
  obtain ⟨previous, symbols⟩ := d.symbols.bind name d.location line
  cases previous with
  | none => rfl
  | some previous =>
    simp only [Prod.map_apply, id_eq]
    split
    · rfl
    · exact congrArg Outcome.done
        (warn_relabel { d with symbols := symbols } line (.labelOverwritten name previous))

end Labels

theorem withLabel_relabel {step next : Text → Draft → Outcome}
    (h : ∀ name d, next (σ.name name) (d.relabel σ) = (step name d).relabel σ)
    (label : Option Text) (d : Draft) :
    withLabel next (label.map σ.name) (d.relabel σ) = (withLabel step label d).relabel σ := by
  cases label with
  | none => rfl
  | some name => exact h name d

/-- A register or a literal stays what it is, and a symbol stays one. -/
theorem operand_relabel (hσ : σ.Keeps registers) (line : Nat) (token : Text) (d : Draft) :
    operand registers (σ.line line) (Source.relabelOperand σ registers token) (d.relabel σ) =
      (operand registers line token d).map id (.relabel σ) := by
  by_cases hs : Source.isSymbolOperand registers token = true
  · have hrenamed := hσ.symbol token hs
    simp only [Source.isSymbolOperand, Bool.and_eq_true, Option.isNone_iff_eq_none,
      Bool.not_eq_true'] at hs hrenamed
    have htoken : Source.relabelOperand σ registers token = σ.name token := by
      simp [Source.relabelOperand, Source.isSymbolOperand, hs]
    have hreference : (d.relabel σ).symbols.reference (σ.name token) (σ.line line) =
        (d.symbols.reference token line).map id (.relabel σ) :=
      SymbolTable.reference_relabel hσ.injective d.symbols token line
    simp only [htoken, operand, hs, hrenamed, Bool.false_eq_true, if_false, hreference]
    rfl
  · have htoken : Source.relabelOperand σ registers token = token := if_neg hs
    rw [htoken]
    unfold operand
    cases hc : registers.code? token with
    | some code => rfl
    | none =>
      have hliteral : Source.isLiteral token = true := by
        simpa [Source.isSymbolOperand, hc] using hs
      have hadd : (d.relabel σ).literals.add token (σ.line line) =
          (d.literals.add token line).map id (.relabel σ) :=
        LiteralTable.add_relabel d.literals token line
      simp only [hliteral, if_true, hadd]
      rfl

theorem operands_relabel (hσ : σ.Keeps registers) (line : Nat) (tokens : List Text) (d : Draft) :
    operands registers (σ.line line) (tokens.map (Source.relabelOperand σ registers))
        (d.relabel σ) =
      (operands registers line tokens d).map id (.relabel σ) := by
  induction tokens generalizing d with
  | nil => rfl
  | cons token tokens ih =>
    simp only [List.map_cons, operands, operand_relabel hσ, Prod.map_fst, Prod.map_snd, ih]
    rfl

theorem imperative_relabel (hσ : σ.Keeps registers) (line : Nat) (m : Mnemonic)
    (tokens : List Text) (d : Draft) :
    imperative registers (σ.line line) m (tokens.map (Source.relabelOperand σ registers))
        (d.relabel σ) =
      (imperative registers line m tokens d).relabel σ := by
  unfold imperative
  rw [operands_relabel hσ]
  exact advance_relabel (emit (operands registers line tokens d).2 _) m.length line

theorem poolLiterals_relabel (line : Nat) (d : Draft) :
    poolLiterals (σ.line line) (d.relabel σ) = (poolLiterals line d).relabel σ := by
  have hpool : LiteralTable.pool (σ.line line) (d.relabel σ).location
      (d.relabel σ).literals.entries =
        (LiteralTable.pool line d.location d.literals.entries).relabel σ :=
    LiteralTable.pool_relabel line d.location d.literals.entries
  unfold poolLiterals
  rw [hpool]
  rfl

theorem directive_relabel (line : Nat) (m : Mnemonic) (tokens : List Text) (d : Draft) :
    directive (σ.line line) m tokens (d.relabel σ) = (directive line m tokens d).relabel σ := by
  unfold directive
  split
  · unfold setOrigin
    cases origin tokens <;> rfl
  · dsimp only
    split
    · have hpool := poolLiterals_relabel (σ := σ) line
        (d.emit ⟨none, .statement .directive m.opcode, []⟩)
      refine Eq.trans (congrArg (Outcome.andThen · _) hpool) ?_
      exact Outcome.relabel_andThen fun e => rfl
    · rfl

theorem declarative_relabel (hσ : Function.Injective σ.name) (options : Options) (line : Nat)
    (label : Option Text) (m : Mnemonic) (tokens : List Text) (d : Draft) :
    declarative options (σ.line line) (label.map σ.name) m tokens (d.relabel σ) =
      (declarative options line label m tokens d).relabel σ := by
  unfold declarative
  cases tokens with
  | nil => rfl
  | cons t tokens =>
    cases hv : layout? m t with
    | none =>
      simp only [hv]
      rfl
    | some laid =>
      simp only [hv]
      rw [withLabel_relabel (bindLabel_relabel hσ options line)]
      exact Outcome.relabel_andThen fun e => advance_relabel (e.emit _) laid.2 line

theorem execute_relabel (hσ : σ.Keeps setup.machine.registers) (line : Nat) (d : Draft)
    (s : Source.Statement) :
    execute setup (σ.line line) (d.relabel σ) (s.relabel σ setup.machine.registers) =
      (execute setup line d s).relabel σ := by
  have hlabel := withLabel_relabel (defineLabel_relabel hσ.injective setup.options line)
  cases s with
  | blank => rfl
  | unknown name => rfl
  | bareLabel name =>
    simp only [Source.Statement.relabel, execute]
    rw [← defineLabel_relabel hσ.injective, ← warn_relabel]
    rfl
  | instruction label m tokens =>
    cases hk : m.kind with
    | directive =>
      simp only [Source.Statement.relabel, execute, hk, reduceCtorEq, if_false, hlabel]
      exact Outcome.relabel_andThen (directive_relabel line m tokens)
    | imperative =>
      simp only [Source.Statement.relabel, execute, hk, if_true, hlabel]
      exact Outcome.relabel_andThen (imperative_relabel hσ line m tokens)
    | declarative =>
      simp only [Source.Statement.relabel, execute, hk, reduceCtorEq, if_false]
      exact declarative_relabel hσ.injective setup.options line label m tokens d

end Draft

namespace Source

theorem Row.isEnd_relabel (r : Row) :
    (r.relabel σ registers).statement.isEnd = r.statement.isEnd := by
  obtain ⟨line, s⟩ := r
  cases s <;> rfl

theorem Statement.relabel_eq_blank_iff {s : Statement} :
    s.relabel σ registers = .blank ↔ s = .blank := by
  cases s <;> simp [relabel]

theorem throughEnd_relabel (rs : List Row) :
    throughEnd (rs.map (.relabel σ registers)) = (throughEnd rs).map (.relabel σ registers) := by
  induction rs with
  | nil => rfl
  | cons r rs ih =>
    simp only [List.map_cons, throughEnd, Row.isEnd_relabel]
    split
    · rfl
    · rw [List.map_cons, ih]

theorem afterEnd_relabel (rs : List Row) :
    afterEnd (rs.map (.relabel σ registers)) = (afterEnd rs).map (.relabel σ registers) := by
  induction rs with
  | nil => rfl
  | cons r rs ih =>
    simp only [List.map_cons, afterEnd, Row.isEnd_relabel]
    split
    · rfl
    · exact ih

end Source

namespace Draft

open Source (Row)

theorem executeAll_relabel (hσ : σ.Keeps setup.machine.registers) (rs : List Row) (d : Draft) :
    executeAll setup (rs.map (.relabel σ setup.machine.registers)) (d.relabel σ) =
      (executeAll setup rs d).relabel σ := by
  induction rs generalizing d with
  | nil => rfl
  | cons r rs ih =>
    have hrow := execute_relabel hσ r.line d r.statement
    rw [List.map_cons, executeAll]
    refine Eq.trans (congrArg (Outcome.andThen · _) hrow) ?_
    exact Outcome.relabel_andThen ih

theorem remarks_relabel (rs : List Row) :
    remarks (rs.map (.relabel σ registers)) = (remarks rs).map (.relabel σ) := by
  have hblank : ∀ r : Row, decide ((r.relabel σ registers).statement ≠ .blank) =
      decide (r.statement ≠ .blank) := by
    intro r
    exact decide_eq_decide.2 (not_congr Source.Statement.relabel_eq_blank_iff)
  simp only [remarks, List.filter_map, Function.comp_def, hblank, List.map_map]
  rfl

theorem remarkOn_relabel (rs : List Row) (d : Draft) :
    (d.relabel σ).remarkOn (rs.map (.relabel σ registers)) = (d.remarkOn rs).relabel σ := by
  simp [remarkOn, relabel, remarks_relabel]

/-- A whole run, on the rows of a source. -/
def runRows (setup : Setup) (rs : List Row) (d : Draft) : Outcome :=
  (executeAll setup (Source.throughEnd rs) d).andThen fun e =>
    .done (e.remarkOn (Source.afterEnd rs))

theorem runRows_relabel (hσ : σ.Keeps setup.machine.registers) (rs : List Row) (d : Draft) :
    runRows setup (rs.map (.relabel σ setup.machine.registers)) (d.relabel σ) =
      (runRows setup rs d).relabel σ := by
  rw [runRows, Source.throughEnd_relabel, Source.afterEnd_relabel, executeAll_relabel hσ]
  exact Outcome.relabel_andThen fun e => congrArg Outcome.done (remarkOn_relabel _ e)

theorem finish_relabel (d : Draft) :
    (d.relabel σ).finish = (d.finish.mapError (.relabel σ)).map (.relabel σ) := by
  have hended : (d.relabel σ).ended = d.ended := rfl
  have hsymbols : (d.relabel σ).symbols.freeze =
      (d.symbols.freeze.mapError (.relabel σ)).map (.rename σ.name) :=
    d.symbols.freeze_relabel
  have hliterals : (d.relabel σ).literals.freeze = d.literals.freeze.mapError (.relabel σ) :=
    d.literals.freeze_relabel
  unfold finish
  rw [hended, hsymbols, hliterals]
  split
  · cases d.symbols.freeze with
    | error f => rfl
    | ok symbols => cases d.literals.freeze <;> rfl
  · rfl

end Draft

theorem Outcome.finish_relabel (o : Outcome) :
    (o.relabel σ).finish = (o.finish.mapError (.relabel σ)).map (.relabel σ) := by
  obtain ⟨d, _ | f⟩ := o
  · exact d.finish_relabel
  · rfl

namespace Program

open Source (Row)

def ofRows (setup : Setup) (rs : List Row) : Except Fault Program :=
  (Draft.runRows setup rs (.start setup.options)).finish

theorem ofSource_eq_ofRows (setup : Setup) (source : Text) :
    ofSource setup source = ofRows setup
      (Source.rowsOfLines setup.machine.mnemonics (Text.numbered (Text.lines source))) := by
  rw [ofSource, Draft.statements_eq rfl]
  rfl

theorem ofRows_relabel (hσ : σ.Keeps setup.machine.registers) (rs : List Row) :
    ofRows setup (rs.map (.relabel σ setup.machine.registers)) =
      ((ofRows setup rs).mapError (.relabel σ)).map (.relabel σ) := by
  have hrun := Draft.runRows_relabel hσ rs (.start setup.options)
  unfold ofRows
  rw [← Outcome.finish_relabel, ← hrun]
  rfl

end Program

namespace FrozenTables

variable {tables others : FrozenTables}

theorem addresses_congr (hs : ∀ o, others.symbols.address? o = tables.symbols.address? o)
    (hl : others.literals = tables.literals) (r : Record) (os : List Operand) :
    addresses others r os = addresses tables r os := by
  have hfirst : ∀ o, operandAddress others r o = operandAddress tables r o := by
    intro o
    cases o with
    | symbol o => simp only [operandAddress, hs]
    | literal o => simp only [operandAddress, hl]
    | _ => rfl
  induction os with
  | nil => rfl
  | cons o os ih => simp only [addresses, hfirst, ih]

theorem resolveAll_congr (hs : ∀ o, others.symbols.address? o = tables.symbols.address? o)
    (hl : others.literals = tables.literals) (rs : List Record) :
    others.resolveAll rs = tables.resolveAll rs := by
  have hresolve : others.resolve = tables.resolve := by
    funext r
    simp only [resolve, addresses_congr hs hl]
  rw [resolveAll, resolveAll, hresolve]

end FrozenTables

theorem FrozenTable.address?_rename (f : Text → Text) (table : FrozenTable) (o : Ordinal) :
    (table.rename f).address? o = table.address? o := by
  simp [address?, rename, Function.comp_def]

/-- Names are nothing to the second pass, which finds an address by its place. -/
theorem Program.objects_relabel (p : Program) : (p.relabel σ).objects = p.objects := by
  have hs : ∀ o, (p.relabel σ).tables.symbols.address? o = p.tables.symbols.address? o :=
    p.symbols.address?_rename σ.name
  exact FrozenTables.resolveAll_congr hs rfl p.records

end TwoPass
