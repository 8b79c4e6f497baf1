import TwoPass.Proofs.Blame
import TwoPass.Proofs.Growth
import TwoPass.Proofs.TokenSubstitution

/-! Name spaces. Labels, operands and literals are told apart by different tests in different
places, and what the tests keep apart stays apart in the tables: literals carry their mark, code
refers to symbols that are neither registers nor literals, and no mnemonic ever gets an address. -/

namespace TwoPass

namespace Source

/-- What the reading of a line vouches for: a label is no mnemonic, and labels and operands are
tokens. -/
def Statement.Vetted (table : MnemonicTable) : Statement → Prop
  | .bareLabel name => IsToken name ∧ table.find? name = none
  | .instruction label _ operands =>
    (∀ name ∈ label, IsToken name ∧ table.find? name = none) ∧ ∀ t ∈ operands, IsToken t
  | _ => True

theorem Statement.vetted_ofTokens {table : MnemonicTable} {ts : List Text}
    (h : ∀ t ∈ ts, IsToken t) : (ofTokens table ts).Vetted table := by
  fun_cases ofTokens table ts with
  | case1 => trivial
  | case2 first rest m hm => exact ⟨by simp, (List.forall_mem_cons.1 h).2⟩
  | case3 first hf => exact ⟨h first (by simp), hf⟩
  | case4 first hf second operands m hm =>
    obtain ⟨hfirst, hrest⟩ := List.forall_mem_cons.1 h
    refine ⟨?_, (List.forall_mem_cons.1 hrest).2⟩
    rintro name ⟨⟩
    exact ⟨hfirst, hf⟩
  | case5 => trivial

theorem Statement.vetted_ofLine (table : MnemonicTable) (t : Text) :
    (ofLine table t).Vetted table :=
  vetted_ofTokens fun _ => isToken_of_mem_tokens

/-- The names that are sighted along some rows are those that the rows mention. -/
theorem map_name_sightings (registers : RegisterTable) (l : Nat) (rs : List Row) :
    (sightings registers l rs).map (·.name) = rs.flatMap (·.statement.names registers) := by
  induction rs generalizing l with
  | nil => rfl
  | cons r rs ih =>
    rw [sightings, List.map_append, Statement.map_name_sightings, ih, List.flatMap_cons]

end Source

/-- A symbol is a token, and a symbol that is a mnemonic labels nothing. -/
structure SymbolEntry.Apart (mnemonics : MnemonicTable) (e : SymbolEntry) : Prop where
  token : Source.IsToken e.name
  label : e.address.isSome = true → mnemonics.find? e.name = none

structure LiteralEntry.Apart (e : LiteralEntry) : Prop where
  token : Source.IsToken e.text
  marked : Source.isLiteral e.text = true

namespace SymbolTable

def Apart (mnemonics : MnemonicTable) (table : SymbolTable) : Prop :=
  ∀ e ∈ table.entries, e.Apart mnemonics

section Apart

variable {mnemonics : MnemonicTable} {table : SymbolTable} {name : Text}

theorem Apart.push (h : table.Apart mnemonics) {e : SymbolEntry} (he : e.Apart mnemonics) :
    (table.push e).Apart mnemonics :=
  List.forall_mem_append.2 ⟨h, by simpa using he⟩

theorem Apart.setAddress (h : table.Apart mnemonics) (hn : mnemonics.find? name = none)
    (a : Address) : (table.setAddress name a).Apart mnemonics := by
  intro e he
  obtain ⟨k, hk, rfl⟩ := List.mem_map.1 he
  by_cases hname : k.name = name
  · rw [if_pos hname]
    exact ⟨(h k hk).token, fun _ => by rw [hname, hn]⟩
  · rw [if_neg hname]
    exact h k hk

theorem Apart.reference (h : table.Apart mnemonics) (ht : Source.IsToken name) (line : Nat) :
    (table.reference name line).2.Apart mnemonics := by
  unfold SymbolTable.reference
  split
  · exact h
  · exact h.push ⟨ht, fun ha => by cases ha⟩

theorem Apart.define (h : table.Apart mnemonics) (ht : Source.IsToken name)
    (hn : mnemonics.find? name = none) (a : Address) (line : Nat) :
    (table.define name a line).2.Apart mnemonics := by
  unfold SymbolTable.define
  split
  · exact h.push ⟨ht, fun _ => hn⟩
  · split
    · exact h.setAddress hn a
    · exact h

theorem Apart.bind (h : table.Apart mnemonics) (ht : Source.IsToken name)
    (hn : mnemonics.find? name = none) (a : Address) (line : Nat) :
    (table.bind name a line).2.Apart mnemonics := by
  unfold SymbolTable.bind
  split
  · exact h.push ⟨ht, fun _ => hn⟩
  · exact h.setAddress hn a

end Apart

theorem isSome_of_freeze {table : SymbolTable} {frozen : FrozenTable}
    (h : table.freeze = .ok frozen) : ∀ e ∈ table.entries, e.address.isSome = true := by
  intro e he
  have hmem : (e.name, e.address) ∈
      frozen.entries.map fun s => (s.name, some s.address) := by
    rw [freeze_eq_ok_iff.1 h]
    exact List.mem_map_of_mem (f := fun e : SymbolEntry => (e.name, e.address)) he
  obtain ⟨s, -, hs⟩ := List.mem_map.1 hmem
  rw [← (Prod.mk.inj hs).2]
  rfl

end SymbolTable

namespace LiteralTable

def Apart (table : LiteralTable) : Prop :=
  ∀ e ∈ table.entries, e.Apart

theorem Apart.of_texts {table next : LiteralTable} (h : table.Apart)
    (ht : next.entries.map (·.text) = table.entries.map (·.text)) : next.Apart := by
  intro e he
  have hmem : e.text ∈ table.entries.map (·.text) := by
    rw [← ht]
    exact List.mem_map_of_mem he
  obtain ⟨k, hk, hkt⟩ := List.mem_map.1 hmem
  exact ⟨hkt ▸ (h k hk).token, hkt ▸ (h k hk).marked⟩

theorem Apart.add {table : LiteralTable} (h : table.Apart) {t : Text} (ht : Source.IsToken t)
    (hm : Source.isLiteral t = true) (line : Nat) : (table.add t line).2.Apart := by
  unfold LiteralTable.add
  split
  · exact h
  · exact List.forall_mem_append.2 ⟨h, by simpa using ⟨ht, hm⟩⟩

end LiteralTable

/-- What an operand refers to by its place in the symbol table is neither a register nor a
literal. -/
def Operand.NamesSymbol (registers : RegisterTable) (table : SymbolTable) : Operand → Prop
  | .symbol o => ∃ e, table.entries[o.index]? = some e ∧ registers.code? e.name = none ∧
      Source.isLiteral e.name = false
  | _ => True

theorem Operand.NamesSymbol.mono {registers : RegisterTable} {table next : SymbolTable}
    {o : Operand} (h : o.NamesSymbol registers table) (hk : table.Keeps next) :
    o.NamesSymbol registers next := by
  cases o with
  | symbol o =>
    obtain ⟨e, he, hcode, hliteral⟩ := h
    obtain ⟨f, hf, hkeeps⟩ := hk o.index e he
    exact ⟨f, hf, by rw [hkeeps.name, hcode], by rw [hkeeps.name, hliteral]⟩
  | _ => trivial

namespace Draft

/-- The name spaces of a draft are apart. -/
structure Apart (machine : Machine) (d : Draft) : Prop where
  symbols : d.symbols.Apart machine.mnemonics
  literals : d.literals.Apart
  references : ∀ r ∈ d.records, ∀ o ∈ r.operands, o.NamesSymbol machine.registers d.symbols

section Steps

variable {machine : Machine} {options : Options} {d e : Draft} {name token : Text}
  {tokens : List Text} {label : Option Text}

theorem Apart.with_symbols (h : d.Apart machine) {symbols : SymbolTable}
    (hs : symbols.Apart machine.mnemonics) (hk : d.symbols.Keeps symbols) (ws : List Warning) :
    Apart machine { d with symbols := symbols, warnings := ws } :=
  ⟨hs, h.literals, fun r hr o ho => (h.references r hr o ho).mono hk⟩

theorem Apart.with_location (h : d.Apart machine) (location : Address) :
    Apart machine { d with location := location } :=
  ⟨h.symbols, h.literals, h.references⟩

theorem Apart.emit (h : d.Apart machine) {r : Record}
    (hr : ∀ o ∈ r.operands, o.NamesSymbol machine.registers d.symbols) :
    (d.emit r).Apart machine := by
  refine ⟨h.symbols, h.literals, List.forall_mem_append.2 ⟨h.references, fun q hq => ?_⟩⟩
  obtain rfl := List.mem_singleton.1 hq
  exact hr

theorem Apart.emit_constants (h : d.Apart machine) (location : Option Address) (tag : Tag)
    (cs : List Constant) : (d.emit ⟨location, tag, cs.map .constant⟩).Apart machine := by
  apply h.emit
  intro o ho
  obtain ⟨c, -, rfl⟩ := List.mem_map.1 ho
  trivial

theorem Apart.andThen {o : Outcome} {step : Draft → Outcome} (h : o.draft.Apart machine)
    (hstep : ∀ e, e.Apart machine → (step e).draft.Apart machine) :
    (o.andThen step).draft.Apart machine := by
  obtain ⟨e, _ | f⟩ := o
  · exact hstep e h
  · exact h

theorem Apart.advance (h : d.Apart machine) (words : Address) (line : Nat) :
    (d.advance words line).draft.Apart machine := by
  obtain ⟨location, hd⟩ := advance_frame d words line
  rw [hd]
  exact h.with_location location

theorem Apart.defineLabel (h : d.Apart machine) (ht : Source.IsToken name)
    (hn : machine.mnemonics.find? name = none) (line : Nat) :
    (defineLabel options line name d).draft.Apart machine := by
  obtain ⟨ws, hd⟩ := defineLabel_frame options line name d
  rw [hd]
  exact h.with_symbols (h.symbols.define ht hn _ _) (d.symbols.keeps_define _ _ _) _

theorem Apart.bindLabel (h : d.Apart machine) (ht : Source.IsToken name)
    (hn : machine.mnemonics.find? name = none) (line : Nat) :
    (bindLabel options line name d).draft.Apart machine := by
  obtain ⟨ws, hd⟩ := bindLabel_frame options line name d
  rw [hd]
  exact h.with_symbols (h.symbols.bind ht hn _ _) (d.symbols.keeps_bind _ _ _) _

theorem Apart.withLabel {step : Text → Draft → Outcome} (h : d.Apart machine)
    (hlabel : ∀ name ∈ label, Source.IsToken name ∧ machine.mnemonics.find? name = none)
    (hstep : ∀ {name}, Source.IsToken name → machine.mnemonics.find? name = none →
      (step name d).draft.Apart machine) : (withLabel step label d).draft.Apart machine := by
  cases label with
  | none => exact h
  | some name =>
    obtain ⟨ht, hn⟩ := hlabel name rfl
    exact hstep ht hn

theorem Apart.operand (h : d.Apart machine) (ht : Source.IsToken token) (line : Nat) :
    (operand machine.registers line token d).2.Apart machine := by
  unfold Draft.operand
  split
  · exact h
  · split
    · next hl => exact ⟨h.symbols, h.literals.add ht hl line, h.references⟩
    · exact h.with_symbols (h.symbols.reference ht line) (d.symbols.keeps_reference _ _) _

theorem namesSymbol_operand (registers : RegisterTable) (line : Nat) (token : Text) (d : Draft) :
    (operand registers line token d).1.NamesSymbol registers
      (operand registers line token d).2.symbols := by
  unfold operand
  split
  · trivial
  · next hcode =>
    split
    · trivial
    · next hl =>
      have hname := SymbolTable.getElem?_reference d.symbols token line
      rw [List.getElem?_map] at hname
      obtain ⟨e, he, rfl⟩ := Option.map_eq_some_iff.1 hname
      exact ⟨e, he, hcode, by simpa using hl⟩

theorem Apart.operands (h : d.Apart machine) (ht : ∀ t ∈ tokens, Source.IsToken t) (line : Nat) :
    (operands machine.registers line tokens d).2.Apart machine := by
  induction tokens generalizing d with
  | nil => exact h
  | cons token tokens ih =>
    obtain ⟨htoken, htokens⟩ := List.forall_mem_cons.1 ht
    exact ih (h.operand htoken line) htokens

theorem namesSymbol_operands (registers : RegisterTable) (line : Nat) (tokens : List Text)
    (d : Draft) :
    ∀ o ∈ (operands registers line tokens d).1,
      o.NamesSymbol registers (operands registers line tokens d).2.symbols :=
  composes_grows.forall_operands (fun d o => o.NamesSymbol registers d.symbols)
    (grows_operand registers line) (namesSymbol_operand registers line)
    (fun h ho => ho.mono h.symbols) tokens d

theorem Apart.poolLiterals (h : d.Apart machine) (line : Nat) :
    (poolLiterals line d).draft.Apart machine :=
  ⟨h.symbols, h.literals.of_texts (LiteralTable.map_text_pool line d.location d.literals.entries),
    h.references⟩

theorem Apart.directive (h : d.Apart machine) (line : Nat) (m : Mnemonic) (tokens : List Text) :
    (directive line m tokens d).draft.Apart machine := by
  unfold Draft.directive
  split
  · unfold setOrigin
    split
    · exact h
    · next a _ => exact (h.emit_constants none _ [.ofAddress a]).with_location a
  · have hemit := h.emit_constants none (.statement .directive m.opcode) []
    dsimp only
    split
    · exact (hemit.poolLiterals line).andThen fun e he => ⟨he.symbols, he.literals, he.references⟩
    · exact hemit

theorem Apart.imperative (h : d.Apart machine) (ht : ∀ t ∈ tokens, Source.IsToken t) (line : Nat)
    (m : Mnemonic) : (imperative machine.registers line m tokens d).draft.Apart machine := by
  have hoperands := namesSymbol_operands machine.registers line tokens d
  exact ((h.operands ht line).emit hoperands).advance m.length line

theorem Apart.declarative (h : d.Apart machine)
    (hlabel : ∀ name ∈ label, Source.IsToken name ∧ machine.mnemonics.find? name = none)
    (line : Nat) (m : Mnemonic) (tokens : List Text) :
    (declarative options line label m tokens d).draft.Apart machine := by
  unfold Draft.declarative
  split
  · exact h
  · split
    · exact h
    · next value words _ =>
      refine (h.withLabel hlabel fun ht hn => h.bindLabel ht hn line).andThen fun e he => ?_
      exact (he.emit_constants _ _ [value]).advance words line

/-- One step: what a line does leaves the name spaces apart, whether it succeeds or fails. -/
theorem Apart.statement {setup : Setup} (h : d.Apart setup.machine) (line : Nat) (t : Text) :
    (statement setup line t d).draft.Apart setup.machine := by
  have hvetted := Source.Statement.vetted_ofLine setup.machine.mnemonics t
  unfold Draft.statement
  split
  · exact h
  · split
    · exact ⟨h.symbols, h.literals, h.references⟩
    · cases hs : Source.Statement.ofLine setup.machine.mnemonics t with
      | blank => exact h
      | unknown name => exact h
      | bareLabel name =>
        rw [hs] at hvetted
        obtain ⟨ht, hn⟩ := hvetted
        have hwarned : (d.warn line (.bareLabel name)).Apart setup.machine :=
          ⟨h.symbols, h.literals, h.references⟩
        exact hwarned.defineLabel ht hn line
      | instruction label m tokens =>
        rw [hs] at hvetted
        obtain ⟨hlabel, ht⟩ := hvetted
        have hdefined : (Draft.withLabel (Draft.defineLabel setup.options line) label d).draft.Apart
            setup.machine := h.withLabel hlabel fun ht hn => h.defineLabel ht hn line
        cases hk : m.kind with
        | directive =>
          simp only [execute, hk]
          exact hdefined.andThen fun e he => he.directive line m tokens
        | imperative =>
          simp only [execute, hk]
          exact hdefined.andThen fun e he => he.imperative ht line m
        | declarative =>
          simp only [execute, hk]
          exact h.declarative hlabel line m tokens

end Steps

theorem Reachable.apart {setup : Setup} {d : Draft} (h : Reachable setup d) :
    d.Apart setup.machine := by
  induction h with
  | start =>
    refine ⟨?_, ?_, by simp [Draft.start]⟩
    · simp [SymbolTable.Apart, Draft.start, SymbolTable.empty]
    · simp [LiteralTable.Apart, Draft.start, LiteralTable.empty]
  | statement line t _ ih => exact ih.statement line t

theorem Reachable.statements {setup : Setup} {d : Draft} (h : Reachable setup d)
    (ls : List (Nat × Text)) : Reachable setup (statements setup ls d).draft := by
  induction ls generalizing d with
  | nil => exact h
  | cons l ls ih =>
    obtain ⟨line, t⟩ := l
    have hstep := h.statement line t
    rw [Draft.statements]
    generalize Draft.statement setup line t d = o at hstep
    obtain ⟨e, _ | f⟩ := o
    · exact ih hstep
    · exact hstep

end Draft

namespace Program

/-- The symbols of a program that assembles all have addresses, so none is a mnemonic. -/
theorem error_of_mnemonic_operand {setup : Setup} {source : Text} {r : Source.Row}
    {name : Text} (hr : r ∈ Source.program setup.machine.mnemonics source)
    (hname : name ∈ r.statement.names setup.machine.registers)
    (hm : setup.machine.mnemonics.contains name = true) :
    ∃ f, ofSource setup source = .error f := by
  cases ho : ofSource setup source with
  | error f => exact ⟨f, rfl⟩
  | ok p =>
    obtain ⟨d, hd, -, hfreeze, -⟩ := Outcome.finish_eq_ok ho
    obtain ⟨e, hrun, -, hsymbols, -⟩ := Draft.exists_run_of_source hd
    have hlog : d.symbols.Logs (Source.sightingsOf setup.machine source) := by
      rw [hsymbols]
      exact hrun.symbols SymbolTable.Logs.empty
    have hapart : d.Apart setup.machine := by
      have hstart : Draft.Reachable setup (.start setup.options) := .start
      have hreach := hstart.statements (Text.numbered (Text.lines source))
      rw [hd] at hreach
      exact hreach.apart
    have hmem : name ∈ d.symbols.entries.map (·.name) := by
      rw [hlog.names, Sighting.names, List.mem_eraseDups, Source.sightingsOf,
        Source.map_name_sightings]
      exact List.mem_flatMap.2 ⟨r, hr, hname⟩
    obtain ⟨k, hk, rfl⟩ := List.mem_map.1 hmem
    have haddress : k.address.isSome = true := SymbolTable.isSome_of_freeze hfreeze k hk
    have hnone := (hapart.symbols k hk).label haddress
    rw [MnemonicTable.contains, hnone] at hm
    cases hm

/-- Whatever lines have been read, the name spaces are apart; so no source assembles in which an
instruction uses the name of a mnemonic for a symbol. -/
theorem ofSource_nameSpaces (setup : Setup) :
    (∀ d, Draft.Reachable setup d → d.Apart setup.machine) ∧
    ∀ source r label m operands name, r ∈ Source.program setup.machine.mnemonics source →
      r.statement = .instruction label m operands → m.kind = .imperative → name ∈ operands →
      Source.isSymbolOperand setup.machine.registers name = true →
      setup.machine.mnemonics.contains name = true → ∃ f, ofSource setup source = .error f := by
  refine ⟨fun d hd => hd.apart, ?_⟩
  intro source r label m operands name hr hs hk hname hsymbol hm
  refine error_of_mnemonic_operand hr ?_ hm
  rw [hs, Source.Statement.names, if_pos hk]
  exact List.mem_append_right _ (List.mem_filter.2 ⟨hname, hsymbol⟩)

/-- A register and a literal as labels, a mnemonic as an operand, and two lines that fail. -/
def crossed : Draft :=
  let setup : Setup := ⟨.builtin, {}⟩
  let d := (Draft.statement setup 1 "AREG DC 1".toList (.start {})).draft
  let d := (Draft.statement setup 2 "=5 DS 70000".toList d).draft
  let d := (Draft.statement setup 3 "=5 MOVER BREG,ADD,=5".toList d).draft
  (Draft.statement setup 4 "FOO BAR".toList d).draft

/-- The label of the second line is a mnemonic, which makes an instruction of the line. -/
def borrowing : Text :=
  "MOVER AREG,SUB\nSUB DC 1\nEND\n".toList

theorem ofSource_borrowing :
    Draft.Reachable ⟨.builtin, {}⟩ crossed ∧ crossed.Apart .builtin ∧
      crossed.symbols.entries.map (fun e => (e.name, e.address)) =
        [("AREG".toList, some 0), ("=5".toList, some 1), ("ADD".toList, none)] ∧
      crossed.literals.entries.map (·.text) = ["=5".toList] ∧
      ∃ f, ofSource ⟨.builtin, {}⟩ borrowing = .error f := by
  obtain ⟨hapart, hfails⟩ := ofSource_nameSpaces ⟨.builtin, {}⟩
  have hreach : Draft.Reachable ⟨.builtin, {}⟩ crossed :=
    .statement _ _ (.statement _ _ (.statement _ _ (.statement _ _ .start)))
  have hrow : (Source.program .builtin borrowing)[0]? =
      some ⟨1, .instruction none ⟨"MOVER".toList, .imperative, 4, 1⟩
        ["AREG".toList, "SUB".toList]⟩ := rfl
  refine ⟨hreach, hapart _ hreach, rfl, rfl, ?_⟩
  exact hfails borrowing _ _ _ _ "SUB".toList (List.mem_of_getElem? hrow) rfl rfl (by decide) rfl
    rfl

end Program

end TwoPass
