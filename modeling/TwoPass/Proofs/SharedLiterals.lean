import Mathlib.Data.List.Forall2
import TwoPass.Proofs.Counter
import TwoPass.Proofs.Encoding

/-! Literals that share entries. A run in which equal literals share an entry keeps step with the
one in which they do not: the labels, the counter and the code are the same, and where the code
names a literal, both name one of the same text. -/

namespace TwoPass

/-- Two operands that differ at most in the place of a literal, over the texts of two tables. -/
inductive Operand.Matches (plain shared : List Text) : Operand → Operand → Prop
  | literal {o o' : Ordinal} {t : Text} (h : plain[o.index]? = some t)
      (h' : shared[o'.index]? = some t) : Matches plain shared (.literal o) (.literal o')
  | same {o : Operand} (h : ∀ k, o ≠ .literal k) : Matches plain shared o o

structure Record.Matches (plain shared : List Text) (r r' : Record) : Prop where
  location : r'.location = r.location
  tag : r'.tag = r.tag
  operands : List.Forall₂ (Operand.Matches plain shared) r.operands r'.operands

theorem Operand.Matches.mono {plain plain' shared shared' : List Text} {o o' : Operand}
    (h : o.Matches plain shared o') (hp : plain <+: plain') (hs : shared <+: shared') :
    o.Matches plain' shared' o' := by
  cases h with
  | literal hx hx' => exact .literal (getElem?_mono hp hx) (getElem?_mono hs hx')
  | same hne => exact .same hne

theorem Record.Matches.mono {plain plain' shared shared' : List Text} {r r' : Record}
    (h : r.Matches plain shared r') (hp : plain <+: plain') (hs : shared <+: shared') :
    r.Matches plain' shared' r' :=
  ⟨h.location, h.tag, h.operands.imp fun _ _ ho => ho.mono hp hs⟩

theorem Record.matches_constants (plain shared : List Text) (location : Option Address) (tag : Tag)
    (cs : List Constant) :
    Record.Matches plain shared ⟨location, tag, cs.map .constant⟩
      ⟨location, tag, cs.map .constant⟩ := by
  refine ⟨rfl, rfl, List.forall₂_map_left_iff.2 (List.forall₂_map_right_iff.2 ?_)⟩
  exact List.forall₂_same.2 fun c _ => .same fun k => by simp

namespace Draft

/-- A draft whose literals have entries each, and one whose equal literals share an entry. -/
structure Matches (d e : Draft) : Prop where
  symbols : e.symbols = d.symbols
  warnings : e.warnings = d.warnings
  ended : e.ended = d.ended
  records : List.Forall₂ (Record.Matches d.texts e.texts) d.records e.records

/-- Before the end the counters agree too, and both tables hold the occurrences `ts`. -/
structure InStep (d e : Draft) : Prop extends Matches d e where
  location : e.location = d.location
  literals : ∃ ts, LiteralTable.Logs false d.literals ts ∧ LiteralTable.Logs true e.literals ts

def KeepStep (o o' : Outcome) : Prop :=
  o'.fault = o.fault ∧ InStep o.draft o'.draft

theorem InStep.done {d e : Draft} (h : InStep d e) : KeepStep (.done d) (.done e) :=
  ⟨rfl, h⟩

theorem InStep.fail {d e : Draft} (h : InStep d e) (f : Fault) :
    KeepStep (.fail d f) (.fail e f) :=
  ⟨rfl, h⟩

theorem KeepStep.andThen {o o' : Outcome} {f g : Draft → Outcome} (h : KeepStep o o')
    (hfg : ∀ d e, InStep d e → KeepStep (f d) (g e)) :
    KeepStep (o.andThen f) (o'.andThen g) := by
  obtain ⟨d, fault⟩ := o
  obtain ⟨e, fault'⟩ := o'
  obtain ⟨hf, hde⟩ := h
  obtain rfl : fault' = fault := hf
  cases fault' with
  | none => exact hfg d e hde
  | some x => exact ⟨rfl, hde⟩

/-- Drafts in step differ in their literals and their code alone. -/
theorem InStep.frame {d e : Draft} (h : InStep d e) :
    ∃ literals records, e = { d with literals := literals, records := records } := by
  obtain ⟨location, symbols, literals, records, warnings, ended⟩ := e
  obtain rfl : symbols = d.symbols := h.symbols
  obtain rfl : warnings = d.warnings := h.warnings
  obtain rfl : ended = d.ended := h.ended
  obtain rfl : location = d.location := h.location
  exact ⟨literals, records, rfl⟩

theorem InStep.withSymbols {d e : Draft} (h : InStep d e) (symbols : SymbolTable) :
    InStep { d with symbols := symbols } { e with symbols := symbols } :=
  ⟨⟨rfl, h.warnings, h.ended, h.records⟩, h.location, h.literals⟩

theorem InStep.withLocation {d e : Draft} (h : InStep d e) (location : Address) :
    InStep { d with location := location } { e with location := location } :=
  ⟨⟨h.symbols, h.warnings, h.ended, h.records⟩, rfl, h.literals⟩

theorem InStep.warn {d e : Draft} (h : InStep d e) (line : Nat) (remark : Remark) :
    InStep (d.warn line remark) (e.warn line remark) :=
  ⟨⟨h.symbols, by simp [Draft.warn, h.warnings], h.ended, h.records⟩, h.location, h.literals⟩

theorem InStep.emit {d e : Draft} (h : InStep d e) {r r' : Record}
    (hr : r.Matches d.texts e.texts r') : InStep (d.emit r) (e.emit r') :=
  ⟨⟨h.symbols, h.warnings, h.ended, List.rel_append h.records (.cons hr .nil)⟩, h.location,
    h.literals⟩

section Steps

variable (strict : Bool) (registers : RegisterTable) (line : Nat) {d e : Draft}

theorem keepStep_advance (h : InStep d e) (words : Address) :
    KeepStep (d.advance words line) (e.advance words line) := by
  obtain ⟨literals, records, rfl⟩ := h.frame
  unfold advance
  dsimp only
  split
  · next next _ => exact (h.withLocation next).done
  · exact h.fail _

theorem keepStep_defineLabel (name : Text) (h : InStep d e) :
    KeepStep (defineLabel ⟨strict, false⟩ line name d)
      (defineLabel ⟨strict, true⟩ line name e) := by
  obtain ⟨literals, records, rfl⟩ := h.frame
  unfold defineLabel
  dsimp only
  split
  · next o kept symbols _ =>
    split
    · exact (h.withSymbols symbols).fail _
    · exact ((h.withSymbols symbols).warn line _).done
  · next symbols _ _ => exact (h.withSymbols symbols).done

theorem keepStep_bindLabel (name : Text) (h : InStep d e) :
    KeepStep (bindLabel ⟨strict, false⟩ line name d) (bindLabel ⟨strict, true⟩ line name e) := by
  obtain ⟨literals, records, rfl⟩ := h.frame
  unfold bindLabel
  dsimp only
  split
  · next symbols _ => exact (h.withSymbols symbols).done
  · next previous symbols _ =>
    split
    · exact (h.withSymbols symbols).fail _
    · exact ((h.withSymbols symbols).warn line _).done

theorem keepStep_withLabel {f g : Text → Draft → Outcome}
    (hfg : ∀ name d e, InStep d e → KeepStep (f name d) (g name e)) (label : Option Text)
    (h : InStep d e) : KeepStep (withLabel f label d) (withLabel g label e) := by
  cases label with
  | none => exact h.done
  | some name => exact hfg name d e h

/-- Another occurrence of a literal is added to both tables. -/
theorem InStep.addLiteral (h : InStep d e) (token : Text) :
    InStep { d with literals := (d.literals.add token line).2 }
      { e with literals := (e.literals.add token line).2 } := by
  obtain ⟨ts, hp, hm⟩ := h.literals
  refine ⟨⟨h.symbols, h.warnings, h.ended, ?_⟩, h.location, _, hp.add token line,
    hm.add token line⟩
  refine h.records.imp fun _ _ hr => hr.mono ?_ ?_
  · exact LiteralTable.prefix_texts_add d.literals token line
  · exact LiteralTable.prefix_texts_add e.literals token line

theorem InStep.operand (h : InStep d e) (token : Text) :
    InStep (operand registers line token d).2 (operand registers line token e).2 ∧
      (operand registers line token d).1.Matches (operand registers line token d).2.texts
        (operand registers line token e).2.texts (operand registers line token e).1 := by
  unfold Draft.operand
  split
  · exact ⟨h, .same fun k => by simp⟩
  · split
    · exact ⟨h.addLiteral line token, .literal (LiteralTable.getElem?_add d.literals token line)
        (LiteralTable.getElem?_add e.literals token line)⟩
    · obtain ⟨literals, records, rfl⟩ := h.frame
      exact ⟨h.withSymbols _, .same fun k => by simp⟩

theorem prefix_texts_operand (token : Text) (d : Draft) :
    d.texts <+: (Draft.operand registers line token d).2.texts := by
  unfold Draft.operand
  split
  · exact List.prefix_refl _
  · split
    · exact LiteralTable.prefix_texts_add d.literals token line
    · exact List.prefix_refl _

theorem composes_prefix_texts : Composes fun d e => d.texts <+: e.texts :=
  ⟨fun _ => List.prefix_refl _, fun h h' => h.trans h'⟩

theorem InStep.operands (h : InStep d e) (tokens : List Text) :
    InStep (operands registers line tokens d).2 (operands registers line tokens e).2 ∧
      List.Forall₂ (Operand.Matches (operands registers line tokens d).2.texts
        (operands registers line tokens e).2.texts) (operands registers line tokens d).1
        (operands registers line tokens e).1 := by
  induction tokens generalizing d e with
  | nil => exact ⟨h, .nil⟩
  | cons token tokens ih =>
    obtain ⟨hfirst, hmatch⟩ := h.operand registers line token
    obtain ⟨hall, hothers⟩ := ih hfirst
    have hlater := composes_prefix_texts.operands (prefix_texts_operand registers line) tokens
    exact ⟨hall, .cons (hmatch.mono (hlater _) (hlater _)) hothers⟩

theorem keepStep_imperative (m : Mnemonic) (tokens : List Text) (h : InStep d e) :
    KeepStep (imperative registers line m tokens d) (imperative registers line m tokens e) := by
  obtain ⟨hin, hos⟩ := h.operands registers line tokens
  refine keepStep_advance line (hin.emit ?_) m.length
  exact ⟨congrArg some hin.location, rfl, hos⟩

theorem keepStep_declarative (label : Option Text) (m : Mnemonic) (tokens : List Text)
    (h : InStep d e) : KeepStep (declarative ⟨strict, false⟩ line label m tokens d)
      (declarative ⟨strict, true⟩ line label m tokens e) := by
  unfold declarative
  split
  · exact h.fail _
  · split
    · exact h.fail _
    · next value words _ =>
      have hlabel := keepStep_withLabel (fun name _ _ => keepStep_bindLabel strict line name)
        label h
      refine hlabel.andThen fun d e h => ?_
      obtain ⟨literals, records, rfl⟩ := h.frame
      exact keepStep_advance line (h.emit (Record.matches_constants _ _ _ _ [value])) words

theorem keepStep_directive {m : Mnemonic} (hm : m.name ≠ "END".toList) (tokens : List Text)
    (h : InStep d e) : KeepStep (directive line m tokens d) (directive line m tokens e) := by
  unfold directive
  split
  · unfold setOrigin
    split
    · exact h.fail _
    · next a _ =>
      exact ((h.emit (Record.matches_constants _ _ _ _ [.ofAddress a])).withLocation a).done
  · exact (h.emit (Record.matches_constants _ _ _ _ [])).done

/-- The pool of shared literals needs no more words than the other. -/
theorem InStep.poolLiterals {d' : Draft} (h : InStep d e)
    (hd : Draft.poolLiterals line d = .done d') :
    ∃ e', Draft.poolLiterals line e = .done e' ∧ Matches d' e' := by
  obtain ⟨hf, rfl⟩ := poolLiterals_eq_done hd
  obtain ⟨ts, hp, hm⟩ := h.literals
  have hlength : e.literals.entries.length ≤ d.literals.entries.length := by
    have hsub := (LiteralTable.kept_sublist true ts).length_le
    rw [← hm.texts, List.length_map] at hsub
    have hplain := congrArg List.length hp.texts
    rw [List.length_map] at hplain
    exact hsub.trans hplain.symm.le
  have hf' : (LiteralTable.pool line e.location e.literals.entries).fault = none := by
    rw [LiteralTable.fault_pool_of_unpooled hp.unpooled] at hf
    rw [LiteralTable.fault_pool_of_unpooled hm.unpooled, h.location]
    unfold Fault.overflow? at hf ⊢
    split at hf
    · cases hf
    · rw [if_neg (by omega)]
  have hd' : Draft.poolLiterals line e = .done (Draft.poolLiterals line e).draft :=
    congrArg (Outcome.mk _) hf'
  refine ⟨_, hd', h.symbols, h.warnings, h.ended, ?_⟩
  rw [texts_poolLiterals hd, texts_poolLiterals hd']
  exact h.records

end Steps

section Runs

variable {machine : Machine} {strict : Bool} {line : Nat} {d e d' : Draft}

theorem keepStep_execute {s : Source.Statement} (hs : s.isEnd = false) (h : InStep d e) :
    KeepStep (execute ⟨machine, ⟨strict, false⟩⟩ line d s)
      (execute ⟨machine, ⟨strict, true⟩⟩ line e s) := by
  cases s with
  | blank => exact h.done
  | bareLabel name => exact keepStep_defineLabel strict line name (h.warn line (.bareLabel name))
  | unknown name => exact h.fail _
  | instruction label m tokens =>
    have hlabel := keepStep_withLabel (fun name _ _ => keepStep_defineLabel strict line name)
      label h
    cases hk : m.kind with
    | directive =>
      have hm : m.name ≠ "END".toList := by
        simpa [Source.Statement.isEnd, hk] using hs
      simp only [execute, hk]
      exact hlabel.andThen fun _ _ => keepStep_directive line hm tokens
    | imperative =>
      simp only [execute, hk]
      exact hlabel.andThen fun _ _ => keepStep_imperative machine.registers line m tokens
    | declarative =>
      simp only [execute, hk]
      exact keepStep_declarative strict line label m tokens h

/-- Where a step succeeds without shared literals, it does so with them. -/
theorem KeepStep.exists_done {o o' : Outcome} (h : KeepStep o o') (ho : o = .done d') :
    ∃ e', o' = .done e' ∧ InStep d' e' := by
  obtain ⟨e', fault⟩ := o'
  subst ho
  obtain rfl : fault = none := h.1
  exact ⟨e', rfl, h.2⟩

theorem InStep.execute_end {s : Source.Statement} (hs : s.isEnd = true) (h : InStep d e)
    (hd : execute ⟨machine, ⟨strict, false⟩⟩ line d s = .done d') :
    ∃ e', execute ⟨machine, ⟨strict, true⟩⟩ line e s = .done e' ∧ Matches d' e' := by
  cases s with
  | instruction label m tokens =>
    simp only [Source.Statement.isEnd, Bool.and_eq_true, decide_eq_true_eq] at hs
    obtain ⟨hk, hn⟩ := hs
    simp only [execute, hk] at hd ⊢
    obtain ⟨f, hf, hd⟩ := Outcome.andThen_eq_done hd
    have hlabel := keepStep_withLabel (fun name _ _ => keepStep_defineLabel strict line name)
      label h
    obtain ⟨g, hg, hfg⟩ := hlabel.exists_done hf
    rw [directive_end hn] at hd
    obtain ⟨f', hf', hd⟩ := Outcome.andThen_eq_done hd
    obtain ⟨g', hg', hmatch⟩ :=
      (hfg.emit (Record.matches_constants _ _ _ _ [])).poolLiterals line hf'
    obtain rfl := congrArg Outcome.draft hd
    refine ⟨{ g' with ended := true }, ?_, hmatch.symbols, hmatch.warnings, rfl, hmatch.records⟩
    rw [hg, Outcome.done_andThen, directive_end hn]
    exact congrArg (Outcome.andThen · _) hg'
  | _ => simp [Source.Statement.isEnd] at hs

theorem InStep.executeAll {rs : List Source.Row} (h : InStep d e)
    (hd : executeAll ⟨machine, ⟨strict, false⟩⟩ (Source.throughEnd rs) d = .done d') :
    ∃ e', executeAll ⟨machine, ⟨strict, true⟩⟩ (Source.throughEnd rs) e = .done e' ∧
      Matches d' e' := by
  induction rs generalizing d e with
  | nil =>
    obtain rfl := congrArg Outcome.draft hd
    exact ⟨e, rfl, h.toMatches⟩
  | cons r rs ih =>
    unfold Source.throughEnd at hd ⊢
    split at hd
    · next hs =>
      obtain ⟨f, hf, hd⟩ := Outcome.andThen_eq_done hd
      obtain ⟨g, hg, hfg⟩ := h.execute_end hs hf
      obtain rfl := congrArg Outcome.draft hd
      refine ⟨g, ?_, hfg⟩
      rw [if_pos hs, Draft.executeAll, hg]
      rfl
    · next hs =>
      obtain ⟨f, hf, hd⟩ := Outcome.andThen_eq_done hd
      obtain ⟨g, hg, hfg⟩ := (keepStep_execute (by simpa using hs) h).exists_done hf
      obtain ⟨e', he, hmatch⟩ := ih hfg hd
      refine ⟨e', ?_, hmatch⟩
      rw [if_neg hs, Draft.executeAll, hg]
      exact he

theorem inStep_start (strict : Bool) : InStep (start ⟨strict, false⟩) (start ⟨strict, true⟩) :=
  ⟨⟨rfl, rfl, rfl, .nil⟩, rfl, [], LiteralTable.Logs.empty false, LiteralTable.Logs.empty true⟩

theorem exists_statements_of_plain {ls : List (Nat × Text)}
    (h : statements ⟨machine, ⟨strict, false⟩⟩ ls (.start ⟨strict, false⟩) = .done d) :
    ∃ e, statements ⟨machine, ⟨strict, true⟩⟩ ls (.start ⟨strict, true⟩) = .done e ∧
      Matches d e := by
  rw [statements_eq rfl] at h
  obtain ⟨f, hf, hd⟩ := Outcome.andThen_eq_done h
  obtain ⟨g, hg, hfg⟩ := (inStep_start strict).executeAll hf
  obtain rfl := congrArg Outcome.draft hd
  refine ⟨g.remarkOn (Source.afterEnd (Source.rowsOfLines machine.mnemonics ls)), ?_,
    hfg.symbols, ?_, hfg.ended, hfg.records⟩
  · rw [statements_eq rfl]
    exact congrArg (Outcome.andThen · _) hg
  · exact congrArg (· ++ remarks _) hfg.warnings

end Runs

end Draft

end TwoPass
