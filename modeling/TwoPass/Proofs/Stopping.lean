import TwoPass.Proofs.Growth
import TwoPass.Proofs.Pooling
import TwoPass.Proofs.Run

/-! How far a statement gets that fails. Its label, its operands, its record and its words come in
an order of their own for each class, and a fault keeps what was done before it: a refused number
or label comes before any code, and words that run out come behind the record that asks for them. -/

namespace TwoPass

namespace Source

def Statement.kind? (s : Statement) : Option StatementClass :=
  s.instruction?.map (·.mnemonic.kind)

end Source

theorem Outcome.fault_andThen {o : Outcome} {step : Draft → Outcome} {f : Fault}
    (h : (o.andThen step).fault = some f) :
    (o.fault = some f ∧ o.andThen step = o) ∨
      ∃ d, o = .done d ∧ (step d).fault = some f ∧ o.andThen step = step d := by
  obtain ⟨d, _ | e⟩ := o
  · exact .inr ⟨d, rfl, h, rfl⟩
  · exact .inl ⟨h, rfl⟩

namespace Draft

open LiteralTable (HandsOut unpooled)

theorem redefinition?_eq_some {options : Options} {line : Nat} {name : Text} {d : Draft}
    {f : Fault} (h : redefinition? options line name d = some f) :
    options.strictLabels = true ∧ d.symbols.isDefined name = true ∧
      f = .labelRedefined line name := by
  unfold redefinition? at h
  split at h
  · next hd =>
    obtain ⟨hs, hn⟩ := (Bool.and_eq_true _ _).mp hd
    exact ⟨hs, hn, (Option.some.inj h).symm⟩
  · cases h

theorem defineLabel_of_refused {options : Options} {line : Nat} {name : Text} {d : Draft}
    (hs : options.strictLabels = true) (hd : d.symbols.isDefined name = true) :
    defineLabel options line name d = .fail d (.labelRedefined line name) := by
  obtain ⟨kept, hk⟩ := Option.isSome_iff_exists.1 hd
  obtain ⟨e, he, ha⟩ := Option.bind_eq_some_iff.1 hk
  simp [defineLabel, SymbolTable.define, he, ha, hs]

/-- The label of a data statement that is refused has been bound. -/
theorem bindLabel_of_refused {options : Options} {line : Nat} {name : Text} {d : Draft}
    (hs : options.strictLabels = true) (hd : d.symbols.isDefined name = true) :
    bindLabel options line name d =
      .fail { d with symbols := d.symbols.setAddress name d.location }
        (.labelRedefined line name) := by
  obtain ⟨kept, hk⟩ := Option.isSome_iff_exists.1 hd
  obtain ⟨e, he, ha⟩ := Option.bind_eq_some_iff.1 hk
  simp [bindLabel, SymbolTable.bind, he, ha, hs]

theorem advance_eq_fail {d : Draft} {words : Address} {line : Nat} {f : Fault}
    (h : (d.advance words line).fault = some f) :
    65535 < d.location.val + words.val ∧ f = .addressOverflow line ∧
      (d.advance words line).draft = d := by
  rw [fault_advance] at h
  obtain ⟨hover, hf⟩ := Fault.overflow?_eq_some h
  refine ⟨hover, hf, ?_⟩
  simp only [advance, Location.advance_of_overflow hover, Outcome.fail]

/-- What a statement that fails has done, and why it fails. -/
inductive Stops (setup : Setup) (line : Nat) (d : Draft) :
    Source.Statement → Fault → Draft → Prop
  | unknown (name : Text) :
      Stops setup line d (.unknown name) (.unknownMnemonic line name) d
  | bareLabel {name : Text} (hs : setup.options.strictLabels = true)
      (hd : d.symbols.isDefined name = true) :
      Stops setup line d (.bareLabel name) (.labelRedefined line name)
        (d.warn line (.bareLabel name))
  | label {name : Text} {m : Mnemonic} {tokens : List Text} (hk : m.kind ≠ .declarative)
      (hs : setup.options.strictLabels = true) (hd : d.symbols.isDefined name = true) :
      Stops setup line d (.instruction (some name) m tokens) (.labelRedefined line name) d
  | origin {label : Option Text} {m : Mnemonic} {t : Text} {tokens : List Text} {e : Draft}
      (hk : m.kind = .directive) (hn : m.name = "START".toList) (hl : Labels .plain line label d e)
      (ho : origin tokens = .error t) :
      Stops setup line d (.instruction label m tokens) (.badNumber line t) e
  | finish {label : Option Text} {m : Mnemonic} {tokens : List Text} {e : Draft}
      (hk : m.kind = .directive) (hn : m.name = "END".toList)
      (hl : Labels .plain line label d e)
      (hw : 65535 < e.location.val + unpooled e.literals.entries) :
      Stops setup line d (.instruction label m tokens) (.addressOverflow line)
        (poolLiterals line (e.emit ⟨none, .statement .directive m.opcode, []⟩)).draft
  | imperative {label : Option Text} {m : Mnemonic} {tokens : List Text} {e f : Draft}
      {os : List Operand} (hk : m.kind = .imperative) (hl : Labels .plain line label d e)
      (ho : operands setup.machine.registers line tokens e = (os, f))
      (hw : 65535 < f.location.val + m.length.val) :
      Stops setup line d (.instruction label m tokens) (.addressOverflow line)
        (f.emit ⟨some f.location, .statement .imperative m.opcode, os⟩)
  | missingOperand {label : Option Text} {m : Mnemonic} (hk : m.kind = .declarative) :
      Stops setup line d (.instruction label m []) (.missingOperand line m.name) d
  | badData {label : Option Text} {m : Mnemonic} {t : Text} {tokens : List Text}
      (hk : m.kind = .declarative) (hv : layout? m t = none) :
      Stops setup line d (.instruction label m (t :: tokens)) (.badNumber line t) d
  | dataLabel {name : Text} {m : Mnemonic} {t : Text} {tokens : List Text}
      (hk : m.kind = .declarative) (hv : (layout? m t).isSome = true)
      (hs : setup.options.strictLabels = true) (hd : d.symbols.isDefined name = true) :
      Stops setup line d (.instruction (some name) m (t :: tokens)) (.labelRedefined line name)
        { d with symbols := d.symbols.setAddress name d.location }
  | declarative {label : Option Text} {m : Mnemonic} {t : Text} {tokens : List Text} {e : Draft}
      {value : Constant} {words : Address} (hk : m.kind = .declarative)
      (hv : layout? m t = some (value, words)) (hl : Labels .data line label d e)
      (hw : 65535 < e.location.val + words.val) :
      Stops setup line d (.instruction label m (t :: tokens)) (.addressOverflow line)
        (e.emit ⟨some e.location, .statement .declarative m.opcode, [.constant value]⟩)

section Inversion

variable {setup : Setup} {line : Nat} {label : Option Text} {m : Mnemonic} {tokens : List Text}
  {d e : Draft} {f : Fault}

theorem stops_of_directive (hk : m.kind = .directive) (hl : Labels .plain line label d e)
    (h : (directive line m tokens e).fault = some f) :
    Stops setup line d (.instruction label m tokens) f (directive line m tokens e).draft := by
  by_cases hn : m.name = "END".toList
  · rw [directive_end hn, Outcome.fault_andThen_done] at h
    have hp := (LiteralTable.pools_pool line e.location e.literals.entries).fault
    obtain ⟨hw, rfl⟩ := Fault.overflow?_eq_some (hp.symm.trans h)
    have hdraft : (directive line m tokens e).draft =
        (poolLiterals line (e.emit ⟨none, .statement .directive m.opcode, []⟩)).draft := by
      simp only [directive_end hn, Outcome.andThen, h]
    rw [hdraft]
    exact .finish hk hn hl hw
  · by_cases hs : m.name = "START".toList
    · simp only [directive, if_pos hs, setOrigin] at h ⊢
      cases ho : origin tokens with
      | ok a => simp [ho, Outcome.done] at h
      | error t =>
        simp only [ho, Outcome.fail] at h ⊢
        obtain rfl := Option.some.inj h
        exact .origin hk hs hl ho
    · simp only [directive, if_neg hs, if_neg hn, Outcome.done] at h
      cases h

theorem stops_of_imperative (hk : m.kind = .imperative) (hl : Labels .plain line label d e)
    (h : (imperative setup.machine.registers line m tokens e).fault = some f) :
    Stops setup line d (.instruction label m tokens) f
      (imperative setup.machine.registers line m tokens e).draft := by
  unfold imperative at h ⊢
  cases ho : operands setup.machine.registers line tokens e with
  | mk os g =>
    simp only [ho] at h ⊢
    obtain ⟨hw, rfl, hdraft⟩ := advance_eq_fail h
    rw [hdraft]
    exact .imperative hk hl ho hw

theorem stops_of_declarative (hk : m.kind = .declarative)
    (h : (declarative setup.options line label m tokens d).fault = some f) :
    Stops setup line d (.instruction label m tokens) f
      (declarative setup.options line label m tokens d).draft := by
  unfold declarative at h ⊢
  cases tokens with
  | nil =>
    obtain rfl := Option.some.inj h
    exact .missingOperand hk
  | cons t tokens =>
    cases hv : layout? m t with
    | none =>
      simp only [hv] at h ⊢
      obtain rfl := Option.some.inj h
      exact .badData hk hv
    | some laid =>
      obtain ⟨value, words⟩ := laid
      simp only [hv] at h ⊢
      rcases Outcome.fault_andThen h with ⟨hf, ho⟩ | ⟨e, hl, hf, ho⟩
      · -- the label has been bound by the time it is refused
        rw [ho]
        cases label with
        | none => cases hf
        | some name =>
          obtain ⟨hs, hd, rfl⟩ := redefinition?_eq_some ((fault_bindLabel line name).symm.trans hf)
          rw [withLabel, bindLabel_of_refused hs hd]
          exact .dataLabel hk (by rw [hv]; rfl) hs hd
      · rw [ho]
        obtain ⟨hw, rfl, hdraft⟩ := advance_eq_fail hf
        rw [hdraft]
        exact .declarative hk hv (labels_of_withLabel labels_of_bindLabel hl) hw

theorem stops_of_plainLabel {step : Draft → Outcome} (hk : m.kind ≠ .declarative)
    (hstep : ∀ {e}, Labels .plain line label d e → (step e).fault = some f →
      Stops setup line d (.instruction label m tokens) f (step e).draft)
    (h : ((withLabel (defineLabel setup.options line) label d).andThen step).fault = some f) :
    Stops setup line d (.instruction label m tokens) f
      ((withLabel (defineLabel setup.options line) label d).andThen step).draft := by
  rcases Outcome.fault_andThen h with ⟨hf, ho⟩ | ⟨e, hl, hf, ho⟩
  · rw [ho]
    cases label with
    | none => cases hf
    | some name =>
      obtain ⟨hs, hd, rfl⟩ := redefinition?_eq_some ((fault_defineLabel line name).symm.trans hf)
      rw [withLabel, defineLabel_of_refused hs hd]
      exact .label hk hs hd
  · rw [ho]
    exact hstep (labels_of_withLabel labels_of_defineLabel hl) hf

theorem stops_of_execute {s : Source.Statement}
    (h : (execute setup line d s).fault = some f) :
    Stops setup line d s f (execute setup line d s).draft := by
  cases s with
  | blank => cases h
  | unknown name =>
    obtain rfl := Option.some.inj h
    exact .unknown name
  | bareLabel name =>
    simp only [execute] at h ⊢
    obtain ⟨hs, hd, rfl⟩ := redefinition?_eq_some ((fault_defineLabel line name).symm.trans h)
    rw [defineLabel_of_refused hs hd]
    exact .bareLabel hs hd
  | instruction label m tokens =>
    cases hk : m.kind with
    | directive =>
      simp only [execute, hk] at h ⊢
      exact stops_of_plainLabel (by simp [hk]) (stops_of_directive hk) h
    | imperative =>
      simp only [execute, hk] at h ⊢
      exact stops_of_plainLabel (by simp [hk]) (stops_of_imperative hk) h
    | declarative =>
      simp only [execute, hk] at h ⊢
      exact stops_of_declarative hk h

theorem ended_of_fault {t : Text} (h : (statement setup line t d).fault = some f) :
    d.ended = false := by
  cases hd : d.ended with
  | false => rfl
  | true =>
    unfold statement at h
    split at h
    · cases h
    · rw [if_pos hd] at h
      cases h

theorem stops_of_statement {t : Text} (h : (statement setup line t d).fault = some f) :
    Stops setup line d (.ofLine setup.machine.mnemonics t) f (statement setup line t d).draft := by
  have hstatement : statement setup line t d =
      execute setup line d (.ofLine setup.machine.mnemonics t) :=
    statement_of_not_ended (ended_of_fault h)
  rw [hstatement] at h ⊢
  exact stops_of_execute h

end Inversion

/-- What a fault leaves of a draft, by its cause and by the statement that it comes from. -/
structure StopsShort (s : Source.Statement) (f : Fault) (d e : Draft) : Prop where
  /-- Only words that run out come behind any code. -/
  beforeCode : (∀ line, f ≠ .addressOverflow line) →
    e.location = d.location ∧ e.records = d.records ∧ e.literals = d.literals ∧ e.ended = d.ended
  unknown : ∀ line name, f = .unknownMnemonic line name → e = d
  missing : ∀ line name, f = .missingOperand line name → e = d
  badData : ∀ line t, f = .badNumber line t → s.kind? = some .declarative → e = d
  /-- An instruction or data that does not fit has been recorded where it was to be. -/
  words : ∀ line, f = .addressOverflow line → s.isEnd = false →
    e.location = d.location ∧ e.ended = d.ended ∧
      ∃ i operands, s.instruction? = some i ∧ i.mnemonic.kind ≠ .directive ∧
        e.records = d.records ++
          [⟨some d.location, .statement i.mnemonic.kind i.mnemonic.opcode, operands⟩]
  /-- An end whose literals do not fit has been recorded, and a first part of the literals has got
  the words that were left. -/
  pool : ∀ line, f = .addressOverflow line → s.isEnd = true →
    e.location.val = 65535 ∧ e.ended = false ∧
      (∃ i, s.instruction? = some i ∧
        e.records = d.records ++ [⟨none, .statement .directive i.mnemonic.opcode, []⟩]) ∧
      e.literals.merging = d.literals.merging ∧
      65535 - d.location.val < unpooled d.literals.entries ∧
      HandsOut d.location.val (65535 - d.location.val) d.literals.entries e.literals.entries

theorem Stops.beforeCode {setup : Setup} {line : Nat} {s : Source.Statement} {f : Fault}
    {d e : Draft} (h : Stops setup line d s f e) (hf : ∀ l, f ≠ .addressOverflow l) :
    e.location = d.location ∧ e.records = d.records ∧ e.literals = d.literals ∧
      e.ended = d.ended := by
  cases h with
  | finish hk hn hl hw => exact absurd rfl (hf line)
  | imperative hk hl ho hw => exact absurd rfl (hf line)
  | declarative hk hv hl hw => exact absurd rfl (hf line)
  | origin hk hn hl ho => exact ⟨hl.location, hl.records, hl.literals, hl.ended⟩
  | _ => exact ⟨rfl, rfl, rfl, rfl⟩

theorem Stops.words {setup : Setup} {line l : Nat} {s : Source.Statement} {d e : Draft}
    (h : Stops setup line d s (.addressOverflow l) e) (hs : s.isEnd = false) :
    e.location = d.location ∧ e.ended = d.ended ∧
      ∃ i operands, s.instruction? = some i ∧ i.mnemonic.kind ≠ .directive ∧
        e.records = d.records ++
          [⟨some d.location, .statement i.mnemonic.kind i.mnemonic.opcode, operands⟩] := by
  cases h with
  | finish hk hn hl hw => simp [Source.Statement.isEnd, hk, hn] at hs
  | @imperative label m tokens b f os hk hl ho hw =>
    obtain ⟨symbols, literals, hframe⟩ := operands_frame setup.machine.registers line tokens b
    rw [ho] at hframe
    obtain rfl : f = { b with symbols := symbols, literals := literals } := hframe
    refine ⟨hl.location, hl.ended, ⟨m, tokens⟩, os, rfl, by simp [hk], ?_⟩
    simp only [emit, hl.records, hl.location, hk]
  | @declarative label m t tokens b value words hk hv hl hw =>
    refine ⟨hl.location, hl.ended, ⟨m, t :: tokens⟩, [.constant value], rfl, by simp [hk], ?_⟩
    simp only [emit, hl.records, hl.location, hk]

theorem Stops.pool {setup : Setup} {line l : Nat} {s : Source.Statement} {d e : Draft}
    (h : Stops setup line d s (.addressOverflow l) e) (hs : s.isEnd = true)
    (hd : d.ended = false) :
    e.location.val = 65535 ∧ e.ended = false ∧
      (∃ i, s.instruction? = some i ∧
        e.records = d.records ++ [⟨none, .statement .directive i.mnemonic.opcode, []⟩]) ∧
      e.literals.merging = d.literals.merging ∧
      65535 - d.location.val < unpooled d.literals.entries ∧
      HandsOut d.location.val (65535 - d.location.val) d.literals.entries e.literals.entries := by
  cases h with
  | imperative hk hl ho hw => simp [Source.Statement.isEnd, hk] at hs
  | declarative hk hv hl hw => simp [Source.Statement.isEnd, hk] at hs
  | @finish label m tokens b hk hn hl hw =>
    -- the label has left the counter and the literals alone, so the pool is the one of `d`
    have hp := LiteralTable.pools_pool line d.location d.literals.entries
    have hlocation := hp.location
    have hdraft : (poolLiterals line (b.emit ⟨none, .statement .directive m.opcode, []⟩)).draft =
        { b.emit ⟨none, .statement .directive m.opcode, []⟩ with
          location := (LiteralTable.pool line d.location d.literals.entries).location
          literals := { d.literals with
            entries := (LiteralTable.pool line d.location d.literals.entries).entries } } := by
      rw [← hl.location, ← hl.literals]
      rfl
    rw [hl.location, hl.literals] at hw
    rw [hdraft]
    refine ⟨hlocation.trans (by omega), hl.ended.trans hd, ⟨⟨m, tokens⟩, rfl, ?_⟩, rfl, by omega,
      hp.handsOut⟩
    simp only [emit, hl.records]

theorem Stops.short {setup : Setup} {line : Nat} {s : Source.Statement} {f : Fault}
    {d e : Draft} (h : Stops setup line d s f e) (hd : d.ended = false) : StopsShort s f d e where
  beforeCode := h.beforeCode
  unknown := by
    rintro l name rfl
    cases h
    rfl
  missing := by
    rintro l name rfl
    cases h
    rfl
  badData := by
    rintro l t rfl hs
    cases h with
    | origin hk hn hl ho => simp [Source.Statement.kind?, Source.Statement.instruction?, hk] at hs
    | badData hk hv => rfl
  words := by
    rintro l rfl
    exact h.words
  pool := by
    rintro l rfl hs
    exact h.pool hs hd

theorem stopsShort_of_statement {setup : Setup} {line : Nat} {t : Text} {d : Draft} {f : Fault}
    (h : (statement setup line t d).fault = some f) :
    StopsShort (.ofLine setup.machine.mnemonics t) f d (statement setup line t d).draft :=
  (stops_of_statement h).short (ended_of_fault h)

/-- A draft that has two words left and two literals without an address. -/
def cramped : Draft :=
  let setup : Setup := ⟨.builtin, {}⟩
  let d := (statement setup 1 "START 65532".toList (.start {})).draft
  (statement setup 2 "MOVER ='1',='2'".toList d).draft

theorem cramped_stopsShort :
    let setup : Setup := ⟨.builtin, {}⟩
    let unread := (statement setup 3 "A DC".toList cramped).draft
    let wide := (statement setup 3 "A DS 3".toList cramped).draft
    let spent := (statement setup 3 "ADD".toList cramped).draft
    let full := (statement setup 4 "END".toList spent).draft
    Reachable setup cramped ∧ unread = cramped ∧
      wide.location = 65533 ∧ wide.records.map (·.location) = [none, some 65532, some 65533] ∧
      full.location.val = 65535 ∧ full.ended = false ∧
      full.literals.entries.map (·.address) = [some 65534, none] := by
  intro setup unread wide spent full
  have hunread : StopsShort _ (.missingOperand 3 "DC".toList) cramped unread :=
    stopsShort_of_statement rfl
  have hwide : StopsShort _ (.addressOverflow 3) cramped wide := stopsShort_of_statement rfl
  have hfull : StopsShort _ (.addressOverflow 4) spent full := stopsShort_of_statement rfl
  obtain ⟨hlocation, -, -⟩ := hwide.words 3 rfl rfl
  obtain ⟨hlast, hended, -⟩ := hfull.pool 4 rfl rfl
  exact ⟨.statement _ _ (.statement _ _ .start), hunread.missing 3 _ rfl, hlocation, rfl, hlast,
    hended, rfl⟩

end Draft

end TwoPass
