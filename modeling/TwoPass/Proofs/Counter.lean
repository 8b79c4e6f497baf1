import TwoPass.Proofs.Effect

/-! The location counter of a run. It is the sum that the source asks for, taken over numbers
without a bound, and the words run out exactly where that sum passes the last address. -/

namespace TwoPass

namespace Source

/-- The words that an instruction lays out. -/
def Instruction.words (i : Instruction) : Nat :=
  match i.mnemonic.kind with
  | .directive => 0
  | .imperative => i.mnemonic.length.val
  | .declarative =>
    if i.mnemonic.name = "DS".toList then Statement.operandValue i.operands
    else i.mnemonic.length.val

/-- Data needs a first operand that it can read; nothing else is asked of operands. -/
def Instruction.acceptsOperands (i : Instruction) : Bool :=
  match i.mnemonic.kind, i.operands with
  | .declarative, [] => false
  | .declarative, t :: _ =>
    if i.mnemonic.name = "DS".toList then (address? t).isSome else (constant? t).isSome
  | _, _ => true

/-- The tag and the location that a statement is recorded with, if it is. -/
def Statement.place? (l : Nat) : Statement → Option (Tag × Option Nat)
  | .instruction _ m _ =>
    some (.statement m.kind m.opcode, if m.kind = .directive then none else some l)
  | _ => none

def counter : Nat → List Row → Nat
  | l, [] => l
  | l, r :: rs => counter (r.statement.counterAfter l) rs

def places : Nat → List Row → List (Tag × Option Nat)
  | _, [] => []
  | l, r :: rs => (r.statement.place? l).toList ++ places (r.statement.counterAfter l) rs

theorem Statement.counterAfter_of_isEnd {s : Statement} (h : s.isEnd = true) (l : Nat) :
    s.counterAfter l = l := by
  cases s with
  | instruction label m tokens =>
    simp only [isEnd, Bool.and_eq_true, decide_eq_true_eq] at h
    have hn : m.name ≠ "START".toList := by
      rw [h.2]
      decide
    simp only [counterAfter, h.1, hn, if_false]
  | _ => rfl

end Source

def Record.place (r : Record) : Tag × Option Nat :=
  (r.tag, r.location.map (·.val))

/-- The fault of a line that asks for words up to a location. -/
def Fault.overflow? (line l : Nat) : Option Fault :=
  if 65535 < l then some (.addressOverflow line) else none

theorem Fault.overflow?_of_le {l : Nat} (h : l ≤ 65535) (line : Nat) : overflow? line l = none :=
  if_neg (Nat.not_lt.2 h)

theorem Fault.overflow?_of_lt {l : Nat} (h : 65535 < l) (line : Nat) :
    overflow? line l = some (.addressOverflow line) :=
  if_pos h

theorem Fault.overflow?_eq_some {line l : Nat} {f : Fault} (h : overflow? line l = some f) :
    65535 < l ∧ f = .addressOverflow line := by
  unfold overflow? at h
  split at h
  · next hl => exact ⟨hl, (Option.some.inj h).symm⟩
  · cases h

/-- The faults of a label that is refused and of operands that are. -/
def Fault.isRefusal : Fault → Bool
  | .labelRedefined _ _ => true
  | .badNumber _ _ => true
  | .missingOperand _ _ => true
  | _ => false

namespace Location

variable {location words : Address}

theorem advance_of_overflow (h : 65535 < location.val + words.val) (line : Nat) :
    advance location words line = .error (.addressOverflow line) := by
  simp only [advance, Address.advance?_eq_none_iff.2 h]

theorem exists_advance (h : location.val + words.val ≤ 65535) (line : Nat) :
    ∃ next : Address, next.val = location.val + words.val ∧
      advance location words line = .ok next := by
  cases ha : location.advance? words with
  | none =>
    have hover := Address.advance?_eq_none_iff.1 ha
    omega
  | some next => exact ⟨next, Address.val_of_advance? ha, by simp only [advance, ha]⟩

end Location

namespace LiteralTable

variable {location : Address} {e : LiteralEntry}

theorem pool_cons_of_overflow (he : e.address = none) (h : 65535 < location.val + 1) (line : Nat)
    (es : List LiteralEntry) :
    pool line location (e :: es) = ⟨e :: es, location, some (.addressOverflow line)⟩ := by
  have hone : 65535 < location.val + (1 : Address).val := h
  simp only [pool, he, Location.take, Location.advance_of_overflow hone, Except.map]

theorem exists_pool_cons (he : e.address = none) (h : location.val + 1 ≤ 65535) (line : Nat)
    (es : List LiteralEntry) :
    ∃ next : Address, next.val = location.val + 1 ∧
      pool line location (e :: es) =
        ⟨{ e with address := some location } :: (pool line next es).entries,
          (pool line next es).location, (pool line next es).fault⟩ := by
  have hone : location.val + (1 : Address).val ≤ 65535 := h
  obtain ⟨next, hnext, ha⟩ := Location.exists_advance hone line
  exact ⟨next, hnext, by simp only [pool, he, Location.take, ha, Except.map]⟩

theorem fault_pool_of_unpooled {line : Nat} {es : List LiteralEntry}
    (h : ∀ e ∈ es, e.address = none) :
    (pool line location es).fault = Fault.overflow? line (location.val + es.length) := by
  induction es generalizing location with
  | nil => exact (Fault.overflow?_of_le (Nat.le_of_lt_succ location.isLt) line).symm
  | cons e es ih =>
    obtain ⟨he, hes⟩ := List.forall_mem_cons.1 h
    rw [List.length_cons]
    by_cases hover : 65535 < location.val + 1
    · rw [pool_cons_of_overflow he hover, Fault.overflow?_of_lt (by omega)]
    · obtain ⟨next, hnext, hp⟩ := exists_pool_cons he (Nat.not_lt.1 hover) line es
      rw [hp, ih hes, hnext, Nat.add_assoc, Nat.add_comm 1]

/-- A pool over entries without addresses numbers them in order, if the words suffice. -/
theorem pool_of_unpooled {line : Nat} {es : List LiteralEntry} (h : ∀ e ∈ es, e.address = none)
    (hf : (pool line location es).fault = none) :
    (pool line location es).location.val = location.val + es.length ∧
      (pool line location es).entries.map (fun e => e.address.map (·.val)) =
        (List.range' location.val es.length).map some := by
  induction es generalizing location with
  | nil => exact ⟨rfl, rfl⟩
  | cons e es ih =>
    obtain ⟨he, hes⟩ := List.forall_mem_cons.1 h
    by_cases hover : 65535 < location.val + 1
    · rw [pool_cons_of_overflow he hover] at hf
      cases hf
    · obtain ⟨next, hnext, hp⟩ := exists_pool_cons he (Nat.not_lt.1 hover) line es
      rw [hp] at hf ⊢
      obtain ⟨hl, ha⟩ := ih hes hf
      rw [hnext] at hl ha
      refine ⟨by rw [hl, List.length_cons]; omega, ?_⟩
      rw [List.map_cons, ha, List.length_cons, List.range'_succ, List.map_cons]
      rfl

end LiteralTable

namespace SymbolTable

def isDefined (table : SymbolTable) (name : Text) : Bool :=
  ((table.find? name).bind (·.address)).isSome

end SymbolTable

theorem Outcome.fault_andThen_of_some {o : Outcome} {f : Fault} (h : o.fault = some f)
    (step : Draft → Outcome) : (o.andThen step).fault = some f := by
  obtain ⟨d, fault⟩ := o
  obtain rfl : fault = some f := h
  rfl

theorem Outcome.fault_andThen_done (o : Outcome) (f : Draft → Draft) :
    (o.andThen fun d => .done (f d)).fault = o.fault := by
  obtain ⟨d, _ | e⟩ := o <;> rfl

namespace Draft

/-- The fault of a label that comes again when labels are strict. -/
def redefinition? (options : Options) (line : Nat) (name : Text) (d : Draft) : Option Fault :=
  if options.strictLabels && d.symbols.isDefined name then some (.labelRedefined line name)
  else none

def acceptsLabel (options : Options) (label : Option Text) (d : Draft) : Bool :=
  label.all fun name => !(options.strictLabels && d.symbols.isDefined name)

/-- What an instruction must pass before any word is laid out for it. -/
def accepts (options : Options) (label : Option Text) (i : Source.Instruction) (d : Draft) :
    Bool :=
  d.acceptsLabel options label && i.acceptsOperands

section Step

variable {options : Options} {line : Nat} {label : Option Text} {d : Draft}

theorem fault_defineLabel (line : Nat) (name : Text) :
    (defineLabel options line name d).fault = redefinition? options line name d := by
  cases hf : d.symbols.find? name with
  | none => simp [defineLabel, SymbolTable.define, redefinition?, SymbolTable.isDefined, hf,
      Outcome.done]
  | some e =>
    cases ha : e.address with
    | none => simp [defineLabel, SymbolTable.define, redefinition?, SymbolTable.isDefined, hf, ha,
        Outcome.done]
    | some kept =>
      cases hs : options.strictLabels <;>
        simp [defineLabel, SymbolTable.define, redefinition?, SymbolTable.isDefined, hf, ha, hs,
          Outcome.done, Outcome.fail]

theorem fault_bindLabel (line : Nat) (name : Text) :
    (bindLabel options line name d).fault = redefinition? options line name d := by
  cases hf : d.symbols.find? name with
  | none => simp [bindLabel, SymbolTable.bind, redefinition?, SymbolTable.isDefined, hf,
      Outcome.done]
  | some e =>
    cases ha : e.address with
    | none => simp [bindLabel, SymbolTable.bind, redefinition?, SymbolTable.isDefined, hf, ha,
        Outcome.done]
    | some previous =>
      cases hs : options.strictLabels <;>
        simp [bindLabel, SymbolTable.bind, redefinition?, SymbolTable.isDefined, hf, ha, hs,
          Outcome.done, Outcome.fail]

theorem exists_withLabel {step : Text → Draft → Outcome}
    (hstep : ∀ name, (step name d).fault = redefinition? options line name d)
    (h : d.acceptsLabel options label = true) : ∃ e, withLabel step label d = .done e := by
  cases label with
  | none => exact ⟨d, rfl⟩
  | some name =>
    have hnot : (options.strictLabels && d.symbols.isDefined name) = false := by
      simpa only [acceptsLabel, Option.all_some, Bool.not_eq_true'] using h
    have hf : (step name d).fault = none := by
      rw [hstep, redefinition?, hnot]
      rfl
    cases ho : step name d with
    | mk e fault =>
      rw [ho] at hf
      cases hf
      exact ⟨e, ho⟩

theorem fault_withLabel_of_refused {step : Text → Draft → Outcome}
    (hstep : ∀ name, (step name d).fault = redefinition? options line name d)
    (h : d.acceptsLabel options label = false) :
    ∃ name, (withLabel step label d).fault = some (.labelRedefined line name) := by
  cases label with
  | none => simp [acceptsLabel] at h
  | some name =>
    refine ⟨name, (hstep name).trans ?_⟩
    simpa [acceptsLabel, redefinition?] using h

theorem fault_advance (d : Draft) (words : Address) (line : Nat) :
    (d.advance words line).fault = Fault.overflow? line (d.location.val + words.val) := by
  by_cases hover : 65535 < d.location.val + words.val
  · simp only [advance, Location.advance_of_overflow hover, Fault.overflow?_of_lt hover,
      Outcome.fail]
  · have hfits := Nat.not_lt.1 hover
    obtain ⟨next, -, ha⟩ := Location.exists_advance hfits line
    simp only [advance, ha, Fault.overflow?_of_le hfits, Outcome.done]

theorem location_advance_of_overflow {words : Address}
    (h : 65535 < d.location.val + words.val) :
    (d.advance words line).draft.location = d.location := by
  simp only [advance, Location.advance_of_overflow h, Outcome.fail]

theorem isSome_layout? (m : Mnemonic) (t : Text) :
    (layout? m t).isSome = if m.name = "DS".toList then (Source.address? t).isSome
      else (Source.constant? t).isSome := by
  unfold layout?
  split <;> simp

end Step

theorem directive_end {m : Mnemonic} (h : m.name = "END".toList) (line : Nat) (tokens : List Text)
    (d : Draft) : directive line m tokens d =
      (poolLiterals line (d.emit ⟨none, .statement .directive m.opcode, []⟩)).andThen fun e =>
        .done { e with ended := true } := by
  have hs : m.name ≠ "START".toList := by
    rw [h]
    decide
  simp only [directive, if_neg hs, if_pos h]

section Next

variable {setup : Setup} {label : Option Text} {m : Mnemonic} {tokens : List Text}
  {d : Draft}

/-- An instruction that is accepted asks for its words last of all. -/
theorem execute_lays_out (line : Nat) (hk : m.kind ≠ .directive)
    (h : d.accepts setup.options label ⟨m, tokens⟩ = true) :
    ∃ (e : Draft) (words : Address), e.location = d.location ∧
      words.val = Source.Instruction.words ⟨m, tokens⟩ ∧
      execute setup line d (.instruction label m tokens) = e.advance words line := by
  obtain ⟨hl, ho⟩ := (Bool.and_eq_true _ _).mp h
  cases hkind : m.kind with
  | directive => exact absurd hkind hk
  | imperative =>
    obtain ⟨e, he⟩ := exists_withLabel (fault_defineLabel line) hl
    have hlabels := labels_of_withLabel labels_of_defineLabel he
    cases hf : operands setup.machine.registers line tokens e with
    | mk os f =>
      obtain ⟨symbols, literals, hframe⟩ := operands_frame setup.machine.registers line tokens e
      have hlocation : f.location = e.location := by
        rw [hf] at hframe
        rw [show f = _ from hframe]
      refine ⟨f.emit ⟨some f.location, .statement .imperative m.opcode, os⟩, m.length,
        hlocation.trans hlabels.location, ?_, ?_⟩
      · simp only [Source.Instruction.words, hkind]
      · simp only [execute, hkind, he, Outcome.done_andThen, imperative, hf]
  | declarative =>
    cases tokens with
    | nil => simp [Source.Instruction.acceptsOperands, hkind] at ho
    | cons t ts =>
      simp only [Source.Instruction.acceptsOperands, hkind, ← isSome_layout?] at ho
      obtain ⟨⟨value, words⟩, hv⟩ := Option.isSome_iff_exists.1 ho
      obtain ⟨e, he⟩ := exists_withLabel (fault_bindLabel line) hl
      have hlabels := labels_of_withLabel labels_of_bindLabel he
      refine ⟨e.emit ⟨some e.location, .statement .declarative m.opcode, [.constant value]⟩,
        words, hlabels.location, ?_, ?_⟩
      · simp only [Source.Instruction.words, hkind, words_of_layout? hv ts]
      · simp only [execute, hkind, declarative, hv, he, Outcome.done_andThen]

/-- An end whose label is accepted asks for a word for each literal. -/
theorem fault_execute_end (line : Nat)
    (he : Source.Statement.isEnd (.instruction label m tokens) = true)
    (h : d.accepts setup.options label ⟨m, tokens⟩ = true)
    (hd : ∀ e ∈ d.literals.entries, e.address = none) :
    (execute setup line d (.instruction label m tokens)).fault =
      Fault.overflow? line (d.location.val + d.literals.size) := by
  simp only [Source.Statement.isEnd, Bool.and_eq_true, decide_eq_true_eq] at he
  obtain ⟨hl, -⟩ := (Bool.and_eq_true _ _).mp h
  obtain ⟨e, hlabel⟩ := exists_withLabel (fault_defineLabel line) hl
  have hlabels := labels_of_withLabel labels_of_defineLabel hlabel
  rw [← hlabels.literals] at hd
  rw [← hlabels.location, ← hlabels.literals]
  simp only [execute, he.1, hlabel, Outcome.done_andThen, directive_end he.2]
  rw [Outcome.fault_andThen_done]
  exact LiteralTable.fault_pool_of_unpooled hd

theorem fault_execute_of_refused (line : Nat)
    (h : d.accepts setup.options label ⟨m, tokens⟩ = false) :
    ∃ f, (execute setup line d (.instruction label m tokens)).fault = some f ∧
      f.isRefusal = true := by
  have hplain : m.kind ≠ .declarative → ∃ name,
      (withLabel (defineLabel setup.options line) label d).fault =
        some (.labelRedefined line name) := by
    intro hk
    have ho : Source.Instruction.acceptsOperands ⟨m, tokens⟩ = true := by
      cases hkind : m.kind with
      | declarative => exact absurd hkind hk
      | _ => simp [Source.Instruction.acceptsOperands, hkind]
    rw [accepts, ho, Bool.and_true] at h
    exact fault_withLabel_of_refused (fault_defineLabel line) h
  cases hkind : m.kind with
  | directive =>
    obtain ⟨name, hn⟩ := hplain (by simp [hkind])
    exact ⟨.labelRedefined line name,
      by simp only [execute, hkind, Outcome.fault_andThen_of_some hn], rfl⟩
  | imperative =>
    obtain ⟨name, hn⟩ := hplain (by simp [hkind])
    exact ⟨.labelRedefined line name,
      by simp only [execute, hkind, Outcome.fault_andThen_of_some hn], rfl⟩
  | declarative =>
    cases tokens with
    | nil => exact ⟨_, by simp only [execute, hkind, declarative]; rfl, rfl⟩
    | cons t ts =>
      cases hv : layout? m t with
      | none => exact ⟨_, by simp only [execute, hkind, declarative, hv]; rfl, rfl⟩
      | some p =>
        have ho : Source.Instruction.acceptsOperands ⟨m, t :: ts⟩ = true := by
          simp only [Source.Instruction.acceptsOperands, hkind, ← isSome_layout?, hv,
            Option.isSome_some]
        rw [accepts, ho, Bool.and_true] at h
        obtain ⟨name, hn⟩ := fault_withLabel_of_refused (fault_bindLabel line) h
        refine ⟨.labelRedefined line name, ?_, rfl⟩
        simp only [execute, hkind, declarative, hv, Outcome.fault_andThen_of_some hn]

end Next

end Draft

end TwoPass
