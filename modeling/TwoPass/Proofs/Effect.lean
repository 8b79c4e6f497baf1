import TwoPass.Proofs.Execution

/-! What a row that succeeds does to each part of a draft: to the end, the location counter and
the log of the symbol table. -/

namespace TwoPass.Draft

/-- A relation between what a step finds and what it leaves that holds when nothing is done, and of
two steps, one after the other. -/
structure Composes (R : Draft → Draft → Prop) : Prop where
  refl : ∀ d, R d d
  trans : ∀ {d e f}, R d e → R e f → R d f

namespace Composes

variable {R : Draft → Draft → Prop} {registers : RegisterTable} {line : Nat}

theorem andThen (h : Composes R) {d : Draft} {o : Outcome} {step : Draft → Outcome}
    (hfirst : R d o.draft) (hstep : ∀ e, R e (step e).draft) : R d (o.andThen step).draft := by
  obtain ⟨e, _ | f⟩ := o
  · exact h.trans hfirst (hstep e)
  · exact hfirst

theorem withLabel (h : Composes R) {step : Text → Draft → Outcome}
    (hstep : ∀ name d, R d (step name d).draft) (label : Option Text) (d : Draft) :
    R d (withLabel step label d).draft := by
  cases label with
  | none => exact h.refl d
  | some name => exact hstep name d

theorem operands (h : Composes R)
    (hoperand : ∀ token d, R d (operand registers line token d).2) (tokens : List Text)
    (d : Draft) : R d (operands registers line tokens d).2 := by
  induction tokens generalizing d with
  | nil => exact h.refl d
  | cons token tokens ih => exact h.trans (hoperand token d) (ih _)

/-- What holds of an operand when it is made still holds when the operands behind it are made. -/
theorem forall_operands (h : Composes R) (holds : Draft → Operand → Prop)
    (hoperand : ∀ token d, R d (operand registers line token d).2)
    (hmade : ∀ token d, holds (operand registers line token d).2 (operand registers line token d).1)
    (hstays : ∀ {d e o}, R d e → holds d o → holds e o) (tokens : List Text) (d : Draft) :
    ∀ o ∈ (Draft.operands registers line tokens d).1,
      holds (Draft.operands registers line tokens d).2 o := by
  induction tokens generalizing d with
  | nil => simp [Draft.operands]
  | cons token tokens ih =>
    intro o ho
    rcases List.mem_cons.1 ho with rfl | ho
    · exact hstays (h.operands hoperand tokens _) (hmade token d)
    · exact ih _ o ho

end Composes

theorem operand_frame (registers : RegisterTable) (line : Nat) (token : Text) (d : Draft) :
    ∃ symbols literals, (operand registers line token d).2 =
      { d with symbols := symbols, literals := literals } := by
  unfold operand
  split
  · exact ⟨d.symbols, d.literals, rfl⟩
  · split
    · exact ⟨d.symbols, _, rfl⟩
    · exact ⟨_, d.literals, rfl⟩

theorem operands_frame (registers : RegisterTable) (line : Nat) (tokens : List Text) (d : Draft) :
    ∃ symbols literals, (operands registers line tokens d).2 =
      { d with symbols := symbols, literals := literals } := by
  have hframe : Composes fun d e => ∃ symbols literals, e =
      { d with symbols := symbols, literals := literals } := by
    refine ⟨fun d => ⟨d.symbols, d.literals, rfl⟩, ?_⟩
    rintro d e f ⟨s, l, rfl⟩ ⟨s', l', rfl⟩
    exact ⟨s', l', rfl⟩
  exact hframe.operands (operand_frame registers line) tokens d

theorem advance_frame (d : Draft) (words : Address) (line : Nat) :
    ∃ location, (d.advance words line).draft = { d with location := location } := by
  unfold advance
  split
  · exact ⟨_, rfl⟩
  · exact ⟨d.location, rfl⟩

theorem directive_frame (line : Nat) (m : Mnemonic) (tokens : List Text) (d : Draft) :
    ∃ location literals records ended, (directive line m tokens d).draft = { d with
      location := location, literals := literals, records := records, ended := ended } := by
  unfold directive
  split
  · unfold setOrigin
    split <;> exact ⟨_, _, _, _, rfl⟩
  · dsimp only
    split
    · unfold poolLiterals Outcome.andThen
      split <;> exact ⟨_, _, _, _, rfl⟩
    · exact ⟨_, _, _, _, rfl⟩

theorem poolLiterals_eq_done {line : Nat} {d e : Draft} (h : poolLiterals line d = .done e) :
    (LiteralTable.pool line d.location d.literals.entries).fault = none ∧
      e = { d with
        location := (LiteralTable.pool line d.location d.literals.entries).location
        literals := { d.literals with
          entries := (LiteralTable.pool line d.location d.literals.entries).entries } } := by
  simp only [poolLiterals, Outcome.done, Outcome.mk.injEq] at h
  exact ⟨h.2, h.1.symm⟩

theorem Completes.ended {setup : Setup} {line : Nat} {d e : Draft} {s : Source.Statement}
    (h : Completes setup line d s e) : e.ended = (d.ended || s.isEnd) := by
  cases h with
  | blank => simp [Source.Statement.isEnd]
  | bareLabel hl => simp [Source.Statement.isEnd, hl.ended]
  | start hk hn hl ho =>
    simp [Source.Statement.isEnd, emit, hn, hl.ended]
  | finish hk hn hl hp => simp [Source.Statement.isEnd, hk, hn]
  | directive hk hs hn hl =>
    simp only [Source.Statement.isEnd, hn, decide_false, Bool.and_false, Bool.or_false]
    exact hl.ended
  | @imperative label m tokens f g os next hk hl ho hw =>
    obtain ⟨symbols, literals, hf⟩ :=
      operands_frame setup.machine.registers line tokens f
    rw [ho] at hf
    subst hf
    simp [Source.Statement.isEnd, emit, hk, hl.ended]
  | declarative hk hv hl hw => simp [Source.Statement.isEnd, emit, hk, hl.ended]

/-- Only END ends a program: it is recorded, and then the literals are pooled. -/
theorem Completes.of_isEnd {setup : Setup} {line : Nat} {d e : Draft} {s : Source.Statement}
    (h : Completes setup line d s e) (hs : s.isEnd = true) :
    ∃ label m tokens f g, s = .instruction label m tokens ∧ m.kind = .directive ∧
      Labels .plain line label d f ∧
      poolLiterals line (f.emit ⟨none, .statement .directive m.opcode, []⟩) = .done g ∧
      e = { g with ended := true } := by
  cases h with
  | blank => simp [Source.Statement.isEnd] at hs
  | bareLabel hl => simp [Source.Statement.isEnd] at hs
  | start hk hn hl ho => simp [Source.Statement.isEnd, hn] at hs
  | finish hk hn hl hp => exact ⟨_, _, _, _, _, rfl, hk, hl, hp, rfl⟩
  | directive hk hst hn hl =>
    simp only [Source.Statement.isEnd, hn, decide_false, Bool.and_false] at hs
    cases hs
  | imperative hk hl ho hw => simp [Source.Statement.isEnd, hk] at hs
  | declarative hk hv hl hw => simp [Source.Statement.isEnd, hk] at hs

theorem operandValue_of_origin {tokens : List Text} {a : Address} (h : origin tokens = .ok a) :
    Source.Statement.operandValue tokens = a.val := by
  cases tokens with
  | nil =>
    cases h
    rfl
  | cons t ts =>
    cases hb : Source.address? t with
    | none => simp [origin, hb] at h
    | some b =>
      simp only [origin, hb, Except.ok.injEq] at h
      simp [Source.Statement.operandValue, hb, h]

theorem words_of_layout? {m : Mnemonic} {t : Text} {value : Constant} {words : Address}
    (h : layout? m t = some (value, words)) (ts : List Text) :
    words.val = if m.name = "DS".toList then Source.Statement.operandValue (t :: ts)
      else m.length.val := by
  unfold layout? at h
  split at h
  · next hn =>
    obtain ⟨a, ha, he⟩ := Option.map_eq_some_iff.1 h
    cases he
    simp [hn, Source.Statement.operandValue, ha]
  · next hn =>
    obtain ⟨c, hc, he⟩ := Option.map_eq_some_iff.1 h
    cases he
    rw [if_neg hn]

/-- Before the end of the program the counter is the one that the source says. -/
theorem Completes.location {setup : Setup} {line : Nat} {d e : Draft} {s : Source.Statement}
    (h : Completes setup line d s e) (hs : s.isEnd = false) :
    e.location.val = s.counterAfter d.location.val := by
  cases h with
  | blank => rfl
  | bareLabel hl => rw [hl.location]; rfl
  | start hk hn hl ho =>
    simp [Source.Statement.counterAfter, hk, hn, operandValue_of_origin ho]
  | finish hk hn hl hp => simp [Source.Statement.isEnd, hk, hn] at hs
  | directive hk hst hn hl =>
    simp only [Source.Statement.counterAfter, hk, hst, if_false, emit, hl.location]
  | @imperative label m tokens f g os next hk hl ho hw =>
    obtain ⟨symbols, literals, hf⟩ :=
      operands_frame setup.machine.registers line tokens f
    rw [ho] at hf
    subst hf
    simp only [Source.Statement.counterAfter, hk, hw, hl.location]
  | @declarative label m t tokens f value words next hk hv hl hw =>
    simp only [Source.Statement.counterAfter, hk, hw, hl.location, words_of_layout? hv tokens]

theorem logs_operands (registers : RegisterTable) (line l : Nat) (tokens : List Text) {d : Draft}
    {ss : List Sighting} (h : d.symbols.Logs ss) :
    (operands registers line tokens d).2.symbols.Logs
      (ss ++ Source.Statement.operandSightings registers line l tokens) := by
  induction tokens generalizing d ss with
  | nil => simpa [operands, Source.Statement.operandSightings] using h
  | cons token tokens ih =>
    have hkeep : Source.isSymbolOperand registers token = false →
        d.symbols.Logs (ss ++ Source.Statement.operandSightings registers line l [token]) := by
      intro hf
      simpa [Source.Statement.operandSightings, hf] using h
    have hfirst : (operand registers line token d).2.symbols.Logs
        (ss ++ Source.Statement.operandSightings registers line l [token]) := by
      unfold operand
      split
      · next code hc => exact hkeep (by simp [Source.isSymbolOperand, hc])
      · next hc =>
        split
        · next hl => exact hkeep (by simp [Source.isSymbolOperand, hl])
        · next hl =>
          have hs : Source.isSymbolOperand registers token = true := by
            simp [Source.isSymbolOperand, hc, hl]
          simpa [Source.Statement.operandSightings, hs] using h.reference token line l
    have hrest := ih hfirst
    rw [List.append_assoc] at hrest
    have happ : Source.Statement.operandSightings registers line l [token] ++
        Source.Statement.operandSightings registers line l tokens =
          Source.Statement.operandSightings registers line l (token :: tokens) := by
      simp only [Source.Statement.operandSightings, ← List.map_append, ← List.filter_append,
        List.singleton_append]
    rwa [happ] at hrest

theorem Completes.symbols {setup : Setup} {line : Nat} {d e : Draft} {s : Source.Statement}
    (h : Completes setup line d s e) {ss : List Sighting} (hss : d.symbols.Logs ss) :
    e.symbols.Logs (ss ++ s.sightings setup.machine.registers line d.location.val) := by
  cases h with
  | blank => simpa [Source.Statement.sightings] using hss
  | bareLabel hl => exact hl.symbols ss hss
  | start hk hn hl ho => simpa [Source.Statement.sightings, hk, emit] using hl.symbols ss hss
  | finish hk hn hl hp =>
    obtain ⟨_, rfl⟩ := poolLiterals_eq_done hp
    simpa [Source.Statement.sightings, hk, emit] using hl.symbols ss hss
  | directive hk hs hn hl =>
    simpa [Source.Statement.sightings, hk, emit] using hl.symbols ss hss
  | @imperative label m tokens f g os next hk hl ho hw =>
    have hlog := logs_operands setup.machine.registers line d.location.val tokens
      (hl.symbols ss hss)
    rw [ho] at hlog
    simpa [Source.Statement.sightings, hk, emit] using hlog
  | declarative hk hv hl hw =>
    simpa [Source.Statement.sightings, hk, emit] using hl.symbols ss hss

end TwoPass.Draft
