import TwoPass.Program.Draft
import TwoPass.Proofs.Reading

/-! The first pass as a run over rows. The lines of a source are carried out through the end of
the program and remarked on behind it, and a row that succeeds does one of seven things. -/

namespace TwoPass

namespace Outcome

theorem andThen_eq_done {o : Outcome} {step : Draft → Outcome} {e : Draft}
    (h : o.andThen step = .done e) : ∃ d, o = .done d ∧ step d = .done e := by
  obtain ⟨d, _ | f⟩ := o
  · exact ⟨d, rfl, h⟩
  · simp [andThen, done] at h

end Outcome

namespace Draft

theorem advance_eq_done {d e : Draft} {words : Address} {line : Nat}
    (h : d.advance words line = .done e) :
    ∃ next : Address, next.val = d.location.val + words.val ∧ e = { d with location := next } := by
  unfold advance Location.advance at h
  cases ha : Address.advance? d.location words with
  | none => simp [ha, Outcome.fail, Outcome.done] at h
  | some next =>
    simp only [ha, Outcome.done, Outcome.mk.injEq, and_true] at h
    exact ⟨next, Address.val_of_advance? ha, h.symm⟩

/-- What a label does to a draft: it is sighted, and all else but the warnings stays. -/
structure Labels (role : Role) (line : Nat) (label : Option Text) (d e : Draft) : Prop where
  location : e.location = d.location
  literals : e.literals = d.literals
  records : e.records = d.records
  ended : e.ended = d.ended
  symbols : ∀ ss, d.symbols.Logs ss →
    e.symbols.Logs (ss ++ Source.Statement.labelSightings role line d.location.val label)

theorem Labels.none (role : Role) (line : Nat) (d : Draft) : Labels role line none d d :=
  ⟨rfl, rfl, rfl, rfl, fun ss h => by simpa [Source.Statement.labelSightings] using h⟩

theorem defineLabel_frame (options : Options) (line : Nat) (name : Text) (d : Draft) :
    ∃ ws, (defineLabel options line name d).draft =
      { d with
        symbols := (d.symbols.define name d.location line).2, warnings := d.warnings ++ ws } := by
  unfold defineLabel
  split
  · next o kept symbols hd =>
    rw [hd]
    dsimp only
    split
    · exact ⟨[], by simp [Outcome.fail]⟩
    · exact ⟨[⟨line, .labelIgnored name kept⟩], rfl⟩
  · next symbols _ hd =>
    rw [hd]
    exact ⟨[], by simp [Outcome.done]⟩

theorem bindLabel_frame (options : Options) (line : Nat) (name : Text) (d : Draft) :
    ∃ ws, (bindLabel options line name d).draft =
      { d with
        symbols := (d.symbols.bind name d.location line).2, warnings := d.warnings ++ ws } := by
  unfold bindLabel
  split
  · next symbols hd =>
    rw [hd]
    exact ⟨[], by simp [Outcome.done]⟩
  · next previous symbols hd =>
    rw [hd]
    dsimp only
    split
    · exact ⟨[], by simp [Outcome.fail]⟩
    · exact ⟨[⟨line, .labelOverwritten name previous⟩], rfl⟩

theorem labels_of_defineLabel {options : Options} {line : Nat} {name : Text} {d e : Draft}
    (h : defineLabel options line name d = .done e) : Labels .plain line (some name) d e := by
  obtain ⟨ws, hf⟩ := defineLabel_frame options line name d
  rw [h] at hf
  obtain rfl : e = _ := hf
  exact ⟨rfl, rfl, rfl, rfl, fun ss hl => hl.define name d.location line⟩

theorem labels_of_bindLabel {options : Options} {line : Nat} {name : Text} {d e : Draft}
    (h : bindLabel options line name d = .done e) : Labels .data line (some name) d e := by
  obtain ⟨ws, hf⟩ := bindLabel_frame options line name d
  rw [h] at hf
  obtain rfl : e = _ := hf
  exact ⟨rfl, rfl, rfl, rfl, fun ss hl => hl.bind name d.location line⟩

theorem labels_of_withLabel {role : Role} {line : Nat} {step : Text → Draft → Outcome}
    (hstep : ∀ {name d e}, step name d = .done e → Labels role line (some name) d e)
    {label : Option Text} {d e : Draft} (h : withLabel step label d = .done e) :
    Labels role line label d e := by
  cases label with
  | none =>
    obtain rfl := congrArg Outcome.draft h
    exact Labels.none role line d
  | some name => exact hstep h

/-- What a row does when it succeeds. -/
inductive Completes (setup : Setup) (line : Nat) (d : Draft) : Source.Statement → Draft → Prop
  | blank : Completes setup line d .blank d
  | bareLabel {name : Text} {e : Draft} (hl : Labels .plain line (some name) d e) :
      Completes setup line d (.bareLabel name) e
  | start {label : Option Text} {m : Mnemonic} {tokens : List Text} {a : Address} {e : Draft}
      (hk : m.kind = .directive) (hn : m.name = "START".toList)
      (hl : Labels .plain line label d e) (ho : origin tokens = .ok a) :
      Completes setup line d (.instruction label m tokens)
        { e.emit ⟨none, .statement .directive m.opcode, [.constant (.ofAddress a)]⟩ with
          location := a }
  | finish {label : Option Text} {m : Mnemonic} {tokens : List Text} {e f : Draft}
      (hk : m.kind = .directive) (hn : m.name = "END".toList)
      (hl : Labels .plain line label d e)
      (hp : poolLiterals line (e.emit ⟨none, .statement .directive m.opcode, []⟩) = .done f) :
      Completes setup line d (.instruction label m tokens) { f with ended := true }
  | directive {label : Option Text} {m : Mnemonic} {tokens : List Text} {e : Draft}
      (hk : m.kind = .directive) (hs : m.name ≠ "START".toList) (hn : m.name ≠ "END".toList)
      (hl : Labels .plain line label d e) :
      Completes setup line d (.instruction label m tokens)
        (e.emit ⟨none, .statement .directive m.opcode, []⟩)
  | imperative {label : Option Text} {m : Mnemonic} {tokens : List Text} {e f : Draft}
      {os : List Operand} {next : Address} (hk : m.kind = .imperative)
      (hl : Labels .plain line label d e)
      (ho : operands setup.machine.registers line tokens e = (os, f))
      (hw : next.val = f.location.val + m.length.val) :
      Completes setup line d (.instruction label m tokens)
        { f.emit ⟨some f.location, .statement .imperative m.opcode, os⟩ with location := next }
  | declarative {label : Option Text} {m : Mnemonic} {t : Text} {tokens : List Text} {e : Draft}
      {value : Constant} {words next : Address} (hk : m.kind = .declarative)
      (hv : layout? m t = some (value, words)) (hl : Labels .data line label d e)
      (hw : next.val = e.location.val + words.val) :
      Completes setup line d (.instruction label m (t :: tokens))
        { e.emit ⟨some e.location, .statement .declarative m.opcode, [.constant value]⟩ with
          location := next }

theorem completes_of_directive {setup : Setup} {line : Nat} {label : Option Text} {m : Mnemonic}
    {tokens : List Text} {d e f : Draft} (hk : m.kind = .directive)
    (hl : Labels .plain line label d e) (h : directive line m tokens e = .done f) :
    Completes setup line d (.instruction label m tokens) f := by
  unfold directive at h
  split at h
  · next hn =>
    unfold setOrigin at h
    split at h
    · simp [Outcome.fail, Outcome.done] at h
    · next a ho =>
      obtain rfl := congrArg Outcome.draft h
      exact .start hk hn hl ho
  · next hs =>
    dsimp only at h
    split at h
    · next hn =>
      obtain ⟨g, hp, hg⟩ := Outcome.andThen_eq_done h
      obtain rfl := congrArg Outcome.draft hg
      exact .finish hk hn hl hp
    · next hn =>
      obtain rfl := congrArg Outcome.draft h
      exact .directive hk hs hn hl

theorem completes_of_imperative {setup : Setup} {line : Nat} {label : Option Text} {m : Mnemonic}
    {tokens : List Text} {d e f : Draft} (hk : m.kind = .imperative)
    (hl : Labels .plain line label d e)
    (h : imperative setup.machine.registers line m tokens e = .done f) :
    Completes setup line d (.instruction label m tokens) f := by
  unfold imperative at h
  cases ho : operands setup.machine.registers line tokens e with
  | mk os g =>
    simp only [ho] at h
    obtain ⟨next, hw, rfl⟩ := advance_eq_done h
    exact .imperative hk hl ho hw

theorem completes_of_declarative {setup : Setup} {line : Nat} {label : Option Text} {m : Mnemonic}
    {tokens : List Text} {d f : Draft} (hk : m.kind = .declarative)
    (h : declarative setup.options line label m tokens d = .done f) :
    Completes setup line d (.instruction label m tokens) f := by
  unfold declarative at h
  split at h
  · simp [Outcome.fail, Outcome.done] at h
  · split at h
    · simp [Outcome.fail, Outcome.done] at h
    · next hv =>
      obtain ⟨e, hl, ha⟩ := Outcome.andThen_eq_done h
      obtain ⟨next, hw, rfl⟩ := advance_eq_done ha
      exact .declarative hk hv (labels_of_withLabel labels_of_bindLabel hl) hw

theorem completes_of_execute {setup : Setup} {line : Nat} {s : Source.Statement} {d e : Draft}
    (h : execute setup line d s = .done e) : Completes setup line d s e := by
  cases s with
  | blank =>
    obtain rfl := congrArg Outcome.draft h
    exact .blank
  | bareLabel name =>
    have hl := labels_of_defineLabel h
    exact .bareLabel ⟨hl.location, hl.literals, hl.records, hl.ended, hl.symbols⟩
  | unknown name => simp [execute, Outcome.fail, Outcome.done] at h
  | instruction label m tokens =>
    cases hk : m.kind with
    | directive =>
      simp only [execute, hk] at h
      obtain ⟨f, hl, hf⟩ := Outcome.andThen_eq_done h
      exact completes_of_directive hk (labels_of_withLabel labels_of_defineLabel hl) hf
    | imperative =>
      simp only [execute, hk] at h
      obtain ⟨f, hl, hf⟩ := Outcome.andThen_eq_done h
      exact completes_of_imperative hk (labels_of_withLabel labels_of_defineLabel hl) hf
    | declarative =>
      simp only [execute, hk] at h
      exact completes_of_declarative hk h

end Draft

end TwoPass
