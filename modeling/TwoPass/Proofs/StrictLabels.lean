import TwoPass.Program
import TwoPass.Proofs.Effect

/-! Strict labels. A strict run is the lenient one as long as no label is defined again; the first
redefinition, which the lenient run only warns of, is the fault of the strict run, whatever the
lenient one does behind it. -/

namespace TwoPass

/-- The fault that a strict run makes of a warning. -/
def Warning.redefinition? (w : Warning) : Option Fault :=
  match w.remark with
  | .labelIgnored name _ => some (.labelRedefined w.line name)
  | .labelOverwritten name _ => some (.labelRedefined w.line name)
  | _ => none

namespace Draft

/-- A step taken from one draft leniently and strictly. The lenient step adds warnings; without a
redefinition among them both are the same, and otherwise the first one stops the strict step. -/
inductive Agrees (d : Draft) (lenient strict : Outcome) : Prop
  | same (ws : List Warning) (hw : lenient.draft.warnings = d.warnings ++ ws)
      (hn : ws.findSome? Warning.redefinition? = none) (he : strict = lenient)
  | rejected (ws : List Warning) {f : Fault} (hw : lenient.draft.warnings = d.warnings ++ ws)
      (hf : ws.findSome? Warning.redefinition? = some f) (hs : strict.fault = some f)

theorem Agrees.of_warnings_eq {d : Draft} {o : Outcome}
    (h : o.draft.warnings = d.warnings) : Agrees d o o :=
  .same [] (by simp [h]) rfl rfl

theorem Agrees.done (d : Draft) : Agrees d (.done d) (.done d) :=
  .of_warnings_eq rfl

theorem Agrees.prepend {d e : Draft} {ws : List Warning} {lenient strict : Outcome}
    (h : Agrees e lenient strict) (hw : e.warnings = d.warnings ++ ws)
    (hn : ws.findSome? Warning.redefinition? = none) : Agrees d lenient strict := by
  cases h with
  | same ws' hw' hn' he =>
    refine .same (ws ++ ws') (by rw [hw', hw, List.append_assoc]) ?_ he
    rw [List.findSome?_append, hn, hn']
    rfl
  | rejected ws' hw' hf hs =>
    refine .rejected (ws ++ ws') (by rw [hw', hw, List.append_assoc]) ?_ hs
    rw [List.findSome?_append, hn, hf]
    rfl

theorem Agrees.exists_warnings {d : Draft} {lenient strict : Outcome}
    (h : Agrees d lenient strict) : ∃ ws, lenient.draft.warnings = d.warnings ++ ws := by
  cases h with
  | same ws hw hn he => exact ⟨ws, hw⟩
  | rejected ws hw hf hs => exact ⟨ws, hw⟩

theorem Agrees.andThen {d : Draft} {lenient strict : Outcome} {f g : Draft → Outcome}
    (h : Agrees d lenient strict) (hfg : ∀ e, Agrees e (f e) (g e)) :
    Agrees d (lenient.andThen f) (strict.andThen g) := by
  obtain ⟨e, fault⟩ := lenient
  cases h with
  | same ws hw hn he =>
    subst he
    cases fault with
    | none => exact (hfg e).prepend hw hn
    | some x => exact .same ws hw hn rfl
  | @rejected ws x hw hf hs =>
    have hstrict : (strict.andThen g).fault = some x := by
      simp only [Outcome.andThen, hs]
    cases fault with
    | some y => exact .rejected ws hw hf hstrict
    | none =>
      obtain ⟨ws', hw'⟩ := (hfg e).exists_warnings
      refine .rejected (ws ++ ws') ?_ ?_ hstrict
      · exact hw'.trans (by rw [hw, List.append_assoc])
      · rw [List.findSome?_append, hf]
        rfl

theorem agrees_defineLabel (merge : Bool) (line : Nat) (name : Text) (d : Draft) :
    Agrees d (defineLabel ⟨false, merge⟩ line name d) (defineLabel ⟨true, merge⟩ line name d) := by
  unfold defineLabel
  split
  · next o kept symbols hd =>
    exact .rejected [⟨line, .labelIgnored name kept⟩] rfl rfl rfl
  · exact .same [] (by simp [Outcome.done]) rfl rfl

theorem agrees_bindLabel (merge : Bool) (line : Nat) (name : Text) (d : Draft) :
    Agrees d (bindLabel ⟨false, merge⟩ line name d) (bindLabel ⟨true, merge⟩ line name d) := by
  unfold bindLabel
  split
  · exact .same [] (by simp [Outcome.done]) rfl rfl
  · next previous symbols hd =>
    exact .rejected [⟨line, .labelOverwritten name previous⟩] rfl rfl rfl

theorem agrees_withLabel {f g : Text → Draft → Outcome}
    (hfg : ∀ name d, Agrees d (f name d) (g name d)) (label : Option Text) (d : Draft) :
    Agrees d (withLabel f label d) (withLabel g label d) := by
  cases label with
  | none => exact .done d
  | some name => exact hfg name d

theorem warnings_advance (d : Draft) (words : Address) (line : Nat) :
    (d.advance words line).draft.warnings = d.warnings := by
  obtain ⟨location, h⟩ := advance_frame d words line
  rw [h]

theorem warnings_directive (line : Nat) (m : Mnemonic) (tokens : List Text) (d : Draft) :
    (directive line m tokens d).draft.warnings = d.warnings := by
  obtain ⟨location, literals, records, ended, h⟩ := directive_frame line m tokens d
  rw [h]

theorem warnings_imperative (registers : RegisterTable) (line : Nat) (m : Mnemonic)
    (tokens : List Text) (d : Draft) :
    (imperative registers line m tokens d).draft.warnings = d.warnings := by
  obtain ⟨symbols, literals, h⟩ := operands_frame registers line tokens d
  show (advance (emit (operands registers line tokens d).2 _) m.length line).draft.warnings = _
  rw [warnings_advance, h]
  rfl

theorem agrees_declarative (merge : Bool) (line : Nat) (label : Option Text) (m : Mnemonic)
    (tokens : List Text) (d : Draft) :
    Agrees d (declarative ⟨false, merge⟩ line label m tokens d)
      (declarative ⟨true, merge⟩ line label m tokens d) := by
  unfold declarative
  split
  · exact .of_warnings_eq rfl
  · split
    · exact .of_warnings_eq rfl
    · refine (agrees_withLabel (agrees_bindLabel merge line) label d).andThen fun e => ?_
      exact .of_warnings_eq (warnings_advance _ _ _)

variable (machine : Machine) (merge : Bool)

theorem agrees_execute (line : Nat) (s : Source.Statement) (d : Draft) :
    Agrees d (execute ⟨machine, ⟨false, merge⟩⟩ line d s)
      (execute ⟨machine, ⟨true, merge⟩⟩ line d s) := by
  have hlabel := agrees_withLabel (agrees_defineLabel merge line)
  cases s with
  | blank => exact .done d
  | unknown name => exact .of_warnings_eq rfl
  | bareLabel name =>
    exact (agrees_defineLabel merge line name (d.warn line (.bareLabel name))).prepend rfl rfl
  | instruction label m tokens =>
    simp only [execute]
    cases m.kind with
    | directive =>
      exact (hlabel label d).andThen fun e => .of_warnings_eq (warnings_directive line m tokens e)
    | imperative =>
      exact (hlabel label d).andThen fun e =>
        .of_warnings_eq (warnings_imperative machine.registers line m tokens e)
    | declarative => exact agrees_declarative merge line label m tokens d

theorem agrees_statement (line : Nat) (t : Text) (d : Draft) :
    Agrees d (statement ⟨machine, ⟨false, merge⟩⟩ line t d)
      (statement ⟨machine, ⟨true, merge⟩⟩ line t d) := by
  unfold statement
  dsimp only
  split
  · exact .done d
  · split
    · exact .same [⟨line, .afterEnd⟩] rfl rfl rfl
    · exact agrees_execute machine merge line _ d

theorem agrees_statements (ls : List (Nat × Text)) (d : Draft) :
    Agrees d (statements ⟨machine, ⟨false, merge⟩⟩ ls d)
      (statements ⟨machine, ⟨true, merge⟩⟩ ls d) := by
  induction ls generalizing d with
  | nil => exact .done d
  | cons l ls ih => exact (agrees_statement machine merge l.1 l.2 d).andThen ih

end Draft

namespace Program

theorem ofSource_strict (machine : Machine) (merge : Bool) (source : Text) :
    let lenient : Setup := ⟨machine, { strictLabels := false, mergeLiterals := merge }⟩
    let strict : Setup := ⟨machine, { strictLabels := true, mergeLiterals := merge }⟩
    let run := Draft.statements lenient (Text.numbered (Text.lines source)) (.start lenient.options)
    ofSource strict source =
      match run.draft.warnings.findSome? Warning.redefinition? with
      | none => ofSource lenient source
      | some f => .error f := by
  have h := Draft.agrees_statements machine merge (Text.numbered (Text.lines source))
    (.start ⟨false, merge⟩)
  dsimp only
  cases h with
  | same ws hw hn he =>
    rw [show Draft.warnings (.start ⟨false, merge⟩) = [] from rfl, List.nil_append] at hw
    rw [hw, hn]
    exact congrArg Outcome.finish he
  | @rejected ws f hw hf hs =>
    rw [show Draft.warnings (.start ⟨false, merge⟩) = [] from rfl, List.nil_append] at hw
    rw [hw, hf]
    show Outcome.finish (Draft.statements ⟨machine, ⟨true, merge⟩⟩
      (Text.numbered (Text.lines source)) (.start ⟨false, merge⟩)) = .error f
    rw [Outcome.finish, hs]

end Program

end TwoPass
