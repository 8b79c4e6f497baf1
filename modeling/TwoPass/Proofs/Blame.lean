import TwoPass.Console.Message
import TwoPass.Proofs.NumberedLines
import TwoPass.Proofs.Stopping
import TwoPass.Proofs.StrictLabels

/-! The lines that faults and warnings point at. Each is a line of the source that is not blank, and
a fault finds there what it complains of; so a diagnostic always has a line to show. -/

namespace TwoPass

theorem MnemonicTable.name_of_find? {table : MnemonicTable} {name : Text} {m : Mnemonic}
    (h : table.find? name = some m) : m.name = name := by
  simpa using List.find?_some h

namespace Source

namespace Statement

/-- The names that a statement mentions: its label and the operands that are looked up. -/
def names (registers : RegisterTable) : Statement → List Text
  | .bareLabel name => [name]
  | .instruction label m operands =>
    label.toList ++
      if m.kind = .imperative then operands.filter (isSymbolOperand registers) else []
  | _ => []

theorem sightings_instruction (registers : RegisterTable) (line l : Nat) (label : Option Text)
    (m : Mnemonic) (operands : List Text) :
    (instruction label m operands).sightings registers line l =
      labelSightings (if m.kind = .declarative then .data else .plain) line l label ++
        if m.kind = .imperative then operandSightings registers line l operands else [] := by
  cases hk : m.kind <;> simp [sightings, hk]

theorem map_name_sightings (registers : RegisterTable) (line l : Nat) (s : Statement) :
    (s.sightings registers line l).map (·.name) = s.names registers := by
  cases s with
  | instruction label m operands =>
    rw [sightings_instruction, List.map_append]
    cases hk : m.kind <;>
      simp [names, hk, labelSightings, operandSightings, Function.comp_def]
  | _ => simp [sightings, names]

theorem line_of_mem_sightings {registers : RegisterTable} {line l : Nat} {s : Statement}
    {x : Sighting} (h : x ∈ s.sightings registers line l) : x.line = line := by
  cases s with
  | instruction label m operands =>
    rw [sightings_instruction, List.mem_append] at h
    rcases h with h | h
    · obtain ⟨name, -, rfl⟩ := List.mem_map.1 h
      rfl
    · split at h
      · obtain ⟨name, -, rfl⟩ := List.mem_map.1 h
        rfl
      · cases h
  | bareLabel name =>
    obtain rfl := List.mem_singleton.1 h
    rfl
  | _ => cases h

/-- What is sighted and labels nothing is an operand of an imperative. -/
theorem operand_of_mention {registers : RegisterTable} {line l : Nat} {s : Statement}
    {x : Sighting} (h : x ∈ s.sightings registers line l) (hr : x.role = .mention) :
    ∃ label m operands, s = .instruction label m operands ∧ m.kind = .imperative ∧
      x.name ∈ operands ∧ isSymbolOperand registers x.name = true := by
  cases s with
  | instruction label m operands =>
    rw [sightings_instruction, List.mem_append] at h
    rcases h with h | h
    · obtain ⟨name, -, rfl⟩ := List.mem_map.1 h
      split at hr <;> cases hr
    · split at h
      · next hk =>
        obtain ⟨name, hname, rfl⟩ := List.mem_map.1 h
        obtain ⟨hmem, hs⟩ := List.mem_filter.1 hname
        exact ⟨label, m, operands, rfl, hk, hmem, hs⟩
      · cases h
  | bareLabel name =>
    obtain rfl := List.mem_singleton.1 h
    cases hr
  | _ => cases h

theorem tokens_of_bareLabel {table : MnemonicTable} {ts : List Text} {name : Text}
    (h : ofTokens table ts = .bareLabel name) : ts = [name] := by
  revert h
  fun_cases ofTokens table ts <;> simp

theorem tokens_of_unknown {table : MnemonicTable} {ts : List Text} {name : Text}
    (h : ofTokens table ts = .unknown name) :
    ∃ first later, ts = first :: name :: later ∧ table.find? first = none ∧
      table.find? name = none := by
  revert h
  fun_cases ofTokens table ts with
  | case5 first hf second later hs =>
    intro h
    obtain rfl : second = name := by simpa using h
    exact ⟨first, later, rfl, hf, hs⟩
  | _ => simp

/-- The mnemonic of an instruction is its first token, or its second behind a label. -/
theorem tokens_of_instruction {table : MnemonicTable} {ts : List Text} {label : Option Text}
    {m : Mnemonic} {operands : List Text} (h : ofTokens table ts = .instruction label m operands) :
    ts = label.toList ++ m.name :: operands ∧ table.find? m.name = some m ∧
      ∀ name ∈ label, table.find? name = none := by
  revert h
  fun_cases ofTokens table ts with
  | case2 first rest k hk =>
    intro h
    cases h
    have hname := MnemonicTable.name_of_find? hk
    subst hname
    exact ⟨rfl, hk, by simp⟩
  | case4 first hf second rest k hk =>
    intro h
    cases h
    have hname := MnemonicTable.name_of_find? hk
    subst hname
    refine ⟨rfl, hk, ?_⟩
    rintro name ⟨⟩
    exact hf
  | _ => simp

end Statement

/-- The first sighting of a name comes from a row, and no row before that one mentions a name that
passes the same test. -/
theorem exists_row_of_find? {registers : RegisterTable} {q : Text → Bool} {l : Nat}
    {rs : List Row} {s : Sighting}
    (h : (sightings registers l rs).find? (fun s => q s.name) = some s) :
    ∃ before r after l', rs = before ++ r :: after ∧
      (∀ b ∈ before, ∀ name ∈ b.statement.names registers, q name = false) ∧
      s ∈ r.statement.sightings registers r.line l' := by
  induction rs generalizing l with
  | nil => cases h
  | cons r rs ih =>
    rw [sightings, List.find?_append] at h
    cases hr : (r.statement.sightings registers r.line l).find? fun s => q s.name with
    | some x =>
      rw [hr, Option.some_or, Option.some.injEq] at h
      subst h
      exact ⟨[], r, rs, l, rfl, by simp, List.mem_of_find?_eq_some hr⟩
    | none =>
      rw [hr, Option.none_or] at h
      obtain ⟨before, r', after, l', rfl, hbefore, hs⟩ := ih h
      refine ⟨r :: before, r', after, l', rfl, ?_, hs⟩
      rw [List.forall_mem_cons]
      refine ⟨fun name hname => ?_, hbefore⟩
      rw [← Statement.map_name_sightings registers r.line l] at hname
      obtain ⟨x, hx, rfl⟩ := List.mem_map.1 hname
      simpa using List.find?_eq_none.1 hr x hx

end Source

/-- A fault finds what it complains of in a line of a source, where `n` is the number of the line
and `t` its text. -/
def Fault.Shows (machine : Machine) (source : Text) (n : Nat) (t : Text) : Fault → Prop
  | .unknownMnemonic _ name =>
    ∃ first later, Source.tokens t = first :: name :: later ∧
      machine.mnemonics.find? first = none ∧ machine.mnemonics.find? name = none
  | .labelRedefined _ name => ∃ later, Source.tokens t = name :: later
  | .badNumber _ number =>
    ∃ (label : Option Text) (m : Mnemonic) (later : List Text),
      Source.tokens t = label.toList ++ m.name :: number :: later ∧
        machine.mnemonics.find? m.name = some m ∧
        (∀ name ∈ label, machine.mnemonics.find? name = none) ∧
        (m.kind = .directive ∧ m.name = "START".toList ∨ m.kind = .declarative)
  | .missingOperand _ mnemonic => (Source.tokens t).getLast? = some mnemonic
  | .undefinedSymbol _ name =>
    (∃ label m operands, Source.Statement.ofLine machine.mnemonics t =
        .instruction label m operands ∧ m.kind = .imperative ∧ name ∈ operands ∧
        Source.isSymbolOperand machine.registers name = true) ∧
      ∀ k u, k + 1 < n → (Text.lines source)[k]? = some u →
        name ∉ (Source.Statement.ofLine machine.mnemonics u).names machine.registers
  | .addressOverflow _ =>
    (Source.Statement.ofLine machine.mnemonics t).instruction?.isSome = true
  | _ => False

namespace Draft

theorem head_of_origin {tokens : List Text} {t : Text} (h : origin tokens = .error t) :
    ∃ later, tokens = t :: later := by
  cases tokens with
  | nil => cases h
  | cons u later =>
    cases ha : Source.address? u with
    | some a => simp [origin, ha] at h
    | none =>
      simp only [origin, ha, Except.error.injEq] at h
      exact ⟨later, by rw [h]⟩

theorem Stops.shows {setup : Setup} {line : Nat} {t : Text} {f : Fault} {d e : Draft}
    (h : Stops setup line d (.ofLine setup.machine.mnemonics t) f e) (source : Text) :
    f.line? = some line ∧ f.Shows setup.machine source line t ∧ Source.tokens t ≠ [] := by
  generalize hs : Source.Statement.ofLine setup.machine.mnemonics t = s at h
  have hblank : s ≠ .blank → Source.tokens t ≠ [] := by
    rintro hne ht
    exact hne (hs.symm.trans (Source.Statement.ofTokens_eq_blank_iff.2 ht))
  cases h with
  | unknown name =>
    refine ⟨rfl, ?_, hblank (by simp)⟩
    exact Source.Statement.tokens_of_unknown hs
  | bareLabel hst hd =>
    refine ⟨rfl, ?_, hblank (by simp)⟩
    exact ⟨[], Source.Statement.tokens_of_bareLabel hs⟩
  | @label name m tokens hk hst hd =>
    obtain ⟨ht, -, -⟩ := Source.Statement.tokens_of_instruction hs
    exact ⟨rfl, ⟨m.name :: tokens, ht⟩, hblank (by simp)⟩
  | @origin label m x tokens e hk hn hl ho =>
    obtain ⟨ht, hm, hlabel⟩ := Source.Statement.tokens_of_instruction hs
    obtain ⟨later, rfl⟩ := head_of_origin ho
    exact ⟨rfl, ⟨label, m, later, ht, hm, hlabel, .inl ⟨hk, hn⟩⟩, hblank (by simp)⟩
  | finish hk hn hl hw =>
    refine ⟨rfl, ?_, hblank (by simp)⟩
    simp only [Fault.Shows, hs]
    rfl
  | imperative hk hl ho hw =>
    refine ⟨rfl, ?_, hblank (by simp)⟩
    simp only [Fault.Shows, hs]
    rfl
  | @missingOperand label m hk =>
    obtain ⟨ht, -, -⟩ := Source.Statement.tokens_of_instruction hs
    refine ⟨rfl, ?_, hblank (by simp)⟩
    simp only [Fault.Shows, ht]
    simp
  | @badData label m x tokens hk hv =>
    obtain ⟨ht, hm, hlabel⟩ := Source.Statement.tokens_of_instruction hs
    exact ⟨rfl, ⟨label, m, tokens, ht, hm, hlabel, .inr hk⟩, hblank (by simp)⟩
  | @dataLabel name m x tokens hk hv hst hd =>
    obtain ⟨ht, -, -⟩ := Source.Statement.tokens_of_instruction hs
    exact ⟨rfl, ⟨m.name :: x :: tokens, ht⟩, hblank (by simp)⟩
  | declarative hk hv hl hw =>
    refine ⟨rfl, ?_, hblank (by simp)⟩
    simp only [Fault.Shows, hs]
    rfl

theorem exists_line_of_fault {setup : Setup} {ls : List (Nat × Text)} {d : Draft} {f : Fault}
    (h : (statements setup ls d).fault = some f) :
    ∃ line t e, (line, t) ∈ ls ∧ (statement setup line t e).fault = some f := by
  induction ls generalizing d with
  | nil => cases h
  | cons l ls ih =>
    obtain ⟨line, t⟩ := l
    rcases Outcome.fault_andThen h with ⟨hf, -⟩ | ⟨e, -, hf, -⟩
    · exact ⟨line, t, d, by simp, hf⟩
    · obtain ⟨k, u, e', hmem, hf⟩ := ih hf
      exact ⟨k, u, e', List.mem_cons_of_mem _ hmem, hf⟩

theorem shows_of_statements {setup : Setup} {source : Text} {d : Draft} {f : Fault}
    (h : (statements setup (Text.numbered (Text.lines source)) d).fault = some f) :
    ∃ n t, f.line? = some n ∧ Source.HasLine source n t ∧ f.Shows setup.machine source n t := by
  obtain ⟨n, t, e, hmem, hf⟩ := exists_line_of_fault h
  obtain ⟨hline, hshows, ht⟩ := (stops_of_statement hf).shows source
  exact ⟨n, t, hline, Source.hasLine_of_mem hmem ht, hshows⟩

/-- A source whose statements succeed can only fail for want of an end or for a name without a
label. -/
theorem undefined_of_finish {setup : Setup} {source : Text} {d : Draft} {f : Fault}
    (h : statements setup (Text.numbered (Text.lines source)) (.start setup.options) = .done d)
    (hf : d.finish = .error f) :
    f = .missingEnd ∨
      ∃ s, Sighting.undefined? (Source.sightingsOf setup.machine source) = some s ∧
        f = .undefinedSymbol s.line s.name := by
  obtain ⟨e, hr, hended, hsymbols, hliterals, -⟩ := exists_run_of_source h
  have hlog : d.symbols.Logs (Source.sightingsOf setup.machine source) := by
    rw [hsymbols]
    exact hr.symbols SymbolTable.Logs.empty
  unfold finish at hf
  split at hf
  · next hd =>
    right
    cases hs : Sighting.undefined? (Source.sightingsOf setup.machine source) with
    | some s =>
      rw [hlog.freeze_eq_error hs] at hf
      exact ⟨s, rfl, (Except.error.inj hf).symm⟩
    | none =>
      obtain ⟨symbols, hfs⟩ := hlog.exists_freeze hs
      obtain ⟨literals, hfl⟩ := hr.exists_freeze rfl (hended.symm.trans hd)
      rw [hfs, hliterals, hfl] at hf
      cases hf
  · exact .inl (Except.error.inj hf).symm

theorem role_of_undefined? {ss : List Sighting} {s : Sighting}
    (h : Sighting.undefined? ss = some s) : s.role = .mention := by
  have hnone : ss.any (Sighting.labels s.name) = false := by simpa using List.find?_some h
  have hs := List.any_eq_false.1 hnone s (List.mem_of_find?_eq_some h)
  simpa [Sighting.labels] using hs

theorem shows_of_undefined? {machine : Machine} {source : Text} {s : Sighting}
    (h : Sighting.undefined? (Source.sightingsOf machine source) = some s) :
    ∃ t, Source.HasLine source s.line t ∧
      Fault.Shows machine source s.line t (.undefinedSymbol s.line s.name) := by
  have hq : (!(Source.sightingsOf machine source).any (Sighting.labels s.name)) = true := by
    simpa using List.find?_some h
  obtain ⟨before, r, after, l, hrows, hbefore, hs⟩ :=
    Source.exists_row_of_find? (q := fun name =>
      !(Source.sightingsOf machine source).any (Sighting.labels name)) h
  have hplace : (Source.program machine.mnemonics source)[before.length]? = some r := by
    rw [hrows]
    simp
  obtain ⟨t, ht, hr⟩ := Source.exists_line_of_program hplace
  have hline : s.line = before.length + 1 := by
    rw [Source.Statement.line_of_mem_sightings hs, hr]
  rw [hr] at hs
  obtain ⟨label, m, operands, hstatement, hk, hname, hsymbol⟩ :=
    Source.Statement.operand_of_mention hs (role_of_undefined? h)
  have htokens : Source.tokens t ≠ [] := by
    intro hnil
    rw [Source.Statement.ofLine, hnil] at hstatement
    cases hstatement
  rw [hline]
  refine ⟨t, Source.hasLine_of_mem (Text.mem_numberedFrom.2 ⟨by omega, ht⟩) htokens,
    ⟨label, m, operands, hstatement, hk, hname, hsymbol⟩, ?_⟩
  intro k u hlt hu hmem
  have hbk : before[k]? = some before[k] := List.getElem?_eq_getElem (by omega)
  have hrow : (Source.program machine.mnemonics source)[k]? = some before[k] := by
    rw [hrows, List.getElem?_append_left (by omega), hbk]
  obtain ⟨u', hu', hb⟩ := Source.exists_line_of_program hrow
  obtain rfl : u = u' := Option.some.inj (hu.symm.trans hu')
  have hfalse := hbefore before[k] (List.mem_of_getElem? hbk) s.name (by rw [hb]; exact hmem)
  rw [hq] at hfalse
  cases hfalse

/-- A source fails for want of an end, or at a line of it. -/
theorem missingEnd_or_shows {setup : Setup} {source : Text} {f : Fault}
    (h : Program.ofSource setup source = .error f) :
    f = .missingEnd ∨ ∃ n t, f.line? = some n ∧ Source.HasLine source n t ∧
      f.Shows setup.machine source n t := by
  unfold Program.ofSource at h
  cases ho : statements setup (Text.numbered (Text.lines source)) (.start setup.options) with
  | mk d fault =>
    rw [ho] at h
    cases fault with
    | some g =>
      obtain rfl : g = f := Except.error.inj h
      exact .inr (shows_of_statements (congrArg Outcome.fault ho))
    | none =>
      rcases undefined_of_finish ho h with rfl | ⟨s, hs, rfl⟩
      · exact .inl rfl
      · obtain ⟨t, hline, hshows⟩ := shows_of_undefined? hs
        exact .inr ⟨s.line, t, rfl, hline, hshows⟩

theorem shows_of_error {setup : Setup} {source : Text} {f : Fault} {n : Nat}
    (h : Program.ofSource setup source = .error f) (hn : f.line? = some n) :
    ∃ t, Source.HasLine source n t ∧ f.Shows setup.machine source n t := by
  rcases missingEnd_or_shows h with rfl | ⟨k, t, hk, hline, hshows⟩
  · cases hn
  · obtain rfl : k = n := Option.some.inj (hk.symm.trans hn)
    exact ⟨t, hline, hshows⟩

/-- A step adds no warnings but some that point at one line. -/
def WarnsAt (line : Nat) (d e : Draft) : Prop :=
  ∃ ws, e.warnings = d.warnings ++ ws ∧ ∀ w ∈ ws, w.line = line

section Warnings

variable {line : Nat} {d e f : Draft}

theorem WarnsAt.of_eq (h : e.warnings = d.warnings) : WarnsAt line d e :=
  ⟨[], by rw [h, List.append_nil], by simp⟩

theorem warnsAt_warn (d : Draft) (line : Nat) (remark : Remark) :
    WarnsAt line d (d.warn line remark) :=
  ⟨[⟨line, remark⟩], rfl, by simp⟩

theorem WarnsAt.trans (h : WarnsAt line d e) (h' : WarnsAt line e f) : WarnsAt line d f := by
  obtain ⟨ws, hws, hline⟩ := h
  obtain ⟨vs, hvs, hline'⟩ := h'
  exact ⟨ws ++ vs, by rw [hvs, hws, List.append_assoc], List.forall_mem_append.2 ⟨hline, hline'⟩⟩

theorem composes_warnsAt (line : Nat) : Composes (WarnsAt line) :=
  ⟨fun _ => .of_eq rfl, .trans⟩

theorem warnsAt_defineLabel (options : Options) (name : Text) (d : Draft) :
    WarnsAt line d (defineLabel options line name d).draft := by
  unfold defineLabel
  split
  · dsimp only
    split
    · exact .of_eq rfl
    · exact warnsAt_warn _ _ _
  · exact .of_eq rfl

theorem warnsAt_bindLabel (options : Options) (name : Text) (d : Draft) :
    WarnsAt line d (bindLabel options line name d).draft := by
  unfold bindLabel
  split
  · exact .of_eq rfl
  · dsimp only
    split
    · exact .of_eq rfl
    · exact warnsAt_warn _ _ _

theorem warnsAt_declarative (options : Options) (label : Option Text) (m : Mnemonic)
    (tokens : List Text) (d : Draft) :
    WarnsAt line d (declarative options line label m tokens d).draft := by
  unfold declarative
  split
  · exact .of_eq rfl
  · split
    · exact .of_eq rfl
    · have hlabel := (composes_warnsAt line).withLabel (warnsAt_bindLabel options) label d
      exact (composes_warnsAt line).andThen hlabel fun e => .of_eq (warnings_advance _ _ _)

theorem warnsAt_execute (setup : Setup) (d : Draft) (s : Source.Statement) :
    WarnsAt line d (execute setup line d s).draft := by
  have hlabel := (composes_warnsAt line).withLabel (warnsAt_defineLabel setup.options)
  cases s with
  | blank => exact .of_eq rfl
  | unknown name => exact .of_eq rfl
  | bareLabel name => exact (warnsAt_warn _ _ _).trans (warnsAt_defineLabel _ _ _)
  | instruction label m tokens =>
    simp only [execute]
    cases m.kind with
    | directive =>
      exact (composes_warnsAt line).andThen (hlabel label d) fun e =>
        .of_eq (warnings_directive _ _ _ _)
    | imperative =>
      exact (composes_warnsAt line).andThen (hlabel label d) fun e =>
        .of_eq (warnings_imperative _ _ _ _ _)
    | declarative => exact warnsAt_declarative setup.options label m tokens d

/-- A line without tokens is passed over, and any other draws warnings for itself only. -/
theorem warnings_statement (setup : Setup) (line : Nat) (t : Text) (d : Draft) :
    ∃ ws, (statement setup line t d).draft.warnings = d.warnings ++ ws ∧
      ∀ w ∈ ws, w.line = line ∧ Source.tokens t ≠ [] := by
  by_cases ht : Source.tokens t = []
  · refine ⟨[], ?_, by simp⟩
    simp [statement, Source.Statement.ofLine, Source.Statement.ofTokens_eq_blank_iff.2 ht,
      Outcome.done]
  · have hat : WarnsAt line d (statement setup line t d).draft := by
      unfold statement
      split
      · exact .of_eq rfl
      · split
        · exact warnsAt_warn _ _ _
        · exact warnsAt_execute _ _ _
    obtain ⟨ws, hws, hline⟩ := hat
    exact ⟨ws, hws, fun w hw => ⟨hline w hw, ht⟩⟩

/-- The warnings of a run point at the lines that it has read, in their order. -/
theorem warnings_statements (setup : Setup) {ls : List (Nat × Text)}
    (hls : ls.Pairwise fun k l => k.1 < l.1) (d : Draft) :
    ∃ ws, (statements setup ls d).draft.warnings = d.warnings ++ ws ∧
      (∀ w ∈ ws, ∃ t, (w.line, t) ∈ ls ∧ Source.tokens t ≠ []) ∧
      ws.Pairwise fun v w => v.line ≤ w.line := by
  induction ls generalizing d with
  | nil => exact ⟨[], by simp [statements, Outcome.done], by simp, .nil⟩
  | cons l ls ih =>
    obtain ⟨line, t⟩ := l
    obtain ⟨hfirst, hothers⟩ := List.pairwise_cons.1 hls
    obtain ⟨ws, hws, hline⟩ := warnings_statement setup line t d
    have hsame : ws.Pairwise fun v w => v.line ≤ w.line :=
      List.pairwise_of_forall_mem_list fun v hv w hw =>
        Nat.le_of_eq ((hline v hv).1.trans (hline w hw).1.symm)
    have hmem : ∀ w ∈ ws, ∃ u, (w.line, u) ∈ (line, t) :: ls ∧ Source.tokens u ≠ [] := by
      intro w hw
      obtain ⟨hl, ht⟩ := hline w hw
      exact ⟨t, by simp [hl], ht⟩
    cases hf : (statement setup line t d).fault with
    | some f =>
      refine ⟨ws, ?_, hmem, hsame⟩
      rw [← hws, statements, Outcome.andThen, hf]
    | none =>
      obtain ⟨vs, hvs, hlater, hsorted⟩ := ih hothers (statement setup line t d).draft
      refine ⟨ws ++ vs, ?_, List.forall_mem_append.2 ⟨hmem, fun w hw => ?_⟩, ?_⟩
      · rw [statements, Outcome.andThen, hf, ← List.append_assoc, ← hws]
        exact hvs
      · obtain ⟨u, hu, hut⟩ := hlater w hw
        exact ⟨u, List.mem_cons_of_mem _ hu, hut⟩
      · refine List.pairwise_append.2 ⟨hsame, hsorted, fun v hv w hw => ?_⟩
        obtain ⟨u, hu, -⟩ := hlater w hw
        rw [(hline v hv).1]
        exact Nat.le_of_lt (hfirst _ hu)

theorem warnings_of_source (setup : Setup) (source : Text) :
    let run := statements setup (Text.numbered (Text.lines source)) (.start setup.options)
    (∀ w ∈ run.draft.warnings, ∃ t, Source.HasLine source w.line t) ∧
      run.draft.warnings.Pairwise fun v w => v.line ≤ w.line := by
  intro run
  obtain ⟨ws, hws, hlines, hsorted⟩ := warnings_statements setup
    (Text.pairwise_numberedFrom 1 (Text.lines source)) (.start setup.options)
  have hrun : run.draft.warnings = ws := hws
  rw [hrun]
  refine ⟨fun w hw => ?_, hsorted⟩
  obtain ⟨t, hmem, ht⟩ := hlines w hw
  exact ⟨t, Source.hasLine_of_mem hmem ht⟩

end Warnings

end Draft

namespace Console.Message

/-- A message that points at a line of a file and shows what stands there. -/
def showing (paint : Paint) (m : Message) (file : Text) (line : Nat) (shown : Text) : Text :=
  m.headline paint ++
    "     ".toList ++ paint [.blue] "-->".toList ++
      ' ' :: paint [.underline] (file ++ ':' :: Numeral.decimal line) ++ ['\n'] ++
    margin paint ++
    ' ' :: paint [.blue] (Numeral.padded 4 line ++ " |".toList) ++ ' ' :: shown ++ ['\n'] ++
    margin paint

/-- Only a line that is not in the source is shown as an empty one. -/
theorem pointing_of_hasLine {source : Text} {n : Nat} {t : Text} (h : Source.HasLine source n t)
    (paint : Paint) (m : Message) (file : Text) :
    m.pointing paint file n (Text.lines source) = m.showing paint file n t := by
  have ht : Text.lineAt (Text.lines source) n = t := by
    cases n with
    | zero => exact absurd h.lower (by decide)
    | succ k =>
      have hk : (Text.lines source)[k]? = some t := h.line
      rw [Text.lineAt, List.getD_eq_getElem?_getD, hk, Option.getD_some]
  rw [pointing, ht]
  rfl

end Console.Message

namespace Program

theorem ofSource_blames (setup : Setup) (source : Text) :
    (∀ f n, ofSource setup source = .error f → f.line? = some n →
      ∃ t, Source.HasLine source n t ∧ f.Shows setup.machine source n t ∧
        ∀ paint file, f.report paint file (Text.lines source) =
          Console.Message.showing paint ⟨.error, f.message⟩ file n t) ∧
    let run := Draft.statements setup (Text.numbered (Text.lines source)) (.start setup.options)
    (∀ p, ofSource setup source = .ok p → p.warnings = run.draft.warnings) ∧
      (∀ w ∈ run.draft.warnings, ∃ t, Source.HasLine source w.line t ∧
        ∀ paint file, w.report paint file (Text.lines source) =
          Console.Message.showing paint ⟨.warn, w.remark.text⟩ file w.line t) ∧
      run.draft.warnings.Pairwise fun v w => v.line ≤ w.line := by
  refine ⟨?_, ?_, ?_⟩
  · intro f n h hn
    obtain ⟨t, hline, hshows⟩ := Draft.shows_of_error h hn
    refine ⟨t, hline, hshows, fun paint file => ?_⟩
    rw [Fault.report, hn]
    exact Console.Message.pointing_of_hasLine hline paint _ file
  · intro p h
    obtain ⟨d, hd, hw⟩ := Outcome.warnings_of_finish h
    rw [hd]
    exact hw
  · obtain ⟨hlines, hsorted⟩ := Draft.warnings_of_source setup source
    refine ⟨fun w hw => ?_, hsorted⟩
    obtain ⟨t, hline⟩ := hlines w hw
    exact ⟨t, hline, fun paint file => Console.Message.pointing_of_hasLine hline paint _ file⟩

/-- A name that two lines mention and none labels, behind a label that comes twice. -/
def unlabelled : Text :=
  "; adds\nX DC 1\nX ADD AREG,Y ; first\n\nSUB BREG,Y\nEND\n".toList

theorem ofSource_unlabelled :
    ofSource ⟨.builtin, {}⟩ unlabelled = .error (.undefinedSymbol 3 "Y".toList) ∧
      ∃ t, t = "X ADD AREG,Y ; first".toList ∧ Source.HasLine unlabelled 3 t ∧
        Fault.Shows .builtin unlabelled 3 t (.undefinedSymbol 3 "Y".toList) := by
  obtain ⟨hfaults, -⟩ := ofSource_blames ⟨.builtin, {}⟩ unlabelled
  obtain ⟨t, hline, hshows, -⟩ := hfaults (.undefinedSymbol 3 "Y".toList) 3 rfl rfl
  exact ⟨rfl, t, (Option.some.inj hline.line).symm, hline, hshows⟩

end Program

end TwoPass
