import TwoPass.Program
import TwoPass.Proofs.Effect
import TwoPass.Proofs.Freezing

/-! Whole runs of the first pass. The lines of a source are carried out through the end of the
program and only remarked on behind it, and what each row does adds up along the rows.

A source whose statements all succeed assembles exactly when every name that it sights labels one of
its statements, and then the table lists the names in the order of their first sightings, each with
the address that its labels give it. -/

namespace TwoPass

theorem Outcome.finish_eq_ok {o : Outcome} {p : Program} (h : o.finish = .ok p) :
    ∃ d, o = .done d ∧ d.ended = true ∧ d.symbols.freeze = .ok p.symbols ∧
      d.literals.freeze = .ok p.literals ∧ d.records = p.records := by
  obtain ⟨d, fault⟩ := o
  cases fault with
  | some f => cases h
  | none =>
    change d.finish = .ok p at h
    unfold Draft.finish at h
    split at h
    · next hd =>
      cases hs : d.symbols.freeze with
      | error f => simp [hs] at h
      | ok symbols =>
        cases hl : d.literals.freeze with
        | error f => simp [hs, hl] at h
        | ok literals =>
          simp only [hs, hl] at h
          cases h
          exact ⟨d, rfl, hd, hs, hl, rfl⟩
    · cases h

theorem Draft.finish_of_freeze {d : Draft} {symbols literals : FrozenTable}
    (hd : d.ended = true) (hs : d.symbols.freeze = .ok symbols)
    (hl : d.literals.freeze = .ok literals) :
    d.finish = .ok ⟨d.records, ⟨symbols, literals⟩, d.warnings⟩ := by
  simp only [finish, hd, if_true, hs, hl]

theorem Outcome.warnings_of_finish {o : Outcome} {p : Program} (h : o.finish = .ok p) :
    ∃ d, o = .done d ∧ p.warnings = d.warnings := by
  obtain ⟨d, hd, hended, hs, hl, -⟩ := Outcome.finish_eq_ok h
  refine ⟨d, hd, ?_⟩
  subst hd
  have hp : d.finish = .ok p := h
  rw [Draft.finish_of_freeze hended hs hl] at hp
  exact congrArg Program.warnings (Except.ok.inj hp).symm

namespace Draft

open Source (Row)

def executeAll (setup : Setup) : List Row → Draft → Outcome
  | [], d => .done d
  | r :: rs, d => (execute setup r.line d r.statement).andThen (executeAll setup rs)

def remarks (rs : List Row) : List Warning :=
  (rs.filter (·.statement ≠ .blank)).map fun r => ⟨r.line, .afterEnd⟩

def remarkOn (rs : List Row) (d : Draft) : Draft :=
  { d with warnings := d.warnings ++ remarks rs }

theorem statement_of_not_ended {setup : Setup} {line : Nat} {t : Text} {d : Draft}
    (hd : d.ended = false) :
    statement setup line t d =
      execute setup line d (.ofLine setup.machine.mnemonics t) := by
  unfold statement
  split
  · next hs => rw [hs]; rfl
  · rw [hd]
    rfl

theorem statements_of_ended (setup : Setup) (ls : List (Nat × Text)) {d : Draft}
    (hd : d.ended = true) :
    statements setup ls d =
      .done (d.remarkOn (Source.rowsOfLines setup.machine.mnemonics ls)) := by
  induction ls generalizing d with
  | nil => simp [statements, remarkOn, remarks, Source.rowsOfLines]
  | cons l ls ih =>
    obtain ⟨line, t⟩ := l
    unfold statements statement
    split
    · next hs =>
      rw [Outcome.done_andThen, ih hd]
      simp [remarkOn, remarks, Source.rowsOfLines, hs]
    · next hs =>
      simp only [hd, if_true, Outcome.done_andThen]
      rw [ih (show (d.warn line .afterEnd).ended = true from hd)]
      have hne : Source.Statement.ofLine setup.machine.mnemonics t ≠ .blank := hs
      simp [remarkOn, remarks, Source.rowsOfLines, hne, warn]

theorem ended_of_execute {setup : Setup} {line : Nat} {s : Source.Statement} {d e : Draft}
    (h : execute setup line d s = .done e) (hd : d.ended = false) : e.ended = s.isEnd := by
  rw [(completes_of_execute h).ended, hd, Bool.false_or]

/-- The lines of a source are its rows through the end of the program; the rows behind it only
draw remarks. -/
theorem statements_eq {setup : Setup} {ls : List (Nat × Text)} {d : Draft}
    (hd : d.ended = false) :
    statements setup ls d =
      let rows := Source.rowsOfLines setup.machine.mnemonics ls
      (executeAll setup (Source.throughEnd rows) d).andThen fun e =>
        .done (e.remarkOn (Source.afterEnd rows)) := by
  dsimp only
  induction ls generalizing d with
  | nil => simp [statements, Source.rowsOfLines, Source.throughEnd, Source.afterEnd, executeAll,
      remarkOn, remarks]
  | cons l ls ih =>
    obtain ⟨line, t⟩ := l
    have hrows : Source.rowsOfLines setup.machine.mnemonics ((line, t) :: ls) =
        ⟨line, .ofLine setup.machine.mnemonics t⟩ ::
          Source.rowsOfLines setup.machine.mnemonics ls := rfl
    rw [statements, statement_of_not_ended hd, hrows]
    cases hx : execute setup line d (.ofLine setup.machine.mnemonics t) with
    | mk e fault =>
      cases fault with
      | some f =>
        cases hend : (Source.Statement.ofLine setup.machine.mnemonics t).isEnd <;>
          simp [Source.throughEnd, executeAll, hend, hx, Outcome.andThen]
      | none =>
        have he := ended_of_execute hx hd
        cases hend : (Source.Statement.ofLine setup.machine.mnemonics t).isEnd with
        | true =>
          have hs := statements_of_ended setup ls (he.trans hend)
          simp [Source.throughEnd, Source.afterEnd, executeAll, hend, hx, Outcome.andThen, hs,
            Outcome.done]
        | false =>
          have hs := ih (he.trans hend)
          simp [Source.throughEnd, Source.afterEnd, executeAll, hend, hx, Outcome.andThen, hs]

/-- A run without a fault, row by row; nothing follows the end of the program. -/
inductive Runs (setup : Setup) : List Row → Draft → Draft → Prop
  | nil (d : Draft) : Runs setup [] d d
  | last {r : Row} {d e : Draft} (hs : r.statement.isEnd = true)
      (hc : Completes setup r.line d r.statement e) : Runs setup [r] d e
  | cons {r : Row} {rs : List Row} {d e f : Draft} (hs : r.statement.isEnd = false)
      (hc : Completes setup r.line d r.statement e) (hr : Runs setup rs e f) :
      Runs setup (r :: rs) d f

theorem runs_of_executeAll {setup : Setup} {rs : List Row} {d e : Draft}
    (h : executeAll setup (Source.throughEnd rs) d = .done e) :
    Runs setup (Source.throughEnd rs) d e := by
  induction rs generalizing d with
  | nil =>
    obtain rfl := congrArg Outcome.draft h
    exact .nil d
  | cons r rs ih =>
    unfold Source.throughEnd at h ⊢
    split at h
    · next hs =>
      obtain ⟨f, hf, hr⟩ := Outcome.andThen_eq_done h
      obtain rfl := congrArg Outcome.draft hr
      rw [if_pos hs]
      exact .last hs (completes_of_execute hf)
    · next hs =>
      obtain ⟨f, hf, hr⟩ := Outcome.andThen_eq_done h
      rw [if_neg hs]
      exact .cons (by simpa using hs) (completes_of_execute hf) (ih hr)

theorem runs_of_statements {setup : Setup} {ls : List (Nat × Text)} {d e : Draft}
    (hd : d.ended = false) (h : statements setup ls d = .done e) :
    ∃ f, Runs setup (Source.throughEnd (Source.rowsOfLines setup.machine.mnemonics ls)) d f ∧
      e = f.remarkOn (Source.afterEnd (Source.rowsOfLines setup.machine.mnemonics ls)) := by
  rw [statements_eq hd] at h
  obtain ⟨f, hf, he⟩ := Outcome.andThen_eq_done h
  exact ⟨f, runs_of_executeAll hf, (congrArg Outcome.draft he).symm⟩

theorem Runs.symbols {setup : Setup} {rs : List Row} {d e : Draft} (h : Runs setup rs d e)
    {ss : List Sighting} (hss : d.symbols.Logs ss) :
    e.symbols.Logs
      (ss ++ Source.sightings setup.machine.registers d.location.val rs) := by
  induction h generalizing ss with
  | nil d => simpa [Source.sightings] using hss
  | last hs hc => simpa [Source.sightings] using hc.symbols hss
  | @cons r rs d e f hs hc hr ih =>
    have hrest := ih (hc.symbols hss)
    rw [hc.location hs, List.append_assoc] at hrest
    exact hrest

/-- A program that has ended leaves no literal without an address. -/
theorem Runs.exists_freeze {setup : Setup} {rs : List Row} {d e : Draft} (h : Runs setup rs d e)
    (hd : d.ended = false) (he : e.ended = true) : ∃ frozen, e.literals.freeze = .ok frozen := by
  induction h with
  | nil d => simp [hd] at he
  | last hs hc =>
    obtain ⟨label, m, tokens, f, g, _, _, _, hp, rfl⟩ := hc.of_isEnd hs
    obtain ⟨hf, rfl⟩ := poolLiterals_eq_done hp
    exact LiteralTable.exists_freeze_of_pool hf
  | cons hs hc hr ih => exact ih (by rw [hc.ended, hd, hs]; rfl) he

/-- A source whose statements succeed is a run over its program, and its closing depends on the
run alone. -/
theorem exists_run_of_source {setup : Setup} {source : Text} {d : Draft}
    (h : statements setup (Text.numbered (Text.lines source)) (.start setup.options) = .done d) :
    ∃ e, Runs setup (Source.program setup.machine.mnemonics source) (.start setup.options) e ∧
      d.ended = e.ended ∧ d.symbols = e.symbols ∧ d.literals = e.literals ∧
      d.records = e.records := by
  obtain ⟨e, hr, rfl⟩ := runs_of_statements rfl h
  exact ⟨e, hr, rfl, rfl, rfl, rfl⟩

end Draft

theorem Program.exists_run {setup : Setup} {source : Text} {p : Program}
    (h : ofSource setup source = .ok p) :
    ∃ e, Draft.Runs setup (Source.program setup.machine.mnemonics source)
        (.start setup.options) e ∧
      e.symbols.freeze = .ok p.symbols ∧ e.literals.freeze = .ok p.literals ∧
      e.records = p.records := by
  obtain ⟨d, hd, hended, hs, hl, hr⟩ := Outcome.finish_eq_ok h
  obtain ⟨e, hrun, -, hsymbols, hliterals, hrecords⟩ := Draft.exists_run_of_source hd
  exact ⟨e, hrun, hsymbols ▸ hs, hliterals ▸ hl, hrecords ▸ hr⟩

namespace Program

theorem ofSource_of_statements {setup : Setup} {source : Text} {d : Draft}
    (h : Draft.statements setup (Text.numbered (Text.lines source)) (.start setup.options) =
      .done d) : ofSource setup source = d.finish := by
  rw [ofSource, h]
  rfl

theorem ofSource_symbols {setup : Setup} {source : Text} {d : Draft}
    (h : Draft.statements setup (Text.numbered (Text.lines source)) (.start setup.options) =
      .done d) (hd : d.ended = true) :
    let ss := Source.sightingsOf setup.machine source
    (∀ s, Sighting.undefined? ss = some s →
      ofSource setup source = .error (.undefinedSymbol s.line s.name)) ∧
    (Sighting.undefined? ss = none → ∃ p, ofSource setup source = .ok p ∧
      p.symbols.entries.map (fun e => (e.name, some e.address.val)) =
        (Sighting.names ss).map fun name => (name, Sighting.address? ss name)) := by
  obtain ⟨e, hr, hended, hsymbols, hliterals, hrecords⟩ := Draft.exists_run_of_source h
  have hlog : d.symbols.Logs (Source.sightingsOf setup.machine source) := by
    rw [hsymbols]
    exact hr.symbols SymbolTable.Logs.empty
  obtain ⟨literals, hl⟩ := hr.exists_freeze rfl (hended.symm.trans hd)
  rw [← hliterals] at hl
  rw [ofSource_of_statements h, Draft.finish, if_pos hd]
  constructor
  · intro s hs
    rw [hlog.freeze_eq_error hs]
  · intro hs
    obtain ⟨symbols, hf⟩ := hlog.exists_freeze hs
    rw [hf, hl]
    exact ⟨_, rfl, hlog.entries_of_freeze hf⟩

/-- A plain label that comes again, and data that binds its label twice. -/
def relabelled : Text :=
  "START 9\nX ADD AREG,Y\nX SUB BREG,X\nY DS 2\nY DC 5\nEND\n".toList

theorem ofSource_relabelled :
    ∃ d, Draft.statements ⟨.builtin, {}⟩ (Text.numbered (Text.lines relabelled)) (.start {}) =
        .done d ∧ d.ended = true ∧
      ∃ p, ofSource ⟨.builtin, {}⟩ relabelled = .ok p ∧
        p.symbols.entries.map (fun e => (e.name, some e.address.val)) =
          [("X".toList, some 9), ("Y".toList, some 13)] := by
  obtain ⟨p, hp, he⟩ := (@ofSource_symbols ⟨.builtin, {}⟩ relabelled _ rfl rfl).2 rfl
  exact ⟨_, rfl, rfl, p, hp, he⟩

end Program

end TwoPass
