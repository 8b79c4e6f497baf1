import TwoPass.Proofs.Counter
import TwoPass.Proofs.Encoding

/-! The trace of the location counter along a run. Every record is laid out at the counter that
the source gives it, and END draws the addresses of the literals from the same counter. -/

namespace TwoPass

namespace Draft

open Source (Row)

/-- Where a run has left the counter and the literals, when the source counts to `l`. -/
structure LaidOut (l : Nat) (d : Draft) : Prop where
  location : d.location.val = if d.ended then l + d.literals.size else l
  unpooled : d.ended = false → ∀ e ∈ d.literals.entries, e.address = none
  pooled : d.ended = true → d.literals.entries.map (fun e => e.address.map (·.val)) =
    (List.range' l d.literals.size).map some

theorem LaidOut.of_not_ended {l : Nat} {d : Draft} (hd : d.ended = false)
    (hl : d.location.val = l) (hu : ∀ e ∈ d.literals.entries, e.address = none) :
    LaidOut l d :=
  ⟨by rw [hd]; exact hl, fun _ => hu, fun h => absurd (hd.symm.trans h) (by decide)⟩

section Statement

variable {setup : Setup} {line : Nat} {merging : Bool} {d e : Draft} {s : Source.Statement}
  {ss : List Sighting} {ts : List Text}

theorem Completes.places (h : Completes setup line d s e) :
    e.records.map Record.place =
      d.records.map Record.place ++ (s.place? d.location.val).toList := by
  cases h with
  | blank => simp [Source.Statement.place?]
  | bareLabel hl => simp [Source.Statement.place?, hl.records]
  | start hk hn hl ho => simp [Source.Statement.place?, Record.place, emit, hk, hl.records]
  | finish hk hn hl hp =>
    obtain ⟨-, rfl⟩ := poolLiterals_eq_done hp
    simp [Source.Statement.place?, Record.place, emit, hk, hl.records]
  | directive hk hst hn hl => simp [Source.Statement.place?, Record.place, emit, hk, hl.records]
  | @imperative label m tokens f g os next hk hl ho hw =>
    obtain ⟨symbols, literals, hg⟩ := operands_frame setup.machine.registers line tokens f
    rw [ho] at hg
    subst hg
    simp [Source.Statement.place?, Record.place, emit, hk, hl.records, hl.location]
  | declarative hk hv hl hw =>
    simp [Source.Statement.place?, Record.place, emit, hk, hl.records, hl.location]

theorem Completes.laidOut (h : Completes setup line d s e) (hd : d.ended = false)
    (hlog : Logs merging d ss ts) : LaidOut (s.counterAfter d.location.val) e := by
  cases hs : s.isEnd with
  | false =>
    have he : e.ended = false := by rw [h.ended, hd, hs]; rfl
    exact .of_not_ended he (h.location hs) (h.literals hs hlog).unpooled
  | true =>
    rw [Source.Statement.counterAfter_of_isEnd hs]
    obtain ⟨label, m, tokens, f, g, -, -, hl, hp, rfl⟩ := h.of_isEnd hs
    obtain ⟨hf, rfl⟩ := poolLiterals_eq_done hp
    have hunpooled : ∀ k ∈ f.literals.entries, k.address = none :=
      hl.literals ▸ hlog.literals.unpooled
    obtain ⟨hlocation, haddresses⟩ := LiteralTable.pool_of_unpooled hunpooled hf
    have htexts := congrArg List.length
      (LiteralTable.map_text_pool line f.location f.literals.entries)
    rw [List.length_map, List.length_map] at htexts
    have hfd : f.location = d.location := hl.location
    refine ⟨?_, fun hn => Bool.noConfusion hn, fun _ => ?_⟩
    · simp only [if_true, LiteralTable.size, emit]
      rw [htexts, ← hfd]
      exact hlocation
    · simp only [LiteralTable.size, emit]
      rw [htexts, ← hfd]
      exact haddresses

end Statement

section Run

variable {setup : Setup} {rs : List Row} {merging : Bool} {d e : Draft} {ss : List Sighting}
  {ts : List Text}

theorem Runs.places (h : Runs setup rs d e) :
    e.records.map Record.place =
      d.records.map Record.place ++ Source.places d.location.val rs := by
  induction h with
  | nil d => simp [Source.places]
  | last hs hc => simpa [Source.places] using hc.places
  | cons hs hc hr ih => rw [ih, hc.places, hc.location hs, Source.places, List.append_assoc]

theorem Runs.laidOut (h : Runs setup rs d e) (hd : d.ended = false) (hlog : Logs merging d ss ts) :
    LaidOut (Source.counter d.location.val rs) e := by
  induction h generalizing ss ts with
  | nil d => exact .of_not_ended hd rfl hlog.literals.unpooled
  | last hs hc => exact hc.laidOut hd hlog
  | cons hs hc hr ih =>
    have he := ih (by rw [hc.ended, hd, hs]; rfl) (hc.logs hs hlog)
    rw [hc.location hs] at he
    exact he

/-- A source whose statements succeed leaves its records and its counter where it says. -/
theorem laidOut_of_statements {ls : List (Nat × Text)}
    (h : statements setup ls (.start setup.options) = .done d) :
    let rows := Source.throughEnd (Source.rowsOfLines setup.machine.mnemonics ls)
    d.records.map Record.place = Source.places 0 rows ∧ LaidOut (Source.counter 0 rows) d := by
  obtain ⟨e, hr, rfl⟩ := runs_of_statements rfl h
  have hl := hr.laidOut rfl (logs_start setup.options)
  exact ⟨hr.places, hl.location, hl.unpooled, hl.pooled⟩

theorem statements_location {ls : List (Nat × Text)}
    (h : statements setup ls (.start setup.options) = .done d) :
    let rows := Source.throughEnd (Source.rowsOfLines setup.machine.mnemonics ls)
    let l := Source.counter 0 rows
    d.records.map (fun r => (r.tag, r.location.map (·.val))) = Source.places 0 rows ∧
      d.location.val = (if d.ended then l + d.literals.size else l) ∧
      (d.ended = false → ∀ line t label m tokens,
        Source.Statement.ofLine setup.machine.mnemonics t = .instruction label m tokens →
        let o := statement setup line t d
        (d.accepts setup.options label ⟨m, tokens⟩ = false →
          ∃ f, o.fault = some f ∧ f.isRefusal = true) ∧
        (d.accepts setup.options label ⟨m, tokens⟩ = true →
          (m.kind ≠ .directive →
            let next := l + Source.Instruction.words ⟨m, tokens⟩
            o.fault = Fault.overflow? line next ∧
              (65535 < next → o.draft.location = d.location)) ∧
          (Source.Statement.isEnd (.instruction label m tokens) = true →
            o.fault = Fault.overflow? line (l + d.literals.size)))) := by
  obtain ⟨hplaces, hlaid⟩ := laidOut_of_statements h
  refine ⟨hplaces, hlaid.location, ?_⟩
  intro hd line t label m tokens ht
  have hl := hlaid.location
  rw [hd] at hl
  dsimp only
  rw [statement_of_not_ended hd, ht]
  refine ⟨fault_execute_of_refused line, fun haccepts => ⟨?_, ?_⟩⟩
  · intro hk
    obtain ⟨e, words, he, hw, hx⟩ := execute_lays_out line hk haccepts
    rw [hx, ← hw]
    have hel : e.location.val = _ := (congrArg Fin.val he).trans hl
    refine ⟨?_, fun hover => ?_⟩
    · rw [fault_advance, hel]
      rfl
    · rw [location_advance_of_overflow (by rw [hel]; exact hover), he]
  · intro hend
    rw [fault_execute_end line hend haccepts (hlaid.unpooled hd), hl]
    rfl

end Run

/-- A program that leaves one word, which its literal needs. -/
def atLimit : List (Nat × Text) :=
  [(1, "START 65534".toList), (2, "MOVER AREG,='5'".toList)]

theorem statements_location_atLimit :
    ∃ d, statements ⟨.builtin, {}⟩ atLimit (.start {}) = .done d ∧ d.location.val = 65535 ∧
      d.records.map (fun r => (r.tag, r.location.map (·.val))) =
        [(.statement .directive 1, none), (.statement .imperative 4, some 65534)] ∧
      (statement ⟨.builtin, {}⟩ 3 "X DS 0".toList d).fault = none ∧
      (statement ⟨.builtin, {}⟩ 3 "X DS 1".toList d).fault = some (.addressOverflow 3) ∧
      (statement ⟨.builtin, {}⟩ 3 "X DS 1".toList d).draft.location.val = 65535 ∧
      (statement ⟨.builtin, {}⟩ 3 "X END".toList d).fault = some (.addressOverflow 3) := by
  obtain ⟨hplaces, hlocation, hnext⟩ := @statements_location ⟨.builtin, {}⟩ _ atLimit rfl
  have hfits := ((hnext rfl 3 "X DS 0".toList _ _ _ rfl).2 rfl).1 (by decide)
  have hover := ((hnext rfl 3 "X DS 1".toList _ _ _ rfl).2 rfl).1 (by decide)
  have hend := ((hnext rfl 3 "X END".toList _ _ _ rfl).2 rfl).2 rfl
  refine ⟨_, rfl, hlocation, hplaces, hfits.1, hover.1, ?_, hend⟩
  exact (congrArg Fin.val (hover.2 (by decide))).trans hlocation

end Draft

end TwoPass
