import TwoPass.Proofs.NumberedLines
import TwoPass.Proofs.Run

/-! What follows the end of a program. Each line behind it draws a remark unless it is blank, and
nothing else comes of it, so that a source with an end means the same whatever is appended to it. -/

namespace TwoPass

namespace Text

/-- Behind a line feed a line begins. -/
theorem lines_append {a : Text} (ha : a.getLast? = some '\n') (b : Text) :
    lines (a ++ b) = lines a ++ lines b := by
  have hlater : ∀ {c : Char} {cs : Text}, (c :: cs).getLast? = some '\n' → cs ≠ [] →
      cs.getLast? = some '\n' := by
    intro c cs h hne
    obtain ⟨last, hlast⟩ := Option.isSome_iff_exists.1 (List.getLast?_isSome.2 hne)
    rw [List.getLast?_cons, hlast] at h
    rw [hlast, ← h]
    rfl
  fun_induction lines a with
  | case1 => simp at ha
  | case2 cs ih =>
    rw [List.cons_append, lines_lineFeed, List.cons_append]
    by_cases hcs : cs = []
    · rw [hcs, List.nil_append, lines_nil, List.nil_append]
    · rw [ih (hlater ha hcs)]
  | case3 cs ih =>
    rw [List.cons_append, List.cons_append, lines, List.cons_append]
    by_cases hcs : cs = []
    · rw [hcs, List.nil_append, lines_nil, List.nil_append]
    · rw [ih (hlater (hlater ha (by simp)) hcs)]
  | case4 c cs hn hr hl ih =>
    have hcs : cs = [] := by
      by_contra hne
      exact lines_ne_nil hne hl
    subst hcs
    exact absurd (by simpa using ha) hn
  | case5 c cs hn hr first others hl ih =>
    have hcs : cs ≠ [] := by
      rintro rfl
      rw [lines_nil] at hl
      cases hl
    have hrest := ih (hlater ha hcs)
    rw [hl, List.cons_append] at hrest
    rw [List.cons_append, lines]
    · rw [hrest, List.cons_append]
    · exact hn
    · intro tail hc he
      obtain ⟨e, es, rfl⟩ := List.exists_cons_of_ne_nil hcs
      rw [List.cons_append] at he
      obtain ⟨rfl, -⟩ := List.cons.inj he
      exact hr es hc rfl

theorem numberedFrom_append {α : Type} (n : Nat) (xs ys : List α) :
    numberedFrom n (xs ++ ys) = numberedFrom n xs ++ numberedFrom (n + xs.length) ys := by
  induction xs generalizing n with
  | nil => rfl
  | cons x xs ih =>
    rw [List.cons_append, numberedFrom, numberedFrom, ih, List.cons_append, List.length_cons,
      Nat.add_right_comm, Nat.add_assoc]

theorem length_numberedFrom {α : Type} (n : Nat) (xs : List α) :
    (numberedFrom n xs).length = xs.length := by
  induction xs generalizing n with
  | nil => rfl
  | cons x xs ih => rw [numberedFrom, List.length_cons, List.length_cons, ih]

end Text

/-- The remarks on lines that stand behind the end: one for each line that has a token. -/
def Source.lateRemarks (ls : List (Nat × Text)) : List Warning :=
  (ls.filter fun (_, t) => tokens t ≠ []).map fun (line, _) => ⟨line, .afterEnd⟩

namespace Draft

theorem remarks_rowsOfLines (table : MnemonicTable) (ls : List (Nat × Text)) :
    remarks (Source.rowsOfLines table ls) = Source.lateRemarks ls := by
  have hblank : ∀ l : Nat × Text, decide (Source.Statement.ofLine table l.2 ≠ .blank) =
      decide (Source.tokens l.2 ≠ []) := by
    intro l
    exact decide_eq_decide.2 (not_congr Source.Statement.ofTokens_eq_blank_iff)
  simp only [remarks, Source.rowsOfLines, Source.lateRemarks, List.filter_map, List.map_map,
    Function.comp_def, hblank]

theorem statements_append (setup : Setup) (ls ks : List (Nat × Text)) (d : Draft) :
    statements setup (ls ++ ks) d = (statements setup ls d).andThen (statements setup ks) := by
  induction ls generalizing d with
  | nil => rfl
  | cons l ls ih =>
    obtain ⟨line, t⟩ := l
    rw [List.cons_append, statements, statements, Outcome.andThen_assoc]
    exact congrArg (statement setup line t d).andThen (funext ih)

/-- Remarks on what is behind the end do not bear on how a draft closes. -/
theorem finish_remarkOn (d : Draft) (rs : List Source.Row) :
    (d.remarkOn rs).finish =
      d.finish.map fun p => { p with warnings := p.warnings ++ remarks rs } := by
  have hended : (d.remarkOn rs).ended = d.ended := rfl
  have hsymbols : (d.remarkOn rs).symbols = d.symbols := rfl
  have hliterals : (d.remarkOn rs).literals = d.literals := rfl
  unfold finish
  rw [hended, hsymbols, hliterals]
  split
  · cases d.symbols.freeze with
    | error f => rfl
    | ok symbols => cases d.literals.freeze <;> rfl
  · rfl

/-- Once some first lines have ended the program, the others are only remarked on. -/
theorem statements_of_take {setup : Setup} {ls : List (Nat × Text)} {k : Nat} {d e : Draft}
    (h : statements setup (ls.take k) d = .done e) (he : e.ended = true) :
    statements setup ls d =
      .done (e.remarkOn (Source.rowsOfLines setup.machine.mnemonics (ls.drop k))) := by
  have hsplit := statements_append setup (ls.take k) (ls.drop k) d
  rw [List.take_append_drop, h, Outcome.done_andThen, statements_of_ended setup _ he] at hsplit
  exact hsplit

end Draft

namespace Program

/-- A source that is terminated and whose statements succeed through an end can be followed by any
text: only remarks come of it. -/
theorem ofSource_append {setup : Setup} {a : Text} {k : Nat} {d : Draft}
    (ha : a.getLast? = some '\n')
    (h : Draft.statements setup ((Text.numbered (Text.lines a)).take k) (.start setup.options) =
      .done d) (hd : d.ended = true) (b : Text) :
    Text.lines (a ++ b) = Text.lines a ++ Text.lines b ∧
    (∀ f, ofSource setup a = .error f → ofSource setup (a ++ b) = .error f) ∧
    ∀ p, ofSource setup a = .ok p → ofSource setup (a ++ b) = .ok { p with
      warnings := p.warnings ++ Source.lateRemarks
        ((Text.numbered (Text.lines (a ++ b))).drop (Text.lines a).length) } := by
  have hlines := Text.lines_append ha b
  have hnumbered : Text.numbered (Text.lines (a ++ b)) = Text.numbered (Text.lines a) ++
      Text.numberedFrom (1 + (Text.lines a).length) (Text.lines b) := by
    rw [hlines, Text.numbered, Text.numberedFrom_append]
    rfl
  have hdrop : (Text.numbered (Text.lines (a ++ b))).drop (Text.lines a).length =
      Text.numberedFrom (1 + (Text.lines a).length) (Text.lines b) := by
    rw [hnumbered, ← Text.length_numberedFrom 1 (Text.lines a)]
    exact List.drop_left
  -- the draft that `a` leaves has ended, so the lines of `b` find it so
  obtain ⟨e, hrun, he⟩ : ∃ e, Draft.statements setup (Text.numbered (Text.lines a))
      (.start setup.options) = .done e ∧ e.ended = true :=
    ⟨_, Draft.statements_of_take h hd, hd⟩
  have hjoined : Draft.statements setup (Text.numbered (Text.lines (a ++ b)))
      (.start setup.options) = .done (e.remarkOn (Source.rowsOfLines setup.machine.mnemonics
        (Text.numberedFrom (1 + (Text.lines a).length) (Text.lines b)))) := by
    rw [hnumbered, Draft.statements_append, hrun, Outcome.done_andThen]
    exact Draft.statements_of_ended setup _ he
  have hresult : ofSource setup (a ++ b) = (ofSource setup a).map fun p => { p with
      warnings := p.warnings ++ Source.lateRemarks
        ((Text.numbered (Text.lines (a ++ b))).drop (Text.lines a).length) } := by
    rw [hdrop, ← Draft.remarks_rowsOfLines setup.machine.mnemonics, ofSource, hjoined, ofSource,
      hrun]
    exact e.finish_remarkOn _
  refine ⟨hlines, fun f hf => ?_, fun p hp => ?_⟩
  · rw [hresult, hf]
    rfl
  · rw [hresult, hp]
    rfl

/-- A program with a remark of its own behind its end. -/
def closed : Text :=
  "START 7\nX ADD AREG,X,='1'\nEND\nSTOP\n".toList

/-- Lines that would fail, and a label that is defined again, among lines without a token. -/
def trailing : Text :=
  "FOO BAR\r\n; nothing\r\n\t,\nX DC 'q' ; no number\n\nSTART 70000\nEND\nX".toList

theorem ofSource_trailing :
    ∃ d p q, Draft.statements ⟨.builtin, {}⟩ ((Text.numbered (Text.lines closed)).take 3)
        (.start {}) = .done d ∧ d.ended = true ∧
      ofSource ⟨.builtin, {}⟩ closed = .ok p ∧
      ofSource ⟨.builtin, {}⟩ (closed ++ trailing) = .ok q ∧
      q.records = p.records ∧ q.tables = p.tables ∧ p.warnings.map (·.line) = [4] ∧
      q.warnings.map (·.line) = [4, 5, 8, 10, 11, 12] := by
  have h := (@ofSource_append ⟨.builtin, {}⟩ closed 3 _ rfl rfl rfl trailing).2.2 _ rfl
  exact ⟨_, _, _, rfl, rfl, rfl, h, rfl, rfl, rfl, rfl⟩

end Program

end TwoPass
