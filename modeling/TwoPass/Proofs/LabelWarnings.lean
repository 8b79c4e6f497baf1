import TwoPass.Proofs.Run
import TwoPass.Proofs.StrictLabels

/-! The warnings of a program that is read without strict labels. They account for every label: a
line of one token is remarked on, and so is each label that comes again, with the address that its
name has held until then. Behind the end there is one remark for each statement. -/

namespace TwoPass

/-- What a warning says. Of a label that comes again it tells the address that the name has held,
which a plain label leaves and the label of data overwrites. -/
inductive Notice
  | bareLabel (name : Text)
  | redefined (role : Role) (name : Text) (held : Nat)
  | afterEnd
deriving DecidableEq

def Remark.notice : Remark → Notice
  | .labelIgnored name kept => .redefined .plain name kept.val
  | .labelOverwritten name previous => .redefined .data name previous.val
  | .bareLabel name => .bareLabel name
  | .afterEnd => .afterEnd

def Warning.notice (w : Warning) : Nat × Notice :=
  (w.line, w.remark.notice)

namespace Source

def labelNotices (before : List Sighting) (role : Role) (name : Text) : List Notice :=
  (Sighting.address? before name).toList.map (.redefined role name)

namespace Statement

def label? : Statement → Option (Role × Text)
  | .bareLabel name => some (.plain, name)
  | .instruction label m _ =>
    label.map fun name => (if m.kind = .declarative then .data else .plain, name)
  | _ => none

/-- What is remarked on a statement behind some sightings. -/
def notices (before : List Sighting) (s : Statement) : List Notice :=
  (match s with
    | .bareLabel name => [.bareLabel name]
    | _ => []) ++
  match s.label? with
  | some (role, name) => labelNotices before role name
  | none => []

end Statement

def notices (registers : RegisterTable) : List Sighting → Nat → List Row → List (Nat × Notice)
  | _, _, [] => []
  | before, l, r :: rs =>
    (r.statement.notices before).map (r.line, ·) ++
      notices registers (before ++ r.statement.sightings registers r.line l)
        (r.statement.counterAfter l) rs

/-- The remarks of a whole source, in the order of its lines. -/
def noticesOf (machine : Machine) (source : Text) : List (Nat × Notice) :=
  let rows := rowsOfLines machine.mnemonics (Text.numbered (Text.lines source))
  notices machine.registers [] 0 (throughEnd rows) ++
    ((afterEnd rows).filter (·.statement ≠ .blank)).map fun r => (r.line, .afterEnd)

/-- The names that label the rows, one for each row that has a label. -/
def labels (rs : List Row) : List Text :=
  rs.filterMap fun r => r.statement.label?.map (·.2)

theorem notices_cons (registers : RegisterTable) (before : List Sighting) (l : Nat) (r : Row)
    (rs : List Row) :
    notices registers before l (r :: rs) = (r.statement.notices before).map (r.line, ·) ++
      notices registers (before ++ r.statement.sightings registers r.line l)
        (r.statement.counterAfter l) rs :=
  rfl

end Source

def Notice.isRedefined : Notice → Bool
  | .redefined _ _ _ => true
  | _ => false

theorem Warning.redefinition?_eq_none_iff (w : Warning) :
    w.redefinition? = none ↔ w.notice.2.isRedefined = false := by
  obtain ⟨line, remark⟩ := w
  cases remark <;> simp [Warning.redefinition?, Warning.notice, Remark.notice, Notice.isRedefined]

namespace Source

theorem any_isRedefined_labelNotices (before : List Sighting) (role : Role) (name : Text) :
    (labelNotices before role name).any Notice.isRedefined =
      before.any (Sighting.labels name) := by
  cases hb : before.any (Sighting.labels name) with
  | false => simp [labelNotices, Sighting.address?_isNone_iff.2 hb]
  | true =>
    cases ha : Sighting.address? before name with
    | none => simp [Sighting.address?_isNone_iff.1 ha] at hb
    | some a => simp [labelNotices, ha, Notice.isRedefined]

theorem Statement.any_isRedefined_notices (before : List Sighting) (s : Statement) :
    (s.notices before).any Notice.isRedefined =
      s.label?.any fun label => before.any (Sighting.labels label.2) := by
  have hbare : ∀ name : Text, Notice.isRedefined (.bareLabel name) = false := fun _ => rfl
  cases hs : s.label? with
  | none => cases s <;> simp_all [Statement.notices, Statement.label?]
  | some label =>
    obtain ⟨role, name⟩ := label
    cases s <;> simp [Statement.notices, hs, any_isRedefined_labelNotices, hbare]

/-- Of the sightings of a statement only its label labels anything. -/
theorem Statement.any_labels_sightings (registers : RegisterTable) (line l : Nat) (s : Statement)
    (name : Text) :
    (s.sightings registers line l).any (Sighting.labels name) =
      s.label?.any fun label => decide (label.2 = name) := by
  cases s with
  | instruction label m tokens =>
    cases hk : m.kind <;> cases label <;>
      simp [sightings, label?, hk, labelSightings, operandSightings, Sighting.labels]
  | _ => simp [sightings, label?, Sighting.labels]

theorem Statement.notices_instruction (before : List Sighting) (label : Option Text) (m : Mnemonic)
    (tokens : List Text) :
    (instruction label m tokens).notices before = label.toList.flatMap
      (labelNotices before (if m.kind = .declarative then .data else .plain)) := by
  cases label <;> simp [notices, label?]

theorem labels_cons_of_none {r : Row} (h : r.statement.label? = none) (rs : List Row) :
    labels (r :: rs) = labels rs := by
  simp [labels, h]

theorem labels_cons_of_some {r : Row} {role : Role} {name : Text}
    (h : r.statement.label? = some (role, name)) (rs : List Row) :
    labels (r :: rs) = name :: labels rs := by
  simp [labels, h]

/-- Rows draw no remark on a redefinition exactly when no two of them have one label and no label
of theirs comes before them. -/
theorem forall_notices_iff (registers : RegisterTable) (before : List Sighting) (l : Nat)
    (rs : List Row) :
    (∀ n ∈ notices registers before l rs, n.2.isRedefined = false) ↔
      (labels rs).Nodup ∧ ∀ name ∈ labels rs, before.any (Sighting.labels name) = false := by
  induction rs generalizing before l with
  | nil => simp [notices, labels]
  | cons r rs ih =>
    have hfirst := r.statement.any_isRedefined_notices before
    have hlater : ∀ name, (before ++ r.statement.sightings registers r.line l).any
        (Sighting.labels name) = (before.any (Sighting.labels name) ||
          r.statement.label?.any fun label => decide (label.2 = name)) := by
      intro name
      rw [List.any_append, Statement.any_labels_sightings]
    have hrow : (∀ n ∈ (r.statement.notices before).map (r.line, ·), n.2.isRedefined = false) ↔
        (r.statement.notices before).any Notice.isRedefined = false := by
      simp [List.any_eq_false]
    rw [notices_cons, List.forall_mem_append, hrow, hfirst, ih]
    simp only [hlater, Bool.or_eq_false_iff]
    cases hs : r.statement.label? with
    | none => simp [labels_cons_of_none hs]
    | some label =>
      obtain ⟨role, name⟩ := label
      rw [labels_cons_of_some hs, List.nodup_cons, List.forall_mem_cons]
      simp only [Option.any_some, decide_eq_false_iff_not]
      constructor
      · rintro ⟨hnew, hdistinct, hothers⟩
        exact ⟨⟨fun hmem => (hothers name hmem).2 rfl, hdistinct⟩, hnew,
          fun other hmem => (hothers other hmem).1⟩
      · rintro ⟨⟨hname, hdistinct⟩, hnew, hothers⟩
        refine ⟨hnew, hdistinct, fun other hmem => ⟨hothers other hmem, ?_⟩⟩
        rintro rfl
        exact hname hmem

end Source

namespace Draft

open Source (Row)

def notices (d : Draft) : List (Nat × Notice) :=
  d.warnings.map Warning.notice

section Labels

variable {d : Draft} {ss : List Sighting}

theorem notices_defineLabel (h : d.symbols.Logs ss) (merge : Bool) (line : Nat) (name : Text) :
    (defineLabel ⟨false, merge⟩ line name d).draft.notices =
      d.notices ++ (Source.labelNotices ss .plain name).map (line, ·) := by
  unfold defineLabel SymbolTable.define
  cases hf : d.symbols.find? name with
  | none =>
    have ha := h.address_of_find?_none hf
    simp [notices, Source.labelNotices, ha, Outcome.done]
  | some e =>
    have hlog := h.address_of_find? hf
    cases ha : e.address with
    | none => simp [notices, Source.labelNotices, hlog, ha, Outcome.done]
    | some kept =>
      simp [notices, Source.labelNotices, hlog, ha, Outcome.done, warn, Warning.notice,
        Remark.notice]

theorem notices_bindLabel (h : d.symbols.Logs ss) (merge : Bool) (line : Nat) (name : Text) :
    (bindLabel ⟨false, merge⟩ line name d).draft.notices =
      d.notices ++ (Source.labelNotices ss .data name).map (line, ·) := by
  unfold bindLabel SymbolTable.bind
  cases hf : d.symbols.find? name with
  | none =>
    have ha := h.address_of_find?_none hf
    simp [notices, Source.labelNotices, ha, Outcome.done]
  | some e =>
    have hlog := h.address_of_find? hf
    cases ha : e.address with
    | none => simp [notices, Source.labelNotices, hlog, ha, Outcome.done]
    | some previous =>
      simp [notices, Source.labelNotices, hlog, ha, Outcome.done, warn, Warning.notice,
        Remark.notice]

end Labels

theorem notices_withLabel {role : Role} {step : Text → Draft → Outcome} {line : Nat} {d e : Draft}
    {ss : List Sighting} (hstep : ∀ name, (step name d).draft.notices =
      d.notices ++ (Source.labelNotices ss role name).map (line, ·))
    {label : Option Text} (h : withLabel step label d = .done e) :
    e.notices = d.notices ++
      (label.toList.flatMap (Source.labelNotices ss role)).map (line, ·) := by
  cases label with
  | none =>
    obtain rfl : d = e := congrArg Outcome.draft h
    simp
  | some name =>
    obtain rfl : (step name d).draft = e := congrArg Outcome.draft h
    simpa using hstep name

theorem exists_bindLabel_of_declarative {options : Options} {line : Nat} {label : Option Text}
    {m : Mnemonic} {tokens : List Text} {d e : Draft}
    (h : declarative options line label m tokens d = .done e) :
    ∃ f, withLabel (bindLabel options line) label d = .done f ∧ e.warnings = f.warnings := by
  unfold declarative at h
  split at h
  · simp [Outcome.fail, Outcome.done] at h
  · split at h
    · simp [Outcome.fail, Outcome.done] at h
    · obtain ⟨f, hf, h⟩ := Outcome.andThen_eq_done h
      obtain ⟨next, -, rfl⟩ := advance_eq_done h
      exact ⟨f, hf, rfl⟩

section Run

variable {machine : Machine} {merge : Bool} {d e : Draft} {ss : List Sighting}

/-- A row that succeeds is remarked on for its label alone. -/
theorem notices_execute {line : Nat} {s : Source.Statement}
    (h : execute ⟨machine, ⟨false, merge⟩⟩ line d s = .done e) (hd : d.symbols.Logs ss) :
    e.notices = d.notices ++ (s.notices ss).map (line, ·) := by
  cases s with
  | blank =>
    obtain rfl : d = e := congrArg Outcome.draft h
    simp [Source.Statement.notices, Source.Statement.label?]
  | unknown name => simp [execute, Outcome.fail, Outcome.done] at h
  | bareLabel name =>
    obtain rfl := congrArg Outcome.draft h
    have hlabel := notices_defineLabel (d := d.warn line (.bareLabel name)) hd merge line name
    refine hlabel.trans ?_
    simp [notices, warn, Warning.notice, Remark.notice, Source.Statement.notices,
      Source.Statement.label?]
  | instruction label m tokens =>
    cases hk : m.kind with
    | directive =>
      simp only [execute, hk] at h
      obtain ⟨f, hf, h⟩ := Outcome.andThen_eq_done h
      have hlabel := notices_withLabel (notices_defineLabel hd merge line) hf
      have hwarnings := warnings_directive line m tokens f
      rw [h] at hwarnings
      rw [notices, show e.warnings = f.warnings from hwarnings, ← notices, hlabel,
        Source.Statement.notices_instruction, if_neg (by simp [hk])]
    | imperative =>
      simp only [execute, hk] at h
      obtain ⟨f, hf, h⟩ := Outcome.andThen_eq_done h
      have hlabel := notices_withLabel (notices_defineLabel hd merge line) hf
      have hwarnings := warnings_imperative machine.registers line m tokens f
      rw [h] at hwarnings
      rw [notices, show e.warnings = f.warnings from hwarnings, ← notices, hlabel,
        Source.Statement.notices_instruction, if_neg (by simp [hk])]
    | declarative =>
      simp only [execute, hk] at h
      obtain ⟨f, hf, hwarnings⟩ := exists_bindLabel_of_declarative h
      have hlabel := notices_withLabel (notices_bindLabel hd merge line) hf
      rw [notices, hwarnings, ← notices, hlabel, Source.Statement.notices_instruction, if_pos hk]

theorem notices_executeAll {rs : List Row}
    (h : executeAll ⟨machine, ⟨false, merge⟩⟩ (Source.throughEnd rs) d = .done e)
    (hd : d.symbols.Logs ss) :
    e.notices = d.notices ++
      Source.notices machine.registers ss d.location.val (Source.throughEnd rs) := by
  induction rs generalizing d ss with
  | nil =>
    obtain rfl : d = e := congrArg Outcome.draft h
    simp [Source.throughEnd, Source.notices]
  | cons r rs ih =>
    unfold Source.throughEnd at h ⊢
    split at h
    · next hs =>
      obtain ⟨f, hf, h⟩ := Outcome.andThen_eq_done h
      obtain rfl : f = e := congrArg Outcome.draft h
      rw [if_pos hs, notices_execute hf hd]
      simp [Source.notices]
    · next hs =>
      obtain ⟨f, hf, h⟩ := Outcome.andThen_eq_done h
      have hc := completes_of_execute hf
      have hrest := ih h (hc.symbols hd)
      rw [hc.location (by simpa using hs), notices_execute hf hd, List.append_assoc] at hrest
      rw [if_neg hs, Source.notices_cons]
      exact hrest

theorem notices_remarkOn (rs : List Row) (d : Draft) :
    (d.remarkOn rs).notices = d.notices ++
      (rs.filter (·.statement ≠ .blank)).map fun r => (r.line, .afterEnd) := by
  simp [notices, remarkOn, remarks, Warning.notice, Remark.notice, Function.comp_def]

theorem notices_statements {source : Text} (h : statements ⟨machine, ⟨false, merge⟩⟩
      (Text.numbered (Text.lines source)) (.start ⟨false, merge⟩) = .done d) :
    d.notices = Source.noticesOf machine source := by
  rw [statements_eq rfl] at h
  obtain ⟨f, hf, h⟩ := Outcome.andThen_eq_done h
  obtain rfl := congrArg Outcome.draft h
  have hnotices := notices_executeAll hf SymbolTable.Logs.empty
  refine (notices_remarkOn _ f).trans ?_
  rw [hnotices]
  rfl

end Run

end Draft

namespace Program

theorem ofSource_warnings {machine : Machine} {merge : Bool} {source : Text} {p : Program}
    (h : ofSource ⟨machine, { strictLabels := false, mergeLiterals := merge }⟩ source = .ok p) :
    p.warnings.map Warning.notice = Source.noticesOf machine source ∧
      ((∀ w ∈ p.warnings, w.redefinition? = none) ↔
        (Source.labels (Source.program machine.mnemonics source)).Nodup) := by
  obtain ⟨d, hd, hw⟩ := Outcome.warnings_of_finish h
  have hnotices : p.warnings.map Warning.notice = Source.noticesOf machine source := by
    rw [hw]
    exact Draft.notices_statements hd
  refine ⟨hnotices, ?_⟩
  have hview : (∀ w ∈ p.warnings, w.redefinition? = none) ↔
      ∀ n ∈ Source.noticesOf machine source, n.2.isRedefined = false := by
    rw [← hnotices, List.forall_mem_map]
    simp only [Warning.redefinition?_eq_none_iff]
  have hremarks : ∀ rs : List Source.Row,
      ∀ n ∈ rs.map (fun r => (r.line, Notice.afterEnd)), n.2.isRedefined = false := by
    intro rs n hn
    obtain ⟨r, -, rfl⟩ := List.mem_map.1 hn
    rfl
  rw [hview, Source.noticesOf, List.forall_mem_append, Source.forall_notices_iff]
  exact ⟨fun hall => hall.1.1, fun hdistinct => ⟨⟨hdistinct, fun _ _ => rfl⟩, hremarks _⟩⟩

/-- A label that comes five times, after it was mentioned, and lines behind the end. -/
def relabelling : Text :=
  "START 9\nADD AREG,X\nX\nX SUB BREG,X\nX DS 2 ; data\nX DC 5\nX MULT X\nEND\n\nX Y Z\n".toList

theorem ofSource_relabelling :
    ∃ p, ofSource ⟨.builtin, {}⟩ relabelling = .ok p ∧
      p.warnings.map Warning.notice =
        [(3, .bareLabel "X".toList), (4, .redefined .plain "X".toList 10),
          (5, .redefined .data "X".toList 10), (6, .redefined .data "X".toList 11),
          (7, .redefined .plain "X".toList 13), (10, .afterEnd)] ∧
      ∃ w ∈ p.warnings, w.redefinition? ≠ none := by
  obtain ⟨hnotices, hredefined⟩ := @ofSource_warnings .builtin false relabelling _ rfl
  refine ⟨_, rfl, hnotices, ?_⟩
  by_contra hnone
  have hdistinct := hredefined.1 fun w hw => by
    by_contra hw'
    exact hnone ⟨w, hw, hw'⟩
  exact absurd hdistinct (by decide)

end Program

end TwoPass
