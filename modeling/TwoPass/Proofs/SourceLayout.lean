import TwoPass.Proofs.Blame
import TwoPass.Proofs.RelabelledRuns
import TwoPass.Proofs.Vocabulary

/-! Layout. What a source means is in its sentences, the token lists of its lines that are not
blank. Two sources of the same sentences give the same code and tables, and remarks and faults that
point at corresponding lines. -/

namespace TwoPass

namespace Source

def numberedSentences (source : Text) : List (Nat × List Text) :=
  ((Text.numbered (Text.lines source)).map fun (line, t) => (line, tokens t)).filter (·.2 ≠ [])

def sentences (source : Text) : List (List Text) :=
  ((Text.lines source).map tokens).filter (· ≠ [])

/-- The numbers of the lines that are not blank. -/
def sentenceLines (source : Text) : List Nat :=
  (numberedSentences source).map (·.1)

/-- Two lines hold statements of one place, each in a source of its own. -/
def Aligned (a b : Text) (m n : Nat) : Prop :=
  ∃ k : Nat, (sentenceLines a)[k]? = some m ∧ (sentenceLines b)[k]? = some n

/-- The line of a source that is aligned with a line of another. -/
def counterpart (a b : Text) (n : Nat) : Nat :=
  (sentenceLines b).getD ((sentenceLines a).idxOf n) 0

theorem map_snd_numberedSentences (source : Text) :
    (numberedSentences source).map (·.2) = sentences source := by
  have hlines := Text.map_snd_numberedFrom 1 (Text.lines source)
  rw [sentences, ← hlines, numberedSentences, Text.numbered]
  simp only [List.map_map, List.filter_map, Function.comp_def]

theorem mem_sentenceLines {source : Text} {n : Nat} {t : Text} (h : HasLine source n t) :
    n ∈ sentenceLines source := by
  have hmem : (n, t) ∈ Text.numbered (Text.lines source) :=
    Text.mem_numberedFrom.2 ⟨h.lower, h.line⟩
  refine List.mem_map.2 ⟨(n, tokens t), List.mem_filter.2 ⟨?_, by simpa using h.tokens⟩, rfl⟩
  exact List.mem_map.2 ⟨(n, t), hmem, rfl⟩

theorem nodup_sentenceLines (source : Text) : (sentenceLines source).Nodup := by
  have hlines : (Text.numbered (Text.lines source)).Pairwise fun x y => x.1 < y.1 :=
    Text.pairwise_numberedFrom 1 (Text.lines source)
  unfold sentenceLines numberedSentences
  rw [List.filter_map, List.map_map]
  refine List.pairwise_map.2 ((hlines.filter _).imp ?_)
  intro x y h
  exact Nat.ne_of_lt h

section Aligned

variable {a b : Text}

theorem length_sentenceLines (h : sentences a = sentences b) :
    (sentenceLines a).length = (sentenceLines b).length := by
  rw [← map_snd_numberedSentences, ← map_snd_numberedSentences] at h
  simpa [sentenceLines] using congrArg List.length h

theorem map_counterpart (h : sentences a = sentences b) :
    (sentenceLines a).map (counterpart a b) = sentenceLines b := by
  have hl := length_sentenceLines h
  refine List.ext_getElem (by rw [List.length_map, hl]) fun k hk hk' => ?_
  have hka : k < (sentenceLines a).length := by rwa [List.length_map] at hk
  rw [List.getElem_map, counterpart, (nodup_sentenceLines a).idxOf_getElem k hka,
    List.getD_eq_getElem?_getD, List.getElem?_eq_getElem hk', Option.getD_some]

theorem aligned_counterpart (h : sentences a = sentences b) {n : Nat} (hn : n ∈ sentenceLines a) :
    Aligned a b n (counterpart a b n) := by
  obtain ⟨k, hk⟩ := List.mem_iff_getElem?.1 hn
  refine ⟨k, hk, ?_⟩
  rw [← map_counterpart h, List.getElem?_map, hk, Option.map_some]

theorem numberedSentences_eq (h : sentences a = sentences b) :
    numberedSentences b =
      (numberedSentences a).map fun (n, ts) => (counterpart a b n, ts) := by
  have hlines : ((numberedSentences a).map fun (n, ts) => (counterpart a b n, ts)).map (·.1) =
      sentenceLines b := by
    rw [← map_counterpart h, sentenceLines, List.map_map, List.map_map]
    rfl
  have htokens : ((numberedSentences a).map fun (n, ts) => (counterpart a b n, ts)).map (·.2) =
      sentences b := by
    rw [← h, ← map_snd_numberedSentences, List.map_map]
    rfl
  rw [List.zip_of_prod hlines htokens]
  exact List.zip_of_prod rfl (map_snd_numberedSentences b)

end Aligned

/-- The rows of a source that are not blank. -/
def sentenceRows (table : MnemonicTable) (source : Text) : List Row :=
  (numberedSentences source).map fun (line, ts) => ⟨line, .ofTokens table ts⟩

theorem filter_rowsOfLines (table : MnemonicTable) (source : Text) :
    (rowsOfLines table (Text.numbered (Text.lines source))).filter (·.statement ≠ .blank) =
      sentenceRows table source := by
  have hblank : ∀ l : Nat × Text, decide (Statement.ofLine table l.2 ≠ .blank) =
      decide (tokens l.2 ≠ []) := by
    intro l
    exact decide_eq_decide.2 (not_congr Statement.ofTokens_eq_blank_iff)
  simp only [rowsOfLines, sentenceRows, numberedSentences, List.filter_map, List.map_map,
    Function.comp_def, hblank]
  rfl

theorem Statement.relabel_lines (g : Nat → Nat) (registers : RegisterTable) (s : Statement) :
    s.relabel ⟨id, g⟩ registers = s := by
  have hoperand : relabelOperand ⟨id, g⟩ registers = id := by
    funext t
    simp [relabelOperand]
  cases s <;> simp [relabel, hoperand]

theorem sentenceRows_counterpart {a b : Text} (h : sentences a = sentences b)
    (table : MnemonicTable) (registers : RegisterTable) :
    sentenceRows table b =
      (sentenceRows table a).map (.relabel ⟨id, counterpart a b⟩ registers) := by
  rw [sentenceRows, numberedSentences_eq h, sentenceRows, List.map_map, List.map_map]
  apply List.map_congr_left
  intro l _
  simp [Row.relabel, Statement.relabel_lines]

theorem Statement.isEnd_of_blank {s : Statement} (h : s = .blank) : s.isEnd = false := by
  rw [h]
  rfl

theorem throughEnd_filter (rs : List Row) :
    throughEnd (rs.filter (·.statement ≠ .blank)) =
      (throughEnd rs).filter (·.statement ≠ .blank) := by
  induction rs with
  | nil => rfl
  | cons r rs ih =>
    by_cases hr : r.statement = .blank
    · have hend := Statement.isEnd_of_blank hr
      rw [List.filter_cons_of_neg (by simp [hr]), ih, throughEnd, if_neg (by simp [hend]),
        List.filter_cons_of_neg (by simp [hr])]
    · rw [List.filter_cons_of_pos (by simp [hr]), throughEnd, throughEnd]
      split
      · simp [hr]
      · rw [ih, List.filter_cons_of_pos (by simp [hr])]

theorem afterEnd_filter (rs : List Row) :
    afterEnd (rs.filter (·.statement ≠ .blank)) =
      (afterEnd rs).filter (·.statement ≠ .blank) := by
  induction rs with
  | nil => rfl
  | cons r rs ih =>
    by_cases hr : r.statement = .blank
    · have hend := Statement.isEnd_of_blank hr
      rw [List.filter_cons_of_neg (by simp [hr]), ih, afterEnd, if_neg (by simp [hend])]
    · rw [List.filter_cons_of_pos (by simp [hr]), afterEnd, afterEnd]
      split
      · rfl
      · exact ih

end Source

namespace Draft

open Source (Row)

theorem executeAll_filter (setup : Setup) (rs : List Row) (d : Draft) :
    executeAll setup (rs.filter (·.statement ≠ .blank)) d = executeAll setup rs d := by
  induction rs generalizing d with
  | nil => rfl
  | cons r rs ih =>
    by_cases hr : r.statement = .blank
    · have hskip : execute setup r.line d r.statement = .done d := by rw [hr]; rfl
      rw [List.filter_cons_of_neg (by simp [hr]), ih, executeAll, hskip, Outcome.done_andThen]
    · rw [List.filter_cons_of_pos (by simp [hr]), executeAll, executeAll]
      exact congrArg (execute setup r.line d r.statement).andThen (funext ih)

theorem remarks_filter (rs : List Row) :
    remarks (rs.filter (·.statement ≠ .blank)) = remarks rs := by
  simp [remarks]

/-- Blank rows are nothing to a run. -/
theorem runRows_filter (setup : Setup) (rs : List Row) (d : Draft) :
    runRows setup (rs.filter (·.statement ≠ .blank)) d = runRows setup rs d := by
  simp only [runRows, Source.throughEnd_filter, Source.afterEnd_filter, executeAll_filter,
    remarkOn, remarks_filter]

end Draft

theorem Remark.relabel_lines (g : Nat → Nat) (r : Remark) : r.relabel ⟨id, g⟩ = r := by
  cases r <;> rfl

/-- The line is part of the text only when a literal was never pooled. -/
theorem Fault.message_relabel_lines {f : Fault} {n : Nat} (h : f.line? = some n)
    (g : Nat → Nat) : (f.relabel ⟨id, g⟩).message = f.message := by
  cases f <;> first | rfl | cases h

namespace Program

theorem ofSource_eq_sentenceRows (setup : Setup) (source : Text) :
    ofSource setup source =
      ofRows setup (Source.sentenceRows setup.machine.mnemonics source) := by
  rw [ofSource_eq_ofRows, ← Source.filter_rowsOfLines, ofRows, ofRows, Draft.runRows_filter]

theorem ofSource_counterpart (setup : Setup) {a b : Text}
    (h : Source.sentences a = Source.sentences b) :
    ofSource setup b =
      ((ofSource setup a).mapError (.relabel ⟨id, Source.counterpart a b⟩)).map
        (.relabel ⟨id, Source.counterpart a b⟩) := by
  rw [ofSource_eq_sentenceRows, ofSource_eq_sentenceRows, Source.sentenceRows_counterpart h]
  exact ofRows_relabel (Relabelling.keeps_of_lines _ _) _

theorem mem_sentenceLines_of_warnings {setup : Setup} {source : Text} {p : Program}
    (h : ofSource setup source = .ok p) {w : Warning} (hw : w ∈ p.warnings) :
    w.line ∈ Source.sentenceLines source := by
  obtain ⟨d, hd, hwarnings⟩ := Outcome.warnings_of_finish h
  obtain ⟨hlines, -⟩ := Draft.warnings_of_source setup source
  rw [hd] at hlines
  rw [hwarnings] at hw
  obtain ⟨t, hline⟩ := hlines w hw
  exact Source.mem_sentenceLines hline

theorem relabel_lines (g : Nat → Nat) (p : Program) :
    p.relabel ⟨id, g⟩ = ⟨p.records, p.tables, p.warnings.map (.relabel ⟨id, g⟩)⟩ := by
  simp [relabel, FrozenTable.rename, symbols, literals]

theorem ofSource_sameSentences (setup : Setup) {a b : Text}
    (h : Source.sentences a = Source.sentences b) :
    (∀ p, ofSource setup a = .ok p → ∃ q, ofSource setup b = .ok q ∧
      q.records = p.records ∧ q.tables = p.tables ∧ q.objects = p.objects ∧
      List.Forall₂ (fun v w => w.remark = v.remark ∧ Source.Aligned a b v.line w.line)
        p.warnings q.warnings) ∧
    ∀ f, ofSource setup a = .error f → ∃ g e, e = f.relabel ⟨id, g⟩ ∧
      ofSource setup b = .error e ∧ e.message = f.message ∧
      Option.Rel (Source.Aligned a b) f.line? e.line? := by
  have hb := ofSource_counterpart setup h
  refine ⟨fun p hp => ?_, fun f hf => ?_⟩
  · rw [hp] at hb
    refine ⟨_, hb, rfl, ?_, p.objects_relabel, ?_⟩
    · rw [relabel_lines]
    · rw [relabel_lines, List.forall₂_map_right_iff, List.forall₂_same]
      intro w hw
      exact ⟨w.remark.relabel_lines _,
        Source.aligned_counterpart h (mem_sentenceLines_of_warnings hp hw)⟩
  · rw [hf] at hb
    refine ⟨_, _, rfl, hb, ?_⟩
    rcases Draft.missingEnd_or_shows hf with rfl | ⟨n, t, hn, hline, -⟩
    · exact ⟨rfl, .none⟩
    · refine ⟨Fault.message_relabel_lines hn _, ?_⟩
      rw [Fault.line?_relabel, hn]
      exact .some (Source.aligned_counterpart h (Source.mem_sentenceLines hline))

/-- A source with a label that comes twice and a statement behind its end. -/
def spaced : Text :=
  "START 100\nLOOP ADD AREG,X\nX DC 1\nX DC 2\nEND\nSTOP\n".toList

/-- The same statements on other lines, and some of them behind comments. -/
def crowded : Text :=
  "; again\r\nSTART\t100 ; words\r\n\r\n LOOP,ADD,,AREG X;\r\n".toList ++
    "X\u2003DC 1\n\nX , DC 2\nEND\n;\nSTOP".toList

theorem ofSource_crowded :
    Source.sentences spaced = Source.sentences crowded ∧
      ∃ p q, ofSource ⟨.builtin, {}⟩ spaced = .ok p ∧ ofSource ⟨.builtin, {}⟩ crowded = .ok q ∧
        q.records = p.records ∧ q.tables = p.tables ∧ q.objects = p.objects ∧
        p.warnings.map (·.line) = [4, 6] ∧ q.warnings.map (·.line) = [7, 10] ∧
        List.Forall₂ (fun v w => w.remark = v.remark ∧ Source.Aligned spaced crowded v.line w.line)
          p.warnings q.warnings := by
  have hs : Source.sentences spaced = Source.sentences crowded := by decide
  obtain ⟨q, hq, hrecords, htables, hobjects, hwarnings⟩ :=
    (ofSource_sameSentences ⟨.builtin, {}⟩ hs).1 _ rfl
  refine ⟨hs, _, q, rfl, hq, hrecords, htables, hobjects, rfl, ?_, hwarnings⟩
  obtain rfl := Except.ok.inj hq
  rfl

end Program

end TwoPass
