import TwoPass.Proofs.Reading
import TwoPass.Proofs.WrittenText

/-! The tokens of a source. Names and literals are tokens of its lines, which are not empty, have
no separators, and are no more than the characters of the source. -/

namespace TwoPass

namespace Text

/-- A piece is made of characters of the text that do not separate. -/
theorem of_mem_splitOnP {p : Char → Bool} {t piece : Text} (h : piece ∈ t.splitOnP p) :
    ∀ c ∈ piece, c ∈ t ∧ p c = false := by
  induction t generalizing piece with
  | nil =>
    rw [List.splitOnP_nil, List.mem_singleton] at h
    simp [h]
  | cons c cs ih =>
    have hlater : ∀ k ∈ cs.splitOnP p, ∀ d ∈ k, d ∈ c :: cs ∧ p d = false := by
      intro k hk d hd
      obtain ⟨hmem, hp⟩ := ih hk d hd
      exact ⟨List.mem_cons_of_mem _ hmem, hp⟩
    rw [List.splitOnP_cons_eq_if_modifyHead] at h
    split at h
    · rcases List.mem_cons.1 h with rfl | h
      · simp
      · exact hlater piece h
    · next hc =>
      obtain ⟨first, others, hcs⟩ := List.exists_cons_of_ne_nil (List.splitOnP_ne_nil p cs)
      rw [hcs, List.modifyHead_cons] at h
      rcases List.mem_cons.1 h with rfl | h
      · intro d hd
        rcases List.mem_cons.1 hd with rfl | hd
        · exact ⟨List.mem_cons_self, by simpa using hc⟩
        · exact hlater first (by simp [hcs]) d hd
      · exact hlater piece (by simp [hcs, h])

theorem length_pieces_le (p : Char → Bool) (t : Text) : (pieces p t).length ≤ t.length := by
  unfold pieces
  induction t with
  | nil => simp [List.splitOnP_nil]
  | cons c cs ih =>
    rw [List.splitOnP_cons_eq_if_modifyHead]
    split
    · simp only [List.filter_cons, List.isEmpty_nil, Bool.not_true, Bool.false_eq_true, if_false,
        List.length_cons]
      omega
    · obtain ⟨first, others, hcs⟩ := List.exists_cons_of_ne_nil (List.splitOnP_ne_nil p cs)
      rw [hcs] at ih ⊢
      cases first with
      | nil =>
        simp only [List.filter_cons, List.isEmpty_nil, Bool.not_true, Bool.false_eq_true,
          if_false] at ih
        simp only [List.modifyHead_cons, List.filter_cons, List.isEmpty_cons, Bool.not_false,
          if_true, List.length_cons]
        omega
      | cons d ds =>
        simp only [List.filter_cons, List.isEmpty_cons, Bool.not_false, if_true,
          List.length_cons] at ih
        simp only [List.modifyHead_cons, List.filter_cons, List.isEmpty_cons, Bool.not_false,
          if_true, List.length_cons]
        omega

theorem map_snd_numberedFrom {α : Type} (n : Nat) (xs : List α) :
    (numberedFrom n xs).map (·.2) = xs := by
  induction xs generalizing n with
  | nil => rfl
  | cons x xs ih => rw [numberedFrom, List.map_cons, ih]

theorem length_flatten_lines_le (t : Text) : (lines t).flatten.length ≤ t.length := by
  fun_induction lines t with
  | case1 => simp
  | case2 cs ih =>
    simp only [List.flatten_cons, List.nil_append, List.length_cons]
    omega
  | case3 cs ih =>
    simp only [List.flatten_cons, List.nil_append, List.length_cons]
    omega
  | case4 c cs _ _ hl ih => simp
  | case5 c cs _ _ first others hl ih =>
    rw [hl] at ih
    simp only [List.flatten_cons, List.length_append, List.length_cons] at ih ⊢
    omega

end Text

namespace Source

def tokensOf (source : Text) : List Text :=
  (Text.lines source).flatMap tokens

theorem ne_nil_of_mem_tokens {line t : Text} (h : t ∈ tokens line) : t ≠ [] :=
  Text.piece_ne_nil h

theorem solid_of_mem_tokens {line t : Text} (h : t ∈ tokens line) : Text.Solid t := by
  intro c hc
  have hs := (Text.of_mem_splitOnP (List.mem_filter.1 h).1 c hc).2
  exact (Bool.or_eq_false_iff.1 hs).1

theorem length_tokens_le (line : Text) : (tokens line).length ≤ line.length := by
  have hpieces := Text.length_pieces_le isSeparator (Text.before ';' line)
  have hbefore : (Text.before ';' line).length ≤ line.length :=
    (List.takeWhile_sublist _).length_le
  unfold tokens
  omega

theorem length_tokensOf_le (source : Text) : (tokensOf source).length ≤ source.length := by
  have hlines : ∀ ls : List Text, (ls.flatMap tokens).length ≤ ls.flatten.length := by
    intro ls
    induction ls with
    | nil => simp
    | cons l ls ih =>
      have hl := length_tokens_le l
      simp only [List.flatMap_cons, List.flatten_cons, List.length_append]
      omega
  exact Nat.le_trans (hlines _) (Text.length_flatten_lines_le source)

namespace Statement

theorem map_name_operandSightings (registers : RegisterTable) (line l : Nat)
    (tokens : List Text) :
    (operandSightings registers line l tokens).map (·.name) =
      tokens.filter (isSymbolOperand registers) := by
  simp [operandSightings, Function.comp_def]

theorem names_sublist (table : MnemonicTable) (registers : RegisterTable) (line l : Nat)
    (ts : List Text) :
    (((ofTokens table ts).sightings registers line l).map (·.name)).Sublist ts := by
  fun_cases ofTokens table ts with
  | case1 => simp [sightings]
  | case2 first rest m hm =>
    cases hk : m.kind <;> simp [sightings, hk, labelSightings, map_name_operandSightings]
  | case3 first hf => simp [sightings]
  | case4 first hf second operands m hm =>
    cases hk : m.kind <;> simp [sightings, hk, labelSightings, map_name_operandSightings]
  | case5 first hf second operands hs => simp [sightings]

theorem literals_sublist (table : MnemonicTable) (registers : RegisterTable) (ts : List Text) :
    (literals registers (ofTokens table ts).instruction?.toList).Sublist ts := by
  have hfilter : ∀ m operands,
      (Instruction.literals registers ⟨m, operands⟩).Sublist operands := by
    intro m operands
    unfold Instruction.literals
    split
    · exact List.filter_sublist
    · exact List.nil_sublist operands
  fun_cases ofTokens table ts with
  | case1 => simp [instruction?, literals]
  | case2 first rest m hm =>
    simpa [instruction?, literals] using (hfilter m rest).trans (List.sublist_cons_self first rest)
  | case3 first hf => simp [instruction?, literals]
  | case4 first hf second operands m hm =>
    have hcons : operands.Sublist (first :: second :: operands) :=
      (List.sublist_cons_self second operands).trans (List.sublist_cons_self first _)
    simpa [instruction?, literals] using (hfilter m operands).trans hcons
  | case5 first hf second operands hs => simp [instruction?, literals]

end Statement

theorem names_sublist_of_lines (table : MnemonicTable) (registers : RegisterTable) (l : Nat)
    (ls : List (Nat × Text)) :
    ((sightings registers l (throughEnd (rowsOfLines table ls))).map (·.name)).Sublist
      (ls.flatMap fun line => tokens line.2) := by
  induction ls generalizing l with
  | nil => simp [rowsOfLines, throughEnd, sightings]
  | cons line ls ih =>
    have hfirst := Statement.names_sublist table registers line.1 l (tokens line.2)
    have hrows : rowsOfLines table (line :: ls) =
        ⟨line.1, .ofLine table line.2⟩ :: rowsOfLines table ls := rfl
    rw [hrows, throughEnd, List.flatMap_cons]
    split
    · simp only [sightings, List.append_nil]
      exact hfirst.trans (List.sublist_append_left _ _)
    · rw [sightings, List.map_append]
      exact hfirst.append (ih _)

theorem literals_sublist_of_lines (table : MnemonicTable) (registers : RegisterTable)
    (ls : List (Nat × Text)) :
    (literals registers (instructions (throughEnd (rowsOfLines table ls)))).Sublist
      (ls.flatMap fun line => tokens line.2) := by
  induction ls with
  | nil => simp [rowsOfLines, throughEnd, instructions, literals]
  | cons line ls ih =>
    have hfirst := Statement.literals_sublist table registers (tokens line.2)
    have hrows : rowsOfLines table (line :: ls) =
        ⟨line.1, .ofLine table line.2⟩ :: rowsOfLines table ls := rfl
    rw [hrows, throughEnd, List.flatMap_cons]
    split
    · rw [instructions_cons, literals_append]
      refine List.Sublist.append hfirst ?_
      simp [instructions, literals]
    · rw [instructions_cons, literals_append]
      exact hfirst.append ih

theorem flatMap_tokens_numbered (source : Text) :
    ((Text.numbered (Text.lines source)).flatMap fun line => tokens line.2) = tokensOf source := by
  have hlines := Text.map_snd_numberedFrom 1 (Text.lines source)
  rw [tokensOf, ← hlines, List.flatMap_map, hlines]
  rfl

/-- Every name of a program is a token of its source, and so is every literal. -/
theorem names_sublist_tokensOf (table : MnemonicTable) (registers : RegisterTable) (l : Nat)
    (source : Text) :
    ((sightings registers l (program table source)).map (·.name)).Sublist (tokensOf source) := by
  rw [← flatMap_tokens_numbered]
  exact names_sublist_of_lines table registers l _

theorem literals_sublist_tokensOf (table : MnemonicTable) (registers : RegisterTable)
    (source : Text) :
    (literals registers (instructions (program table source))).Sublist (tokensOf source) := by
  rw [← flatMap_tokens_numbered]
  exact literals_sublist_of_lines table registers _

end Source

end TwoPass
