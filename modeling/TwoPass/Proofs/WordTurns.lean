import TwoPass.Proofs.RecordLayout

/-! Words taken from a line one after the other. Every turn leaves a shorter rest, and the words are
those of the scan. A line has none only where its parentheses go wrong, and otherwise its words are
the line but for the blanks outside of groups. -/

namespace TwoPass

namespace Text

theorem length_trimStart_le (t : Text) : (trimStart t).length ≤ t.length :=
  (List.dropWhile_suffix isBlank).length_le

theorem isBlank_of_trimStart_cons {c : Char} {cs : Text} (h : trimStart (c :: cs) = c :: cs) :
    isBlank c = false := by
  by_contra hc
  rw [trimStart_blank_cons (by simpa using hc)] at h
  have hlength := length_trimStart_le cs
  rw [h, List.length_cons] at hlength
  omega

theorem trimStart_trimStart (t : Text) : trimStart (trimStart t) = trimStart t := by
  cases ht : trimStart t with
  | nil => rfl
  | cons c cs =>
    have hhead := List.head?_dropWhile_not isBlank t
    rw [← trimStart, ht] at hhead
    exact trimStart_cons_of_not_blank hhead cs

end Text

namespace Code

section Turns

/-- A character that does not end a bare word; a closing parenthesis is found in it afterwards. -/
def runsOn (c : Char) : Bool :=
  !Text.isBlank c && c != '('

/-- The first word of a text, and what stands behind it and the blanks that follow it. -/
def turn? : Text → Option (Word × Text)
  | '(' :: inner =>
    (Text.splitAt? ')' inner).map fun (t, later) => (.group t, Text.trimStart later)
  | rest =>
    let t := rest.takeWhile runsOn
    if ')' ∈ t then none else some (.bare t, Text.trimStart (rest.dropWhile runsOn))

theorem turn?_open (inner : Text) : turn? ('(' :: inner) =
    (Text.splitAt? ')' inner).map fun (t, later) => (.group t, Text.trimStart later) := by
  rw [turn?]

theorem turn?_of_ne_open {c : Char} (hc : c ≠ '(') (cs : Text) : turn? (c :: cs) =
    if ')' ∈ (c :: cs).takeWhile runsOn then none
    else some (.bare ((c :: cs).takeWhile runsOn),
      Text.trimStart ((c :: cs).dropWhile runsOn)) := by
  rw [turn?]
  intro inner h
  exact hc (List.cons.inj h).1

/-- A word may be empty, but then a blank stands in front of the rest and is trimmed. -/
theorem length_lt_of_turn? {rest later : Text} {w : Word} (hne : rest ≠ [])
    (h : turn? rest = some (w, later)) : later.length < rest.length := by
  obtain ⟨c, cs, rfl⟩ := List.exists_cons_of_ne_nil hne
  rw [List.length_cons]
  by_cases hc : c = '('
  · subst hc
    rw [turn?_open] at h
    obtain ⟨⟨t, behind⟩, hs, he⟩ := Option.map_eq_some_iff.1 h
    obtain ⟨-, rfl⟩ := Prod.mk.inj he
    have hcs := congrArg List.length (Text.eq_append_of_splitAt? hs)
    have htrim := Text.length_trimStart_le behind
    rw [List.length_append, List.length_cons] at hcs
    omega
  · rw [turn?_of_ne_open hc] at h
    split at h
    · cases h
    · obtain ⟨-, rfl⟩ := Prod.mk.inj (Option.some.inj h)
      by_cases hblank : Text.isBlank c = true
      · have hrun : runsOn c = false := by simp [runsOn, hblank]
        rw [List.dropWhile_cons_of_neg (by simp [hrun]), Text.trimStart_blank_cons hblank]
        have htrim := Text.length_trimStart_le cs
        omega
      · have hrun : runsOn c = true := by simp [runsOn, hblank, hc]
        rw [List.dropWhile_cons_of_pos hrun]
        have htrim := Text.length_trimStart_le (cs.dropWhile runsOn)
        have hdrop := (List.dropWhile_suffix runsOn (l := cs)).length_le
        omega

/-- The words of a text, one with each turn. -/
def wordsByTurns? (rest : Text) : Option (List Word) :=
  if _hne : rest = [] then some []
  else
    match _h : turn? rest with
    | none => none
    | some (w, later) => (wordsByTurns? later).map (w :: ·)
termination_by rest.length
decreasing_by exact length_lt_of_turn? _hne _h

theorem wordsByTurns?_nil : wordsByTurns? [] = some [] := by
  rw [wordsByTurns?, dif_pos rfl]

theorem wordsByTurns?_of_ne_nil {rest : Text} (hne : rest ≠ []) : wordsByTurns? rest =
    (turn? rest).bind fun (w, later) => (wordsByTurns? later).map (w :: ·) := by
  rw [wordsByTurns?, dif_neg hne]
  split
  · next h => rw [h, Option.bind_none]
  · next w later h => rw [h, Option.bind_some]

theorem words?_trimStart (t : Text) : words? (Text.trimStart t) = words? t := by
  obtain ⟨before, hbefore, ht⟩ := Text.exists_trimStart t
  have hscan := wordsFrom?_blanks hbefore (Text.trimStart t)
  rw [← ht] at hscan
  exact hscan.symm

theorem wordsFrom?_unclosed {t : Text} (h : ')' ∉ t) (held : Text) :
    wordsFrom? (.group held) t = none := by
  induction t generalizing held with
  | nil => rfl
  | cons c cs ih =>
    simp only [List.mem_cons, not_or] at h
    rw [wordsFrom?, if_neg (Ne.symm h.1), ih h.2]

theorem words?_open (inner : Text) : words? ('(' :: inner) =
    (Text.splitAt? ')' inner).bind fun (t, later) => (words? later).map (.group t :: ·) := by
  by_cases hclose : ')' ∈ inner
  · obtain ⟨t, later, rfl, ht⟩ := List.eq_append_cons_of_mem hclose
    rw [Text.splitAt?_append ht]
    exact wordsFrom?_gap_group ht later
  · rw [Text.splitAt?_eq_none hclose, Option.bind_none, words?, wordsFrom?, if_neg (by decide),
      if_pos rfl, wordsFrom?_unclosed hclose]

theorem isBareChar_of_runsOn {c : Char} (h : runsOn c = true) (hc : c ≠ ')') :
    Word.isBareChar c = true := by
  simp only [runsOn, Bool.and_eq_true, Bool.not_eq_true', bne_iff_ne] at h
  exact Word.isBareChar_iff.2 ⟨h.1, h.2, hc⟩

theorem wordsFrom?_bare_stray {t : Text} (ht : ∀ c ∈ t, Word.isBareChar c = true)
    (held rest : Text) : wordsFrom? (.bare held) (t ++ ')' :: rest) = none := by
  induction t generalizing held with
  | nil => rw [List.nil_append, wordsFrom?, if_neg (by decide), if_neg (by decide), if_pos rfl]
  | cons c cs ih =>
    rw [List.cons_append, wordsFrom?_bare_cons (ht c (by simp))]
    exact ih (fun d hd => ht d (by simp [hd])) (c :: held)

theorem words?_stray {t : Text} (ht : ∀ c ∈ t, Word.isBareChar c = true) (rest : Text) :
    words? (t ++ ')' :: rest) = none := by
  cases t with
  | nil =>
    rw [List.nil_append, words?, wordsFrom?, if_neg (by decide), if_neg (by decide), if_pos rfl]
  | cons c cs =>
    rw [List.cons_append, words?, wordsFrom?_gap_cons (ht c (by simp))]
    exact wordsFrom?_bare_stray (fun d hd => ht d (by simp [hd])) [c] rest

theorem endsBare_dropWhile (t : Text) : EndsBare (t.dropWhile runsOn) := by
  intro c hc
  have hhead := List.head?_dropWhile_not runsOn t
  rw [hc] at hhead
  by_cases hblank : Text.isBlank c = true
  · exact .inl hblank
  · exact .inr (by simpa [runsOn, hblank] using hhead)

theorem words?_of_ne_open {c : Char} (hc : c ≠ '(') (hblank : Text.isBlank c = false) (cs : Text) :
    words? (c :: cs) =
      if ')' ∈ (c :: cs).takeWhile runsOn then none
      else (words? ((c :: cs).dropWhile runsOn)).map
        (.bare ((c :: cs).takeWhile runsOn) :: ·) := by
  have hrun : ∀ d ∈ (c :: cs).takeWhile runsOn, runsOn d = true := fun d hd =>
    List.all_eq_true.1 List.all_takeWhile d hd
  have hsplit := List.takeWhile_append_dropWhile (p := runsOn) (l := c :: cs)
  by_cases hclose : ')' ∈ (c :: cs).takeWhile runsOn
  · obtain ⟨t, behind, ht, hfirst⟩ := List.eq_append_cons_of_mem hclose
    have hbare : ∀ d ∈ t, Word.isBareChar d = true := by
      intro d hd
      refine isBareChar_of_runsOn (hrun d (by simp [ht, hd])) ?_
      rintro rfl
      exact hfirst hd
    rw [if_pos hclose, ← hsplit, ht, List.append_assoc]
    exact words?_stray hbare _
  · have hproper : (Word.bare ((c :: cs).takeWhile runsOn)).Proper := by
      constructor
      · simp [runsOn, hc, hblank]
      · intro d hd
        refine isBareChar_of_runsOn (hrun d hd) ?_
        rintro rfl
        exact hclose hd
    have hscan := wordsFrom?_gap_bare hproper (endsBare_dropWhile (c :: cs))
    rw [hsplit] at hscan
    rw [if_neg hclose]
    exact hscan

/-- The scan of a text that no blank stands in front of begins with a turn. -/
theorem words?_eq_turn {rest : Text} (hne : rest ≠ []) (htrim : Text.trimStart rest = rest) :
    words? rest = (turn? rest).bind fun (w, later) => (words? later).map (w :: ·) := by
  obtain ⟨c, cs, rfl⟩ := List.exists_cons_of_ne_nil hne
  by_cases hc : c = '('
  · subst hc
    rw [words?_open, turn?_open, Option.bind_map]
    simp only [Function.comp_def, words?_trimStart]
  · rw [words?_of_ne_open hc (Text.isBlank_of_trimStart_cons htrim), turn?_of_ne_open hc]
    by_cases hclose : ')' ∈ (c :: cs).takeWhile runsOn
    · rw [if_pos hclose, if_pos hclose, Option.bind_none]
    · rw [if_neg hclose, if_neg hclose, Option.bind_some]
      exact congrArg (Option.map _) (words?_trimStart _).symm

theorem trimStart_of_turn? {rest later : Text} {w : Word} (h : turn? rest = some (w, later)) :
    Text.trimStart later = later := by
  unfold turn? at h
  split at h
  · obtain ⟨⟨t, behind⟩, -, he⟩ := Option.map_eq_some_iff.1 h
    obtain ⟨-, rfl⟩ := Prod.mk.inj he
    exact Text.trimStart_trimStart behind
  · simp only at h
    split at h
    · cases h
    · obtain ⟨-, rfl⟩ := Prod.mk.inj (Option.some.inj h)
      exact Text.trimStart_trimStart _

/-- No turn begins at a blank, since the turn before it has trimmed what it left. -/
theorem words?_eq_wordsByTurns? {rest : Text} (htrim : Text.trimStart rest = rest) :
    words? rest = wordsByTurns? rest := by
  induction rest using wordsByTurns?.induct with
  | case1 => rw [wordsByTurns?_nil]; rfl
  | case2 rest hne hturn =>
    rw [words?_eq_turn hne htrim, wordsByTurns?_of_ne_nil hne, hturn]
    rfl
  | case3 rest hne w later hturn ih =>
    have hlater := ih (trimStart_of_turn? hturn)
    rw [words?_eq_turn hne htrim, wordsByTurns?_of_ne_nil hne, hturn]
    exact congrArg (Option.map (w :: ·)) hlater

end Turns

section Grouping

/-- A text in which every parenthesis belongs to a group. -/
inductive Grouped : Text → Prop
  | nil : Grouped []
  | char {c : Char} {t : Text} (hopen : c ≠ '(') (hclose : c ≠ ')') (h : Grouped t) :
      Grouped (c :: t)
  | group {inner t : Text} (hinner : ')' ∉ inner) (h : Grouped t) :
      Grouped ('(' :: (inner ++ ')' :: t))

/-- A line on which, behind some groups, a closing parenthesis stands outside of any group or a
group opens that does not end. -/
def Misgrouped (line : Text) : Prop :=
  ∃ before after, Grouped before ∧
    (line = before ++ ')' :: after ∨ line = before ++ '(' :: after ∧ ')' ∉ after)

theorem Misgrouped.char {c : Char} {t : Text} (hopen : c ≠ '(') (hclose : c ≠ ')')
    (h : Misgrouped t) : Misgrouped (c :: t) := by
  obtain ⟨before, after, hbefore, h⟩ := h
  refine ⟨c :: before, after, hbefore.char hopen hclose, ?_⟩
  rcases h with rfl | ⟨rfl, hafter⟩
  · exact .inl rfl
  · exact .inr ⟨rfl, hafter⟩

theorem Misgrouped.group {inner t : Text} (hinner : ')' ∉ inner) (h : Misgrouped t) :
    Misgrouped ('(' :: (inner ++ ')' :: t)) := by
  obtain ⟨before, after, hbefore, h⟩ := h
  refine ⟨'(' :: (inner ++ ')' :: before), after, hbefore.group hinner, ?_⟩
  rcases h with rfl | ⟨rfl, hafter⟩
  · exact .inl (by simp)
  · exact .inr ⟨by simp, hafter⟩

theorem grouped_or_misgrouped (line : Text) : Grouped line ∨ Misgrouped line := by
  induction hn : line.length using Nat.strongRecOn generalizing line with
  | ind n ih =>
    cases line with
    | nil => exact .inl .nil
    | cons c cs =>
      rw [List.length_cons] at hn
      by_cases hclose : c = ')'
      · exact .inr ⟨[], cs, .nil, .inl (by rw [hclose, List.nil_append])⟩
      · by_cases hopen : c = '('
        · subst hopen
          by_cases hend : ')' ∈ cs
          · obtain ⟨inner, t, rfl, hinner⟩ := List.eq_append_cons_of_mem hend
            have hlt : t.length < n := by
              simp only [List.length_append, List.length_cons] at hn
              omega
            exact (ih t.length hlt t rfl).imp (.group hinner) (.group hinner)
          · exact .inr ⟨[], cs, .nil, .inr ⟨rfl, hend⟩⟩
        · exact (ih cs.length (by omega) cs rfl).imp (.char hopen hclose) (.char hopen hclose)

/-- What a word holds already does not decide whether the rest can be scanned. -/
theorem wordsFrom?_bare_eq_none_iff (held t : Text) :
    wordsFrom? (.bare held) t = none ↔ words? t = none := by
  induction t generalizing held with
  | nil => simp [words?, wordsFrom?]
  | cons c cs ih =>
    by_cases hblank : Text.isBlank c = true
    · rw [words?, wordsFrom?, if_pos hblank, wordsFrom?, if_pos hblank, Option.map_eq_none_iff]
    · by_cases hopen : c = '('
      · rw [words?, wordsFrom?, if_neg hblank, if_pos hopen, wordsFrom?, if_neg hblank,
          if_pos hopen, Option.map_eq_none_iff]
      · by_cases hclose : c = ')'
        · rw [words?, wordsFrom?, if_neg hblank, if_neg hopen, if_pos hclose, wordsFrom?,
            if_neg hblank, if_neg hopen, if_pos hclose]
        · have hc := Word.isBareChar_iff.2 ⟨by simpa using hblank, hopen, hclose⟩
          rw [wordsFrom?_bare_cons hc, words?, wordsFrom?_gap_cons hc, ih, ih]

theorem words?_append_eq_none_iff {before : Text} (h : Grouped before) (t : Text) :
    words? (before ++ t) = none ↔ words? t = none := by
  induction h with
  | nil => rfl
  | @char c before hopen hclose _ ih =>
    rw [List.cons_append, ← ih]
    by_cases hblank : Text.isBlank c = true
    · rw [words?, wordsFrom?, if_pos hblank, words?]
    · have hc := Word.isBareChar_iff.2 ⟨by simpa using hblank, hopen, hclose⟩
      rw [words?, wordsFrom?_gap_cons hc, wordsFrom?_bare_eq_none_iff]
  | @group inner before hinner _ ih =>
    rw [← ih, List.cons_append, List.append_assoc, List.cons_append, words?,
      wordsFrom?_gap_group hinner, Option.map_eq_none_iff, words?]

theorem words?_eq_none_iff {line : Text} : words? line = none ↔ Misgrouped line := by
  constructor
  · intro h
    refine (grouped_or_misgrouped line).resolve_left fun hline => ?_
    have hempty := (words?_append_eq_none_iff hline []).1 (by rwa [List.append_nil])
    cases hempty
  · rintro ⟨before, after, hbefore, rfl | ⟨rfl, hafter⟩⟩
    · exact (words?_append_eq_none_iff hbefore _).2 (words?_stray (t := []) (by simp) after)
    · have hopen := words?_open after
      rw [Text.splitAt?_eq_none hafter, Option.bind_none] at hopen
      exact (words?_append_eq_none_iff hbefore _).2 hopen

end Grouping

section Gaps

/-- A text without the blanks outside of its groups. -/
def withoutGaps (insideGroup : Bool) : Text → Text
  | [] => []
  | c :: cs =>
    if insideGroup then c :: withoutGaps (c != ')') cs
    else if Text.isBlank c then withoutGaps false cs
    else c :: withoutGaps (c == '(') cs

theorem withoutGaps_blanks {gap : Text} (h : Text.isAllBlank gap = true) (rest : Text) :
    withoutGaps false (gap ++ rest) = withoutGaps false rest := by
  induction gap with
  | nil => rfl
  | cons c cs ih =>
    obtain ⟨hc, hcs⟩ : Text.isBlank c = true ∧ Text.isAllBlank cs = true := by
      simpa [Text.isAllBlank] using h
    rw [List.cons_append, withoutGaps, if_neg (by simp), if_pos hc, ih hcs]

theorem withoutGaps_bare {t : Text} (h : ∀ c ∈ t, Word.isBareChar c = true) (rest : Text) :
    withoutGaps false (t ++ rest) = t ++ withoutGaps false rest := by
  induction t with
  | nil => rfl
  | cons c cs ih =>
    obtain ⟨hblank, hopen, -⟩ := Word.isBareChar_iff.1 (h c (by simp))
    have hstays : (c == '(') = false := by simpa using hopen
    rw [List.cons_append, withoutGaps, if_neg (by simp), if_neg (by simp [hblank]), hstays,
      ih fun d hd => h d (by simp [hd])]
    rfl

theorem withoutGaps_inside {t : Text} (h : ')' ∉ t) (rest : Text) :
    withoutGaps true (t ++ ')' :: rest) = t ++ ')' :: withoutGaps false rest := by
  induction t with
  | nil => rfl
  | cons c cs ih =>
    simp only [List.mem_cons, not_or] at h
    have hstays : (c != ')') = true := by simpa using Ne.symm h.1
    rw [List.cons_append, withoutGaps, if_pos rfl, hstays, ih h.2]
    rfl

theorem withoutGaps_word {w : Word} (h : w.Proper) (rest : Text) :
    withoutGaps false (w.text ++ rest) = w.text ++ withoutGaps false rest := by
  cases w with
  | bare t => exact withoutGaps_bare h.2 rest
  | group t =>
    have hopens : withoutGaps false ('(' :: (t ++ ')' :: rest)) =
        '(' :: withoutGaps true (t ++ ')' :: rest) := rfl
    have htext : ∀ later : Text, (Word.group t).text ++ later = '(' :: (t ++ ')' :: later) := by
      simp [Word.text]
    rw [htext, htext, hopens, withoutGaps_inside h]

theorem withoutGaps_of_laidOut {b : Bool} {ws : List Word} {line : Text} (h : LaidOut b ws line)
    (hws : ∀ w ∈ ws, w.Proper) : withoutGaps false line = ws.flatMap Word.text := by
  induction h with
  | @nil _ gap hgap =>
    have hblank := withoutGaps_blanks hgap []
    rwa [List.append_nil] at hblank
  | @cons _ gap rest w ws hgap _ _ ih =>
    obtain ⟨hw, hlater⟩ := List.forall_mem_cons.1 hws
    rw [withoutGaps_blanks hgap, withoutGaps_word hw, ih hlater, List.flatMap_cons]

end Gaps

/-- A line is taken apart by turns, of which each leaves less, until a parenthesis goes wrong or
all of the line but the blanks between its words is in the words. -/
theorem words?_taken_apart (line : Text) :
    words? line = wordsByTurns? (Text.trimStart line) ∧
      (∀ rest w later, rest ≠ [] → turn? rest = some (w, later) → later.length < rest.length) ∧
      (words? line = none ↔ Misgrouped line) ∧
      ∀ ws, words? line = some ws ↔ (∀ w ∈ ws, w.Proper) ∧ LaidOut false ws line ∧
        ws.flatMap Word.text = withoutGaps false line := by
  refine ⟨?_, fun rest w later => length_lt_of_turn?, words?_eq_none_iff, fun ws => ?_⟩
  · rw [← words?_eq_wordsByTurns? (Text.trimStart_trimStart line), words?_trimStart]
  · rw [words?_eq_some_iff]
    constructor
    · rintro ⟨hout, hproper⟩
      exact ⟨hproper, hout, (withoutGaps_of_laidOut hout hproper).symm⟩
    · rintro ⟨hproper, hout, -⟩
      exact ⟨hout, hproper⟩

/-- Words with and without blanks between them, and a group with a parenthesis inside. -/
def crowdedWords : Text :=
  "\t12(a (b)3\u30004 ( )".toList

theorem words?_crowdedWords :
    ∃ w later ws, crowdedWords.tail ≠ [] ∧ turn? crowdedWords.tail = some (w, later) ∧
      later.length < crowdedWords.tail.length ∧ words? crowdedWords = some ws ∧
      ws = [.bare ['1', '2'], .group "a (b".toList, .bare ['3'], .bare ['4'], .group [' ']] ∧
      (∀ w ∈ ws, w.Proper) ∧ LaidOut false ws crowdedWords ∧
      ws.flatMap Word.text = "12(a (b)34( )".toList := by
  obtain ⟨-, hshorter, -, hwords⟩ := words?_taken_apart crowdedWords
  have hne : crowdedWords.tail ≠ [] := by decide
  have hturn : turn? crowdedWords.tail = some (.bare ['1', '2'], "(a (b)3\u30004 ( )".toList) := by
    decide
  obtain ⟨hproper, hout, htext⟩ := (hwords _).1 rfl
  exact ⟨_, _, _, hne, hturn, hshorter _ _ _ hne hturn, rfl, rfl, hproper, hout, htext⟩

end Code

end TwoPass
