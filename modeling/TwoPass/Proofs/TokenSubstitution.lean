import TwoPass.Proofs.StreamText
import TwoPass.Proofs.Vocabulary

/-! Other tokens in the places of those of a line. Separators and comments stay as they are, and the
line then has the new tokens and no others. -/

namespace TwoPass

namespace Text

theorem pieces_append_separator {p : Char → Bool} {c : Char} (hc : p c = true) (x y : Text) :
    pieces p (x ++ c :: y) = pieces p x ++ pieces p y := by
  rw [pieces, List.splitOnP_append_cons x y hc, List.filter_append]
  rfl

theorem pieces_of_forall_not {p : Char → Bool} {x : Text} (hx : x ≠ [])
    (h : ∀ c ∈ x, p c = false) : pieces p x = [x] := by
  rw [pieces, List.splitOnP_eq_singleton h]
  simp [hx]

section Mark

variable {mark : Char} {t : Text}

theorem not_mem_before (mark : Char) (t : Text) : mark ∉ before mark t := by
  intro h
  have hall := List.all_eq_true.1 List.all_takeWhile mark h
  simp at hall

theorem before_append (h : mark ∉ t) (rest : Text) :
    before mark (t ++ rest) = t ++ before mark rest := by
  have ht : ∀ c ∈ t, (c != mark) = true := by
    intro c hc
    rw [bne_iff_ne]
    rintro rfl
    exact h hc
  rw [before, List.takeWhile_append_of_pos ht, before]

theorem before_append_mark (h : mark ∉ t) (rest : Text) : before mark (t ++ mark :: rest) = t := by
  have hnone : before mark (mark :: rest) = [] := by simp [before]
  rw [before_append h, hnone, List.append_nil]

theorem before_of_not_mem (h : mark ∉ t) : before mark t = t := by
  have hnone : before mark [] = [] := rfl
  rw [← List.append_nil t, before_append h, hnone]

theorem before_append_of_mem (h : mark ∈ t) (rest : Text) :
    before mark (t ++ rest) = before mark t := by
  obtain ⟨front, back, rfl, hfront⟩ := List.eq_append_cons_of_mem h
  rw [List.append_assoc, List.cons_append, before_append_mark hfront, before_append_mark hfront]

theorem before_eq_or_append (mark : Char) (t : Text) :
    t = before mark t ∨ ∃ rest, t = before mark t ++ mark :: rest := by
  by_cases h : mark ∈ t
  · obtain ⟨front, back, rfl, hfront⟩ := List.eq_append_cons_of_mem h
    exact .inr ⟨back, by rw [before_append_mark hfront]⟩
  · exact .inl (before_of_not_mem h).symm

end Mark

/-- A carriage return in front of the line feed is not part of the line. -/
theorem lines_append_carriageReturn {l : Text} (hn : '\n' ∉ l) (rest : Text) :
    lines (l ++ '\r' :: '\n' :: rest) = l :: lines rest := by
  induction l with
  | nil => rw [List.nil_append, lines]
  | cons c cs ih =>
    simp only [List.mem_cons, not_or] at hn
    have hc := ih hn.2
    rw [List.cons_append, lines]
    · rw [hc]
    · exact fun h => hn.1 h.symm
    · intro tail _ he
      cases cs with
      | nil => simp at he
      | cons d ds =>
        rw [List.cons_append] at he
        exact hn.2 (List.mem_cons.2 (Or.inl (List.cons.inj he).1.symm))

end Text

namespace Source

/-- What can stand in a line as one token. -/
def IsToken (t : Text) : Prop :=
  t ≠ [] ∧ ∀ c ∈ t, isSeparator c = false ∧ c ≠ ';'

instance (t : Text) : Decidable (IsToken t) :=
  decidable_of_iff ((!t.isEmpty && t.all fun c => !isSeparator c && c != ';') = true)
    (by simp [IsToken])

theorem isToken_of_mem_tokens {line t : Text} (h : t ∈ tokens line) : IsToken t := by
  refine ⟨ne_nil_of_mem_tokens h, fun c hc => ?_⟩
  obtain ⟨hmem, hs⟩ := Text.of_mem_splitOnP (List.mem_filter.1 h).1 c hc
  refine ⟨hs, ?_⟩
  rintro rfl
  exact Text.not_mem_before ';' line hmem

theorem IsToken.not_semicolon_mem {t : Text} (ht : IsToken t) : ';' ∉ t :=
  fun h => (ht.2 _ h).2 rfl

theorem ne_semicolon_of_isSeparator {c : Char} (h : isSeparator c = true) : c ≠ ';' := by
  rintro rfl
  exact absurd h (by decide)

theorem tokens_nil : tokens [] = [] := by
  simp [tokens, Text.before, Text.pieces, List.splitOnP_nil]

theorem tokens_comment (rest : Text) : tokens (';' :: rest) = [] := by
  simp [tokens, Text.before, Text.pieces, List.splitOnP_nil]

theorem tokens_append_separator {c : Char} (hc : isSeparator c = true) {t : Text}
    (ht : ';' ∉ t) (rest : Text) : tokens (t ++ c :: rest) = tokens t ++ tokens rest := by
  have hrest : Text.before ';' (c :: rest) = c :: Text.before ';' rest := by
    simp [Text.before, ne_semicolon_of_isSeparator hc]
  rw [tokens, Text.before_append ht, hrest, Text.pieces_append_separator hc, tokens,
    Text.before_of_not_mem ht, tokens]

/-- A separator at the end of a line is nothing to it, even in a comment. -/
theorem tokens_snoc_separator {c : Char} (hc : isSeparator c = true) (t : Text) :
    tokens (t ++ [c]) = tokens t := by
  by_cases h : ';' ∈ t
  · rw [tokens, Text.before_append_of_mem h, tokens]
  · rw [tokens_append_separator hc h, tokens_nil, List.append_nil]

theorem tokens_separator {c : Char} (hc : isSeparator c = true) (rest : Text) :
    tokens (c :: rest) = tokens rest := by
  simpa [tokens_nil] using tokens_append_separator hc (t := []) (by simp) rest

theorem IsToken.tokens {t : Text} (ht : IsToken t) : tokens t = [t] := by
  rw [Source.tokens, Text.before_of_not_mem ht.not_semicolon_mem,
    Text.pieces_of_forall_not ht.1 fun c hc => (ht.2 c hc).1]

theorem IsToken.snoc {t : Text} (ht : IsToken t) {c : Char} (hs : isSeparator c = false)
    (hc : c ≠ ';') : IsToken (t ++ [c]) := by
  refine ⟨by simp, List.forall_mem_append.2 ⟨ht.2, ?_⟩⟩
  simpa using ⟨hs, hc⟩

theorem IsToken.tokens_append_comment {t : Text} (ht : IsToken t) (rest : Text) :
    Source.tokens (t ++ ';' :: rest) = [t] := by
  rw [Source.tokens, Text.before_append_mark ht.not_semicolon_mem,
    Text.pieces_of_forall_not ht.1 fun c hc => (ht.2 c hc).1]

theorem IsToken.tokens_append_separator {t : Text} (ht : IsToken t) {c : Char}
    (hc : isSeparator c = true) (rest : Text) :
    Source.tokens (t ++ c :: rest) = t :: Source.tokens rest := by
  rw [Source.tokens_append_separator hc ht.not_semicolon_mem, ht.tokens, List.singleton_append]

/-- Whatever follows a token, the line has one. -/
theorem IsToken.tokens_append_ne_nil {t : Text} (ht : IsToken t) (rest : Text) :
    Source.tokens (t ++ rest) ≠ [] := by
  induction rest generalizing t with
  | nil => simp [ht.tokens]
  | cons c cs ih =>
    by_cases hc : c = ';'
    · simp [hc, ht.tokens_append_comment]
    · by_cases hs : isSeparator c = true
      · simp [ht.tokens_append_separator hs]
      · have hsnoc := ih (ht.snoc (by simpa using hs) hc)
        rwa [List.append_assoc, List.singleton_append] at hsnoc

/-- A line with other tokens in the places of its own, which may begin inside one of them. -/
def respell (inside : Bool) (ts : List Text) : Text → Text
  | [] => []
  | c :: cs =>
    if c = ';' then c :: cs
    else if isSeparator c then c :: respell false ts cs
    else if inside then respell true ts cs
    else
      match ts with
      | [] => c :: cs
      | t :: later => t ++ respell true later cs

section Respell

variable {c : Char} {inside : Bool}

theorem respell_comment (ts : List Text) (rest : Text) :
    respell inside ts (';' :: rest) = ';' :: rest := by
  cases ts <;> simp [respell]

theorem respell_separator (hs : isSeparator c = true) (ts : List Text) (rest : Text) :
    respell inside ts (c :: rest) = c :: respell false ts rest := by
  cases ts <;> simp [respell, hs, ne_semicolon_of_isSeparator hs]

theorem respell_inside (hs : isSeparator c = false) (hc : c ≠ ';') (ts : List Text)
    (rest : Text) : respell true ts (c :: rest) = respell true ts rest := by
  cases ts <;> simp [respell, hs, hc]

theorem respell_token (hs : isSeparator c = false) (hc : c ≠ ';') (t : Text) (later : List Text)
    (rest : Text) : respell false (t :: later) (c :: rest) = t ++ respell true later rest := by
  simp [respell, hs, hc]

end Respell

/-- The rest of a line is rewritten behind one token as it is behind another. -/
theorem tokens_respell_parts (line : Text) :
    (∀ ts, (∀ k ∈ ts, IsToken k) → (tokens line).length = ts.length →
      tokens (respell false ts line) = ts) ∧
    ∀ ts t u, (∀ k ∈ ts, IsToken k) → IsToken t → IsToken u →
      (tokens (t ++ line)).length = ts.length + 1 →
        tokens (u ++ respell true ts line) = u :: ts := by
  have hnil : ∀ {ts : List Text}, 0 = ts.length → ts = [] :=
    fun h => List.eq_nil_of_length_eq_zero h.symm
  induction line with
  | nil =>
    refine ⟨fun ts hts h => ?_, fun ts t u hts ht hu h => ?_⟩
    · rw [tokens_nil] at h
      rw [respell, tokens_nil, hnil h]
    · rw [List.append_nil, ht.tokens] at h
      rw [respell, List.append_nil, hu.tokens, hnil (Nat.succ.inj h)]
  | cons c cs ih =>
    obtain ⟨houtside, hinside⟩ := ih
    by_cases hc : c = ';'
    · subst hc
      refine ⟨fun ts hts h => ?_, fun ts t u hts ht hu h => ?_⟩
      · rw [tokens_comment] at h
        rw [respell_comment, tokens_comment, hnil h]
      · rw [ht.tokens_append_comment] at h
        rw [respell_comment, hu.tokens_append_comment, hnil (Nat.succ.inj h)]
    · cases hs : isSeparator c with
      | true =>
        refine ⟨fun ts hts h => ?_, fun ts t u hts ht hu h => ?_⟩
        · rw [tokens_separator hs] at h
          rw [respell_separator hs, tokens_separator hs, houtside ts hts h]
        · rw [ht.tokens_append_separator hs] at h
          rw [respell_separator hs, hu.tokens_append_separator hs,
            houtside ts hts (Nat.succ.inj h)]
      | false =>
        have hchar : IsToken [c] := by simp [IsToken, hc, hs]
        refine ⟨fun ts hts h => ?_, fun ts t u hts ht hu h => ?_⟩
        · cases ts with
          | nil =>
            exact absurd (List.eq_nil_of_length_eq_zero h) (hchar.tokens_append_ne_nil cs)
          | cons t later =>
            obtain ⟨ht, hlater⟩ := List.forall_mem_cons.1 hts
            rw [respell_token hs hc]
            exact hinside later [c] t hlater hchar ht h
        · rw [respell_inside hs hc]
          refine hinside ts (t ++ [c]) u hts (ht.snoc hs hc) hu ?_
          rwa [List.append_assoc, List.singleton_append]

theorem tokens_respell {line : Text} {ts : List Text} (hts : ∀ t ∈ ts, IsToken t)
    (h : (tokens line).length = ts.length) : tokens (respell false ts line) = ts :=
  (tokens_respell_parts line).1 ts hts h

theorem not_mem_respell {inside : Bool} {ts : List Text} {line : Text}
    (hts : ∀ t ∈ ts, IsToken t) (hl : '\n' ∉ line) : '\n' ∉ respell inside ts line := by
  induction line generalizing inside ts with
  | nil => simp [respell]
  | cons c cs ih =>
    obtain ⟨hc, hcs⟩ := not_or.1 (List.mem_cons.not.1 hl)
    unfold respell
    split
    · exact hl
    · split
      · exact List.mem_cons.not.2 (not_or.2 ⟨hc, ih hts hcs⟩)
      · split
        · exact ih hts hcs
        · split
          · exact hl
          · next t later =>
            obtain ⟨ht, hlater⟩ := List.forall_mem_cons.1 hts
            refine List.mem_append.not.2 (not_or.2 ⟨fun hmem => ?_, ih hlater hcs⟩)
            exact absurd (ht.2 _ hmem).1 (by decide)

/-- A line and the line that is read back from a text that it ends in have the same tokens. -/
theorem map_tokens_lines_unlines {ls : List Text} (h : ∀ l ∈ ls, '\n' ∉ l) :
    (Text.lines (Text.unlines ls)).map tokens = ls.map tokens := by
  induction ls with
  | nil => rw [show Text.unlines [] = [] from rfl, Text.lines_nil]
  | cons l ls ih =>
    obtain ⟨hl, hls⟩ := List.forall_mem_cons.1 h
    have hunlines : Text.unlines (l :: ls) = l ++ '\n' :: Text.unlines ls := by
      simp [Text.unlines]
    rw [hunlines]
    by_cases hr : l.getLast? = some '\r'
    · obtain ⟨k, rfl⟩ := List.getLast?_eq_some_iff.1 hr
      have hk : '\n' ∉ k := fun hmem => hl (List.mem_append_left _ hmem)
      rw [List.append_assoc, List.singleton_append, Text.lines_append_carriageReturn hk,
        List.map_cons, List.map_cons, ih hls, tokens_snoc_separator (by decide)]
    · rw [Text.lines_append_lineFeed hl hr, List.map_cons, List.map_cons, ih hls]

end Source

end TwoPass
