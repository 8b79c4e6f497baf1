import TwoPass.Proofs.TokenSubstitution

/-! Tokens laid out on a line. Separators may stand before, between and behind the tokens, in runs
of any length, and a comment may follow. Cutting the line gives the tokens back, and every line is
laid out so from the tokens that it is cut into. -/

namespace TwoPass

namespace Text

variable {p : Char → Bool}

/-- Pieces with runs of separators before, between and behind them, and with one separator at least
between two pieces. The boolean says whether a piece stands in front. -/
inductive Separated (p : Char → Bool) : Bool → List Text → Text → Prop
  | nil {behindPiece : Bool} {gap : Text} (hgap : ∀ c ∈ gap, p c = true) :
      Separated p behindPiece [] gap
  | cons {behindPiece : Bool} {gap piece rest : Text} {later : List Text}
      (hgap : ∀ c ∈ gap, p c = true) (hbetween : behindPiece = true → gap ≠ [])
      (hrest : Separated p true later rest) :
      Separated p behindPiece (piece :: later) (gap ++ (piece ++ rest))

theorem Separated.separator_cons {b b' : Bool} {ts : List Text} {c : Char} {t : Text}
    (hc : p c = true) (h : Separated p b ts t) : Separated p b' ts (c :: t) := by
  cases h with
  | nil hgap => exact .nil (List.forall_mem_cons.2 ⟨hc, hgap⟩)
  | cons hgap _ hrest =>
    exact .cons (List.forall_mem_cons.2 ⟨hc, hgap⟩) (fun _ => by simp) hrest

theorem Separated.piece_append {ts : List Text} {rest : Text} (h : Separated p true ts rest)
    (piece : Text) : Separated p false (piece :: ts) (piece ++ rest) := by
  have hgap : ∀ c ∈ ([] : Text), p c = true := by simp
  exact .cons hgap (by simp) h

/-- What follows a piece begins with a separator. -/
theorem Separated.head {ts : List Text} {rest : Text} (h : Separated p true ts rest) :
    ∀ c ∈ rest.head?, p c = true := by
  intro c hc
  cases h with
  | nil hgap => exact hgap c (List.mem_of_mem_head? hc)
  | @cons _ gap _ _ _ hgap hbetween _ =>
    obtain ⟨d, ds, rfl⟩ := List.exists_cons_of_ne_nil (hbetween rfl)
    obtain rfl : d = c := by simpa using hc
    exact hgap d (by simp)

theorem pieces_nil : pieces p [] = [] := by
  simp [pieces, List.splitOnP_nil]

theorem pieces_separator_cons {c : Char} (hc : p c = true) (t : Text) :
    pieces p (c :: t) = pieces p t := by
  have hsplit := pieces_append_separator hc [] t
  rwa [List.nil_append, pieces_nil, List.nil_append] at hsplit

theorem pieces_separators_append {gap : Text} (h : ∀ c ∈ gap, p c = true) (t : Text) :
    pieces p (gap ++ t) = pieces p t := by
  induction gap with
  | nil => rfl
  | cons c cs ih =>
    obtain ⟨hc, hcs⟩ := List.forall_mem_cons.1 h
    rw [List.cons_append, pieces_separator_cons hc, ih hcs]

/-- A text that can be a piece. -/
def IsPiece (p : Char → Bool) (t : Text) : Prop :=
  t ≠ [] ∧ ∀ c ∈ t, p c = false

theorem IsPiece.pieces_append {piece rest : Text} (h : IsPiece p piece)
    (hrest : ∀ c ∈ rest.head?, p c = true) : pieces p (piece ++ rest) = piece :: pieces p rest := by
  have hpiece := pieces_of_forall_not h.1 h.2
  cases rest with
  | nil => rw [List.append_nil, hpiece, pieces_nil]
  | cons c cs =>
    have hc : p c = true := hrest c rfl
    rw [pieces_append_separator hc, hpiece, pieces_separator_cons hc, List.singleton_append]

theorem Separated.pieces_eq {b : Bool} {ts : List Text} {t : Text} (h : Separated p b ts t)
    (hts : ∀ piece ∈ ts, IsPiece p piece) : pieces p t = ts := by
  induction h with
  | @nil _ gap hgap =>
    have hnone := pieces_separators_append hgap []
    rwa [List.append_nil, pieces_nil] at hnone
  | cons hgap _ hrest ih =>
    obtain ⟨hpiece, hlater⟩ := List.forall_mem_cons.1 hts
    rw [pieces_separators_append hgap, hpiece.pieces_append hrest.head, ih hlater]

/-- The piece that a text begins with may have begun before the text. -/
theorem separated_pieces_append (front : Text) (hfront : ∀ c ∈ front, p c = false) (t : Text) :
    Separated p false (pieces p (front ++ t)) (front ++ t) := by
  induction t generalizing front with
  | nil =>
    have hnone : ∀ b, Separated p b [] [] := fun b => .nil (by simp)
    rw [List.append_nil]
    by_cases hne : front = []
    · rw [hne, pieces_nil]
      exact hnone false
    · have hend := (hnone true).piece_append front
      rwa [List.append_nil, ← pieces_of_forall_not hne hfront] at hend
  | cons c cs ih =>
    cases hc : p c with
    | true =>
      have hlater := ih [] (by simp)
      rw [List.nil_append] at hlater
      by_cases hne : front = []
      · rw [hne, List.nil_append, pieces_separator_cons hc]
        exact hlater.separator_cons hc
      · rw [pieces_append_separator hc, pieces_of_forall_not hne hfront, List.singleton_append]
        exact (hlater.separator_cons hc).piece_append front
    | false =>
      have hsnoc := ih (front ++ [c]) (List.forall_mem_append.2 ⟨hfront, by simpa using hc⟩)
      rwa [List.append_assoc, List.singleton_append] at hsnoc

theorem separated_pieces (t : Text) : Separated p false (pieces p t) t :=
  separated_pieces_append [] (by simp) t

end Text

namespace Source

theorem IsToken.isPiece {t : Text} (h : IsToken t) : Text.IsPiece isSeparator t :=
  ⟨h.1, fun c hc => (h.2 c hc).1⟩

theorem not_semicolon_mem_of_separated {b : Bool} {ts : List Text} {code : Text}
    (h : Text.Separated isSeparator b ts code) (hts : ∀ t ∈ ts, IsToken t) : ';' ∉ code := by
  have hgap : ∀ gap : Text, (∀ c ∈ gap, isSeparator c = true) → ';' ∉ gap :=
    fun gap hgap hc => ne_semicolon_of_isSeparator (hgap _ hc) rfl
  induction h with
  | @nil _ gap hall => exact hgap gap hall
  | @cons _ gap t rest later hall _ _ ih =>
    obtain ⟨ht, hlater⟩ := List.forall_mem_cons.1 hts
    simp only [List.mem_append, not_or]
    exact ⟨hgap gap hall, ht.not_semicolon_mem, ih hlater⟩

theorem tokens_of_separated {ts : List Text} {code : Text} (hts : ∀ t ∈ ts, IsToken t)
    (h : Text.Separated isSeparator false ts code) :
    tokens code = ts ∧ ∀ comment, tokens (code ++ ';' :: comment) = ts := by
  have hnone := not_semicolon_mem_of_separated h hts
  have hpieces : Text.pieces isSeparator code = ts := h.pieces_eq fun t ht => (hts t ht).isPiece
  constructor
  · rw [tokens, Text.before_of_not_mem hnone, hpieces]
  · intro comment
    rw [tokens, Text.before_append_mark hnone, hpieces]

/-- A line of tokens is cut into them, whatever separates them and whatever comment follows, and a
line in front of its comment is the tokens that it is cut into with separators between. -/
theorem tokens_laid_out :
    (∀ ts code, (∀ t ∈ ts, IsToken t) → Text.Separated isSeparator false ts code →
      tokens code = ts ∧ ∀ comment, tokens (code ++ ';' :: comment) = ts) ∧
    ∀ line, (∀ t ∈ tokens line, IsToken t) ∧
      ∃ code, Text.Separated isSeparator false (tokens line) code ∧ ';' ∉ code ∧
        (line = code ∨ ∃ comment, line = code ++ ';' :: comment) := by
  refine ⟨fun ts code => tokens_of_separated, fun line => ⟨fun t => isToken_of_mem_tokens, ?_⟩⟩
  exact ⟨Text.before ';' line, Text.separated_pieces _, Text.not_mem_before ';' line,
    Text.before_eq_or_append ';' line⟩

/-- Three tokens with commas and blanks of several kinds around them. -/
def mixedSeparators : Text :=
  ",\t É),\u3000='5'\u00a0, (,".toList

theorem tokens_mixedSeparators :
    let ts := ["É)".toList, "='5'".toList, "(".toList]
    (∀ t ∈ ts, IsToken t) ∧ Text.Separated isSeparator false ts mixedSeparators ∧
      tokens mixedSeparators = ts ∧ tokens (mixedSeparators ++ ";É, ;".toList) = ts := by
  intro ts
  have hts : ∀ t ∈ ts, IsToken t := by decide
  have hlast : Text.Separated isSeparator true [] ",".toList := .nil (List.all_eq_true.1 rfl)
  have hthird := @Text.Separated.cons _ true "\u00a0, ".toList "(".toList _ _
    (List.all_eq_true.1 rfl) (by decide) hlast
  have hsecond := @Text.Separated.cons _ true ",\u3000".toList "='5'".toList _ _
    (List.all_eq_true.1 rfl) (by decide) hthird
  have hout : Text.Separated isSeparator false ts mixedSeparators :=
    @Text.Separated.cons _ false ",\t ".toList "É)".toList _ _ (List.all_eq_true.1 rfl)
      (by decide) hsecond
  obtain ⟨hcode, hcomment⟩ := tokens_laid_out.1 ts mixedSeparators hts hout
  exact ⟨hts, hout, hcode, hcomment "É, ;".toList⟩

end Source

end TwoPass
