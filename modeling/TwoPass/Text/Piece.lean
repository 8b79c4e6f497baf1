import TwoPass.Text.Blank

/-! Cutting a text at separators. The pieces are the longest stretches without a separator, in
order; empty ones are dropped, so that a run of separators cuts as one does. -/

namespace TwoPass.Text

def pieces (isSeparator : Char → Bool) (t : Text) : List Text :=
  (t.splitOnP isSeparator).filter (!·.isEmpty)

def words (t : Text) : List Text :=
  pieces isBlank t

/-- The text before the first occurrence of a character; all of it when there is none. -/
def before (mark : Char) (t : Text) : Text :=
  t.takeWhile (· != mark)

/-- The texts on the two sides of the first occurrence of a character. -/
def splitAt? (mark : Char) : Text → Option (Text × Text)
  | [] => none
  | c :: cs =>
    if c = mark then some ([], cs)
    else (splitAt? mark cs).map fun (left, right) => (c :: left, right)

/-- The texts on the two sides of the last character that satisfies a test. -/
def splitLast? (p : Char → Bool) : Text → Option (Text × Text)
  | [] => none
  | c :: cs =>
    match splitLast? p cs with
    | some (left, right) => some (c :: left, right)
    | none => if p c then some ([], cs) else none

theorem piece_ne_nil {p : Char → Bool} {t piece : Text} (h : piece ∈ pieces p t) : piece ≠ [] := by
  have he := (List.mem_filter.1 h).2
  rintro rfl
  simp at he

theorem eq_append_of_splitAt? {mark : Char} {t left right : Text}
    (h : splitAt? mark t = some (left, right)) : t = left ++ mark :: right := by
  induction t generalizing left with
  | nil => simp [splitAt?] at h
  | cons c cs ih =>
    by_cases hc : c = mark
    · simp only [splitAt?, hc, if_true, Option.some.injEq, Prod.mk.injEq] at h
      obtain ⟨rfl, rfl⟩ := h
      simp [hc]
    · simp only [splitAt?, hc, if_false, Option.map_eq_some_iff, Prod.mk.injEq] at h
      obtain ⟨⟨l, r⟩, hs, rfl, rfl⟩ := h
      simp [ih hs]

theorem eq_append_of_splitLast? {p : Char → Bool} {t left right : Text}
    (h : splitLast? p t = some (left, right)) : ∃ c, p c = true ∧ t = left ++ c :: right := by
  induction t generalizing left with
  | nil => simp [splitLast?] at h
  | cons c cs ih =>
    cases hs : splitLast? p cs with
    | none =>
      by_cases hc : p c = true
      · simp only [splitLast?, hs, hc, if_true, Option.some.injEq, Prod.mk.injEq] at h
        obtain ⟨rfl, rfl⟩ := h
        exact ⟨c, hc, rfl⟩
      · simp [splitLast?, hs, hc] at h
    | some found =>
      obtain ⟨l, r⟩ := found
      simp only [splitLast?, hs, Option.some.injEq, Prod.mk.injEq] at h
      obtain ⟨rfl, rfl⟩ := h
      obtain ⟨d, hd, he⟩ := ih hs
      exact ⟨d, hd, by simp [he]⟩

end TwoPass.Text
