import TwoPass.Text.Blank

/-! Lines of a text. A line ends at a line feed, which a carriage return may precede; what follows
the last line feed is a line of its own unless it is empty, and keeps its carriage returns. -/

namespace TwoPass.Text

def lines : Text → List Text
  | [] => []
  | '\n' :: cs => [] :: lines cs
  | '\r' :: '\n' :: cs => [] :: lines cs
  | c :: cs =>
    match lines cs with
    | [] => [[c]]
    | first :: others => (c :: first) :: others

def unlines (ls : List Text) : Text :=
  ls.flatMap (· ++ ['\n'])

/-- The `n`-th line, counted from one; empty when there is none. -/
def lineAt (ls : List Text) : Nat → Text
  | 0 => []
  | n + 1 => ls.getD n []

def numberedFrom {α : Type} (n : Nat) : List α → List (Nat × α)
  | [] => []
  | x :: xs => (n, x) :: numberedFrom (n + 1) xs

def numbered {α : Type} (xs : List α) : List (Nat × α) :=
  numberedFrom 1 xs

theorem lines_nil : lines [] = [] := by
  rw [lines]

theorem lines_lineFeed (cs : Text) : lines ('\n' :: cs) = [] :: lines cs := by
  rw [lines]

theorem lines_append_lineFeed {l : Text} (hn : '\n' ∉ l) (hr : l.getLast? ≠ some '\r')
    (rest : Text) : lines (l ++ '\n' :: rest) = l :: lines rest := by
  induction l with
  | nil => exact lines_lineFeed rest
  | cons c cs ih =>
    simp only [List.mem_cons, not_or] at hn
    have hl : cs.getLast? ≠ some '\r' := by
      intro h
      apply hr
      rw [List.getLast?_cons, h]
      rfl
    have hc := ih hn.2 hl
    rw [List.cons_append, lines]
    · rw [hc]
    · exact fun h => hn.1 h.symm
    · intro tail hcr he
      cases cs with
      | nil => exact hr (by simp [hcr])
      | cons d ds =>
        rw [List.cons_append] at he
        exact hn.2 (List.mem_cons.2 (Or.inl (List.cons.inj he).1.symm))

/-- Lines that could stand in a text are read back from it. -/
theorem lines_unlines {ls : List Text}
    (h : ∀ l ∈ ls, '\n' ∉ l ∧ l.getLast? ≠ some '\r') : lines (unlines ls) = ls := by
  induction ls with
  | nil => exact lines_nil
  | cons l ls ih =>
    have hl := h l (List.mem_cons_self ..)
    have hs : unlines (l :: ls) = l ++ '\n' :: unlines ls := by simp [unlines]
    rw [hs, lines_append_lineFeed hl.1 hl.2, ih fun k hk => h k (List.mem_cons_of_mem _ hk)]

theorem lines_ne_nil {t : Text} (h : t ≠ []) : lines t ≠ [] := by
  fun_cases lines t with
  | case1 => exact absurd rfl h
  | case2 => simp
  | case3 => simp
  | case4 => simp
  | case5 => simp

end TwoPass.Text
