/-! Texts and their blank characters. A blank is a character of Unicode's White_Space class, and
trimming removes blanks from the ends of a text and nothing else. -/

namespace TwoPass

abbrev Text := List Char

namespace Text

def isBlank (c : Char) : Bool :=
  let n := c.toNat
  (9 ≤ n && n ≤ 13) || n == 0x20 || n == 0x85 || n == 0xA0 || n == 0x1680 ||
    (0x2000 ≤ n && n ≤ 0x200A) || n == 0x2028 || n == 0x2029 || n == 0x202F || n == 0x205F ||
    n == 0x3000

def trimStart (t : Text) : Text :=
  t.dropWhile isBlank

def trimEnd : Text → Text
  | [] => []
  | c :: cs =>
    match trimEnd cs with
    | [] => if isBlank c then [] else [c]
    | d :: ds => c :: d :: ds

def trim (t : Text) : Text :=
  trimEnd (trimStart t)

/-- A text of blanks only; the empty text is one. -/
def isAllBlank (t : Text) : Bool :=
  t.all isBlank

theorem trimStart_blank_cons {c : Char} (h : isBlank c = true) (cs : Text) :
    trimStart (c :: cs) = trimStart cs := by
  simp [trimStart, h]

theorem trimStart_cons_of_not_blank {c : Char} (h : isBlank c = false) (cs : Text) :
    trimStart (c :: cs) = c :: cs := by
  simp [trimStart, h]

theorem trimEnd_eq_nil_iff {t : Text} : trimEnd t = [] ↔ isAllBlank t = true := by
  induction t with
  | nil => simp [trimEnd, isAllBlank]
  | cons c cs ih =>
    rw [trimEnd]
    cases he : trimEnd cs with
    | nil =>
      have hb : cs.all isBlank = true := ih.1 he
      by_cases hc : isBlank c = true <;> simp [isAllBlank, hc, hb]
    | cons d ds =>
      have hb : ¬ cs.all isBlank = true := fun h => by simp [ih.2 h] at he
      simp only [isAllBlank, List.all_cons, Bool.and_eq_true, hb, and_false, reduceCtorEq]

theorem trimStart_eq_nil_iff {t : Text} : trimStart t = [] ↔ isAllBlank t = true := by
  induction t with
  | nil => simp [trimStart, isAllBlank]
  | cons c cs ih =>
    by_cases hc : isBlank c = true
    · rw [trimStart_blank_cons hc, ih]
      simp [isAllBlank, hc]
    · rw [trimStart_cons_of_not_blank (by simpa using hc)]
      simp [isAllBlank, hc]

end Text

end TwoPass
