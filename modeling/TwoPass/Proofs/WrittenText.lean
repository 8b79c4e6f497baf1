import TwoPass.Text.Line
import TwoPass.Text.Numeral

/-! Texts without blanks, and numerals, which are such. What is written of a number is digits,
with a sign in front of them at most, and reading it gives the number back. Texts whose only
blanks are spaces and tabs are lines, whatever else they hold. -/

namespace TwoPass

namespace Text

/-- A text without blanks. -/
def Solid (t : Text) : Prop :=
  ∀ c ∈ t, isBlank c = false

theorem Solid.nil : Solid [] := by
  simp [Solid]

theorem solid_cons {c : Char} {t : Text} : Solid (c :: t) ↔ isBlank c = false ∧ Solid t := by
  simp [Solid]

theorem solid_append {s t : Text} : Solid (s ++ t) ↔ Solid s ∧ Solid t := by
  simp [Solid, or_imp, forall_and]

theorem trimEnd_of_solid {t : Text} (h : Solid t) : trimEnd t = t := by
  induction t with
  | nil => rfl
  | cons c cs ih =>
    obtain ⟨hc, hcs⟩ := solid_cons.1 h
    rw [trimEnd, ih hcs]
    cases cs with
    | nil => simp [hc]
    | cons d ds => rfl

/-- Trimming reaches no further than the last piece that has no blanks. -/
theorem trimEnd_append_of_solid {s t : Text} (h : Solid t) (hne : t ≠ []) :
    trimEnd (s ++ t) = s ++ t := by
  induction s with
  | nil => exact trimEnd_of_solid h
  | cons c cs ih =>
    rw [List.cons_append, trimEnd, ih]
    cases hcs : cs ++ t with
    | nil => simp [hne] at hcs
    | cons d ds => rfl

theorem trimStart_of_solid {t : Text} (h : Solid t) : trimStart t = t := by
  cases t with
  | nil => rfl
  | cons c cs => exact trimStart_cons_of_not_blank (solid_cons.1 h).1 cs

theorem trim_of_solid {t : Text} (h : Solid t) : trim t = t := by
  rw [trim, trimStart_of_solid h, trimEnd_of_solid h]

theorem isAllBlank_of_mem {t : Text} {c : Char} (hc : c ∈ t) (hb : isBlank c = false) :
    isAllBlank t = false := by
  cases ha : isAllBlank t with
  | false => rfl
  | true =>
    have hblank := List.all_eq_true.1 ha c hc
    rw [hb] at hblank
    cases hblank

theorem not_mem_of_isAllBlank {t : Text} {c : Char} (h : isAllBlank t = true)
    (hb : isBlank c = false) : c ∉ t := by
  intro hc
  rw [isAllBlank_of_mem hc hb] at h
  cases h

/-- A text that `lines` gives back whole. -/
def IsLine (t : Text) : Prop :=
  '\n' ∉ t ∧ t.getLast? ≠ some '\r'

theorem isLine_of_mem {t : Text} (h : ∀ c ∈ t, c = ' ' ∨ c = '\t' ∨ isBlank c = false) :
    IsLine t := by
  refine ⟨fun hn => ?_, fun hr => ?_⟩
  · exact absurd (h _ hn) (by decide)
  · exact absurd (h _ (List.mem_of_getLast? hr)) (by decide)

theorem lines_unlines_map {α : Type} {f : α → Text} {xs : List α} (h : ∀ x ∈ xs, IsLine (f x)) :
    lines (unlines (xs.map f)) = xs.map f := by
  apply lines_unlines
  intro l hl
  obtain ⟨x, hx, rfl⟩ := List.mem_map.1 hl
  exact h x hx

end Text

namespace Numeral

theorem isDigit_of_mem_decimal {n : Nat} {c : Char} (h : c ∈ decimal n) : c.isDigit = true :=
  Nat.isDigit_of_mem_toDigits (by decide) (by decide) h

theorem not_mem_decimal {c : Char} (hc : c.isDigit = false) (n : Nat) : c ∉ decimal n := by
  intro h
  rw [isDigit_of_mem_decimal h] at hc
  cases hc

theorem isDigit_of_mem_twoDigits {n : Nat} {c : Char} (h : c ∈ twoDigits n) :
    c.isDigit = true := by
  unfold twoDigits List.leftpad at h
  rcases List.mem_append.1 h with h | h
  · rw [List.eq_of_mem_replicate h]
    decide
  · exact isDigit_of_mem_decimal h

theorem isBlank_of_isDigit {c : Char} (h : c.isDigit = true) : Text.isBlank c = false := by
  simp only [Char.isDigit, Bool.and_eq_true, decide_eq_true_eq] at h
  have hlow : 48 ≤ c.toNat := h.1
  have hhigh : c.toNat ≤ 57 := h.2
  simp only [Text.isBlank, Bool.or_eq_false_iff, Bool.and_eq_false_iff, decide_eq_false_iff_not,
    beq_eq_false_iff_ne]
  omega

theorem solid_decimal (n : Nat) : Text.Solid (decimal n) :=
  fun _ hc => isBlank_of_isDigit (isDigit_of_mem_decimal hc)

theorem solid_twoDigits (n : Nat) : Text.Solid (twoDigits n) :=
  fun _ hc => isBlank_of_isDigit (isDigit_of_mem_twoDigits hc)

theorem mem_signedDecimal {v : Int} {c : Char} (h : c ∈ signedDecimal v) :
    c = '-' ∨ c.isDigit = true := by
  cases v with
  | ofNat n => exact .inr (isDigit_of_mem_decimal h)
  | negSucc n =>
    rcases List.mem_cons.1 h with h | h
    · exact .inl h
    · exact .inr (isDigit_of_mem_decimal h)

theorem solid_signedDecimal (v : Int) : Text.Solid (signedDecimal v) := by
  intro c hc
  rcases mem_signedDecimal hc with rfl | hd
  · decide
  · exact isBlank_of_isDigit hd

theorem magnitude?_zeros_append (zeros n : Nat) :
    magnitude? 10 (List.replicate zeros '0' ++ decimal n) = some n := by
  have hzeros : digitsAfter? 10 0 (List.replicate zeros '0') = some 0 := by
    induction zeros with
    | zero => rfl
    | succ k ih =>
      have hd : digit? 10 '0' = some 0 := by decide
      rw [List.replicate_succ, digitsAfter?, hd]
      exact ih
  have hne : List.replicate zeros '0' ++ decimal n ≠ [] := by simp [decimal_ne_nil]
  rw [magnitude?, if_neg (by simpa using hne), digitsAfter?_append, hzeros]
  exact digitsAfter?_decimal n

theorem magnitude?_twoDigits (n : Nat) : magnitude? 10 (twoDigits n) = some n :=
  magnitude?_zeros_append (2 - (decimal n).length) n

theorem dropPlus_of_digits {t : Text} (h : ∀ c ∈ t, c.isDigit = true) : dropPlus t = t := by
  unfold dropPlus
  split
  · exact absurd (h '+' (by simp)) (by decide)
  · rfl

theorem below?_of_magnitude? {bound : Nat} {t : Text} {a : Fin bound}
    (hd : ∀ c ∈ t, c.isDigit = true) (h : magnitude? 10 t = some a.val) :
    below? bound t = some a := by
  simp [below?, dropPlus_of_digits hd, h]

theorem below?_decimal {bound : Nat} (a : Fin bound) : below? bound (decimal a.val) = some a :=
  below?_of_magnitude? (fun _ => isDigit_of_mem_decimal) (magnitude?_decimal a.val)

theorem below?_twoDigits {bound : Nat} (a : Fin bound) :
    below? bound (twoDigits a.val) = some a :=
  below?_of_magnitude? (fun _ => isDigit_of_mem_twoDigits) (magnitude?_twoDigits a.val)

theorem signed?_signedDecimal (v : Int) : signed? (signedDecimal v) = some v := by
  cases v with
  | ofNat n =>
    have hd : ∀ c ∈ decimal n, c.isDigit = true := fun _ => isDigit_of_mem_decimal
    have hm := magnitude?_decimal n
    simp only [signedDecimal]
    unfold signed?
    split
    · next he =>
      exact absurd (hd '-' (by simp [he])) (by decide)
    · rw [dropPlus_of_digits hd, hm]
      rfl
  | negSucc n =>
    simp only [signedDecimal, signed?, magnitude?_decimal]
    rfl

end Numeral

end TwoPass
