import TwoPass.Proofs.WrittenText

/-! The forms of a number. A numeral is the decimal digits of its number behind any number of
zeros, with or without a sign, and the texts that are read as a number are its numerals. -/

namespace TwoPass.Numeral

/-- A digit of a radix; those above nine are letters of either case. -/
def IsDigit (radix : Nat) (c : Char) (d : Nat) : Prop :=
  d < radix ∧ (c = Nat.digitChar d ∨ c = (Nat.digitChar d).toUpper)

/-- The decimal digits of a number behind any number of zeros. -/
def Digits (n : Nat) (t : Text) : Prop :=
  ∃ zeros, t = List.replicate zeros '0' ++ decimal n

inductive Unsigned (n : Nat) : Text → Prop
  | digits {t : Text} (h : Digits n t) : Unsigned n t
  | plus {t : Text} (h : Digits n t) : Unsigned n ('+' :: t)

inductive Signed : Int → Text → Prop
  | unsigned {n : Nat} {t : Text} (h : Unsigned n t) : Signed n t
  | minus {n : Nat} {t : Text} (h : Digits n t) : Signed (-n) ('-' :: t)

section Digits

variable {radix d : Nat} {c : Char}

theorem toNat_digitChar : ∀ d < 16,
    (Nat.digitChar d).toNat = (if d < 10 then d + 48 else d + 87) ∧
      (Nat.digitChar d).toUpper.toNat = if d < 10 then d + 48 else d + 55 := by
  decide

theorem digit?_digitChar_sixteen : ∀ d < 16,
    digit? 16 (Nat.digitChar d) = some d ∧ digit? 16 (Nat.digitChar d).toUpper = some d := by
  decide

/-- The radix only bounds the digits. -/
theorem digit?_eq_some_iff_sixteen (hr : radix ≤ 16) :
    digit? radix c = some d ↔ digit? 16 c = some d ∧ d < radix := by
  simp only [digit?, Option.filter_eq_some_iff, decide_eq_true_eq]
  constructor
  · rintro ⟨hvalue, hd⟩
    exact ⟨⟨hvalue, by omega⟩, hd⟩
  · rintro ⟨⟨hvalue, -⟩, hd⟩
    exact ⟨hvalue, hd⟩

theorem eq_digitChar_of_digit? (h : digit? 16 c = some d) :
    c = Nat.digitChar d ∨ c = (Nat.digitChar d).toUpper := by
  obtain ⟨hvalue, hd⟩ := Option.filter_eq_some_iff.1 h
  obtain ⟨hlower, hupper⟩ := toNat_digitChar d (by simpa using hd)
  rw [← Char.toNat_inj, ← Char.toNat_inj, hlower, hupper]
  have hle : ∀ {a b : Char}, a ≤ b ↔ a.toNat ≤ b.toNat := Iff.rfl
  simp only [hle, Char.reduceToNat] at hvalue
  split at hvalue
  · have hcode : c.toNat - 48 = d := Option.some.inj hvalue
    rw [if_pos (by omega)]
    exact .inl (by omega)
  · split at hvalue
    · have hcode : c.toNat - 97 + 10 = d := Option.some.inj hvalue
      rw [if_neg (by omega)]
      exact .inl (by omega)
    · split at hvalue
      · have hcode : c.toNat - 65 + 10 = d := Option.some.inj hvalue
        rw [if_neg (by omega), if_neg (by omega)]
        exact .inr (by omega)
      · cases hvalue

theorem digit?_eq_some_iff (hr : radix ≤ 16) : digit? radix c = some d ↔ IsDigit radix c d := by
  rw [digit?_eq_some_iff_sixteen hr]
  constructor
  · rintro ⟨hdigit, hd⟩
    exact ⟨hd, eq_digitChar_of_digit? hdigit⟩
  · rintro ⟨hd, hc⟩
    obtain ⟨hlower, hupper⟩ := digit?_digitChar_sixteen d (by omega)
    rcases hc with rfl | rfl
    · exact ⟨hlower, hd⟩
    · exact ⟨hupper, hd⟩

/-- Decimal digits have no case. -/
theorem digitChar_of_digit? (h : digit? 10 c = some d) : d < 10 ∧ Nat.digitChar d = c := by
  obtain ⟨hd, hc⟩ := (digit?_eq_some_iff (by decide)).1 h
  refine ⟨hd, ?_⟩
  obtain ⟨hlower, hupper⟩ := toNat_digitChar d (by omega)
  rw [if_pos hd] at hlower hupper
  rcases hc with rfl | rfl
  · rfl
  · rw [← Char.toNat_inj, hlower, hupper]

end Digits

/-- Behind a digit that is not zero, digits are those of the number that they make. -/
theorem decimal_of_digitsAfter? {m n : Nat} {t : Text} (hm : 0 < m)
    (h : digitsAfter? 10 m t = some n) : decimal m ++ t = decimal n := by
  induction t generalizing m with
  | nil =>
    obtain rfl : m = n := by simpa [digitsAfter?] using h
    exact List.append_nil _
  | cons c cs ih =>
    obtain ⟨d, hd, hrest⟩ := Option.bind_eq_some_iff.1 h
    obtain ⟨hlt, hc⟩ := digitChar_of_digit? hd
    rw [Nat.mul_comm] at hrest
    have hsnoc : decimal m ++ [c] = decimal (10 * m + d) := by
      rw [decimal, decimal, ← Nat.toDigits_append_toDigits (by decide) hm hlt,
        Nat.toDigits_of_lt_base hlt, hc]
    calc decimal m ++ c :: cs = (decimal m ++ [c]) ++ cs := by simp
      _ = decimal (10 * m + d) ++ cs := by rw [hsnoc]
      _ = decimal n := ih (by omega) hrest

theorem digits_of_digitsAfter? {n : Nat} {t : Text} (hne : t ≠ [])
    (h : digitsAfter? 10 0 t = some n) : Digits n t := by
  induction t with
  | nil => exact absurd rfl hne
  | cons c cs ih =>
    obtain ⟨d, hd, hrest⟩ := Option.bind_eq_some_iff.1 h
    obtain ⟨hlt, rfl⟩ := digitChar_of_digit? hd
    rw [Nat.zero_mul, Nat.zero_add] at hrest
    by_cases hz : d = 0
    · subst hz
      cases cs with
      | nil =>
        obtain rfl : 0 = n := by simpa [digitsAfter?] using hrest
        exact ⟨0, rfl⟩
      | cons e es =>
        obtain ⟨zeros, hzeros⟩ := ih (by simp) hrest
        exact ⟨zeros + 1, by rw [hzeros]; rfl⟩
    · have hdecimal := decimal_of_digitsAfter? (Nat.pos_of_ne_zero hz) hrest
      rw [decimal, Nat.toDigits_of_lt_base hlt] at hdecimal
      exact ⟨0, hdecimal⟩

theorem magnitude?_eq_some_iff {n : Nat} {t : Text} : magnitude? 10 t = some n ↔ Digits n t := by
  constructor
  · intro h
    unfold magnitude? at h
    split at h
    · cases h
    · next hne => exact digits_of_digitsAfter? (by simpa using hne) h
  · rintro ⟨zeros, rfl⟩
    exact magnitude?_zeros_append zeros n

section Characters

variable {n : Nat} {v : Int} {t : Text} {c : Char}

theorem Digits.isDigit (h : Digits n t) (hc : c ∈ t) : c.isDigit = true := by
  obtain ⟨zeros, rfl⟩ := h
  rcases List.mem_append.1 hc with hc | hc
  · rw [List.eq_of_mem_replicate hc]
    decide
  · exact isDigit_of_mem_decimal hc

theorem Digits.ne_nil (h : Digits n t) : t ≠ [] := by
  obtain ⟨zeros, rfl⟩ := h
  simp [decimal_ne_nil]

/-- A character of a numeral: a digit or a sign. -/
def isNumeric (c : Char) : Bool :=
  c.isDigit || c == '+' || c == '-'

theorem Digits.isNumeric (h : Digits n t) (hc : c ∈ t) : isNumeric c = true := by
  simp [Numeral.isNumeric, h.isDigit hc]

theorem Unsigned.isNumeric (h : Unsigned n t) (hc : c ∈ t) : isNumeric c = true := by
  cases h with
  | digits h => exact h.isNumeric hc
  | plus h =>
    rcases List.mem_cons.1 hc with rfl | hc
    · decide
    · exact h.isNumeric hc

theorem Unsigned.ne_nil (h : Unsigned n t) : t ≠ [] := by
  cases h with
  | digits h => exact h.ne_nil
  | plus h => simp

theorem Signed.isNumeric (h : Signed v t) (hc : c ∈ t) : isNumeric c = true := by
  cases h with
  | unsigned h => exact h.isNumeric hc
  | minus h =>
    rcases List.mem_cons.1 hc with rfl | hc
    · decide
    · exact h.isNumeric hc

theorem isBlank_of_isNumeric (h : isNumeric c = true) : Text.isBlank c = false := by
  simp only [Numeral.isNumeric, Bool.or_eq_true, beq_iff_eq] at h
  rcases h with (h | rfl) | rfl
  · exact isBlank_of_isDigit h
  · decide
  · decide

theorem solid_of_isNumeric (h : ∀ c ∈ t, isNumeric c = true) : Text.Solid t :=
  fun c hc => isBlank_of_isNumeric (h c hc)

theorem not_mem_of_isNumeric (h : ∀ c ∈ t, isNumeric c = true) (hc : isNumeric c = false) :
    c ∉ t := by
  intro hmem
  rw [h c hmem] at hc
  cases hc

end Characters

theorem dropPlus_of_ne {c : Char} (h : c ≠ '+') (t : Text) : dropPlus (c :: t) = c :: t := by
  unfold dropPlus
  split
  · next he => exact absurd (List.cons.inj he).1 h
  · rfl

theorem magnitude?_dropPlus_eq_some_iff {n : Nat} {t : Text} :
    magnitude? 10 (dropPlus t) = some n ↔ Unsigned n t := by
  rw [magnitude?_eq_some_iff]
  constructor
  · intro h
    cases t with
    | nil => exact absurd rfl h.ne_nil
    | cons c cs =>
      by_cases hc : c = '+'
      · subst hc
        exact .plus h
      · rw [dropPlus_of_ne hc] at h
        exact .digits h
  · intro h
    cases h with
    | digits h => rwa [dropPlus_of_digits fun c hc => h.isDigit hc]
    | plus h => exact h

theorem below?_eq_some_iff {bound : Nat} {t : Text} {a : Fin bound} :
    below? bound t = some a ↔ Unsigned a.val t := by
  rw [← magnitude?_dropPlus_eq_some_iff, below?, Option.bind_eq_some_iff]
  constructor
  · rintro ⟨n, hn, ha⟩
    split at ha
    · rw [hn, ← Option.some.inj ha]
    · cases ha
  · intro h
    exact ⟨a.val, h, by simp⟩

theorem signed?_eq_some_iff {t : Text} {v : Int} : signed? t = some v ↔ Signed v t := by
  have hminus : ∀ {s : Text}, ¬ ∃ n, Unsigned n ('-' :: s) := by
    rintro s ⟨n, hn⟩
    cases hn with
    | digits h => exact absurd (h.isDigit (List.mem_cons_self ..)) (by decide)
  constructor
  · intro h
    unfold signed? at h
    split at h
    · next s =>
      cases hm : magnitude? 10 s with
      | none => simp [hm] at h
      | some n =>
        obtain rfl : -(n : Int) = v := by simpa [hm] using h
        exact .minus (magnitude?_eq_some_iff.1 hm)
    · obtain ⟨n, hn, rfl⟩ := Option.map_eq_some_iff.1 h
      exact .unsigned (magnitude?_dropPlus_eq_some_iff.1 hn)
  · intro h
    cases h with
    | @unsigned n _ h =>
      unfold signed?
      split
      · exact absurd ⟨n, h⟩ hminus
      · rw [magnitude?_dropPlus_eq_some_iff.2 h]
        rfl
    | minus h =>
      rw [signed?, magnitude?_eq_some_iff.2 h]
      rfl

end TwoPass.Numeral
