import TwoPass.Text.Blank

/-! Numerals. Numbers are written in the fewest decimal digits; they are read in any radix up to
sixteen, with leading zeros and with letters of either case as digits. -/

namespace TwoPass.Numeral

/-- The value of a digit, which must be smaller than the radix. -/
def digit? (radix : Nat) (c : Char) : Option Nat :=
  let value :=
    if '0' ≤ c ∧ c ≤ '9' then some (c.toNat - '0'.toNat)
    else if 'a' ≤ c ∧ c ≤ 'f' then some (c.toNat - 'a'.toNat + 10)
    else if 'A' ≤ c ∧ c ≤ 'F' then some (c.toNat - 'A'.toNat + 10)
    else none
  value.filter (· < radix)

/-- Reads digits after a number that the digits before them have given. -/
def digitsAfter? (radix : Nat) : Nat → Text → Option Nat
  | n, [] => some n
  | n, c :: cs => (digit? radix c).bind fun d => digitsAfter? radix (n * radix + d) cs

/-- The number that at least one digit gives, without a sign. -/
def magnitude? (radix : Nat) (t : Text) : Option Nat :=
  if t.isEmpty then none else digitsAfter? radix 0 t

def dropPlus : Text → Text
  | '+' :: t => t
  | t => t

/-- An unsigned decimal numeral, which a plus sign may precede, below a bound. -/
def below? (bound : Nat) (t : Text) : Option (Fin bound) :=
  (magnitude? 10 (dropPlus t)).bind fun n => if h : n < bound then some ⟨n, h⟩ else none

def signed? : Text → Option Int
  | '-' :: t => (magnitude? 10 t).map fun n => -(n : Int)
  | t => (magnitude? 10 (dropPlus t)).map Int.ofNat

def decimal (n : Nat) : Text :=
  Nat.toDigits 10 n

def signedDecimal : Int → Text
  | .ofNat n => decimal n
  | .negSucc n => '-' :: decimal (n + 1)

/-- A decimal numeral with blanks in front of it up to a width. -/
def padded (width n : Nat) : Text :=
  (decimal n).leftpad width ' '

def twoDigits (n : Nat) : Text :=
  (decimal n).leftpad 2 '0'

theorem digit?_digitChar {n : Nat} (h : n < 10) : digit? 10 (Nat.digitChar n) = some n := by
  rcases n with _ | _ | _ | _ | _ | _ | _ | _ | _ | _ | n
  case' succ => omega
  all_goals decide

theorem digitsAfter?_append (radix n : Nat) (s t : Text) :
    digitsAfter? radix n (s ++ t) =
      (digitsAfter? radix n s).bind fun m => digitsAfter? radix m t := by
  induction s generalizing n with
  | nil => rfl
  | cons c cs ih =>
    simp only [List.cons_append, digitsAfter?]
    cases digit? radix c with
    | none => rfl
    | some d => exact ih _

theorem digitsAfter?_decimal (n : Nat) : digitsAfter? 10 0 (decimal n) = some n := by
  induction n using Nat.strongRecOn with
  | ind n ih =>
    rw [decimal, Nat.toDigits_eq_if (by omega)]
    split
    · next h => simp [digitsAfter?, digit?_digitChar h]
    · next h =>
      have hd := ih (n / 10) (by omega)
      rw [decimal] at hd
      rw [digitsAfter?_append, hd]
      have hm := digit?_digitChar (Nat.mod_lt n (by omega : 10 > 0))
      simp only [Option.bind_some, digitsAfter?, hm]
      congr 1
      omega

theorem decimal_ne_nil (n : Nat) : decimal n ≠ [] := by
  intro h
  rw [decimal, Nat.toDigits_eq_if (by omega)] at h
  split at h <;> simp at h

theorem magnitude?_decimal (n : Nat) : magnitude? 10 (decimal n) = some n := by
  simp [magnitude?, decimal_ne_nil, digitsAfter?_decimal]

end TwoPass.Numeral
