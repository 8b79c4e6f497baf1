import TwoPass.Text.Numeral

/-! The numbers of the machine: addresses of sixteen bits, codes of eight, and constants of
sixty-four with a sign. -/

namespace TwoPass

abbrev Address := Fin 65536

abbrev Code := Fin 256

instance Address.neZero : @NeZero Nat Zero.ofOfNat0 65536 :=
  ⟨by decide⟩

instance Code.neZero : @NeZero Nat Zero.ofOfNat0 256 :=
  ⟨by decide⟩

structure Constant where
  value : Int
  lower : -9223372036854775808 ≤ value := by decide
  upper : value ≤ 9223372036854775807 := by decide
deriving DecidableEq

namespace Constant

def ofInt? (v : Int) : Option Constant :=
  if h : -9223372036854775808 ≤ v ∧ v ≤ 9223372036854775807 then some ⟨v, h.1, h.2⟩ else none

def ofAddress (a : Address) : Constant :=
  ⟨a.val, by omega, by omega⟩

theorem ofInt?_value (c : Constant) : ofInt? c.value = some c := by
  simp [ofInt?, c.lower, c.upper]

theorem value_of_ofInt? {v : Int} {c : Constant} (h : ofInt? v = some c) : c.value = v := by
  unfold ofInt? at h
  split at h
  · cases h
    rfl
  · simp at h

end Constant

/-- The address `words` further on, unless it lies past the last one. -/
def Address.advance? (a words : Address) : Option Address :=
  if h : a.val + words.val < 65536 then some ⟨a.val + words.val, h⟩ else none

theorem Address.advance?_eq_none_iff {a words : Address} :
    Address.advance? a words = none ↔ 65535 < a.val + words.val := by
  unfold Address.advance?
  split <;> simp <;> omega

theorem Address.val_of_advance? {a words b : Address} (h : Address.advance? a words = some b) :
    b.val = a.val + words.val := by
  unfold Address.advance? at h
  split at h
  · cases h
    rfl
  · simp at h

end TwoPass
