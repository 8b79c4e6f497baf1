import Mathlib.Data.List.Forall2
import Mathlib.Data.Nat.Digits.Defs
import TwoPass.Program.Draft
import TwoPass.Proofs.NumeralForms

/-! The numbers of a source, by their forms. A number is a sign at most, a mark of its radix and at
least one digit, and it is what its digits make in that radix. The operands of START, of DS and of
the other data statements are accepted when they are such numbers, and blamed whole otherwise. -/

namespace TwoPass

namespace Numeral

/-- A text of at least one digit, and the number that its digits make. -/
def Positional (radix : Nat) (t : Text) (n : Nat) : Prop :=
  t ≠ [] ∧ ∃ ds, List.Forall₂ (IsDigit radix) t ds ∧ n = Nat.ofDigits radix ds.reverse

variable {radix m n : Nat} {t : Text}

theorem digitsAfter?_eq_some_iff (hr : radix ≤ 16) : digitsAfter? radix m t = some n ↔
    ∃ ds, List.Forall₂ (IsDigit radix) t ds ∧
      n = m * radix ^ ds.length + Nat.ofDigits radix ds.reverse := by
  induction t generalizing m with
  | nil => simp [digitsAfter?, List.forall₂_nil_left_iff, eq_comm]
  | cons c cs ih =>
    have hvalue : ∀ d (ds : List Nat), (m * radix + d) * radix ^ ds.length +
        Nat.ofDigits radix ds.reverse =
        m * radix ^ (d :: ds).length + Nat.ofDigits radix (d :: ds).reverse := by
      intro d ds
      rw [Nat.ofDigits_reverse_cons, List.length_cons, pow_succ]
      ring
    simp only [digitsAfter?, Option.bind_eq_some_iff, digit?_eq_some_iff hr, ih,
      List.forall₂_cons_left_iff]
    constructor
    · rintro ⟨d, hd, ds, hds, hn⟩
      exact ⟨d :: ds, ⟨d, ds, hd, hds, rfl⟩, hn.trans (hvalue d ds)⟩
    · rintro ⟨_, ⟨d, ds, hd, hds, rfl⟩, hn⟩
      exact ⟨d, hd, ds, hds, hn.trans (hvalue d ds).symm⟩

theorem magnitude?_eq_some_iff_positional (hr : radix ≤ 16) :
    magnitude? radix t = some n ↔ Positional radix t n := by
  unfold magnitude? Positional
  split
  · next he => simp [List.isEmpty_iff.1 he]
  · next he =>
    have hne : t ≠ [] := by simpa using he
    simp [digitsAfter?_eq_some_iff hr, hne]

end Numeral

namespace Source

/-- The mark in front of the digits of a radix. -/
inductive Mark : Nat → Text → Prop
  | binary : Mark 2 ['0', 'b']
  | octal : Mark 8 ['0', 'o']
  | hexadecimal : Mark 16 ['0', 'x']
  | decimal : Mark 10 []

/-- A number without a sign that a constant can hold. -/
def Magnitude (n : Nat) (t : Text) : Prop :=
  n < 2 ^ 63 ∧ ∃ radix mark digits, Mark radix mark ∧ t = mark ++ digits ∧
    Numeral.Positional radix digits n

inductive Spells : Int → Text → Prop
  | plain {n : Nat} {t : Text} (h : Magnitude n t) : Spells n t
  | plus {n : Nat} {t : Text} (h : Magnitude n t) : Spells n ('+' :: t)
  | minus {n : Nat} {t : Text} (h : Magnitude n t) : Spells (-n) ('-' :: t)

/-- A number that may stand between single quotes. -/
def SpellsConstant (v : Int) (t : Text) : Prop :=
  Spells v t ∨ ∃ inner, t = '\x27' :: (inner ++ ['\x27']) ∧ Spells v inner

variable {radix n : Nat} {v : Int} {t mark : Text}

theorem Mark.radix_le (h : Mark radix mark) : radix ≤ 16 := by
  cases h <;> decide

theorem unsigned?_eq_some_iff : unsigned? t = some n ↔
    ∃ radix mark digits, Mark radix mark ∧ t = mark ++ digits ∧
      Numeral.magnitude? radix digits = some n := by
  constructor
  · intro h
    unfold unsigned? at h
    split at h
    · exact ⟨2, _, _, .binary, rfl, h⟩
    · exact ⟨8, _, _, .octal, rfl, h⟩
    · exact ⟨16, _, _, .hexadecimal, rfl, h⟩
    · exact ⟨10, _, _, .decimal, rfl, h⟩
  · rintro ⟨radix, mark, digits, hmark, rfl, h⟩
    cases hmark with
    | binary => exact h
    | octal => exact h
    | hexadecimal => exact h
    | decimal =>
      -- decimal digits do not begin with the mark of another radix
      rw [List.nil_append]
      unfold unsigned?
      split
      · cases h
      · cases h
      · cases h
      · exact h

theorem bounded?_eq_some_iff : bounded? t = some n ↔ Magnitude n t := by
  rw [bounded?, Option.filter_eq_some_iff, unsigned?_eq_some_iff, Magnitude, and_comm]
  refine and_congr ?_ ?_
  · rw [decide_eq_true_iff, largest]
    omega
  refine exists_congr fun radix => exists_congr fun mark => exists_congr fun digits => ?_
  refine and_congr_right fun hmark => and_congr_right fun _ => ?_
  exact Numeral.magnitude?_eq_some_iff_positional hmark.radix_le

theorem number?_eq_some_iff : number? t = some v ↔ Spells v t := by
  have hnone : ∀ {s : Text} {n : Nat}, bounded? s = none → ¬ Magnitude n s := by
    intro s n hs h
    rw [bounded?_eq_some_iff.2 h] at hs
    cases hs
  constructor
  · intro h
    unfold number? at h
    split at h
    · next s =>
      cases hs : bounded? s with
      | none => simp [hs] at h
      | some n =>
        obtain rfl : -(n : Int) = v := by simpa [hs] using h
        exact .minus (bounded?_eq_some_iff.1 hs)
    · obtain ⟨n, hn, rfl⟩ := Option.map_eq_some_iff.1 h
      exact .plus (bounded?_eq_some_iff.1 hn)
    · obtain ⟨n, hn, rfl⟩ := Option.map_eq_some_iff.1 h
      exact .plain (bounded?_eq_some_iff.1 hn)
  · intro h
    cases h with
    | plus h => simp [number?, bounded?_eq_some_iff.2 h]
    | minus h => simp [number?, bounded?_eq_some_iff.2 h]
    | plain h =>
      -- a magnitude does not begin with a sign
      unfold number?
      split
      · exact absurd h (hnone rfl)
      · exact absurd h (hnone rfl)
      · rw [bounded?_eq_some_iff.2 h]
        rfl

theorem Spells.bounds (h : Spells v t) : -2 ^ 63 < v ∧ v < 2 ^ 63 := by
  cases h with
  | plain h | plus h | minus h =>
    have hbound := h.1
    omega

theorem address?_eq_some_iff {a : Address} : address? t = some a ↔ Spells a.val t := by
  rw [← number?_eq_some_iff, address?, Option.bind_eq_some_iff]
  constructor
  · rintro ⟨v, hv, ha⟩
    split at ha
    · next hrange =>
      obtain rfl := Option.some.inj ha
      rw [hv]
      simp [hrange.1]
    · cases ha
  · intro h
    refine ⟨_, h, ?_⟩
    rw [dif_pos (by omega)]
    simp

theorem not_spells_quote : ¬ Spells v ('\x27' :: t) := by
  rw [← number?_eq_some_iff]
  nofun

theorem unquoted_quoted (inner : Text) : unquoted ('\x27' :: (inner ++ ['\x27'])) = inner := by
  simp [unquoted]

theorem unquoted_of_ne_quote (h : ∀ s, t ≠ '\x27' :: s) : unquoted t = t := by
  unfold unquoted
  split
  · next s => exact absurd rfl (h s)
  · rfl

theorem eq_or_quoted_of_unquoted (t : Text) :
    unquoted t = t ∨ t = '\x27' :: (unquoted t ++ ['\x27']) := by
  unfold unquoted
  split
  · next rest =>
    split
    · next hlast =>
      obtain ⟨inner, rfl⟩ := List.getLast?_eq_some_iff.1 hlast
      simp
    · exact .inl rfl
  · exact .inl rfl

theorem spellsConstant_iff : SpellsConstant v t ↔ Spells v (unquoted t) := by
  constructor
  · rintro (h | ⟨inner, rfl, h⟩)
    · rwa [unquoted_of_ne_quote]
      rintro s rfl
      exact not_spells_quote h
    · rwa [unquoted_quoted]
  · intro h
    rcases eq_or_quoted_of_unquoted t with ht | ht
    · exact .inl (ht ▸ h)
    · exact .inr ⟨_, ht, h⟩

theorem constant?_eq_some_iff {c : Constant} : constant? t = some c ↔ SpellsConstant c.value t := by
  rw [spellsConstant_iff, ← number?_eq_some_iff, constant?, Option.bind_eq_some_iff]
  constructor
  · rintro ⟨v, hv, hc⟩
    rw [hv, Constant.value_of_ofInt? hc]
  · intro h
    exact ⟨_, h, Constant.ofInt?_value c⟩

theorem SpellsConstant.exists_constant (h : SpellsConstant v t) : ∃ c : Constant, c.value = v := by
  have hbounds := (spellsConstant_iff.1 h).bounds
  exact ⟨⟨v, by omega, by omega⟩, rfl⟩

end Source

namespace Draft

/-- The constant and the words that the operand of a data statement gives. -/
inductive Lays (m : Mnemonic) (t : Text) : Constant → Address → Prop
  | reserved {words : Address} (hm : m.name = "DS".toList) (h : Source.Spells words.val t) :
      Lays m t (.ofAddress words) words
  | constant {c : Constant} (hm : m.name ≠ "DS".toList) (h : Source.SpellsConstant c.value t) :
      Lays m t c m.length

variable {m : Mnemonic} {t : Text} {value : Constant} {words : Address} {line : Nat}
  {later : List Text}

theorem layout?_eq_some_iff : layout? m t = some (value, words) ↔ Lays m t value words := by
  constructor
  · intro h
    unfold layout? at h
    split at h
    · next hm =>
      obtain ⟨words, hwords, ⟨⟩⟩ := Option.map_eq_some_iff.1 h
      exact .reserved hm (Source.address?_eq_some_iff.1 hwords)
    · next hm =>
      obtain ⟨c, hc, ⟨⟩⟩ := Option.map_eq_some_iff.1 h
      exact .constant hm (Source.constant?_eq_some_iff.1 hc)
  · intro h
    cases h with
    | reserved hm h => rw [layout?, if_pos hm, Source.address?_eq_some_iff.2 h, Option.map_some]
    | constant hm h => rw [layout?, if_neg hm, Source.constant?_eq_some_iff.2 h, Option.map_some]

theorem setOrigin_of_spells {a : Address} (h : Source.Spells a.val t) (d : Draft) (opcode : Code) :
    setOrigin line opcode (t :: later) d =
      .done { d.emit ⟨none, .statement .directive opcode, [.constant (.ofAddress a)]⟩ with
        location := a } := by
  simp only [setOrigin, origin, Source.address?_eq_some_iff.2 h]

theorem setOrigin_of_not_spells (h : ∀ a : Address, ¬ Source.Spells a.val t) (d : Draft)
    (opcode : Code) : setOrigin line opcode (t :: later) d = .fail d (.badNumber line t) := by
  have hnone : Source.address? t = none :=
    Option.eq_none_iff_forall_ne_some.2 fun a ha => h a (Source.address?_eq_some_iff.1 ha)
  simp only [setOrigin, origin, hnone]

theorem declarative_of_lays (h : Lays m t value words) (options : Options) (label : Option Text)
    (d : Draft) : declarative options line label m (t :: later) d =
      (withLabel (bindLabel options line) label d).andThen fun e =>
        (e.emit ⟨some e.location, .statement .declarative m.opcode, [.constant value]⟩).advance
          words line := by
  simp only [declarative, layout?_eq_some_iff.2 h]

theorem declarative_of_not_lays (h : ∀ value words, ¬ Lays m t value words) (options : Options)
    (label : Option Text) (d : Draft) :
    declarative options line label m (t :: later) d = .fail d (.badNumber line t) := by
  have hnone : layout? m t = none :=
    Option.eq_none_iff_forall_ne_some.2 fun found hfound => h _ _ (layout?_eq_some_iff.1 hfound)
  simp only [declarative, hnone]

/-- A number of a source is read as what its form spells, within the bounds of a constant, and the
operands of START and of data are accepted as such numbers or blamed whole. -/
theorem numbers_read (t : Text) :
    (∀ v, Source.number? t = some v ↔ Source.Spells v t) ∧
      (∀ v, Source.Spells v t → -2 ^ 63 < v ∧ v < 2 ^ 63) ∧
      (∀ a : Address, Source.address? t = some a ↔ Source.Spells a.val t) ∧
      (∀ v, (∃ c, Source.constant? t = some c ∧ c.value = v) ↔ Source.SpellsConstant v t) ∧
      (∀ line m later d, m.name = "START".toList →
        (∀ a : Address, Source.Spells a.val t → directive line m (t :: later) d =
          .done { d.emit ⟨none, .statement .directive m.opcode, [.constant (.ofAddress a)]⟩ with
            location := a }) ∧
          ((∀ a : Address, ¬ Source.Spells a.val t) →
            directive line m (t :: later) d = .fail d (.badNumber line t))) ∧
      ∀ options line label m later d,
        (∀ value words, Lays m t value words →
          declarative options line label m (t :: later) d =
            (withLabel (bindLabel options line) label d).andThen fun e =>
              (e.emit ⟨some e.location, .statement .declarative m.opcode,
                [.constant value]⟩).advance words line) ∧
          ((∀ value words, ¬ Lays m t value words) →
            declarative options line label m (t :: later) d = .fail d (.badNumber line t)) := by
  refine ⟨fun _ => Source.number?_eq_some_iff, fun _ h => h.bounds,
    fun _ => Source.address?_eq_some_iff, fun v => ⟨?_, fun h => ?_⟩, ?_, ?_⟩
  · rintro ⟨c, hc, rfl⟩
    exact Source.constant?_eq_some_iff.1 hc
  · obtain ⟨c, rfl⟩ := h.exists_constant
    exact ⟨c, Source.constant?_eq_some_iff.2 h, rfl⟩
  · intro line m later d hm
    have hdirective : directive line m (t :: later) d = setOrigin line m.opcode (t :: later) d :=
      if_pos hm
    rw [hdirective]
    exact ⟨fun a h => setOrigin_of_spells h d m.opcode,
      fun h => setOrigin_of_not_spells h d m.opcode⟩
  · intro options line label m later d
    exact ⟨fun value words h => declarative_of_lays h options label d,
      fun h => declarative_of_not_lays h options label d⟩

/-- Hexadecimal digits of both cases are read; a sign behind a mark and a quote alone are not. -/
theorem numbers_read_hexadecimal :
    let origin : Mnemonic := ⟨"START".toList, .directive, 1, 0⟩
    let data : Mnemonic := ⟨"DC".toList, .declarative, 2, 1⟩
    let d := Draft.start {}
    Source.Spells 255 "+0xFf".toList ∧
      directive 1 origin ["+0xFf".toList] d = .done { d with
        location := 255
        records := [⟨none, .statement .directive 1, [.constant (.ofAddress 255)]⟩] } ∧
      Lays data "+0xFf".toList (.ofAddress 255) 1 ∧
      declarative {} 1 none data ["+0xFf".toList] d = .done { d with
        location := 1
        records := [⟨some 0, .statement .declarative 2, [.constant (.ofAddress 255)]⟩] } ∧
      directive 1 origin ["0x-5".toList] d = .fail d (.badNumber 1 "0x-5".toList) ∧
      declarative {} 1 none data ["\x27".toList] d = .fail d (.badNumber 1 "\x27".toList) := by
  intro origin data d
  have hread := numbers_read "+0xFf".toList
  have hspells : Source.Spells 255 "+0xFf".toList := (hread.1 255).1 rfl
  have hlays : Lays data "+0xFf".toList (.ofAddress 255) 1 := .constant (by decide) (.inl hspells)
  have hsigned : ∀ a : Address, ¬ Source.Spells a.val "0x-5".toList :=
    fun a h => nomatch ((numbers_read _).2.2.1 a).2 h
  have hquote : ∀ value words, ¬ Lays data "\x27".toList value words := by
    intro value words h
    cases h with
    | reserved hm h => exact absurd hm (by decide)
    | constant hm h =>
      obtain ⟨c, hc, -⟩ := ((numbers_read _).2.2.2.1 _).2 h
      cases hc
  exact ⟨hspells, (hread.2.2.2.2.1 1 origin [] d rfl).1 255 hspells, hlays,
    (hread.2.2.2.2.2 {} 1 none data [] d).1 _ _ hlays,
    ((numbers_read _).2.2.2.2.1 1 origin [] d rfl).2 hsigned,
    ((numbers_read _).2.2.2.2.2 {} 1 none data [] d).2 hquote⟩

end Draft

end TwoPass
