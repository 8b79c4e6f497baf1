import Mathlib.Data.List.Infix
import TwoPass.Proofs.RecordLayout

/-! Parentheses on the lines of records. A line on which words are found is balanced unless a group
holds an opening parenthesis, and a line with such a group is read as no statement. -/

namespace TwoPass

namespace Text

/-- Every closing parenthesis closes one that was opened before it, and all are closed. -/
structure Balanced (t : Text) : Prop where
  prefixes : ∀ p, p <+: t → p.count ')' ≤ p.count '('
  whole : t.count '(' = t.count ')'

instance (t : Text) : Decidable (Balanced t) :=
  decidable_of_iff ((∀ p ∈ t.inits, p.count ')' ≤ p.count '(') ∧ t.count '(' = t.count ')')
    ⟨fun h => ⟨fun p hp => h.1 p ((List.mem_inits p t).2 hp), h.2⟩,
      fun h => ⟨fun p hp => h.prefixes p ((List.mem_inits p t).1 hp), h.whole⟩⟩

theorem Flat.count {t : Text} (h : Flat t) : t.count '(' = 0 ∧ t.count ')' = 0 :=
  ⟨List.count_eq_zero.2 h.1, List.count_eq_zero.2 h.2⟩

theorem Flat.balanced {t : Text} (h : Flat t) : Balanced t := by
  refine ⟨fun p hp => ?_, by rw [h.count.1, h.count.2]⟩
  have hclose : p.count ')' = 0 := List.count_eq_zero.2 fun hc => h.2 (hp.subset hc)
  omega

theorem Balanced.append {s t : Text} (hs : Balanced s) (ht : Balanced t) : Balanced (s ++ t) := by
  constructor
  · rintro p ⟨later, hp⟩
    rcases List.append_eq_append_iff.1 hp with ⟨q, hs', -⟩ | ⟨q, rfl, ht'⟩
    · exact hs.prefixes p ⟨q, hs'.symm⟩
    · have hwhole := hs.whole
      have hq := ht.prefixes q ⟨later, ht'.symm⟩
      simp only [List.count_append]
      omega
  · simp only [List.count_append, hs.whole, ht.whole]

theorem Flat.balanced_group {t : Text} (h : Flat t) : Balanced ('(' :: t ++ [')']) := by
  obtain ⟨hopen, hclose⟩ := h.count
  have hwhole : ('(' :: t ++ [')']).count '(' = 1 ∧ ('(' :: t ++ [')']).count ')' = 1 := by
    simp [hopen, hclose]
  refine ⟨fun p hp => ?_, by rw [hwhole.1, hwhole.2]⟩
  cases p with
  | nil => simp
  | cons c cs =>
    obtain ⟨rfl, -⟩ := List.cons_prefix_cons.1 hp
    have hle := hp.sublist.count_le ')'
    simp only [List.count_cons_self]
    omega

theorem flat_of_isAllBlank {t : Text} (h : isAllBlank t = true) : Flat t :=
  ⟨not_mem_of_isAllBlank h (by decide), not_mem_of_isAllBlank h (by decide)⟩

end Text

namespace Code

theorem Word.Flat.balanced {w : Word} (h : w.Flat) : Text.Balanced w.text := by
  cases w with
  | bare t => exact Text.Flat.balanced h
  | group t => exact Text.Flat.balanced_group h

theorem LaidOut.balanced {b : Bool} {ws : List Word} {line : Text} (h : LaidOut b ws line)
    (hws : ∀ w ∈ ws, w.Flat) : Text.Balanced line := by
  induction h with
  | nil hgap => exact (Text.flat_of_isAllBlank hgap).balanced
  | cons hgap _ _ ih =>
    obtain ⟨hw, hlater⟩ := List.forall_mem_cons.1 hws
    exact (Text.flat_of_isAllBlank hgap).balanced.append (hw.balanced.append (ih hlater))

theorem Word.Proper.flat_or_open {w : Word} (h : w.Proper) :
    w.Flat ∨ ∃ t, w = .group t ∧ '(' ∈ t := by
  cases w with
  | bare t =>
    have hchars := fun c (hc : c ∈ t) => Word.isBareChar_iff.1 (h.2 c hc)
    exact .inl ⟨fun hc => (hchars _ hc).2.1 rfl, fun hc => (hchars _ hc).2.2 rfl⟩
  | group t =>
    by_cases ho : '(' ∈ t
    · exact .inr ⟨t, rfl, ho⟩
    · exact .inl ⟨ho, h⟩

/-- Where words are found on a line that is not balanced, a group holds an opening parenthesis. -/
theorem exists_open_of_not_balanced {line : Text} {ws : List Word} (h : ¬ Text.Balanced line)
    (hws : words? line = some ws) : ∃ t, .group t ∈ ws ∧ '(' ∈ t := by
  obtain ⟨hout, hproper⟩ := words?_eq_some_iff.1 hws
  by_contra hnone
  apply h
  refine hout.balanced fun w hw => (hproper w hw).flat_or_open.resolve_right ?_
  rintro ⟨t, rfl, ho⟩
  exact hnone ⟨t, hw, ho⟩

end Code

namespace Record

/-- A line that is not balanced is refused, unless its tag names no class and all its stray
parentheses are opening ones inside of groups. -/
theorem read_of_not_balanced {line : Text} (h : ¬ Text.Balanced line) :
    (∃ defect, read line = .error (.corrupt (.record defect (Text.trim line)))) ∨
      ∃ location tag ws, read line = .ok ⟨location, .unrecognized tag, []⟩ ∧
        Code.words? line = some ws ∧ ∃ t, .group t ∈ ws ∧ '(' ∈ t := by
  cases hl : readLine line with
  | error defect => exact .inl ⟨defect, by rw [read, hl]⟩
  | ok r =>
    have hread := read_eq_ok_iff_readLine.2 hl
    obtain ⟨ws, hws, hspelling⟩ := readLine_eq_ok_iff.1 hl
    obtain ⟨t, ht, ho⟩ := Code.exists_open_of_not_balanced h hws
    obtain ⟨location, tag, os⟩ := r
    obtain ⟨later, htagged, -⟩ := hspelling.exists_tagged
    cases tag with
    | statement kind opcode =>
      have hflat : Text.Flat t := (hspelling.clean rfl).flat _ ht
      exact absurd ho hflat.1
    | unrecognized tag =>
      cases htagged
      exact .inr ⟨location, tag, ws, hread, hws, t, ht, ho⟩

def strayClose : Text :=
  "200 (IS,04) 1) (S,1)".toList

theorem read_strayClose :
    ¬ Text.Balanced strayClose ∧
      ∃ defect, read strayClose = .error (.corrupt (.record defect strayClose)) := by
  have h : ¬ Text.Balanced strayClose := by decide
  refine ⟨h, (read_of_not_balanced h).resolve_right ?_⟩
  rintro ⟨location, tag, ws, hread, -⟩
  cases hread

def strayOpen : Text :=
  "200 ((IS,04) 1 (S,1)".toList

/-- The tag of an instruction behind a stray parenthesis names no class, and its operands are
dropped. -/
theorem read_strayOpen :
    ¬ Text.Balanced strayOpen ∧
      read strayOpen = .ok ⟨some 200, .unrecognized "(IS,04".toList, []⟩ :=
  ⟨by decide, rfl⟩

end Record

end TwoPass
