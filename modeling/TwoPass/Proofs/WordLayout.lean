import TwoPass.Code.Reader
import TwoPass.Proofs.WrittenText

/-! Words laid out on a line, with blanks before, between and behind them. A scan of the line finds
the words again, and a line on which it finds some words is a layout of them. -/

namespace TwoPass.Code

namespace Word

def text : Word → Text
  | .bare t => t
  | .group t => '(' :: t ++ [')']

def isBare : Word → Bool
  | .bare _ => true
  | .group _ => false

/-- A character that a bare word can hold. -/
def isBareChar (c : Char) : Bool :=
  !Text.isBlank c && c != '(' && c != ')'

/-- A word that does not end before its text does. -/
def Proper : Word → Prop
  | .bare t => t ≠ [] ∧ ∀ c ∈ t, isBareChar c = true
  | .group t => ')' ∉ t

theorem isBareChar_iff {c : Char} :
    isBareChar c = true ↔ Text.isBlank c = false ∧ c ≠ '(' ∧ c ≠ ')' := by
  simp [isBareChar, and_assoc]

end Word

/-- Words with any blanks before, between and behind them, but with one at least between two bare
words. The first argument says whether a bare word stands in front. -/
inductive LaidOut : Bool → List Word → Text → Prop
  | nil {behindBare : Bool} {gap : Text} (hgap : Text.isAllBlank gap = true) :
      LaidOut behindBare [] gap
  | cons {behindBare : Bool} {gap rest : Text} {w : Word} {ws : List Word}
      (hgap : Text.isAllBlank gap = true)
      (hbetween : behindBare = true → w.isBare = true → gap ≠ [])
      (hrest : LaidOut w.isBare ws rest) : LaidOut behindBare (w :: ws) (gap ++ (w.text ++ rest))

theorem LaidOut.blank_cons {b b' : Bool} {ws : List Word} {c : Char} {line : Text}
    (hc : Text.isBlank c = true) (h : LaidOut b ws line) : LaidOut b' ws (c :: line) := by
  have hcons : ∀ {gap : Text}, Text.isAllBlank gap = true →
      Text.isAllBlank (c :: gap) = true := fun hgap => by simpa [Text.isAllBlank, hc] using hgap
  cases h with
  | nil hgap => exact .nil (hcons hgap)
  | cons hgap _ hrest => exact .cons (hcons hgap) (fun _ _ => by simp) hrest

/-- A word that follows no bare word directly needs nothing in front. -/
theorem LaidOut.word {b : Bool} {w : Word} {ws : List Word} {rest : Text}
    (hb : b = true → w.isBare = true → False) (h : LaidOut w.isBare ws rest) :
    LaidOut b (w :: ws) (w.text ++ rest) :=
  @LaidOut.cons b [] rest w ws rfl (fun hbare hw => absurd hw (hb hbare)) h

section Scan

theorem wordsFrom?_blanks {gap : Text} (h : Text.isAllBlank gap = true) (rest : Text) :
    wordsFrom? .gap (gap ++ rest) = wordsFrom? .gap rest := by
  induction gap with
  | nil => rfl
  | cons c cs ih =>
    obtain ⟨hc, hcs⟩ : Text.isBlank c = true ∧ Text.isAllBlank cs = true := by
      simpa [Text.isAllBlank] using h
    rw [List.cons_append, wordsFrom?, if_pos hc, ih hcs]

theorem wordsFrom?_gap_cons {c : Char} (h : Word.isBareChar c = true) (cs : Text) :
    wordsFrom? .gap (c :: cs) = wordsFrom? (.bare [c]) cs := by
  obtain ⟨hblank, hopen, hclose⟩ := Word.isBareChar_iff.1 h
  rw [wordsFrom?, if_neg (by simp [hblank]), if_neg hopen, if_neg hclose]

theorem wordsFrom?_bare_cons {c : Char} (h : Word.isBareChar c = true) (held cs : Text) :
    wordsFrom? (.bare held) (c :: cs) = wordsFrom? (.bare (c :: held)) cs := by
  obtain ⟨hblank, hopen, hclose⟩ := Word.isBareChar_iff.1 h
  rw [wordsFrom?, if_neg (by simp [hblank]), if_neg hopen, if_neg hclose]

theorem wordsFrom?_group {t : Text} (h : ')' ∉ t) (held rest : Text) :
    wordsFrom? (.group held) (t ++ ')' :: rest) =
      (wordsFrom? .gap rest).map (.group (held.reverse ++ t) :: ·) := by
  induction t generalizing held with
  | nil => simp [wordsFrom?]
  | cons c cs ih =>
    simp only [List.mem_cons, not_or] at h
    have hc : c ≠ ')' := fun he => h.1 he.symm
    rw [List.cons_append, wordsFrom?, if_neg hc, ih h.2]
    simp

/-- A text in front of which a bare word ends. -/
def EndsBare (rest : Text) : Prop :=
  ∀ c ∈ rest.head?, Text.isBlank c = true ∨ c = '('

theorem wordsFrom?_bare {t rest : Text} (ht : ∀ c ∈ t, Word.isBareChar c = true)
    (hrest : EndsBare rest) (held : Text) :
    wordsFrom? (.bare held) (t ++ rest) =
      (wordsFrom? .gap rest).map (.bare (held.reverse ++ t) :: ·) := by
  induction t generalizing held with
  | nil =>
    rw [List.nil_append, List.append_nil]
    cases rest with
    | nil => rfl
    | cons c cs =>
      by_cases hc : Text.isBlank c = true
      · rw [wordsFrom?, if_pos hc, wordsFrom?, if_pos hc]
      · have hopen : c = '(' := (hrest c rfl).resolve_left hc
        rw [wordsFrom?, if_neg hc, if_pos hopen, wordsFrom?, if_neg hc, if_pos hopen]
  | cons c cs ih =>
    have hcs := ih (fun d hd => ht d (by simp [hd])) (c :: held)
    rw [List.cons_append, wordsFrom?_bare_cons (ht c (by simp)), hcs]
    simp

theorem EndsBare.blanks {gap rest : Text} (hgap : Text.isAllBlank gap = true)
    (h : gap = [] → EndsBare rest) : EndsBare (gap ++ rest) := by
  cases gap with
  | nil => exact h rfl
  | cons c cs =>
    intro d hd
    obtain rfl : c = d := by simpa using hd
    exact .inl (List.all_eq_true.1 hgap c (by simp))

theorem LaidOut.endsBare {ws : List Word} {rest : Text} (h : LaidOut true ws rest) :
    EndsBare rest := by
  cases h with
  | nil hgap =>
    have hends := @EndsBare.blanks _ [] hgap fun _ => by simp [EndsBare]
    rwa [List.append_nil] at hends
  | @cons _ gap rest w ws hgap hbetween hrest =>
    refine EndsBare.blanks hgap fun hne => ?_
    -- without a blank the next word is a group
    cases w with
    | bare t => exact absurd hne (hbetween rfl rfl)
    | group t =>
      intro c hc
      obtain rfl : '(' = c := by simpa [Word.text] using hc
      exact .inr rfl

theorem wordsFrom?_gap_group {t : Text} (h : ')' ∉ t) (rest : Text) :
    wordsFrom? .gap ('(' :: (t ++ ')' :: rest)) = (wordsFrom? .gap rest).map (.group t :: ·) := by
  rw [wordsFrom?, if_neg (by decide), if_pos rfl, wordsFrom?_group h]
  rfl

theorem wordsFrom?_gap_bare {t rest : Text} (h : (Word.bare t).Proper) (hrest : EndsBare rest) :
    wordsFrom? .gap (t ++ rest) = (wordsFrom? .gap rest).map (.bare t :: ·) := by
  obtain ⟨hne, hchars⟩ := h
  obtain ⟨c, cs, rfl⟩ := List.exists_cons_of_ne_nil hne
  have hcs : ∀ d ∈ cs, Word.isBareChar d = true := fun d hd => hchars d (by simp [hd])
  rw [List.cons_append, wordsFrom?_gap_cons (hchars c (by simp)), wordsFrom?_bare hcs hrest]
  rfl

theorem wordsFrom?_of_laidOut {b : Bool} {ws : List Word} {line : Text} (h : LaidOut b ws line)
    (hws : ∀ w ∈ ws, w.Proper) : wordsFrom? .gap line = some ws := by
  induction h with
  | @nil _ gap hgap =>
    have hscan := wordsFrom?_blanks hgap []
    rw [List.append_nil] at hscan
    rw [hscan]
    rfl
  | @cons _ gap rest w ws hgap _ hrest ih =>
    have hscan := ih fun v hv => hws v (by simp [hv])
    have hw := hws w (by simp)
    rw [wordsFrom?_blanks hgap]
    cases w with
    | group t =>
      have ht : (Word.group t).text ++ rest = '(' :: (t ++ ')' :: rest) := by simp [Word.text]
      rw [ht, wordsFrom?_gap_group hw, hscan]
      rfl
    | bare t =>
      rw [Word.text, wordsFrom?_gap_bare hw hrest.endsBare, hscan]
      rfl

/-- What a scan has still to read, where it stands, for it to find some words. -/
def Scan.Finds : Scan → List Word → Text → Prop
  | .gap, ws, line => LaidOut false ws line ∧ ∀ w ∈ ws, w.Proper
  | .bare held, ws, line =>
    ∃ t rest later, line = t ++ rest ∧ ws = .bare (held.reverse ++ t) :: later ∧
      (∀ c ∈ t, Word.isBareChar c = true) ∧ LaidOut true later rest ∧ ∀ w ∈ later, w.Proper
  | .group held, ws, line =>
    ∃ t rest later, line = t ++ ')' :: rest ∧ ws = .group (held.reverse ++ t) :: later ∧
      ')' ∉ t ∧ LaidOut false later rest ∧ ∀ w ∈ later, w.Proper

theorem Scan.finds_group_nil {ws : List Word} {cs : Text} (h : Scan.Finds (.group []) ws cs)
    (b : Bool) : LaidOut b ws ('(' :: cs) ∧ ∀ w ∈ ws, w.Proper := by
  obtain ⟨t, rest, later, rfl, rfl, ht, hrest, hlater⟩ := h
  constructor
  · have hword := LaidOut.word (b := b) (w := .group t) (fun _ hw => by cases hw) hrest
    simpa [Word.text] using hword
  · intro w hw
    rcases List.mem_cons.1 hw with rfl | hw
    · exact ht
    · exact hlater w hw

theorem Scan.finds_bare_cons {ws : List Word} {c : Char} {cs : Text} {held : Text}
    (hc : Word.isBareChar c = true) (h : Scan.Finds (.bare (c :: held)) ws cs) :
    Scan.Finds (.bare held) ws (c :: cs) := by
  obtain ⟨t, rest, later, rfl, rfl, ht, hrest, hlater⟩ := h
  refine ⟨c :: t, rest, later, rfl, by simp, fun d hd => ?_, hrest, hlater⟩
  rcases List.mem_cons.1 hd with rfl | hd
  · exact hc
  · exact ht d hd

theorem finds_of_wordsFrom? {scan : Scan} {line : Text} {ws : List Word}
    (h : wordsFrom? scan line = some ws) : scan.Finds ws line := by
  fun_induction wordsFrom? scan line generalizing ws with
  | case1 =>
    cases h
    exact ⟨.nil rfl, by simp⟩
  | case2 held =>
    cases h
    exact ⟨[], [], [], rfl, by simp, by simp, .nil rfl, by simp⟩
  | case3 held => cases h
  | case4 c cs hc ih => exact ⟨(ih h).1.blank_cons hc, (ih h).2⟩
  | case5 cs _ ih => exact Scan.finds_group_nil (ih h) false
  | case6 cs _ _ => cases h
  | case7 c cs hblank hopen hclose ih =>
    have hc : Word.isBareChar c = true :=
      Word.isBareChar_iff.2 ⟨by simpa using hblank, hopen, hclose⟩
    obtain ⟨t, rest, later, rfl, rfl, ht, hrest, hlater⟩ := ih h
    constructor
    · exact LaidOut.word (b := false) (w := .bare (c :: t)) (by simp) hrest
    · intro w hw
      rcases List.mem_cons.1 hw with rfl | hw
      · refine ⟨by simp, fun d hd => ?_⟩
        have hd' : d = c ∨ d ∈ t := by simpa using hd
        rcases hd' with rfl | hd
        · exact hc
        · exact ht d hd
      · exact hlater w hw
  | case8 held c cs hc ih =>
    obtain ⟨later, hlater, rfl⟩ := Option.map_eq_some_iff.1 h
    obtain ⟨hout, hproper⟩ := ih hlater
    exact ⟨[], c :: cs, later, rfl, by simp, by simp, hout.blank_cons hc, hproper⟩
  | case9 held cs _ ih =>
    obtain ⟨later, hlater, rfl⟩ := Option.map_eq_some_iff.1 h
    obtain ⟨hout, hproper⟩ := Scan.finds_group_nil (ih hlater) true
    exact ⟨[], '(' :: cs, later, rfl, by simp, by simp, hout, hproper⟩
  | case10 held cs _ _ => cases h
  | case11 held c cs hblank hopen hclose ih =>
    exact Scan.finds_bare_cons
      (Word.isBareChar_iff.2 ⟨by simpa using hblank, hopen, hclose⟩) (ih h)
  | case12 held cs ih =>
    obtain ⟨later, hlater, rfl⟩ := Option.map_eq_some_iff.1 h
    obtain ⟨hout, hproper⟩ := ih hlater
    exact ⟨[], cs, later, rfl, by simp, by simp, hout, hproper⟩
  | case13 held c cs hc ih =>
    obtain ⟨t, rest, later, rfl, rfl, ht, hrest, hlater⟩ := ih h
    exact ⟨c :: t, rest, later, rfl, by simp, by simp [ht, Ne.symm hc], hrest, hlater⟩

end Scan

theorem words?_eq_some_iff {line : Text} {ws : List Word} :
    words? line = some ws ↔ LaidOut false ws line ∧ ∀ w ∈ ws, w.Proper := by
  constructor
  · exact fun h => finds_of_wordsFrom? h
  · exact fun h => wordsFrom?_of_laidOut h.1 h.2

end TwoPass.Code
