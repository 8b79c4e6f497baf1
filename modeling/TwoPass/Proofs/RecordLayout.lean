import Mathlib.Data.List.Forall2
import TwoPass.Proofs.NumeralForms
import TwoPass.Proofs.WrittenCode

/-! The layouts of a record. Each part of a record has its spellings as a word, with blanks around
every piece inside parentheses, and a line that is read as a record is a layout of such words. -/

namespace TwoPass

namespace Text

/-- A piece with any blanks around it. -/
def Around (piece t : Text) : Prop :=
  ∃ before after, isAllBlank before = true ∧ isAllBlank after = true ∧ t = before ++ piece ++ after

/-- Two pieces with a comma between them and any blanks around each. -/
def Pair (first second t : Text) : Prop :=
  ∃ left right, t = left ++ ',' :: right ∧ Around first left ∧ Around second right

theorem exists_trimStart (t : Text) :
    ∃ before, isAllBlank before = true ∧ t = before ++ trimStart t :=
  ⟨t.takeWhile isBlank, List.all_takeWhile, List.takeWhile_append_dropWhile.symm⟩

theorem exists_trimEnd (t : Text) : ∃ after, isAllBlank after = true ∧ t = trimEnd t ++ after := by
  induction t with
  | nil => exact ⟨[], rfl, rfl⟩
  | cons c cs ih =>
    obtain ⟨after, hafter, hcs⟩ := ih
    rw [trimEnd]
    cases he : trimEnd cs with
    | nil =>
      rw [he, List.nil_append] at hcs
      by_cases hc : isBlank c = true
      · refine ⟨c :: after, ?_, by simp [hc, hcs]⟩
        simpa [isAllBlank, hc] using hafter
      · exact ⟨after, hafter, by simp [hc, hcs]⟩
    | cons d ds =>
      rw [he] at hcs
      exact ⟨after, hafter, by simp [hcs]⟩

theorem around_trim (t : Text) : Around (trim t) t := by
  obtain ⟨before, hbefore, hstart⟩ := exists_trimStart t
  obtain ⟨after, hafter, hend⟩ := exists_trimEnd (trimStart t)
  refine ⟨before, after, hbefore, hafter, ?_⟩
  rw [trim, List.append_assoc, ← hend, ← hstart]

theorem trimEnd_append_blanks {after : Text} (h : isAllBlank after = true) (t : Text) :
    trimEnd (t ++ after) = trimEnd t := by
  induction t with
  | nil => exact trimEnd_eq_nil_iff.2 h
  | cons c cs ih => rw [List.cons_append, trimEnd, trimEnd, ih]

theorem trimStart_blanks_append {before : Text} (h : isAllBlank before = true) (t : Text) :
    trimStart (before ++ t) = trimStart t :=
  List.dropWhile_append_of_pos (List.all_eq_true.1 h)

theorem trim_of_around {piece t : Text} (hp : Solid piece) (h : Around piece t) :
    trim t = piece := by
  obtain ⟨before, after, hbefore, hafter, rfl⟩ := h
  rw [trim, List.append_assoc, trimStart_blanks_append hbefore]
  cases piece with
  | nil =>
    have hblank : trimStart after = [] := trimStart_eq_nil_iff.2 hafter
    rw [List.nil_append, hblank]
    rfl
  | cons c cs =>
    rw [List.cons_append, trimStart_cons_of_not_blank (solid_cons.1 hp).1, ← List.cons_append,
      trimEnd_append_blanks hafter, trimEnd_of_solid hp]

theorem mem_of_around {piece t : Text} {c : Char} (h : Around piece t) (hb : isBlank c = false)
    (hc : c ∈ t) : c ∈ piece := by
  obtain ⟨before, after, hbefore, hafter, rfl⟩ := h
  rcases List.mem_append.1 hc with hc | hc
  · exact (List.mem_append.1 hc).resolve_left (not_mem_of_isAllBlank hbefore hb)
  · exact absurd hc (not_mem_of_isAllBlank hafter hb)

theorem mem_of_pair {first second t : Text} {c : Char} (h : Pair first second t)
    (hb : isBlank c = false) (hne : c ≠ ',') (hc : c ∈ t) : c ∈ first ∨ c ∈ second := by
  obtain ⟨left, right, rfl, hl, hr⟩ := h
  rcases List.mem_append.1 hc with hc | hc
  · exact .inl (mem_of_around hl hb hc)
  · rcases List.mem_cons.1 hc with rfl | hc
    · exact absurd rfl hne
    · exact .inr (mem_of_around hr hb hc)

theorem splitAt?_eq_none {mark : Char} {t : Text} (h : mark ∉ t) : splitAt? mark t = none := by
  cases hs : splitAt? mark t with
  | none => rfl
  | some found =>
    obtain ⟨left, right⟩ := found
    exact absurd (by simp [eq_append_of_splitAt? hs]) h

theorem pair_of_splitAt? {t left right : Text} (h : splitAt? ',' t = some (left, right)) :
    Pair (trim left) (trim right) t :=
  ⟨left, right, eq_append_of_splitAt? h, around_trim left, around_trim right⟩

theorem Pair.splitAt? {first second t : Text} (h : Pair first second t) (hf : Solid first)
    (hcomma : ',' ∉ first) (hs : Solid second) :
    ∃ left right, splitAt? ',' t = some (left, right) ∧ trim left = first ∧
      trim right = second := by
  obtain ⟨left, right, rfl, hl, hr⟩ := h
  have hleft : ',' ∉ left := fun hc => hcomma (mem_of_around hl (by decide) hc)
  exact ⟨left, right, splitAt?_append hleft right, trim_of_around hf hl, trim_of_around hs hr⟩

end Text

namespace Operand

/-- The words that an operand may be written as. -/
inductive Spelling : Operand → Code.Word → Prop
  | bare {code : Code} {t : Text} (h : Numeral.Unsigned code.val t) :
      Spelling (.register code) (.bare t)
  | group {code : Code} {numeral t : Text} (h : Numeral.Unsigned code.val numeral)
      (ht : Text.Around numeral t) : Spelling (.register code) (.group t)
  | symbol {o : Ordinal} {numeral t : Text} (h : Numeral.Unsigned o.number numeral)
      (hbound : o.number < ordinalBound) (ht : Text.Pair ['S'] numeral t) :
      Spelling (.symbol o) (.group t)
  | literal {o : Ordinal} {numeral t : Text} (h : Numeral.Unsigned o.number numeral)
      (hbound : o.number < ordinalBound) (ht : Text.Pair ['L'] numeral t) :
      Spelling (.literal o) (.group t)
  | constant {c : Constant} {numeral t : Text} (h : Numeral.Signed c.value numeral)
      (ht : Text.Pair ['C'] numeral t) : Spelling (.constant c) (.group t)

theorem readOrdinal?_eq_some_iff {t : Text} {o : Ordinal} :
    readOrdinal? t = some o ↔ Numeral.Unsigned o.number t ∧ o.number < ordinalBound := by
  rw [readOrdinal?, Option.bind_eq_some_iff]
  constructor
  · rintro ⟨n, hn, ho⟩
    rw [Ordinal.number_of_ofNumber? ho]
    exact ⟨Numeral.below?_eq_some_iff.1 hn, n.isLt⟩
  · rintro ⟨h, hbound⟩
    exact ⟨⟨o.number, hbound⟩, Numeral.below?_eq_some_iff.2 h, Ordinal.ofNumber?_number o⟩

theorem readConstant?_eq_some_iff {t : Text} {c : Constant} :
    readConstant? t = some c ↔ Numeral.Signed c.value t := by
  rw [readConstant?, Option.bind_eq_some_iff]
  constructor
  · rintro ⟨v, hv, hc⟩
    rw [Constant.value_of_ofInt? hc]
    exact Numeral.signed?_eq_some_iff.1 hv
  · intro h
    exact ⟨c.value, Numeral.signed?_eq_some_iff.2 h, Constant.ofInt?_value c⟩

theorem readRegister?_eq_some_iff {t : Text} {o : Operand} :
    readRegister? t = some o ↔ ∃ code, Numeral.Unsigned code.val t ∧ register code = o := by
  simp only [readRegister?, Option.map_eq_some_iff, Numeral.below?_eq_some_iff]

theorem spelling_of_readGroup? {t : Text} {o : Operand} (h : readGroup? t = some o) :
    Spelling o (.group t) := by
  unfold readGroup? at h
  split at h
  · obtain ⟨code, hcode, rfl⟩ := readRegister?_eq_some_iff.1 h
    exact .group hcode (Text.around_trim t)
  · next kind value hs =>
    have hpair := Text.pair_of_splitAt? hs
    split at h
    · next hk =>
      obtain ⟨o, ho, rfl⟩ := Option.map_eq_some_iff.1 h
      obtain ⟨hnumeral, hbound⟩ := readOrdinal?_eq_some_iff.1 ho
      exact .symbol hnumeral hbound (hk ▸ hpair)
    · next hk =>
      obtain ⟨o, ho, rfl⟩ := Option.map_eq_some_iff.1 h
      obtain ⟨hnumeral, hbound⟩ := readOrdinal?_eq_some_iff.1 ho
      exact .literal hnumeral hbound (hk ▸ hpair)
    · next hk =>
      obtain ⟨c, hc, rfl⟩ := Option.map_eq_some_iff.1 h
      exact .constant (readConstant?_eq_some_iff.1 hc) (hk ▸ hpair)
    · cases h

theorem readGroup?_of_around {code : Code} {numeral t : Text}
    (h : Numeral.Unsigned code.val numeral)
    (ht : Text.Around numeral t) : readGroup? t = some (.register code) := by
  have hnumeric := fun c (hc : c ∈ numeral) => h.isNumeric hc
  have hcomma : ',' ∉ t := fun hc =>
    Numeral.not_mem_of_isNumeric hnumeric (by decide) (Text.mem_of_around ht (by decide) hc)
  have htrim : Text.trim t = numeral :=
    Text.trim_of_around (Numeral.solid_of_isNumeric hnumeric) ht
  simp only [readGroup?, Text.splitAt?_eq_none hcomma, htrim]
  exact readRegister?_eq_some_iff.2 ⟨code, h, rfl⟩

theorem readWord?_of_spelling {o : Operand} {w : Code.Word} (h : Spelling o w) :
    readWord? w = some o := by
  -- what the group of a letter and a numeral is taken apart into
  have hpair : ∀ {letter : Char} {numeral t : Text}, Text.isBlank letter = false → letter ≠ ',' →
      (∀ c ∈ numeral, Numeral.isNumeric c = true) → Text.Pair [letter] numeral t →
      ∃ left right, Text.splitAt? ',' t = some (left, right) ∧ Text.trim left = [letter] ∧
        Text.trim right = numeral := by
    intro letter numeral t hb hl hnumeral ht
    exact ht.splitAt? (Text.solid_cons.2 ⟨hb, .nil⟩) (by simpa using hl.symm)
      (Numeral.solid_of_isNumeric hnumeral)
  cases h with
  | bare h => exact readRegister?_eq_some_iff.2 ⟨_, h, rfl⟩
  | group h ht => exact readGroup?_of_around h ht
  | symbol h hbound ht =>
    obtain ⟨left, right, hs, hl, hr⟩ := hpair (by decide) (by decide) (fun _ => h.isNumeric) ht
    have hread := readOrdinal?_eq_some_iff.2 ⟨h, hbound⟩
    simp only [readWord?, readGroup?, hs, hl, hr, hread, Option.map_some]
  | literal h hbound ht =>
    obtain ⟨left, right, hs, hl, hr⟩ := hpair (by decide) (by decide) (fun _ => h.isNumeric) ht
    have hread := readOrdinal?_eq_some_iff.2 ⟨h, hbound⟩
    simp only [readWord?, readGroup?, hs, hl, hr, hread, Option.map_some]
  | constant h ht =>
    obtain ⟨left, right, hs, hl, hr⟩ := hpair (by decide) (by decide) (fun _ => h.isNumeric) ht
    have hread := readConstant?_eq_some_iff.2 h
    simp only [readWord?, readGroup?, hs, hl, hr, hread, Option.map_some]

theorem readWord?_eq_some_iff {o : Operand} {w : Code.Word} :
    readWord? w = some o ↔ Spelling o w := by
  refine ⟨fun h => ?_, readWord?_of_spelling⟩
  cases w with
  | bare t =>
    obtain ⟨code, hcode, rfl⟩ := readRegister?_eq_some_iff.1 h
    exact .bare hcode
  | group t => exact spelling_of_readGroup? h

theorem forall₂_spelling_iff {os : List Operand} {ws : List Code.Word} :
    List.Forall₂ Spelling os ws ↔ ws.mapM readWord? = some os := by
  rw [mapM_eq_some_iff]
  constructor
  · exact fun h => (h.imp fun _ _ hw => readWord?_eq_some_iff.2 hw).flip
  · exact fun h => (h.imp fun _ _ hw => readWord?_eq_some_iff.1 hw).flip

end Operand

namespace Tag

/-- A text that is not the tag of a class with something behind it. -/
def Nameless (t : Text) : Prop :=
  ∀ (kind : StatementClass) (rest : Text), ¬ Text.Pair kind.tag rest t

theorem not_comma_mem_tag (kind : StatementClass) : ',' ∉ kind.tag := by
  cases kind <;> decide

theorem pair_of_classAndOpcode? {t opcode : Text} {kind : StatementClass}
    (h : classAndOpcode? t = some (kind, opcode)) : Text.Pair kind.tag opcode t := by
  obtain ⟨⟨left, right⟩, hs, hfound⟩ := Option.bind_eq_some_iff.1 h
  obtain ⟨k, hk, he⟩ := Option.map_eq_some_iff.1 hfound
  obtain ⟨rfl, rfl⟩ := Prod.mk.inj he
  rw [StatementClass.tag_of_ofTag? hk]
  exact Text.pair_of_splitAt? hs

theorem classAndOpcode?_of_pair {t opcode : Text} {kind : StatementClass}
    (h : Text.Pair kind.tag opcode t) (hs : Text.Solid opcode) :
    classAndOpcode? t = some (kind, opcode) := by
  obtain ⟨left, right, hsplit, hl, hr⟩ := h.splitAt? (solid_tag kind) (not_comma_mem_tag kind) hs
  simp only [classAndOpcode?, hsplit, Option.bind_some, hl, hr, StatementClass.ofTag?_tag,
    Option.map_some]

theorem classAndOpcode?_eq_none_iff {t : Text} : classAndOpcode? t = none ↔ Nameless t := by
  constructor
  · rintro h kind rest ⟨left, right, rfl, hl, -⟩
    have hcomma : ',' ∉ left := fun hc =>
      not_comma_mem_tag kind (Text.mem_of_around hl (by decide) hc)
    have hk : Text.trim left = kind.tag := Text.trim_of_around (solid_tag kind) hl
    simp [classAndOpcode?, Text.splitAt?_append hcomma, hk, StatementClass.ofTag?_tag] at h
  · intro h
    cases hc : classAndOpcode? t with
    | none => rfl
    | some found => exact absurd (pair_of_classAndOpcode? hc) (h found.1 found.2)

end Tag

namespace Record

/-- The words of a tag and of the operands behind it. What stands behind a tag that names no class
is not looked at. -/
inductive Tagged : Tag → List Operand → List Code.Word → Prop
  | statement {kind : StatementClass} {opcode : Code} {os : List Operand} {numeral t : Text}
      {ws : List Code.Word} (h : Numeral.Unsigned opcode.val numeral)
      (ht : Text.Pair kind.tag numeral t) (hos : List.Forall₂ Operand.Spelling os ws) :
      Tagged (.statement kind opcode) os (.group t :: ws)
  | unrecognized {t : Text} {ws : List Code.Word} (h : Tag.Nameless t) :
      Tagged (.unrecognized t) [] (.group t :: ws)

/-- The words that a record may be written as. -/
inductive Spelling : Record → List Code.Word → Prop
  | unlocated {tag : Tag} {os : List Operand} {ws : List Code.Word} (h : Tagged tag os ws) :
      Spelling ⟨none, tag, os⟩ ws
  | located {a : Address} {numeral : Text} {tag : Tag} {os : List Operand} {ws : List Code.Word}
      (ha : Numeral.Unsigned a.val numeral) (h : Tagged tag os ws) :
      Spelling ⟨some a, tag, os⟩ (.bare numeral :: ws)

theorem Spelling.exists_tagged {r : Record} {ws : List Code.Word} (h : r.Spelling ws) :
    ∃ later, Tagged r.tag r.operands later ∧ ∀ w ∈ later, w ∈ ws := by
  cases h with
  | unlocated h => exact ⟨ws, h, fun _ hw => hw⟩
  | located _ h => exact ⟨_, h, fun _ hw => List.mem_cons_of_mem _ hw⟩

/-- A line on which the words of a record are laid out. -/
def Layout (r : Record) (line : Text) : Prop :=
  ∃ ws, r.Spelling ws ∧ Code.LaidOut false ws line

theorem readTagged_eq_ok_iff {location : Option Address} {ws : List Code.Word} {r : Record} :
    readTagged location ws = .ok r ↔ r.location = location ∧ Tagged r.tag r.operands ws := by
  constructor
  · intro h
    unfold readTagged at h
    split at h
    · next t rest =>
      split at h
      · next hc =>
        obtain rfl := Except.ok.inj h
        exact ⟨rfl, .unrecognized (Tag.classAndOpcode?_eq_none_iff.1 hc)⟩
      · next kind opcode hc =>
        split at h
        · cases h
        · next code hcode =>
          split at h
          · cases h
          · next os hos =>
            obtain rfl := Except.ok.inj h
            have hnumeral := Numeral.below?_eq_some_iff.1 hcode
            have hpair := Tag.pair_of_classAndOpcode? hc
            exact ⟨rfl, .statement hnumeral hpair (Operand.forall₂_spelling_iff.2 hos)⟩
    · cases h
  · rintro ⟨rfl, h⟩
    obtain ⟨location, tag, operands⟩ := r
    cases h with
    | statement hnumeral ht hos =>
      have hsolid := Numeral.solid_of_isNumeric fun _ => hnumeral.isNumeric
      have hcode := Numeral.below?_eq_some_iff.2 hnumeral
      have hoperands := Operand.forall₂_spelling_iff.1 hos
      simp only [readTagged, Tag.classAndOpcode?_of_pair ht hsolid, hcode, hoperands]
    | unrecognized h =>
      simp only [readTagged, Tag.classAndOpcode?_eq_none_iff.2 h]

theorem readWords_eq_ok_iff {ws : List Code.Word} {r : Record} :
    readWords ws = .ok r ↔ r.Spelling ws := by
  constructor
  · intro h
    unfold readWords at h
    split at h
    · next t rest =>
      split at h
      · cases h
      · next a ha =>
        obtain ⟨location, tag, operands⟩ := r
        obtain ⟨hl, htagged⟩ := readTagged_eq_ok_iff.1 h
        obtain rfl : location = some a := hl
        exact .located (Numeral.below?_eq_some_iff.1 ha) htagged
    · obtain ⟨location, tag, operands⟩ := r
      obtain ⟨hl, htagged⟩ := readTagged_eq_ok_iff.1 h
      obtain rfl : location = none := hl
      exact .unlocated htagged
  · intro h
    cases h with
    | @unlocated tag os ws htagged =>
      have hread : readTagged none ws = .ok ⟨none, tag, os⟩ :=
        readTagged_eq_ok_iff.2 ⟨rfl, htagged⟩
      -- the first word is a group either way, and no location
      cases htagged <;> exact hread
    | located ha htagged =>
      simp only [readWords, Numeral.below?_eq_some_iff.2 ha]
      exact readTagged_eq_ok_iff.2 ⟨rfl, htagged⟩

theorem readLine_eq_ok_iff {line : Text} {r : Record} :
    readLine line = .ok r ↔ ∃ ws, Code.words? line = some ws ∧ r.Spelling ws := by
  unfold readLine
  cases Code.words? line with
  | none => simp
  | some ws => simp [readWords_eq_ok_iff]

theorem read_eq_ok_iff_readLine {line : Text} {r : Record} :
    read line = .ok r ↔ readLine line = .ok r := by
  unfold read
  cases readLine line <;> simp

end Record

section Flat

/-- A text without parentheses. -/
def Text.Flat (t : Text) : Prop :=
  '(' ∉ t ∧ ')' ∉ t

def Code.Word.Flat : Code.Word → Prop
  | .bare t => Text.Flat t
  | .group t => Text.Flat t

theorem Text.Flat.around {piece t : Text} (h : Flat piece) (ht : Around piece t) : Flat t :=
  ⟨fun hc => h.1 (mem_of_around ht (by decide) hc), fun hc => h.2 (mem_of_around ht (by decide) hc)⟩

theorem Text.Flat.pair {first second t : Text} (hf : Flat first) (hs : Flat second)
    (ht : Pair first second t) : Flat t := by
  constructor
  · intro hc
    exact (mem_of_pair ht (by decide) (by decide) hc).elim hf.1 hs.1
  · intro hc
    exact (mem_of_pair ht (by decide) (by decide) hc).elim hf.2 hs.2

theorem Numeral.flat_of_isNumeric {t : Text} (h : ∀ c ∈ t, isNumeric c = true) : Text.Flat t :=
  ⟨not_mem_of_isNumeric h (by decide), not_mem_of_isNumeric h (by decide)⟩

theorem Numeral.Unsigned.proper {n : Nat} {t : Text} (h : Unsigned n t) :
    (Code.Word.bare t).Proper := by
  have hnumeric := fun c (hc : c ∈ t) => h.isNumeric hc
  have hflat := flat_of_isNumeric hnumeric
  refine ⟨h.ne_nil, fun c hc => Code.Word.isBareChar_iff.2 ⟨?_, ?_, ?_⟩⟩
  · exact isBlank_of_isNumeric (hnumeric c hc)
  · rintro rfl
    exact hflat.1 hc
  · rintro rfl
    exact hflat.2 hc

theorem Operand.Spelling.flat {o : Operand} {w : Code.Word} (h : o.Spelling w) : w.Flat := by
  have hletter : ∀ {letter : Char}, letter ≠ '(' → letter ≠ ')' → Text.Flat [letter] :=
    fun hopen hclose => ⟨by simpa using hopen.symm, by simpa using hclose.symm⟩
  have hunsigned : ∀ {n : Nat} {t : Text}, Numeral.Unsigned n t → Text.Flat t :=
    fun h => Numeral.flat_of_isNumeric fun _ => h.isNumeric
  cases h with
  | bare h => exact hunsigned h
  | group h ht => exact (hunsigned h).around ht
  | symbol h _ ht => exact (hletter (by decide) (by decide)).pair (hunsigned h) ht
  | literal h _ ht => exact (hletter (by decide) (by decide)).pair (hunsigned h) ht
  | constant h ht =>
    have hsigned := Numeral.flat_of_isNumeric fun _ => h.isNumeric
    exact (hletter (by decide) (by decide)).pair hsigned ht

theorem Operand.Spelling.proper {o : Operand} {w : Code.Word} (h : o.Spelling w) : w.Proper := by
  have hflat := h.flat
  cases h with
  | bare h => exact h.proper
  | group => exact hflat.2
  | symbol => exact hflat.2
  | literal => exact hflat.2
  | constant => exact hflat.2

end Flat

namespace Record

/-- Words that a scan finds again and that hold no parentheses of their own. -/
structure Clean (ws : List Code.Word) : Prop where
  flat : ∀ w ∈ ws, w.Flat
  proper : ∀ w ∈ ws, w.Proper

theorem Clean.cons {w : Code.Word} {ws : List Code.Word} (hflat : w.Flat) (hproper : w.Proper)
    (h : Clean ws) : Clean (w :: ws) :=
  ⟨List.forall_mem_cons.2 ⟨hflat, h.flat⟩, List.forall_mem_cons.2 ⟨hproper, h.proper⟩⟩

theorem clean_of_spelling {os : List Operand} {ws : List Code.Word}
    (h : List.Forall₂ Operand.Spelling os ws) : Clean ws := by
  induction h with
  | nil => exact ⟨by simp, by simp⟩
  | cons hw _ ih => exact ih.cons hw.flat hw.proper

theorem Tagged.clean {kind : StatementClass} {opcode : Code} {os : List Operand}
    {ws : List Code.Word} (h : Tagged (.statement kind opcode) os ws) : Clean ws := by
  cases h with
  | statement hnumeral ht hos =>
    have htag : Text.Flat kind.tag := by cases kind <;> exact ⟨by decide, by decide⟩
    have hflat := htag.pair (Numeral.flat_of_isNumeric fun _ => hnumeral.isNumeric) ht
    exact (clean_of_spelling hos).cons hflat hflat.2

theorem Spelling.clean {r : Record} {ws : List Code.Word} {kind : StatementClass} {opcode : Code}
    (h : r.Spelling ws) (hr : r.tag = .statement kind opcode) : Clean ws := by
  cases h with
  | unlocated h =>
    obtain rfl := hr
    exact h.clean
  | located ha h =>
    obtain rfl := hr
    exact h.clean.cons (Numeral.flat_of_isNumeric fun _ => ha.isNumeric) ha.proper

/-- The lines that are read as a record are its layouts, and the record's own text is one of them
if all ordinals can be read. -/
theorem read_eq_ok_iff_layout {r : Record} (hr : ∃ kind opcode, r.tag = .statement kind opcode)
    (line : Text) :
    (read line = .ok r ↔ r.Layout line) ∧
      ((∀ o ∈ r.operands, o.Bounded) → read r.text = .ok r) := by
  refine ⟨?_, fun hbounded => Plain.read_text ⟨hr, hbounded⟩⟩
  obtain ⟨kind, opcode, htag⟩ := hr
  rw [read_eq_ok_iff_readLine, readLine_eq_ok_iff]
  constructor
  · rintro ⟨ws, hws, hspelling⟩
    exact ⟨ws, hspelling, (Code.words?_eq_some_iff.1 hws).1⟩
  · rintro ⟨ws, hspelling, hline⟩
    have hclean := hspelling.clean htag
    exact ⟨ws, Code.words?_eq_some_iff.2 ⟨hline, hclean.proper⟩, hspelling⟩

/-- A register of its own, one between parentheses, and the smallest constant, with signs, zeros
and odd blanks. -/
def unevenLine : Text :=
  " +0200( IS\u3000,004)02( +1 )( S ,3)\t(C, -009223372036854775808)\n".toList

theorem read_unevenLine :
    let r : Record := ⟨some 200, .statement .imperative 4, [.register 2, .register 1, .symbol ⟨2⟩,
      .constant ⟨-9223372036854775808, by decide, by decide⟩]⟩
    read unevenLine = .ok r ∧ r.Layout unevenLine ∧ read r.text = .ok r := by
  intro r
  have hbounded : ∀ o ∈ r.operands, o.Bounded := by
    simp [r, Operand.Bounded, Operand.ordinalBound, Ordinal.number]
  have hr := read_eq_ok_iff_layout (r := r) ⟨_, _, rfl⟩ unevenLine
  exact ⟨rfl, hr.1.1 rfl, hr.2 hbounded⟩

end Record

end TwoPass
