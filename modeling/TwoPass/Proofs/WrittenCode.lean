import TwoPass.Code.Reader
import TwoPass.Proofs.FirstFault
import TwoPass.Proofs.WordLayout

/-! Records that are written and read again. A record is written as words with a space between any
two, and scanning them, reading each and joining the lines gives the records back. -/

namespace TwoPass

namespace Text

theorem splitAt?_append {mark : Char} {left : Text} (h : mark ∉ left) (right : Text) :
    splitAt? mark (left ++ mark :: right) = some (left, right) := by
  induction left with
  | nil => simp [splitAt?]
  | cons c cs ih =>
    simp only [List.mem_cons, not_or] at h
    have hc : c ≠ mark := fun he => h.1 he.symm
    rw [List.cons_append, splitAt?, if_neg hc, ih h.2]
    rfl

end Text

namespace Code

/-- A word that a scan finds again. -/
def Word.Sound : Word → Prop
  | .bare t => t ≠ [] ∧ Text.Solid t ∧ '(' ∉ t ∧ ')' ∉ t
  | .group t => Text.Solid t ∧ ')' ∉ t

/-- Words with a space in front of each. -/
def spaced (ws : List Word) : Text :=
  ws.flatMap fun w => ' ' :: w.text

theorem wordsFrom?_space (cs : Text) : wordsFrom? .gap (' ' :: cs) = wordsFrom? .gap cs := by
  rw [wordsFrom?, if_pos (by decide)]

theorem Word.Sound.proper {w : Word} (h : w.Sound) : w.Proper := by
  cases w with
  | bare t =>
    obtain ⟨hne, hsolid, hopen, hclose⟩ := h
    refine ⟨hne, fun c hc => Word.isBareChar_iff.2 ⟨hsolid c hc, ?_, ?_⟩⟩
    · rintro rfl
      exact hopen hc
    · rintro rfl
      exact hclose hc
  | group t => exact h.2

theorem laidOut_spaced (b : Bool) (ws : List Word) : LaidOut b ws (spaced ws) := by
  induction ws generalizing b with
  | nil => exact .nil rfl
  | cons w ws ih => exact @LaidOut.cons b [' '] _ w ws (by decide) (by simp) (ih w.isBare)

theorem mem_spaced {ws : List Word} (h : ∀ w ∈ ws, w.Sound) {c : Char} (hc : c ∈ spaced ws) :
    c = ' ' ∨ Text.isBlank c = false := by
  obtain ⟨w, hw, hc⟩ := List.mem_flatMap.1 hc
  have hsolid : Text.Solid w.text := by
    cases w with
    | bare t => exact (h _ hw).2.1
    | group t =>
      have ht : Text.Solid t := (h _ hw).1
      have hclose : Text.Solid [')'] := Text.solid_cons.2 ⟨by decide, Text.Solid.nil⟩
      exact Text.solid_append.2 ⟨Text.solid_cons.2 ⟨by decide, ht⟩, hclose⟩
  rcases List.mem_cons.1 hc with rfl | hc
  · exact .inl rfl
  · exact .inr (hsolid c hc)

end Code

namespace Operand

/-- An operand whose ordinal, if it has one, can be read. -/
def Bounded : Operand → Prop
  | symbol o => o.number < ordinalBound
  | literal o => o.number < ordinalBound
  | _ => True

def word : Operand → Code.Word
  | register code => .bare (Numeral.decimal code.val)
  | symbol o => .group ('S' :: ',' :: Numeral.decimal o.number)
  | literal o => .group ('L' :: ',' :: Numeral.decimal o.number)
  | constant c => .group ('C' :: ',' :: Numeral.signedDecimal c.value)

theorem text_word (o : Operand) : o.word.text = o.text := by
  cases o <;> rfl

theorem sound_bare_decimal (n : Nat) : (Code.Word.bare (Numeral.decimal n)).Sound :=
  ⟨Numeral.decimal_ne_nil n, Numeral.solid_decimal n, Numeral.not_mem_decimal (by decide) n,
    Numeral.not_mem_decimal (by decide) n⟩

theorem sound_group {letter : Char} {value : Text} (hb : Text.isBlank letter = false)
    (hl : letter ≠ ')') (hs : Text.Solid value) (hv : ')' ∉ value) :
    (Code.Word.group (letter :: ',' :: value)).Sound := by
  refine ⟨Text.solid_cons.2 ⟨hb, Text.solid_cons.2 ⟨by decide, hs⟩⟩, ?_⟩
  simp [hl.symm, hv]

theorem sound_word (o : Operand) : o.word.Sound := by
  have hdecimal : ∀ n, ')' ∉ Numeral.decimal n := Numeral.not_mem_decimal (by decide)
  cases o with
  | register code => exact sound_bare_decimal code.val
  | symbol o => exact sound_group (by decide) (by decide) (Numeral.solid_decimal _) (hdecimal _)
  | literal o => exact sound_group (by decide) (by decide) (Numeral.solid_decimal _) (hdecimal _)
  | constant c =>
    refine sound_group (by decide) (by decide) (Numeral.solid_signedDecimal _) fun h => ?_
    rcases Numeral.mem_signedDecimal h with h | h
    · exact absurd h (by decide)
    · exact absurd h (by decide)

theorem readOrdinal?_decimal {o : Ordinal} (h : o.number < ordinalBound) :
    readOrdinal? (Numeral.decimal o.number) = some o := by
  have hb := Numeral.below?_decimal (⟨o.number, h⟩ : Fin ordinalBound)
  rw [readOrdinal?, hb]
  exact Ordinal.ofNumber?_number o

theorem readConstant?_signedDecimal (c : Constant) :
    readConstant? (Numeral.signedDecimal c.value) = some c := by
  rw [readConstant?, Numeral.signed?_signedDecimal]
  exact Constant.ofInt?_value c

theorem splitAt?_letter {letter : Char} (h : letter ≠ ',') (value : Text) :
    Text.splitAt? ',' (letter :: ',' :: value) = some ([letter], value) := by
  have hl : ',' ∉ [letter] := by simpa using h.symm
  exact Text.splitAt?_append hl value

theorem readWord?_word {o : Operand} (h : o.Bounded) : readWord? o.word = some o := by
  cases o with
  | register code =>
    simp only [word, readWord?, readRegister?, Numeral.below?_decimal code, Option.map_some]
  | symbol o =>
    have hs := splitAt?_letter (by decide : 'S' ≠ ',') (Numeral.decimal o.number)
    have ht : Text.trim ['S'] = ['S'] := by decide
    simp only [word, readWord?, readGroup?, hs, ht, Text.trim_of_solid (Numeral.solid_decimal _),
      readOrdinal?_decimal h, Option.map_some]
  | literal o =>
    have hs := splitAt?_letter (by decide : 'L' ≠ ',') (Numeral.decimal o.number)
    have ht : Text.trim ['L'] = ['L'] := by decide
    simp only [word, readWord?, readGroup?, hs, ht, Text.trim_of_solid (Numeral.solid_decimal _),
      readOrdinal?_decimal h, Option.map_some]
  | constant c =>
    have hs := splitAt?_letter (by decide : 'C' ≠ ',') (Numeral.signedDecimal c.value)
    have ht : Text.trim ['C'] = ['C'] := by decide
    simp only [word, readWord?, readGroup?, hs, ht,
      Text.trim_of_solid (Numeral.solid_signedDecimal _), readConstant?_signedDecimal,
      Option.map_some]

end Operand

namespace Tag

def word : Tag → Code.Word
  | statement kind opcode => .group (kind.tag ++ ',' :: Numeral.twoDigits opcode.val)
  | unrecognized t => .group t

theorem text_word (t : Tag) : t.word.text = t.text := by
  cases t <;> simp [word, text, Code.Word.text]

theorem solid_tag (kind : StatementClass) : Text.Solid kind.tag := by
  cases kind <;> exact Text.solid_cons.2 ⟨by decide, Text.solid_cons.2 ⟨by decide, .nil⟩⟩

theorem sound_word (kind : StatementClass) (opcode : Code) :
    (statement kind opcode).word.Sound := by
  have hclose : ')' ∉ kind.tag := by cases kind <;> decide
  have hdigits : ')' ∉ Numeral.twoDigits opcode.val := fun h =>
    absurd (Numeral.isDigit_of_mem_twoDigits h) (by decide)
  refine ⟨Text.solid_append.2 ⟨solid_tag kind, Text.solid_cons.2 ⟨by decide,
    Numeral.solid_twoDigits opcode.val⟩⟩, ?_⟩
  simp [hclose, hdigits]

theorem classAndOpcode?_tag (kind : StatementClass) (opcode : Code) :
    classAndOpcode? (kind.tag ++ ',' :: Numeral.twoDigits opcode.val) =
      some (kind, Numeral.twoDigits opcode.val) := by
  have hcomma : ',' ∉ kind.tag := by cases kind <;> decide
  rw [classAndOpcode?, Text.splitAt?_append hcomma]
  simp only [Option.bind_some, Text.trim_of_solid (solid_tag kind), StatementClass.ofTag?_tag,
    Option.map_some, Text.trim_of_solid (Numeral.solid_twoDigits opcode.val)]

end Tag

namespace Record

/-- A record that is read as it is written: its tag names a class, and its ordinals are bounded. -/
structure Plain (r : Record) : Prop where
  tag : ∃ kind opcode, r.tag = .statement kind opcode
  bounded : ∀ o ∈ r.operands, o.Bounded

def words (r : Record) : List Code.Word :=
  (r.location.map fun a => Code.Word.bare (Numeral.decimal a.val)).toList ++
    r.tag.word :: r.operands.map Operand.word

theorem spaced_words (r : Record) : Code.spaced r.words = ' ' :: r.text := by
  have hoperands : Code.spaced (r.operands.map Operand.word) =
      r.operands.flatMap fun o => ' ' :: o.text := by
    simp only [Code.spaced, List.flatMap_map, Operand.text_word]
  have htagged : Code.spaced (r.tag.word :: r.operands.map Operand.word) =
      ' ' :: (r.tag.text ++ r.operands.flatMap fun o => ' ' :: o.text) := by
    rw [← hoperands, ← Tag.text_word]
    rfl
  cases hl : r.location with
  | none => simpa [words, text, hl] using htagged
  | some a =>
    have hcons : Code.spaced r.words = ' ' :: (Numeral.decimal a.val ++
        Code.spaced (r.tag.word :: r.operands.map Operand.word)) := by
      rw [words, hl]
      rfl
    rw [hcons, htagged]
    simp [text, hl]

theorem sound_of_mem_words {r : Record} (h : ∃ kind opcode, r.tag = .statement kind opcode) :
    ∀ w ∈ r.words, w.Sound := by
  obtain ⟨kind, opcode, htag⟩ := h
  intro w hw
  rcases List.mem_append.1 hw with hw | hw
  · cases hl : r.location with
    | none => simp [hl] at hw
    | some a =>
      obtain rfl : w = .bare (Numeral.decimal a.val) := by simpa [hl] using hw
      exact Operand.sound_bare_decimal a.val
  · rcases List.mem_cons.1 hw with rfl | hw
    · rw [htag]
      exact Tag.sound_word kind opcode
    · obtain ⟨o, -, rfl⟩ := List.mem_map.1 hw
      exact Operand.sound_word o

theorem words?_text {r : Record} (h : ∀ w ∈ r.words, w.Proper) :
    Code.words? r.text = some r.words := by
  rw [Code.words?, ← Code.wordsFrom?_space, ← spaced_words]
  exact Code.wordsFrom?_of_laidOut (Code.laidOut_spaced false r.words) h

theorem Plain.readTagged_words {r : Record} (h : r.Plain) :
    readTagged r.location (r.tag.word :: r.operands.map Operand.word) = .ok r := by
  obtain ⟨kind, opcode, htag⟩ := h.tag
  have hoperands : (r.operands.map Operand.word).mapM Operand.readWord? = some r.operands :=
    mapM_map_eq_pure fun o ho => Operand.readWord?_word (h.bounded o ho)
  obtain ⟨location, tag, operands⟩ := r
  obtain rfl : tag = .statement kind opcode := htag
  simp only [Tag.word, readTagged, Tag.classAndOpcode?_tag, Numeral.below?_twoDigits opcode]
  simp only at hoperands
  rw [hoperands]

theorem Plain.readLine_text {r : Record} (h : r.Plain) : readLine r.text = .ok r := by
  have htagged := h.readTagged_words
  rw [readLine, words?_text fun w hw => (sound_of_mem_words h.tag w hw).proper, words]
  cases hl : r.location with
  | some a =>
    rw [hl] at htagged
    simp only [Option.map_some, Option.toList_some, List.singleton_append, readWords,
      Numeral.below?_decimal a]
    exact htagged
  | none =>
    rw [hl] at htagged
    obtain ⟨kind, opcode, htag⟩ := h.tag
    simp only [Option.map_none, Option.toList_none, List.nil_append, htag, Tag.word, readWords]
    simpa only [htag, Tag.word] using htagged

theorem isLine_text_of_statement {r : Record}
    (h : ∃ kind opcode, r.tag = .statement kind opcode) : Text.IsLine r.text := by
  apply Text.isLine_of_mem
  intro c hc
  have hspaced : c ∈ Code.spaced r.words := by
    rw [spaced_words]
    exact List.mem_cons_of_mem _ hc
  rcases Code.mem_spaced (sound_of_mem_words h) hspaced with hc | hc
  · exact .inl hc
  · exact .inr (.inr hc)

theorem isAllBlank_text (r : Record) : Text.isAllBlank r.text = false := by
  have hopen : '(' ∈ r.text := by cases ht : r.tag <;> simp [text, Tag.text, ht]
  exact Text.isAllBlank_of_mem hopen (by decide)

theorem Plain.read_text {r : Record} (h : r.Plain) : read r.text = .ok r := by
  rw [read, h.readLine_text]

/-- A record whose text is a line that gives it back. -/
structure Stable (r : Record) : Prop where
  isLine : Text.IsLine r.text
  read : read r.text = .ok r

theorem Plain.stable {r : Record} (h : r.Plain) : r.Stable :=
  ⟨isLine_text_of_statement h.tag, h.read_text⟩

theorem readStream_of_stable {rs : List Record} (h : ∀ r ∈ rs, r.Stable) :
    readStream (streamText rs) = .ok rs := by
  have hlines : Text.lines (streamText rs) = rs.map text :=
    Text.lines_unlines_map fun r hr => (h r hr).isLine
  have hkept : (rs.map text).filter (fun line => !Text.isAllBlank line) = rs.map text := by
    apply List.filter_eq_self.2
    intro l hl
    obtain ⟨r, -, rfl⟩ := List.mem_map.1 hl
    simp [isAllBlank_text r]
  rw [readStream, hlines, hkept]
  exact mapM_map_eq_pure fun r hr => (h r hr).read

theorem readStream_streamText {rs : List Record} (h : ∀ r ∈ rs, r.Plain) :
    readStream (streamText rs) = .ok rs :=
  readStream_of_stable fun r hr => (h r hr).stable

end Record

end TwoPass
