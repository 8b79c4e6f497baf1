import TwoPass.Proofs.RecordLayout

/-! Streams that are read, written and read again. A text of records need not be as they are
written, but what is read from it is: every record of it stands on a line of its own, and the lines
give the records back, those with a tag that names no class too. -/

namespace TwoPass

theorem Text.not_mem_of_mem_lines {l t : Text} (h : l ∈ lines t) : '\n' ∉ l := by
  fun_induction lines t generalizing l with
  | case1 => simp at h
  | case2 cs ih =>
    rcases List.mem_cons.1 h with rfl | h
    · simp
    · exact ih h
  | case3 cs ih =>
    rcases List.mem_cons.1 h with rfl | h
    · simp
    · exact ih h
  | case4 c cs hc _ _ _ =>
    obtain rfl : l = [c] := by simpa using h
    simpa using Ne.symm hc
  | case5 c cs hc _ first others hl ih =>
    rw [hl] at ih
    rcases List.mem_cons.1 h with rfl | h
    · have hfirst := ih (List.mem_cons_self ..)
      simp [hfirst, Ne.symm hc]
    · exact ih (List.mem_cons_of_mem _ h)

theorem Code.LaidOut.mem {b : Bool} {ws : List Word} {line : Text} (h : LaidOut b ws line)
    {w : Word} (hw : w ∈ ws) {c : Char} (hc : c ∈ w.text) : c ∈ line := by
  induction h with
  | nil => simp at hw
  | cons _ _ _ ih =>
    rcases List.mem_cons.1 hw with rfl | hw
    · exact List.mem_append_right _ (List.mem_append_left _ hc)
    · exact List.mem_append_right _ (List.mem_append_right _ (ih hw))

theorem Operand.Spelling.bounded {o : Operand} {w : Code.Word} (h : o.Spelling w) : o.Bounded := by
  cases h with
  | symbol _ hbound _ => exact hbound
  | literal _ hbound _ => exact hbound
  | _ => trivial

theorem Numeral.unsigned_decimal (n : Nat) : Unsigned n (decimal n) :=
  .digits ⟨0, rfl⟩

/-- A text that names no class and can stand on a line as a tag. -/
structure Tag.Loose (t : Text) : Prop where
  nameless : Nameless t
  enclosed : ')' ∉ t
  oneLine : '\n' ∉ t

namespace Record

theorem bounded_of_spelling {os : List Operand} {ws : List Code.Word}
    (h : List.Forall₂ Operand.Spelling os ws) : ∀ o ∈ os, o.Bounded := by
  induction h with
  | nil => simp
  | cons hw _ ih => exact List.forall_mem_cons.2 ⟨hw.bounded, ih⟩

theorem stable_of_loose {t : Text} (h : Tag.Loose t) (location : Option Address) :
    Stable ⟨location, .unrecognized t, []⟩ := by
  have htagged : Tagged (.unrecognized t) [] [.group t] := .unrecognized h.nameless
  constructor
  · have hlocation : ∀ a : Address, '\n' ∉ Numeral.decimal a.val := fun a =>
      Numeral.not_mem_decimal (by decide) a.val
    constructor
    · cases location <;> simp [text, Tag.text, h.oneLine, hlocation]
    · simp only [text, Tag.text, List.flatMap_nil, List.append_nil]
      rw [← List.append_assoc, List.getLast?_concat]
      decide
  · rw [read_eq_ok_iff_readLine, readLine_eq_ok_iff]
    refine ⟨_, words?_text fun w hw => ?_, ?_⟩
    · cases location with
      | none =>
        obtain rfl : w = .group t := by simpa [words, Tag.word] using hw
        exact h.enclosed
      | some a =>
        obtain rfl | rfl : w = .bare (Numeral.decimal a.val) ∨ w = .group t := by
          simpa [words, Tag.word] using hw
        · exact (Numeral.unsigned_decimal a.val).proper
        · exact h.enclosed
    · cases location with
      | none => exact .unlocated htagged
      | some a => exact .located (Numeral.unsigned_decimal a.val) htagged

theorem stable_of_read {line : Text} {r : Record} (hline : '\n' ∉ line) (h : read line = .ok r) :
    r.Stable := by
  obtain ⟨ws, hws, hspelling⟩ := readLine_eq_ok_iff.1 (read_eq_ok_iff_readLine.1 h)
  obtain ⟨hout, hproper⟩ := Code.words?_eq_some_iff.1 hws
  obtain ⟨later, htagged, hlater⟩ := hspelling.exists_tagged
  obtain ⟨location, tag, os⟩ := r
  cases htagged with
  | statement _ _ hos => exact Plain.stable ⟨⟨_, _, rfl⟩, bounded_of_spelling hos⟩
  | @unrecognized t skipped hnameless =>
    have hword : Code.Word.group t ∈ ws := hlater _ (List.mem_cons_self ..)
    have hclosed : ')' ∉ t := hproper _ hword
    refine stable_of_loose ⟨hnameless, hclosed, fun hn => hline ?_⟩ location
    exact hout.mem hword (by simp [Code.Word.text, hn])

/-- The lines of a text that hold something. -/
def filledLines (source : Text) : List Text :=
  (Text.lines source).filter fun line => !Text.isAllBlank line

theorem readStream_eq_ok_iff {source : Text} {rs : List Record} :
    readStream source = .ok rs ↔ (filledLines source).map read = rs.map .ok :=
  mapM_eq_ok_iff_map

theorem stable_of_readStream {source : Text} {rs : List Record} (h : readStream source = .ok rs) :
    ∀ r ∈ rs, r.Stable := by
  intro r hr
  have hmem : Except.ok r ∈ (filledLines source).map read := by
    rw [readStream_eq_ok_iff.1 h]
    exact List.mem_map_of_mem hr
  obtain ⟨line, hline, hread⟩ := List.mem_map.1 hmem
  exact stable_of_read (Text.not_mem_of_mem_lines (List.mem_filter.1 hline).1) hread

/-- What is read from a text is written as a text that gives it back. -/
theorem readStream_normalizes (source : Text) :
    ((∃ rs, readStream source = .ok rs) ↔ ∀ line ∈ filledLines source, ∃ r, read line = .ok r) ∧
      (∀ f, readStream source = .error f ↔
        ∃ before line after, filledLines source = before ++ line :: after ∧
          (∀ l ∈ before, ∃ r, read l = .ok r) ∧ read line = .error f) ∧
      ∀ rs, readStream source = .ok rs →
        (filledLines source).map read = rs.map .ok ∧ readStream (streamText rs) = .ok rs ∧
          (readStream (streamText rs)).map streamText = .ok (streamText rs) := by
  refine ⟨exists_mapM_eq_ok_iff, fun f => mapM_eq_error_iff, fun rs h => ?_⟩
  have hread := readStream_of_stable (stable_of_readStream h)
  refine ⟨readStream_eq_ok_iff.1 h, hread, ?_⟩
  rw [hread]
  rfl

/-- Tags that name no class: one with commas, a carriage return and a parenthesis, one behind a
location. -/
def oddTags : Text :=
  "(XX,9\r, ( ) 7\n\n \t\r\n0200( IS;04)(S,1)\r\n+3(IS,4)1".toList

theorem readStream_oddTags :
    ∃ rs, readStream oddTags = .ok rs ∧
      streamText rs = "(XX,9\r, ( )\n200 ( IS;04)\n3 (IS,04) 1\n".toList ∧
      readStream (streamText rs) = .ok rs := by
  have h := (readStream_normalizes oddTags).2.2 _ rfl
  exact ⟨_, rfl, rfl, h.2.1⟩

end Record

end TwoPass
