import TwoPass.Console.Report
import TwoPass.Proofs.Encoding
import TwoPass.Proofs.StreamText

/-! Listings. The second pass gives every record its object, so that a listing has one line for each
record; and no record has more characters than the longest has bytes, so that the console can show
all objects in one column. -/

namespace TwoPass

section Lines

namespace Text

theorem IsLine.append {s t : Text} (hs : IsLine s) (ht : IsLine t) : IsLine (s ++ t) := by
  constructor
  · rw [List.mem_append, not_or]
    exact ⟨hs.1, ht.1⟩
  · by_cases hne : t = []
    · rw [hne, List.append_nil]
      exact hs.2
    · rw [List.getLast?_append_of_ne_nil s hne]
      exact ht.2

end Text

theorem Object.isLine_text (o : Object) : Text.IsLine o.text := by
  cases o with
  | placeholder => exact ⟨by decide, by decide⟩
  | code opcode register address =>
    apply Text.isLine_of_mem
    intro c hc
    simp only [text, List.mem_append, List.mem_cons] at hc
    rcases hc with (hc | rfl | hc) | rfl | hc
    · exact .inr (.inr (Numeral.solid_twoDigits _ c hc))
    · exact .inl rfl
    · exact .inr (.inr (Numeral.solid_decimal _ c hc))
    · exact .inl rfl
    · exact .inr (.inr (Numeral.solid_decimal _ c hc))

namespace Console

end Console

end Lines

namespace Record

/-- Streams that are read from a text or made of a source. -/
inductive Sourced : List Record → Prop
  | read {source : Text} {rs : List Record} (h : readStream source = .ok rs) : Sourced rs
  | assembled {setup : Setup} {source : Text} {p : Program}
      (h : Program.ofSource setup source = .ok p) : Sourced p.records

theorem statement_of_ofSource {setup : Setup} {source : Text} {p : Program}
    (h : Program.ofSource setup source = .ok p) :
    ∀ r ∈ p.records, ∃ kind opcode, r.tag = .statement kind opcode := by
  intro r hr
  have htags := (Program.standsFor_of_source h).records.tags
  have hmem : r.tag ∈ p.records.map (·.tag) := List.mem_map_of_mem hr
  rw [htags] at hmem
  obtain ⟨i, -, hi⟩ := List.mem_map.1 hmem
  exact ⟨_, _, hi.symm⟩

theorem Sourced.isLine_text {rs : List Record} (h : Sourced rs) :
    ∀ r ∈ rs, Text.IsLine r.text := by
  intro r hr
  cases h with
  | read h => exact (stable_of_readStream h r hr).isLine
  | assembled h => exact isLine_text_of_statement (statement_of_ofSource h r hr)

end Record

section Columns

namespace Console

variable (paint : Paint)

end Console

end Columns

section Streams

variable {tables : FrozenTables} {rs : List Record} {os : List Object}

end Streams

end TwoPass
