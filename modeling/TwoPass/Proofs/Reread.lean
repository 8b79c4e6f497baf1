import TwoPass.Program.Object
import TwoPass.Proofs.DumpRows
import TwoPass.Proofs.Resolution
import TwoPass.Proofs.Vocabulary
import TwoPass.Proofs.WrittenCode

/-! Programs that are written down and read again. Whatever the first pass makes of a source, its
records and its two tables are read as they are written, so that the second pass over the texts is
the second pass over the program. -/

namespace TwoPass

section Bounds

variable {registers : RegisterTable} {merging : Bool} {names texts : List Text} {n : Nat}

theorem Encodes.bounded {ts : List Text} {os : List Operand}
    (h : Encodes registers merging names texts n ts os)
    (hn : names.length < Operand.ordinalBound) (ht : texts.length < Operand.ordinalBound) :
    ∀ o ∈ os, o.Bounded := by
  have hnumber : ∀ {xs : List Text} {o : Ordinal} {t : Text}, xs[o.index]? = some t →
      xs.length < Operand.ordinalBound → o.number < Operand.ordinalBound := by
    intro xs o t hx hxs
    have hlt := (List.getElem?_eq_some_iff.1 hx).1
    unfold Ordinal.number
    omega
  induction h with
  | nil n => simp
  | register hc _ ih =>
    intro o ho
    rcases List.mem_cons.1 ho with rfl | ho
    · trivial
    · exact ih o ho
  | literal hl hx hi _ ih =>
    intro o ho
    rcases List.mem_cons.1 ho with rfl | ho
    · exact hnumber hx ht
    · exact ih o ho
  | symbol hs hx _ ih =>
    intro o ho
    rcases List.mem_cons.1 ho with rfl | ho
    · exact hnumber hx hn
    · exact ih o ho

theorem Compiles.plain {is : List Source.Instruction} {rs : List Record}
    (h : Compiles registers merging names texts n is rs)
    (hn : names.length < Operand.ordinalBound) (ht : texts.length < Operand.ordinalBound) :
    ∀ r ∈ rs, r.Plain := by
  induction h with
  | nil n => simp
  | @cons n i is r rs htag ho hc _ ih =>
    intro q hq
    rcases List.mem_cons.1 hq with rfl | hq
    · refine ⟨⟨_, _, htag⟩, ?_⟩
      by_cases hk : i.mnemonic.kind = .imperative
      · exact (ho hk).bounded hn ht
      · intro o hmem
        obtain ⟨c, rfl⟩ := hc hk o hmem
        trivial
    · exact ih q hq

end Bounds

namespace Program

def ofTexts (records symbols literals : Text) : Except Fault Program := do
  let rs ← Record.readStream records
  let ss ← FrozenTable.readSymbols symbols
  let ls ← FrozenTable.readLiterals literals
  return ofParts rs ss ls

/-- The listing of a program with its own objects. -/
def listed (p : Program) : Except Fault Text :=
  p.objects.map (listing p.records)

section Tables

variable {setup : Setup} {source : Text} {p : Program}

theorem StandsFor.names_sublist (h : p.StandsFor setup source) :
    p.tables.names.Sublist (Source.tokensOf source) := by
  rw [h.names]
  exact (eraseDups_sublist _).trans (Source.names_sublist_tokensOf _ _ _ _)

theorem StandsFor.texts_sublist (h : p.StandsFor setup source) :
    p.tables.texts.Sublist (Source.tokensOf source) := by
  rw [h.texts]
  exact (LiteralTable.kept_sublist _ _).trans (Source.literals_sublist_tokensOf _ _ _)

theorem named_of_sublist {table : FrozenTable}
    (h : (table.entries.map (·.name)).Sublist (Source.tokensOf source)) :
    ∀ e ∈ table.entries, e.Named := by
  intro e he
  have hmem : e.name ∈ Source.tokensOf source := h.subset (List.mem_map_of_mem he)
  obtain ⟨line, -, ht⟩ := List.mem_flatMap.1 hmem
  exact ⟨Source.solid_of_mem_tokens ht, Source.ne_nil_of_mem_tokens ht⟩

end Tables

/-- A source in memory has fewer than `Operand.ordinalBound` characters, and so its tables have no
more entries than there are ordinals to read. -/
theorem ofSource_reread {setup : Setup} {source : Text} {p : Program}
    (h : ofSource setup source = .ok p) (hsize : source.length < Operand.ordinalBound) :
    Record.readStream (Record.streamText p.records) = .ok p.records ∧
      FrozenTable.readSymbols p.symbols.dump = .ok p.symbols ∧
      FrozenTable.readLiterals p.literals.dump = .ok p.literals ∧
      ∃ q, ofTexts (Record.streamText p.records) p.symbols.dump p.literals.dump = .ok q ∧
        q.objects = p.objects ∧ q.listed = p.listed := by
  have hp := standsFor_of_source h
  have hshort : ∀ {xs : List Text}, xs.Sublist (Source.tokensOf source) →
      xs.length < Operand.ordinalBound := by
    intro xs hxs
    have hlength := hxs.length_le
    have htokens := Source.length_tokensOf_le source
    omega
  have hrecords : Record.readStream (Record.streamText p.records) = .ok p.records :=
    Record.readStream_streamText
      (hp.records.plain (hshort hp.names_sublist) (hshort hp.texts_sublist))
  have hsymbols : FrozenTable.readSymbols p.symbols.dump = .ok p.symbols :=
    FrozenTable.readDump_dump (named_of_sublist hp.names_sublist) fun _ => hp.distinct.names
  have hliterals : FrozenTable.readLiterals p.literals.dump = .ok p.literals :=
    FrozenTable.readDump_dump (named_of_sublist hp.texts_sublist) (by simp)
  refine ⟨hrecords, hsymbols, hliterals, ofParts p.records p.symbols p.literals, ?_, rfl, rfl⟩
  rw [ofTexts, hrecords, hsymbols, hliterals]
  rfl

/-- Names with parentheses, quotes, digits and letters beyond ASCII, and a literal that comes
twice. -/
def oddNames : Text :=
  "É) ADD AREG,=(é\nX' SUB É),=(é\n1 DC '-7'\nEND\n".toList

theorem ofSource_oddNames :
    let records := "0 (IS,01) 1 (L,1)\n1 (IS,02) (S,1) (L,2)\n2 (DL,02) (C,-7)\n(AD,02)\n".toList
    let symbols := "É)\t0\nX'\t1\n1\t2\n".toList
    let literals := "=(é\t3\n=(é\t4\n".toList
    ∃ p, ofSource ⟨.builtin, {}⟩ oddNames = .ok p ∧ oddNames.length < Operand.ordinalBound ∧
      Record.readStream records = .ok p.records ∧
      FrozenTable.readSymbols symbols = .ok p.symbols ∧
      FrozenTable.readLiterals literals = .ok p.literals ∧
      ∃ q, ofTexts records symbols literals = .ok q ∧ q.objects = p.objects ∧
        q.listed = p.listed := by
  have hsize : oddNames.length < Operand.ordinalBound := by decide
  obtain ⟨hr, hs, hl, q, hq, ho, hlisted⟩ := @ofSource_reread ⟨.builtin, {}⟩ oddNames _ rfl hsize
  exact ⟨_, rfl, hsize, hr, hs, hl, q, hq, ho, hlisted⟩

end Program

end TwoPass
