import TwoPass.Proofs.DumpRows
import TwoPass.Proofs.KeyedLists
import TwoPass.Proofs.NumberedLines
import TwoPass.Setup

/-! The definition text of a mnemonic table. A text defines a table exactly when each of its entries
is a name, the tag of a class and two numerals that fit, and the table has the names in the order of
their first entries, each with its last one. The first entry that is no definition is blamed. -/

namespace TwoPass

namespace Mnemonic

/-- The fields of a definition: a name, a tag, an opcode and a length, and whatever follows. -/
def Defines (t : Text) (m : Mnemonic) : Prop :=
  ∃ opcode length more, Text.words t = m.name :: m.kind.tag :: opcode :: length :: more ∧
    Numeral.Unsigned m.opcode.val opcode ∧ Numeral.Unsigned m.length.val length

/-- Why a line is no definition. A tag that no class has comes before a numeral that does not fit,
and only a line with all fields has a tag. -/
inductive Misdefined (line : Nat) (t : Text) : Fault → Prop
  | short (h : (Text.words t).length < 4) : Misdefined line t (.malformedDefinition line t)
  | tag {name tag opcode length : Text} {more : List Text}
      (h : Text.words t = name :: tag :: opcode :: length :: more)
      (htag : ∀ kind : StatementClass, kind.tag ≠ tag) : Misdefined line t (.unknownClass line tag)
  | number {name opcode length : Text} {kind : StatementClass} {more : List Text}
      (h : Text.words t = name :: kind.tag :: opcode :: length :: more)
      (hnumber : (∀ code : Code, ¬ Numeral.Unsigned code.val opcode) ∨
        ∀ words : Address, ¬ Numeral.Unsigned words.val length) :
      Misdefined line t (.malformedDefinition line t)

variable {line : Nat} {t : Text} {m : Mnemonic} {f : Fault}

theorem ofDefinition_of_defines (h : Defines t m) : ofDefinition line t = .ok m := by
  obtain ⟨opcode, length, more, hwords, hopcode, hlength⟩ := h
  simp only [ofDefinition, hwords, StatementClass.ofTag?_tag, Numeral.below?_eq_some_iff.2 hopcode,
    Numeral.below?_eq_some_iff.2 hlength]

theorem ofDefinition_of_misdefined (h : Misdefined line t f) : ofDefinition line t = .error f := by
  have hnone : ∀ {bound : Nat} {s : Text}, (∀ a : Fin bound, ¬ Numeral.Unsigned a.val s) →
      Numeral.below? bound s = none := fun hs =>
    Option.eq_none_iff_forall_ne_some.2 fun a ha => hs a (Numeral.below?_eq_some_iff.1 ha)
  cases h with
  | short h =>
    unfold ofDefinition
    split
    · next hwords =>
      simp only [hwords, List.length_cons] at h
      omega
    · rfl
  | tag h htag =>
    have hclass : StatementClass.ofTag? _ = none :=
      Option.eq_none_iff_forall_ne_some.2 fun kind hk =>
        htag kind (StatementClass.tag_of_ofTag? hk)
    simp only [ofDefinition, h, hclass]
  | number h hnumber =>
    simp only [ofDefinition, h, StatementClass.ofTag?_tag]
    rcases hnumber with hopcode | hlength
    · rw [hnone hopcode]
    · rw [hnone hlength]
      split
      · next hn => cases hn
      · rfl

theorem defines_or_misdefined (line : Nat) (t : Text) :
    (∃ m, Defines t m) ∨ ∃ f, Misdefined line t f := by
  rcases hwords : Text.words t with _ | ⟨name, _ | ⟨tag, _ | ⟨opcode, _ | ⟨length, more⟩⟩⟩⟩
  case cons.cons.cons.cons =>
    by_cases htag : ∃ kind : StatementClass, kind.tag = tag
    · obtain ⟨kind, rfl⟩ := htag
      by_cases hopcode : ∃ code : Code, Numeral.Unsigned code.val opcode
      · by_cases hlength : ∃ words : Address, Numeral.Unsigned words.val length
        · obtain ⟨code, hcode⟩ := hopcode
          obtain ⟨words, hw⟩ := hlength
          exact .inl ⟨⟨name, kind, code, words⟩, opcode, length, more, hwords, hcode, hw⟩
        · exact .inr ⟨_, .number hwords (.inr (not_exists.1 hlength))⟩
      · exact .inr ⟨_, .number hwords (.inl (not_exists.1 hopcode))⟩
    · exact .inr ⟨_, .tag hwords (not_exists.1 htag)⟩
  all_goals exact .inr ⟨_, .short (by simp [hwords])⟩

theorem ofDefinition_eq_ok_iff : ofDefinition line t = .ok m ↔ Defines t m :=
  eq_ok_iff_of_settled (fun _ => ofDefinition_of_defines) (fun _ => ofDefinition_of_misdefined)
    (defines_or_misdefined line t)

theorem ofDefinition_eq_error_iff : ofDefinition line t = .error f ↔ Misdefined line t f :=
  eq_error_iff_of_settled (fun _ => ofDefinition_of_defines)
    (fun _ => ofDefinition_of_misdefined) (defines_or_misdefined line t)

end Mnemonic

namespace MnemonicTable

section Definitions

theorem map_name_placeIn (m : Mnemonic) (es : List Mnemonic) :
    (placeIn m es).map (·.name) =
      if m.name ∈ es.map (·.name) then es.map (·.name) else es.map (·.name) ++ [m.name] := by
  induction es with
  | nil => rfl
  | cons e es ih =>
    by_cases he : e.name = m.name
    · simp [placeIn, he]
    · have hne : ¬ m.name = e.name := fun h => he h.symm
      simp only [placeIn, he, if_false, List.map_cons, ih, List.mem_cons, hne, false_or]
      split <;> rfl

theorem ofList_snoc (ms : List Mnemonic) (m : Mnemonic) :
    ofList (ms ++ [m]) = (ofList ms).define m := by
  simp [ofList]

/-- The names stand in the order in which they first came. -/
theorem map_name_ofList (ms : List Mnemonic) :
    (ofList ms).entries.map (·.name) = (ms.map (·.name)).eraseDups := by
  induction ms using List.reverseRecOn with
  | nil => rfl
  | append_singleton ms m ih =>
    rw [ofList_snoc, define, map_name_placeIn, ih, List.map_append]
    by_cases h : m.name ∈ ms.map (·.name)
    · rw [if_pos (List.mem_eraseDups.2 h)]
      exact (eraseDups_snoc_of_mem h).symm
    · rw [if_neg fun hm => h (List.mem_eraseDups.1 hm)]
      exact (eraseDups_snoc_of_not_mem h).symm

/-- Each name has its last definition. -/
theorem find?_ofList (ms : List Mnemonic) (name : Text) :
    (ofList ms).find? name = ms.reverse.find? (·.name = name) := by
  induction ms using List.reverseRecOn with
  | nil => rfl
  | append_singleton ms m ih =>
    rw [ofList_snoc, find?_define, ih, List.reverse_append]
    by_cases h : m.name = name <;> simp [h]

theorem mem_entries_ofList {ms : List Mnemonic} {m : Mnemonic} :
    m ∈ (ofList ms).entries ↔ (ofList ms).find? m.name = some m := by
  have hdistinct : ((ofList ms).entries.map (·.name)).Nodup := by
    rw [map_name_ofList]
    exact nodup_eraseDups _
  rw [find?, find?_key_eq_some_iff hdistinct]
  simp

end Definitions

/-- What stands on the line with a number, without the blanks around it, when that is an entry. -/
def HasEntry (source : Text) (n : Nat) (t : Text) : Prop :=
  1 ≤ n ∧ ∃ line, (Text.lines source)[n - 1]? = some line ∧ Text.Around t line ∧ Text.Trimmed t ∧
    t.head? ≠ some ';' ∧ t.head? ≠ some '#'

section Entries

variable {source t : Text} {n : Nat}

theorem isEntry_trim_iff {line : Text} : t = Text.trim line ∧ isEntry t = true ↔
    Text.Around t line ∧ Text.Trimmed t ∧ t.head? ≠ some ';' ∧ t.head? ≠ some '#' := by
  have hentry : isEntry t = true ↔ t ≠ [] ∧ t.head? ≠ some ';' ∧ t.head? ≠ some '#' := by
    cases t <;> simp [isEntry]
  rw [hentry]
  constructor
  · rintro ⟨rfl, hne, hmark⟩
    exact ⟨Text.around_trim line, Text.trimmed_trim hne, hmark⟩
  · rintro ⟨haround, htrimmed, hmark⟩
    exact ⟨(Text.trim_of_around_trimmed htrimmed haround).symm, htrimmed.ne_nil, hmark⟩

theorem mem_definitionLines : (n, t) ∈ definitionLines source ↔ HasEntry source n t := by
  simp only [definitionLines, List.mem_filter, List.mem_map, Prod.exists, Prod.mk.injEq,
    Text.numbered, Text.mem_numberedFrom, HasEntry, ← isEntry_trim_iff]
  constructor
  · rintro ⟨⟨_, line, ⟨hn, hline⟩, rfl, ht⟩, he⟩
    exact ⟨hn, line, hline, ht.symm, he⟩
  · rintro ⟨hn, line, hline, ht, he⟩
    exact ⟨⟨n, line, ⟨hn, hline⟩, rfl, ht.symm⟩, he⟩

theorem pairwise_definitionLines (source : Text) :
    (definitionLines source).Pairwise fun e f => e.1 < f.1 := by
  refine List.Pairwise.filter _ (List.pairwise_map.2 ?_)
  exact Text.pairwise_numberedFrom 1 (Text.lines source)

end Entries

section Source

variable {source : Text} {table : MnemonicTable} {f : Fault}

theorem ofDefinitionText_eq_ok_iff : ofDefinitionText source = .ok table ↔
    ∃ ms, List.Forall₂ (fun e m => Mnemonic.Defines e.2 m) (definitionLines source) ms ∧
      table = ofList ms := by
  simp only [ofDefinitionText, map_eq_ok_iff, mapM_eq_ok_iff_forall₂,
    Mnemonic.ofDefinition_eq_ok_iff]

theorem ofDefinitionText_eq_error_iff : ofDefinitionText source = .error f ↔
    ∃ before e after, definitionLines source = before ++ e :: after ∧
      (∀ k ∈ before, ∃ m, Mnemonic.Defines k.2 m) ∧ Mnemonic.Misdefined e.1 e.2 f := by
  simp only [ofDefinitionText, map_eq_error_iff, mapM_eq_error_iff,
    Mnemonic.ofDefinition_eq_ok_iff, Mnemonic.ofDefinition_eq_error_iff]

theorem exists_ofDefinitionText_iff : (∃ table, ofDefinitionText source = .ok table) ↔
    ∀ e ∈ definitionLines source, ∃ m, Mnemonic.Defines e.2 m := by
  have hall := @exists_mapM_eq_ok_iff _ _ _ (fun e : Nat × Text => Mnemonic.ofDefinition e.1 e.2)
    (definitionLines source)
  simp only [mapM_eq_ok_iff_forall₂, Mnemonic.ofDefinition_eq_ok_iff] at hall
  rw [← hall]
  simp only [ofDefinitionText_eq_ok_iff]
  constructor
  · rintro ⟨_, ms, hms, rfl⟩
    exact ⟨ms, hms⟩
  · rintro ⟨ms, hms⟩
    exact ⟨_, ms, hms, rfl⟩

/-- The entries of a definition text are its lines, without blanks around, that are not empty and
do not open with the mark of a comment. -/
theorem ofDefinitionText_entries (source : Text) :
    let es := definitionLines source
    (∀ n t, (n, t) ∈ es ↔ HasEntry source n t) ∧ es.Pairwise (fun e f => e.1 < f.1) ∧
      ((∃ table, ofDefinitionText source = .ok table) ↔
        ∀ e ∈ es, ∃ m, Mnemonic.Defines e.2 m) ∧
      (∀ table, ofDefinitionText source = .ok table ↔
        ∃ ms, List.Forall₂ (fun e m => Mnemonic.Defines e.2 m) es ms ∧ table = ofList ms) ∧
      (∀ f, ofDefinitionText source = .error f ↔
        ∃ before e after, es = before ++ e :: after ∧
          (∀ k ∈ before, ∃ m, Mnemonic.Defines k.2 m) ∧ Mnemonic.Misdefined e.1 e.2 f) ∧
      ∀ ms, (ofList ms).entries.map (·.name) = (ms.map (·.name)).eraseDups ∧
        (∀ name, (ofList ms).find? name = ms.reverse.find? (·.name = name)) ∧
        ∀ m, m ∈ (ofList ms).entries ↔ (ofList ms).find? m.name = some m :=
  ⟨fun _ _ => mem_definitionLines, pairwise_definitionLines source, exists_ofDefinitionText_iff,
    fun _ => ofDefinitionText_eq_ok_iff, fun _ => ofDefinitionText_eq_error_iff, fun ms =>
      ⟨map_name_ofList ms, find?_ofList ms, fun _ => mem_entries_ofList⟩⟩

/-- Lines that are skipped count, and a tag is looked at before the numerals behind it. -/
example : ofDefinitionText "# codes\n\nADD XX one 1".toList =
    .error (.unknownClass 3 "XX".toList) :=
  rfl

end Source

end MnemonicTable

end TwoPass
