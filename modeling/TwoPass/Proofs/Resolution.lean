import TwoPass.Proofs.Encoding
import TwoPass.Setup

/-! The agreement of the two passes. The objects of a program are those that its source asks for:
the second pass never meets an ordinal without an entry, and the address that it finds is the
address of the name or of the literal that the source mentions. -/

namespace TwoPass

namespace Source

/-- The address of a literal, which is the occurrence with number `n`. Equal literals that share
an entry have one address, else the occurrences have an entry each. -/
def literalAddress? (merging : Bool) (literals : FrozenTable) (n : Nat) (t : Text) :
    Option Address :=
  if merging then literals.get? t else literals.address? ⟨n⟩

/-- The address that operands give: that of the first one that is no register, and zero if there
is none. -/
def addressOf? (registers : RegisterTable) (merging : Bool) (tables : FrozenTables) (n : Nat)
    (tokens : List Text) : Option Address :=
  match tokens.find? fun t => (registers.code? t).isNone with
  | none => some 0
  | some t =>
    if isLiteral t then literalAddress? merging tables.literals n t else tables.symbols.get? t

def registerOf (registers : RegisterTable) (tokens : List Text) : Code :=
  (tokens.findSome? registers.code?).getD 0

/-- The object of an instruction behind `n` occurrences of literals. -/
def Instruction.object? (registers : RegisterTable) (merging : Bool) (tables : FrozenTables)
    (n : Nat) (i : Instruction) : Option Object :=
  match i.mnemonic.kind with
  | .imperative =>
    (addressOf? registers merging tables n i.operands).map
      (.code i.mnemonic.opcode (registerOf registers i.operands))
  | _ => some .placeholder

/-- The objects of instructions, the first of which is behind `n` occurrences of literals. -/
def objects? (registers : RegisterTable) (merging : Bool) (tables : FrozenTables) :
    Nat → List Instruction → List (Option Object)
  | _, [] => []
  | n, i :: is =>
    i.object? registers merging tables n ::
      objects? registers merging tables (n + (i.literals registers).length) is

end Source

namespace FrozenTables

/-- Two symbols never have one name, nor two literals one text if equal ones share an entry. -/
structure Distinct (tables : FrozenTables) (merging : Bool) : Prop where
  names : tables.names.Nodup
  texts : merging = true → tables.texts.Nodup

variable {tables : FrozenTables} {merging : Bool}

theorem Distinct.symbol (h : tables.Distinct merging) {o : Ordinal} {t : Text}
    (ht : tables.names[o.index]? = some t) :
    ∃ a, tables.symbols.address? o = some a ∧ tables.symbols.get? t = some a := by
  obtain ⟨a, ha⟩ := FrozenTable.exists_address ht
  exact ⟨a, ha, (FrozenTable.address?_eq_get? h.names ht).symm.trans ha⟩

theorem Distinct.literal (h : tables.Distinct merging) {o : Ordinal} {n : Nat} {t : Text}
    (ht : tables.texts[o.index]? = some t) (hn : merging = false → o.index = n) :
    ∃ a, tables.literals.address? o = some a ∧
      Source.literalAddress? merging tables.literals n t = some a := by
  obtain ⟨a, ha⟩ := FrozenTable.exists_address ht
  refine ⟨a, ha, ?_⟩
  cases merging with
  | true => exact (FrozenTable.address?_eq_get? (h.texts rfl) ht).symm.trans ha
  | false =>
    rw [← hn rfl]
    exact ha

end FrozenTables

section Operands

variable {registers : RegisterTable} {merging : Bool} {tables : FrozenTables} {n : Nat}
  {ts : List Text} {os : List Operand}

theorem code?_of_isLiteralOperand {t : Text}
    (h : Source.isLiteralOperand registers t = true) : registers.code? t = none :=
  Option.isNone_iff_eq_none.1 (Bool.and_eq_true _ _ ▸ h).1

theorem code?_of_isSymbolOperand {t : Text}
    (h : Source.isSymbolOperand registers t = true) : registers.code? t = none :=
  Option.isNone_iff_eq_none.1 (Bool.and_eq_true _ _ ▸ h).1

theorem Encodes.register? {names texts : List Text}
    (h : Encodes registers merging names texts n ts os) :
    os.findSome? Operand.register? = ts.findSome? registers.code? := by
  induction h with
  | nil n => rfl
  | register hc _ _ =>
    rw [List.findSome?_cons, List.findSome?_cons, hc]
    rfl
  | literal hl _ _ _ ih =>
    rw [List.findSome?_cons, List.findSome?_cons, code?_of_isLiteralOperand hl]
    exact ih
  | symbol hs _ _ ih =>
    rw [List.findSome?_cons, List.findSome?_cons, code?_of_isSymbolOperand hs]
    exact ih

/-- Every operand has its entry, and the first address is that of the first token that is no
register. -/
theorem Encodes.addresses (h : Encodes registers merging tables.names tables.texts n ts os)
    (ht : tables.Distinct merging) (r : Record) :
    ∃ as, tables.addresses r os = .ok as ∧
      Source.addressOf? registers merging tables n ts = some (as.headD 0) := by
  induction h with
  | nil n => exact ⟨[], rfl, rfl⟩
  | register hc _ ih =>
    obtain ⟨as, has, hfirst⟩ := ih
    refine ⟨as, has, ?_⟩
    simpa [Source.addressOf?, hc] using hfirst
  | literal hl hx hn _ ih =>
    obtain ⟨as, has, -⟩ := ih
    obtain ⟨a, ha, hta⟩ := ht.literal hx hn
    have hnone := code?_of_isLiteralOperand hl
    have hlit := (Bool.and_eq_true _ _ ▸ hl).2
    refine ⟨a :: as, ?_, ?_⟩
    · simp [FrozenTables.addresses, FrozenTables.operandAddress, ha, has, Except.map]
    · simp [Source.addressOf?, hnone, hlit, hta]
  | symbol hs hx _ ih =>
    obtain ⟨as, has, -⟩ := ih
    obtain ⟨a, ha, hta⟩ := ht.symbol hx
    have hnone := code?_of_isSymbolOperand hs
    have hlit := (Bool.and_eq_true _ _ ▸ hs).2
    refine ⟨a :: as, ?_, ?_⟩
    · simp [FrozenTables.addresses, FrozenTables.operandAddress, ha, has, Except.map]
    · simp at hlit
      simp [Source.addressOf?, hnone, hlit, hta]

end Operands

section Records

variable {registers : RegisterTable} {merging : Bool} {tables : FrozenTables} {n : Nat}

theorem resolve_eq_object? {i : Source.Instruction} {r : Record}
    (htag : r.tag = .statement i.mnemonic.kind i.mnemonic.opcode)
    (ho : i.mnemonic.kind = .imperative →
      Encodes registers merging tables.names tables.texts n i.operands r.operands)
    (ht : tables.Distinct merging) :
    ∃ o, tables.resolve r = .ok o ∧ i.object? registers merging tables n = some o := by
  cases hk : i.mnemonic.kind with
  | imperative =>
    obtain ⟨as, has, hfirst⟩ := (ho hk).addresses ht r
    refine ⟨.code i.mnemonic.opcode (Source.registerOf registers i.operands) (as.headD 0), ?_, ?_⟩
    · simp only [FrozenTables.resolve, htag, hk, has, Source.registerOf, (ho hk).register?]
    · simp only [Source.Instruction.object?, hk, hfirst, Option.map_some]
  | directive =>
    exact ⟨.placeholder, by simp [FrozenTables.resolve, htag, hk],
      by simp [Source.Instruction.object?, hk]⟩
  | declarative =>
    exact ⟨.placeholder, by simp [FrozenTables.resolve, htag, hk],
      by simp [Source.Instruction.object?, hk]⟩

theorem Compiles.resolveAll {is : List Source.Instruction} {rs : List Record}
    (h : Compiles registers merging tables.names tables.texts n is rs)
    (ht : tables.Distinct merging) :
    ∃ os, tables.resolveAll rs = .ok os ∧
      os.map some = Source.objects? registers merging tables n is := by
  induction h with
  | nil n => exact ⟨[], rfl, rfl⟩
  | cons htag ho _ _ ih =>
    obtain ⟨o, hr, ha⟩ := resolve_eq_object? htag ho ht
    obtain ⟨os, hrs, has⟩ := ih
    refine ⟨o :: os, ?_, ?_⟩
    · unfold FrozenTables.resolveAll at hrs ⊢
      rw [List.mapM_cons, hr, hrs]
      rfl
    · rw [List.map_cons, has, Source.objects?, ha]

theorem Compiles.length_eq {names texts : List Text} {is : List Source.Instruction}
    {rs : List Record}
    (h : Compiles registers merging names texts n is rs) : rs.length = is.length := by
  have htags := congrArg List.length h.tags
  simpa using htags

end Records

theorem Source.length_objects? (registers : RegisterTable) (merging : Bool)
    (tables : FrozenTables) (n : Nat) (is : List Instruction) :
    (objects? registers merging tables n is).length = is.length := by
  induction is generalizing n with
  | nil => rfl
  | cons i is ih => rw [objects?, List.length_cons, ih, List.length_cons]

namespace Program

theorem StandsFor.distinct {setup : Setup} {source : Text} {p : Program}
    (h : p.StandsFor setup source) : p.tables.Distinct setup.options.mergeLiterals := by
  refine ⟨?_, fun hm => ?_⟩
  · rw [h.names]
    exact Sighting.nodup_names _
  · rw [h.texts, hm]
    exact LiteralTable.nodup_kept _

theorem ofSource_objects {setup : Setup} {source : Text} {p : Program}
    (h : ofSource setup source = .ok p) :
    let is := Source.instructionsOf setup.machine source
    let registers := setup.machine.registers
    let merging := setup.options.mergeLiterals
    p.records.map (·.tag) = is.map (fun i => .statement i.mnemonic.kind i.mnemonic.opcode) ∧
      p.literals.entries.map (·.name) =
        LiteralTable.kept merging (Source.literals registers is) ∧
      ∃ os, p.objects = .ok os ∧ os.length = p.records.length ∧
        os.map some = Source.objects? registers merging p.tables 0 is := by
  have hp := standsFor_of_source h
  obtain ⟨os, hos, hmap⟩ := hp.records.resolveAll hp.distinct
  refine ⟨hp.records.tags, hp.texts, os, hos, ?_, hmap⟩
  rw [hp.records.length_eq, ← List.length_map some, hmap, Source.length_objects?]

/-- A literal that occurs twice, and a name that is mentioned before its label. -/
def mentioning : Text :=
  "START 100\nMOVER AREG,='5'\nADD BREG,LAST\nMOVEM ='5',CREG\nLAST DS 1\nEND\n".toList

theorem ofSource_mentioning :
    ∃ p, ofSource ⟨.builtin, {}⟩ mentioning = .ok p ∧
      p.literals.entries.map (·.name) = ["='5'".toList, "='5'".toList] ∧
      ∃ os, p.objects = .ok os ∧ os.length = p.records.length ∧
        os.map some = [some .placeholder, some (.code 4 1 104), some (.code 1 2 103),
          some (.code 5 3 105), some .placeholder, some .placeholder] := by
  obtain ⟨-, hl, os, ho, hlen, hmap⟩ := @ofSource_objects ⟨.builtin, {}⟩ mentioning _ rfl
  exact ⟨_, rfl, hl, os, ho, hlen, hmap⟩

end Program

end TwoPass
