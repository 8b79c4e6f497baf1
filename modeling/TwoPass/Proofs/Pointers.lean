import TwoPass.Proofs.FirstFault
import TwoPass.Proofs.Growth
import TwoPass.Proofs.Merging

/-! The second pass over any code and any tables. It succeeds if and only if every operand of an
instruction points into its table, whichever operand is encoded; else the first operand that points
past its table is the fault of all. -/

namespace TwoPass

def FrozenTable.numbered? (table : FrozenTable) (n : Nat) : Option Address :=
  (table.entries[n - 1]?).map (·.address)

/-- An operand as a user is told of it, by its kind and its number. -/
def Operand.titleText : Operand → Text
  | .symbol o => "symbol #".toList ++ Numeral.decimal o.number
  | .literal o => "literal #".toList ++ Numeral.decimal o.number
  | _ => []

/-- The fault that names the kind and the ordinal of an operand, and its record. -/
inductive Operand.Blamed (r : Record) : Operand → Fault → Prop
  | symbol (o : Ordinal) : Blamed r (.symbol o) (.corrupt (.symbolOutOfRange o r))
  | literal (o : Ordinal) : Blamed r (.literal o) (.corrupt (.literalOutOfRange o r))

theorem Operand.Blamed.unique {r : Record} {o : Operand} {f g : Fault} (hf : o.Blamed r f)
    (hg : o.Blamed r g) : f = g := by
  cases hf <;> cases hg <;> rfl

theorem Operand.Blamed.message {r : Record} {o : Operand} {f : Fault} (h : o.Blamed r f) :
    f.message = "Corrupt intermediate stream: ".toList ++ o.titleText ++
      " out of range in ".toList ++ quoted r.text := by
  -- the message in the pieces that it is made of
  have htext : ∀ (noun : String) (k : Ordinal),
      "Corrupt intermediate stream: ".toList ++ Corruption.outOfRange noun k r =
        "Corrupt intermediate stream: ".toList ++
          (noun.toList ++ " #".toList ++ Numeral.decimal k.number) ++ " out of range in ".toList ++
            quoted r.text := fun noun k => by
    simp only [Corruption.outOfRange, List.append_assoc]
  cases h with
  | symbol k => exact htext "symbol" k
  | literal k => exact htext "literal" k

namespace FrozenTables

def pointed? (tables : FrozenTables) : Operand → Option Address
  | .symbol o => tables.symbols.numbered? o.number
  | .literal o => tables.literals.numbered? o.number
  | _ => none

def Reaches (tables : FrozenTables) (o : Operand) : Prop :=
  o.Within tables.symbols.size tables.literals.size

/-- A record that is no instruction, or whose operands all point into their tables. -/
def Resolves (tables : FrozenTables) (r : Record) : Prop :=
  r.kind? = some .imperative → ∀ o ∈ r.operands, tables.Reaches o

/-- The object of a record. The address of an instruction is that of the first operand that points
to one. -/
def objectOf (tables : FrozenTables) (r : Record) : Object :=
  match r.tag with
  | .statement .imperative opcode =>
    .code opcode ((r.operands.findSome? Operand.register?).getD 0)
      (((r.operands.find? Operand.isPlace).bind tables.pointed?).getD 0)
  | _ => .placeholder

structure FirstLost (tables : FrozenTables) (os : List Operand) (o : Operand) : Prop where
  first : ∃ before after, os = before ++ o :: after ∧ ∀ p ∈ before, tables.Reaches p
  lost : ¬ tables.Reaches o

section Operands

variable {tables : FrozenTables} {r : Record} {os : List Operand}

theorem address?_eq_none_iff {table : FrozenTable} {o : Ordinal} :
    table.address? o = none ↔ table.size < o.number := by
  simp only [FrozenTable.address?, Option.map_eq_none_iff, List.getElem?_eq_none_iff,
    FrozenTable.size, Ordinal.number]
  omega

theorem address?_eq_numbered? (table : FrozenTable) (o : Ordinal) :
    table.address? o = table.numbered? o.number :=
  rfl

theorem reaches_iff {o : Operand} : tables.Reaches o ↔ o.isPlace = (tables.pointed? o).isSome := by
  have hsize : ∀ {table : FrozenTable} {k : Ordinal},
      (1 ≤ k.number ∧ k.number ≤ table.size) ↔ (table.numbered? k.number).isSome = true := by
    intro table k
    rw [← address?_eq_numbered?, ← Option.ne_none_iff_isSome, Ne, address?_eq_none_iff,
      Ordinal.number]
    omega
  cases o with
  | symbol k => exact hsize.trans eq_comm
  | literal k => exact hsize.trans eq_comm
  | register c => exact ⟨fun _ => rfl, fun _ => trivial⟩
  | constant c => exact ⟨fun _ => rfl, fun _ => trivial⟩

theorem operandAddress_of_reaches {o : Operand} (h : tables.Reaches o) :
    tables.operandAddress r o = .ok (tables.pointed? o) := by
  have hsome := reaches_iff.1 h
  cases o with
  | symbol k =>
    obtain ⟨a, ha⟩ := Option.isSome_iff_exists.1 hsome.symm
    have hk : tables.symbols.address? k = some a := ha
    rw [operandAddress, hk, ha]
  | literal k =>
    obtain ⟨a, ha⟩ := Option.isSome_iff_exists.1 hsome.symm
    have hk : tables.literals.address? k = some a := ha
    rw [operandAddress, hk, ha]
  | register c => rfl
  | constant c => rfl

theorem operandAddress_of_not_reaches {o : Operand} (h : ¬ tables.Reaches o) :
    ∃ c, tables.operandAddress r o = .error c ∧ o.Blamed r (.corrupt c) := by
  cases o with
  | symbol k =>
    have hk : tables.symbols.address? k = none := by
      rw [address?_eq_none_iff]
      by_contra hle
      exact h ⟨Nat.succ_pos _, Nat.le_of_not_lt hle⟩
    exact ⟨_, by rw [operandAddress, hk], .symbol k⟩
  | literal k =>
    have hk : tables.literals.address? k = none := by
      rw [address?_eq_none_iff]
      by_contra hle
      exact h ⟨Nat.succ_pos _, Nat.le_of_not_lt hle⟩
    exact ⟨_, by rw [operandAddress, hk], .literal k⟩
  | register c => exact absurd trivial h
  | constant c => exact absurd trivial h

theorem addresses_of_reaches (h : ∀ o ∈ os, tables.Reaches o) :
    tables.addresses r os = .ok (os.filterMap tables.pointed?) := by
  induction os with
  | nil => rfl
  | cons o os ih =>
    obtain ⟨ho, hos⟩ := List.forall_mem_cons.1 h
    rw [addresses, operandAddress_of_reaches ho]
    cases hp : tables.pointed? o with
    | none => rw [List.filterMap_cons_none hp]; exact ih hos
    | some a =>
      rw [List.filterMap_cons_some hp, ih hos]
      rfl

theorem addresses_of_firstLost {o : Operand} (h : tables.FirstLost os o) :
    ∃ c, tables.addresses r os = .error c ∧ o.Blamed r (.corrupt c) := by
  obtain ⟨⟨before, after, rfl, hbefore⟩, hlost⟩ := h
  obtain ⟨c, hc, hblamed⟩ := operandAddress_of_not_reaches (r := r) hlost
  refine ⟨c, ?_, hblamed⟩
  induction before with
  | nil => rw [List.nil_append, addresses, hc]
  | cons p ps ih =>
    obtain ⟨hp, hps⟩ := List.forall_mem_cons.1 hbefore
    rw [List.cons_append, addresses, operandAddress_of_reaches hp]
    cases tables.pointed? p with
    | none => exact ih hps
    | some a => rw [ih hps]; rfl

theorem exists_firstLost (h : ¬ ∀ o ∈ os, tables.Reaches o) : ∃ o, tables.FirstLost os o := by
  induction os with
  | nil => simp at h
  | cons o os ih =>
    by_cases ho : tables.Reaches o
    · obtain ⟨k, ⟨before, after, hos, hbefore⟩, hlost⟩ := ih fun hos =>
        h (List.forall_mem_cons.2 ⟨ho, hos⟩)
      refine ⟨k, ⟨o :: before, after, by rw [hos]; rfl, ?_⟩, hlost⟩
      exact List.forall_mem_cons.2 ⟨ho, hbefore⟩
    · exact ⟨o, ⟨[], os, rfl, by simp⟩, ho⟩

/-- Of operands that all reach their entries, the first that points gives the first address. -/
theorem findSome?_pointed? (h : ∀ o ∈ os, tables.Reaches o) :
    os.findSome? tables.pointed? = (os.find? Operand.isPlace).bind tables.pointed? := by
  induction os with
  | nil => rfl
  | cons o os ih =>
    obtain ⟨ho, hos⟩ := List.forall_mem_cons.1 h
    have hplace := reaches_iff.1 ho
    cases hp : tables.pointed? o with
    | none =>
      rw [hp] at hplace
      rw [List.findSome?_cons, hp, List.find?_cons_of_neg (by simp [hplace])]
      exact ih hos
    | some a =>
      rw [hp] at hplace
      rw [List.findSome?_cons, hp, List.find?_cons_of_pos hplace, Option.bind_some, hp]

end Operands

section Records

variable {tables : FrozenTables} {r : Record}

theorem kind?_eq_imperative_iff :
    r.kind? = some .imperative ↔ ∃ opcode, r.tag = .statement .imperative opcode := by
  unfold Record.kind?
  cases htag : r.tag with
  | statement kind opcode => simp
  | unrecognized t => simp

theorem resolve_of_kind?_ne (h : r.kind? ≠ some .imperative) :
    tables.resolve r = .ok .placeholder ∧ tables.objectOf r = .placeholder := by
  unfold resolve objectOf
  constructor
  all_goals
    split
    · next opcode htag => exact absurd (kind?_eq_imperative_iff.2 ⟨opcode, htag⟩) h
    · rfl

theorem resolve_of_resolves (h : tables.Resolves r) :
    tables.resolve r = .ok (tables.objectOf r) := by
  by_cases hkind : r.kind? = some .imperative
  · obtain ⟨opcode, htag⟩ := kind?_eq_imperative_iff.1 hkind
    have hreaches := h hkind
    have hhead : (r.operands.filterMap tables.pointed?).headD 0 =
        ((r.operands.find? Operand.isPlace).bind tables.pointed?).getD 0 := by
      rw [← findSome?_pointed? hreaches, ← List.head?_filterMap, List.headD_eq_head?_getD]
    simp only [resolve, objectOf, htag, addresses_of_reaches hreaches, hhead]
  · have hnothing : tables.resolve r = .ok .placeholder ∧ tables.objectOf r = .placeholder :=
      resolve_of_kind?_ne hkind
    rw [hnothing.1, hnothing.2]

theorem resolve_of_firstLost {o : Operand} {f : Fault} (hkind : r.kind? = some .imperative)
    (hlost : tables.FirstLost r.operands o) (hblamed : o.Blamed r f) :
    tables.resolve r = .error f := by
  obtain ⟨opcode, htag⟩ := kind?_eq_imperative_iff.1 hkind
  obtain ⟨c, hc, hblamed'⟩ := addresses_of_firstLost (r := r) hlost
  simp only [resolve, htag, hc, hblamed.unique hblamed']

theorem resolves_or_firstLost (r : Record) :
    (∃ o, tables.Resolves r ∧ o = tables.objectOf r) ∨
      ∃ f, r.kind? = some .imperative ∧ ∃ o, tables.FirstLost r.operands o ∧ o.Blamed r f := by
  by_cases h : tables.Resolves r
  · exact .inl ⟨_, h, rfl⟩
  · obtain ⟨hkind, hlost⟩ := Classical.not_imp.1 h
    obtain ⟨o, ho⟩ := exists_firstLost hlost
    obtain ⟨c, -, hblamed⟩ := operandAddress_of_not_reaches (r := r) ho.lost
    exact .inr ⟨_, hkind, o, ho, hblamed⟩

theorem resolve_eq_error_iff {f : Fault} :
    tables.resolve r = .error f ↔
      r.kind? = some .imperative ∧ ∃ o, tables.FirstLost r.operands o ∧ o.Blamed r f :=
  eq_error_iff_of_settled (fun _ ⟨hr, ho⟩ => ho ▸ resolve_of_resolves hr)
    (fun _ ⟨hkind, _, hlost, hblamed⟩ => resolve_of_firstLost hkind hlost hblamed)
    (resolves_or_firstLost r)

theorem resolve_eq_ok_iff {o : Object} :
    tables.resolve r = .ok o ↔ tables.Resolves r ∧ o = tables.objectOf r :=
  eq_ok_iff_of_settled (fun _ ⟨hr, ho⟩ => ho ▸ resolve_of_resolves hr)
    (fun _ ⟨hkind, _, hlost, hblamed⟩ => resolve_of_firstLost hkind hlost hblamed)
    (resolves_or_firstLost r)

theorem exists_resolve_iff : (∃ o, tables.resolve r = .ok o) ↔ tables.Resolves r := by
  simp only [resolve_eq_ok_iff, exists_and_left, exists_eq, and_true]

theorem resolveAll_eq_ok_iff {rs : List Record} {os : List Object} :
    tables.resolveAll rs = .ok os ↔
      (∀ r ∈ rs, tables.Resolves r) ∧ os = rs.map tables.objectOf := by
  have hobjects : (∀ r ∈ rs, tables.Resolves r) →
      tables.resolveAll rs = .ok (rs.map tables.objectOf) := fun h => by
    rw [resolveAll, mapM_eq_ok_iff_map, List.map_map]
    exact List.map_congr_left fun r hr => resolve_of_resolves (h r hr)
  constructor
  · intro h
    have hresolves : ∀ r ∈ rs, tables.Resolves r := by
      simpa only [exists_resolve_iff] using exists_mapM_eq_ok_iff.1 ⟨os, h⟩
    exact ⟨hresolves, Except.ok.inj (h.symm.trans (hobjects hresolves))⟩
  · rintro ⟨h, rfl⟩
    exact hobjects h

end Records

/-- The second pass in full: when it succeeds and with which objects, and else which record and
which operand are at fault and how that is told. -/
theorem resolveAll_decided (tables : FrozenTables) (rs : List Record) :
    (∀ os, tables.resolveAll rs = .ok os ↔
      (∀ r ∈ rs, tables.Resolves r) ∧ os = rs.map tables.objectOf) ∧
      (∀ f, tables.resolveAll rs = .error f ↔ ∃ before r after o,
        rs = before ++ r :: after ∧ (∀ q ∈ before, tables.Resolves q) ∧
          r.kind? = some .imperative ∧ tables.FirstLost r.operands o ∧ o.Blamed r f) ∧
      (∀ r o f, Operand.Blamed r o f → f.message = "Corrupt intermediate stream: ".toList ++
        o.titleText ++ " out of range in ".toList ++ quoted r.text) ∧
      (∀ r : Record, r.kind? ≠ some .imperative → tables.resolve r = .ok .placeholder) ∧
      ∀ o : Ordinal, o.number ≠ 0 ∧ o.index = o.number - 1 := by
  refine ⟨fun os => resolveAll_eq_ok_iff, fun f => ?_, fun _ _ _ h => h.message,
    fun r h => (resolve_of_kind?_ne h).1, fun o => ⟨Nat.succ_ne_zero _, rfl⟩⟩
  rw [resolveAll, mapM_eq_error_iff]
  simp only [exists_resolve_iff, resolve_eq_error_iff, exists_and_left]

def oneEach : FrozenTables :=
  ⟨⟨[⟨"A".toList, 100⟩]⟩, ⟨[⟨"='5'".toList, 205⟩]⟩⟩

/-- It points past both tables, which a declaration may. -/
def farDeclaration : Record :=
  ⟨some 199, .statement .declarative 1, [.symbol ⟨41⟩, .literal ⟨8⟩]⟩

def nearInstruction : Record :=
  ⟨some 200, .statement .imperative 4, [.literal ⟨0⟩, .register 3, .symbol ⟨0⟩, .register 1]⟩

def farInstruction : Record :=
  ⟨some 201, .statement .imperative 4, [.register 1, .symbol ⟨0⟩, .literal ⟨1⟩, .symbol ⟨5⟩]⟩

theorem resolveAll_oneEach :
    oneEach.resolveAll [farDeclaration, nearInstruction] = .ok [.placeholder, .code 4 3 205] ∧
      ∃ f, oneEach.resolveAll [farDeclaration, farInstruction, farInstruction] = .error f ∧
        f.message = ("Corrupt intermediate stream: literal #2 out of range in ".toList ++
          quoted "201 (IS,04) 1 (S,1) (L,2) (S,6)".toList) := by
  have hdeclaration : oneEach.Resolves farDeclaration := nofun
  have hinstruction : oneEach.Resolves nearInstruction := by
    simp [Resolves, nearInstruction, Reaches, Operand.Within, oneEach, FrozenTable.size,
      Ordinal.number]
  have hlost : oneEach.FirstLost farInstruction.operands (.literal ⟨1⟩) := by
    refine ⟨⟨[.register 1, .symbol ⟨0⟩], [.symbol ⟨5⟩], rfl, ?_⟩, ?_⟩
    · simp [Reaches, Operand.Within, oneEach, FrozenTable.size, Ordinal.number]
    · simp [Reaches, Operand.Within, oneEach, FrozenTable.size, Ordinal.number]
  obtain ⟨hok, -⟩ := resolveAll_decided oneEach [farDeclaration, nearInstruction]
  obtain ⟨-, herror, hmessage, -⟩ :=
    resolveAll_decided oneEach [farDeclaration, farInstruction, farInstruction]
  refine ⟨(hok _).2 ⟨by simp [hdeclaration, hinstruction], by decide⟩, _, (herror _).2
    ⟨[farDeclaration], farInstruction, [farInstruction], _, rfl, by simp [hdeclaration], rfl,
      hlost, .literal _⟩, (hmessage _ _ _ (.literal _)).trans (by decide)⟩

end FrozenTables

end TwoPass
