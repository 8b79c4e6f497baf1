import TwoPass.Proofs.LocationTrace

/-! The layout of a program. When its origin is set before anything is laid out, the words of its
statements and behind them those of its literals lie end to end, from the origin up to where the
location counter stops. -/

namespace TwoPass

/-- Some words, from an address on. -/
structure Extent where
  start : Nat
  words : Nat
deriving DecidableEq

namespace Extent

def Covers (c : Extent) (x : Nat) : Prop :=
  c.start ≤ x ∧ x < c.start + c.words

def Disjoint (c d : Extent) : Prop :=
  ∀ x, c.Covers x → ¬ d.Covers x

/-- Extents that lie end to end, from `a` up to `b`. -/
def Tiles : Nat → List Extent → Nat → Prop
  | a, [], b => a = b
  | a, c :: cs, b => c.start = a ∧ Tiles (a + c.words) cs b

theorem Tiles.le {a b : Nat} {cs : List Extent} (h : Tiles a cs b) : a ≤ b := by
  induction cs generalizing a with
  | nil => exact Nat.le_of_eq h
  | cons c cs ih =>
    have hcs := ih h.2
    omega

theorem Tiles.append {a b m : Nat} {cs ds : List Extent} (h : Tiles a cs m) (h' : Tiles m ds b) :
    Tiles a (cs ++ ds) b := by
  induction cs generalizing a with
  | nil =>
    obtain rfl : a = m := h
    exact h'
  | cons c cs ih => exact ⟨h.1, ih h.2⟩

theorem Tiles.covers_iff {a b : Nat} {cs : List Extent} (h : Tiles a cs b) (x : Nat) :
    (∃ c ∈ cs, c.Covers x) ↔ a ≤ x ∧ x < b := by
  induction cs generalizing a with
  | nil =>
    obtain rfl : a = b := h
    simp only [List.not_mem_nil, false_and, exists_false, false_iff]
    omega
  | cons c cs ih =>
    obtain ⟨hc, hcs⟩ := h
    have hle := hcs.le
    simp only [List.mem_cons, exists_eq_or_imp, ih hcs]
    simp only [Covers]
    omega

theorem Tiles.pairwise_disjoint {a b : Nat} {cs : List Extent} (h : Tiles a cs b) :
    cs.Pairwise Disjoint := by
  induction cs generalizing a with
  | nil => exact .nil
  | cons c cs ih =>
    obtain ⟨hc, hcs⟩ := h
    refine .cons (fun d hd x hx hdx => ?_) (ih hcs)
    -- all that lies behind `c` starts at its end or later
    have hx' := ((hcs.covers_iff x).1 ⟨d, hd, hdx⟩).1
    have hlt := hx.2
    omega

theorem tiles_range' (l n : Nat) : Tiles l ((List.range' l n).map fun a => ⟨a, 1⟩) (l + n) := by
  induction n generalizing l with
  | zero => rfl
  | succ n ih =>
    rw [List.range'_succ, List.map_cons]
    refine ⟨rfl, ?_⟩
    rw [show l + (n + 1) = l + 1 + n by omega]
    exact ih (l + 1)

end Extent

open Extent (Tiles)

namespace Source

/-- The origin that a statement sets, if it sets one. -/
def Statement.origin? : Statement → Option Nat
  | .instruction _ m tokens =>
    if m.kind = .directive ∧ m.name = "START".toList then some (operandValue tokens) else none
  | _ => none

def Statement.laysOut : Statement → Bool
  | .instruction _ m _ => m.kind ≠ .directive
  | _ => false

/-- No origin is set behind a statement that lays out words. -/
def StartsFirst (rs : List Row) : Prop :=
  rs.Pairwise fun q r => q.statement.laysOut = true → r.statement.origin? = none

instance StartsFirst.decidable (rs : List Row) : Decidable (StartsFirst rs) :=
  inferInstanceAs (Decidable (rs.Pairwise _))

/-- The last origin that is set, and `l` when there is none. -/
def originFrom (l : Nat) (rs : List Row) : Nat :=
  ((rs.filterMap (·.statement.origin?)).getLast?).getD l

theorem originFrom_cons_of_some {r : Row} {a : Nat} (h : r.statement.origin? = some a) (l : Nat)
    (rs : List Row) : originFrom l (r :: rs) = originFrom a rs := by
  simp only [originFrom, List.filterMap_cons, h, List.getLast?_cons, Option.getD_some]

theorem originFrom_cons_of_none {r : Row} (h : r.statement.origin? = none) (l : Nat)
    (rs : List Row) : originFrom l (r :: rs) = originFrom l rs := by
  simp only [originFrom, List.filterMap_cons, h]

theorem originFrom_of_forall {rs : List Row} (h : ∀ r ∈ rs, r.statement.origin? = none) (l : Nat) :
    originFrom l rs = l := by
  rw [originFrom, List.filterMap_eq_nil_iff.2 h]
  rfl

/-- The words at the places where instructions are laid out. -/
def cells (ps : List (Tag × Option Nat)) (is : List Instruction) : List Extent :=
  (ps.zip is).filterMap fun q => q.1.2.map fun a => ⟨a, q.2.words⟩

theorem cells_cons (p : Tag × Option Nat) (ps : List (Tag × Option Nat)) (i : Instruction)
    (is : List Instruction) :
    cells (p :: ps) (i :: is) = (p.2.map fun a => ⟨a, i.words⟩).toList ++ cells ps is := by
  cases h : p.2 <;> simp [cells, h]

theorem Statement.counterAfter_of_laysOut {label : Option Text} {m : Mnemonic}
    {tokens : List Text} (h : m.kind ≠ .directive) (l : Nat) :
    counterAfter l (.instruction label m tokens) = l + Instruction.words ⟨m, tokens⟩ := by
  cases hk : m.kind with
  | directive => exact absurd hk h
  | imperative => simp [counterAfter, Instruction.words, hk]
  | declarative => simp [counterAfter, Instruction.words, hk]

theorem exists_kind_of_mem_places {q : Tag × Option Nat} {l : Nat} {rs : List Row}
    (h : q ∈ places l rs) :
    ∃ kind opcode, q.1 = .statement kind opcode ∧ (q.2 = none ↔ kind = .directive) := by
  induction rs generalizing l with
  | nil => simp [places] at h
  | cons r rs ih =>
    rcases List.mem_append.1 h with hq | hq
    · cases hs : r.statement with
      | instruction label m tokens =>
        rw [hs, Statement.place?, Option.toList_some, List.mem_singleton] at hq
        refine ⟨m.kind, m.opcode, by rw [hq], ?_⟩
        rw [hq]
        by_cases hk : m.kind = .directive <;> simp [hk]
      | _ => simp [hs, Statement.place?] at hq
    · exact ih hq

/-- A source that sets its origin first lays out its statements end to end. -/
theorem tiles_cells {rs : List Row} (h : StartsFirst rs) (l : Nat) :
    Tiles (originFrom l rs) (cells (places l rs) (instructions rs)) (counter l rs) := by
  induction rs generalizing l with
  | nil => rfl
  | cons r rs ih =>
    obtain ⟨line, s⟩ := r
    obtain ⟨hr, hrs⟩ := List.pairwise_cons.1 h
    rw [instructions_cons]
    cases s with
    | instruction label m tokens =>
      by_cases hk : m.kind = .directive
      · simp only [places, Statement.place?, Statement.instruction?, hk, if_true,
          Option.toList_some, List.singleton_append, cells_cons, Option.map_none,
          Option.toList_none, List.nil_append, counter]
        by_cases hn : m.name = "START".toList
        · have ho : Statement.origin? (.instruction label m tokens) =
              some (Statement.operandValue tokens) := by
            simp only [Statement.origin?, hk, hn, and_self, if_true]
          have hc : Statement.counterAfter l (.instruction label m tokens) =
              Statement.operandValue tokens := by
            simp only [Statement.counterAfter, hk, hn, if_true]
          rw [originFrom_cons_of_some ho, hc]
          exact ih hrs _
        · have ho : Statement.origin? (.instruction label m tokens) = none := by
            simp only [Statement.origin?, hn, and_false, if_false]
          have hc : Statement.counterAfter l (.instruction label m tokens) = l := by
            simp only [Statement.counterAfter, hk, hn, if_false]
          rw [originFrom_cons_of_none ho, hc]
          exact ih hrs l
      · -- the origin stays from here on, so the words lie where the counter stands
        have hnone : ∀ q ∈ rs, q.statement.origin? = none :=
          fun q hq => hr q hq (by simp [Statement.laysOut, hk])
        have ho : Statement.origin? (.instruction label m tokens) = none := by
          simp only [Statement.origin?, hk, false_and, if_false]
        have htail := ih hrs (l + Instruction.words ⟨m, tokens⟩)
        rw [originFrom_of_forall hnone] at htail
        rw [originFrom_cons_of_none ho, originFrom_of_forall hnone]
        simp only [places, Statement.place?, Statement.instruction?, hk, if_false,
          Option.toList_some, List.singleton_append, cells_cons, Option.map_some,
          counter, Statement.counterAfter_of_laysOut hk]
        exact ⟨rfl, htail⟩
    | _ => exact ih hrs l

end Source

namespace Program

/-- The words of the statements of a program, each at the location of its record. -/
def cells (p : Program) (is : List Source.Instruction) : List Extent :=
  (p.records.zip is).filterMap fun (r, i) => r.location.map fun a => ⟨a.val, i.words⟩

def literalAddresses (p : Program) : List Nat :=
  p.literals.entries.map (·.address.val)

theorem cells_eq (p : Program) (is : List Source.Instruction) :
    p.cells is = Source.cells (p.records.map Record.place) is := by
  simp only [cells, Source.cells, List.zip_map_left, List.filterMap_map]
  apply List.filterMap_congr
  rintro ⟨r, i⟩ -
  cases h : r.location <;> simp [Record.place, h]

theorem literalAddresses_of_freeze {p : Program} {table : LiteralTable} {l : Nat}
    (h : table.freeze = .ok p.literals)
    (ha : table.entries.map (fun e => e.address.map (·.val)) =
      (List.range' l table.size).map some) :
    p.literalAddresses = List.range' l table.size := by
  have he := congrArg (List.map fun q => q.2.map Fin.val) (LiteralTable.freeze_eq_ok_iff.1 h)
  rw [List.map_map, List.map_map] at he
  have hsome : p.literalAddresses.map some = (List.range' l table.size).map some := by
    rw [← ha, literalAddresses, List.map_map]
    exact he
  exact List.map_injective_iff.2 (fun _ _ => Option.some.inj) hsome

theorem location_eq_none_iff {p : Program} {l : Nat} {rs : List Source.Row}
    (h : p.records.map Record.place = Source.places l rs) {r : Record} (hr : r ∈ p.records) :
    r.location = none ↔ r.kind? = some .directive := by
  have hmem : r.place ∈ Source.places l rs := h ▸ List.mem_map_of_mem hr
  obtain ⟨kind, opcode, ht, hl⟩ := Source.exists_kind_of_mem_places hmem
  have htag : r.tag = .statement kind opcode := ht
  rw [show r.kind? = some kind by simp [Record.kind?, htag], Option.some.injEq, ← hl]
  simp [Record.place]

/-- The literals of a program take the words behind those that the source counts. -/
theorem exists_draft_of_source {setup : Setup} {source : Text} {p : Program}
    (h : ofSource setup source = .ok p) :
    let rows := Source.program setup.machine.mnemonics source
    let l := Source.counter 0 rows
    ∃ d, Draft.statements setup (Text.numbered (Text.lines source)) (.start setup.options) =
        .done d ∧
      p.records.map Record.place = Source.places 0 rows ∧
      d.location.val = l + p.literals.size ∧
      p.literalAddresses = List.range' l p.literals.size := by
  obtain ⟨d, hd, hended, -, hliterals, hrecords⟩ := Outcome.finish_eq_ok h
  obtain ⟨hplaces, hlaid⟩ := Draft.laidOut_of_statements hd
  have hlocation := hlaid.location
  rw [hended, if_pos rfl] at hlocation
  have haddresses := literalAddresses_of_freeze hliterals (hlaid.pooled hended)
  have hsize : d.literals.size = p.literals.size := by
    have hlength := congrArg List.length haddresses
    rw [literalAddresses, List.length_map, List.length_range'] at hlength
    exact hlength.symm
  rw [hsize] at hlocation haddresses
  exact ⟨d, hd, hrecords ▸ hplaces, hlocation, haddresses⟩

theorem ofSource_layout {setup : Setup} {source : Text} {p : Program}
    (h : ofSource setup source = .ok p)
    (hs : Source.StartsFirst (Source.program setup.machine.mnemonics source)) :
    let is := Source.instructionsOf setup.machine source
    let origin := Source.originFrom 0 (Source.program setup.machine.mnemonics source)
    let extents := p.cells is ++ p.literalAddresses.map fun a => ⟨a, 1⟩
    p.records.map (·.tag) = is.map (fun i => .statement i.mnemonic.kind i.mnemonic.opcode) ∧
      (∀ r ∈ p.records, r.location = none ↔ r.kind? = some .directive) ∧
      ∃ d, Draft.statements setup (Text.numbered (Text.lines source)) (.start setup.options) =
          .done d ∧
        Tiles origin extents d.location.val ∧
        extents.Pairwise Extent.Disjoint ∧
        (∀ x, (∃ c ∈ extents, c.Covers x) ↔ origin ≤ x ∧ x < d.location.val) ∧
        (∃ l, p.literalAddresses = List.range' l p.literals.size) ∧
        p.literalAddresses.Pairwise (· < ·) ∧
        ∀ c ∈ p.cells is, ∀ a ∈ p.literalAddresses, ¬ c.Covers a := by
  obtain ⟨d, hd, hplaces, hlocation, haddresses⟩ := exists_draft_of_source h
  have hcells := Source.tiles_cells hs 0
  rw [← hplaces, ← cells_eq] at hcells
  have hall := hcells.append (Extent.tiles_range' _ p.literals.size)
  rw [← haddresses, ← hlocation] at hall
  refine ⟨(standsFor_of_source h).records.tags, fun r => location_eq_none_iff hplaces, d, hd, hall,
    hall.pairwise_disjoint, hall.covers_iff, ⟨_, haddresses⟩, ?_, ?_⟩
  · rw [haddresses]
    exact List.pairwise_lt_range'
  · intro c hc a ha hcover
    have hdisjoint := (List.pairwise_append.1 hall.pairwise_disjoint).2.2 c hc ⟨a, 1⟩
      (List.mem_map_of_mem ha) a hcover
    exact hdisjoint ⟨Nat.le_refl a, Nat.lt_succ_self a⟩

/-- The built-in machine, with a mnemonic that needs no words. -/
def idle : Machine :=
  { Machine.builtin with
    mnemonics := MnemonicTable.builtin.define ⟨"IDLE".toList, .imperative, 6, 0⟩ }

/-- Statements without words, and a pool that is asked for before the end. -/
def scattered : Text :=
  "START 9
START 40
ADD AREG,='5'
IDLE
LTORG
A DS 3
B DS 0
SUB AREG,='5'
END
".toList

theorem ofSource_scattered :
    ∃ p d, ofSource ⟨idle, {}⟩ scattered = .ok p ∧
      Source.StartsFirst (Source.program idle.mnemonics scattered) ∧
      Draft.statements ⟨idle, {}⟩ (Text.numbered (Text.lines scattered)) (.start {}) = .done d ∧
      Tiles 40 [⟨40, 1⟩, ⟨41, 0⟩, ⟨41, 3⟩, ⟨44, 0⟩, ⟨44, 1⟩, ⟨45, 1⟩, ⟨46, 1⟩] 47 ∧
      d.location.val = 47 ∧ p.literalAddresses = [45, 46] := by
  have hs : Source.StartsFirst (Source.program idle.mnemonics scattered) := by decide
  obtain ⟨-, -, d, hd, htiles, -⟩ := @ofSource_layout ⟨idle, {}⟩ scattered _ rfl hs
  cases hd
  exact ⟨_, _, rfl, hs, rfl, htiles, rfl, rfl⟩

end Program

end TwoPass
