import TwoPass.Proofs.Freezing

/-! The symbol table under calls in any order. A log of the calls made so far says all about the
table: which names it lists and where, what the next call answers, and what it freezes to. -/

namespace TwoPass

/-- An operand that is mentioned, a plain label, or the label of data. -/
inductive SymbolCall
  | reference (name : Text) (line : Nat)
  | define (name : Text) (address : Address) (line : Nat)
  | bind (name : Text) (address : Address) (line : Nat)
deriving DecidableEq

inductive SymbolAnswer
  | place (ordinal : Ordinal)
  | outcome (outcome : LabelOutcome)
  | previous (address : Option Address)
deriving DecidableEq

/-- What a call leaves in a log. A mention has no address, so its location is of no account. -/
def SymbolCall.sighting : SymbolCall → Sighting
  | reference name line => ⟨name, line, .mention, 0⟩
  | define name address line => ⟨name, line, .plain, address.val⟩
  | bind name address line => ⟨name, line, .data, address.val⟩

def SymbolCall.log (cs : List SymbolCall) : List Sighting :=
  cs.map sighting

namespace Sighting

/-- The place of a name among the names of a log, with its address. -/
def entry? (ss : List Sighting) (name : Text) : Option (Nat × Option Nat) :=
  if name ∈ names ss then some ((names ss).idxOf name, address? ss name) else none

def unresolved? (ss : List Sighting) : Option Text :=
  (names ss).find? fun name => (address? ss name).isNone

theorem idxOf_names_append {ss : List Sighting} {name : Text} (h : name ∈ names ss)
    (ts : List Sighting) : (names (ss ++ ts)).idxOf name = (names ss).idxOf name := by
  obtain ⟨later, hl⟩ := prefix_names ss ts
  rw [← hl, List.idxOf_append_of_mem h]

theorem unresolved?_eq (ss : List Sighting) : unresolved? ss = (undefined? ss).map (·.name) := by
  have hisNone : ∀ name, (address? ss name).isNone = !ss.any (labels name) := by
    intro name
    cases hany : ss.any (labels name) with
    | false => simp [address?_isNone_iff.2 hany]
    | true =>
      cases ha : address? ss name with
      | some a => rfl
      | none =>
        rw [address?_isNone_iff, hany] at ha
        cases ha
  simp only [unresolved?, undefined?, hisNone]
  exact find?_names (fun name => !ss.any (labels name)) ss

theorem unresolved?_eq_none_iff {ss : List Sighting} :
    unresolved? ss = none ↔ ∀ name ∈ names ss, (address? ss name).isSome = true := by
  simp [unresolved?, Option.isSome_iff_ne_none]

end Sighting

/-- What a log answers to the next call: a place counts the names before it, a label is new,
unresolved or resolved as the log has it, and an address is the one that it gives the name. -/
inductive SymbolAnswer.Fits (ss : List Sighting) : SymbolCall → SymbolAnswer → Prop
  | reference (name : Text) (line : Nat) :
      Fits ss (.reference name line) (.place ⟨(Sighting.names ss).idxOf name⟩)
  | inserted {name : Text} (address : Address) (line : Nat) (hn : name ∉ Sighting.names ss) :
      Fits ss (.define name address line) (.outcome (.inserted ⟨(Sighting.names ss).length⟩))
  | resolved {name : Text} (address : Address) (line : Nat) (hn : name ∈ Sighting.names ss)
      (ha : Sighting.address? ss name = none) :
      Fits ss (.define name address line)
        (.outcome (.resolved ⟨(Sighting.names ss).idxOf name⟩))
  | alreadyDefined {name : Text} {kept : Address} (address : Address) (line : Nat)
      (hn : name ∈ Sighting.names ss) (ha : Sighting.address? ss name = some kept.val) :
      Fits ss (.define name address line)
        (.outcome (.alreadyDefined ⟨(Sighting.names ss).idxOf name⟩ kept))
  | bind {name : Text} {previous : Option Address} (address : Address) (line : Nat)
      (ha : Sighting.address? ss name = previous.map (·.val)) :
      Fits ss (.bind name address line) (.previous previous)

namespace SymbolTable

def call (table : SymbolTable) : SymbolCall → SymbolAnswer × SymbolTable
  | .reference name line =>
    let (ordinal, next) := table.reference name line
    (.place ordinal, next)
  | .define name address line =>
    let (outcome, next) := table.define name address line
    (.outcome outcome, next)
  | .bind name address line =>
    let (previous, next) := table.bind name address line
    (.previous previous, next)

def run (table : SymbolTable) (cs : List SymbolCall) : SymbolTable :=
  cs.foldl (fun t c => (t.call c).2) table

/-- A table stands beside the log of all calls made on it. -/
structure Refines (table : SymbolTable) (ss : List Sighting) : Prop where
  /-- Each name is listed once, in the order of the first calls. -/
  names : table.entries.map (·.name) = Sighting.names ss
  nodup : (Sighting.names ss).Nodup
  /-- Where an entry stands in the list is the place of its name in the log. -/
  entries : ∀ (k : Nat) (e : SymbolEntry), table.entries[k]? = some e →
    Sighting.entry? ss e.name = some (k, e.address.map (·.val))
  get? : ∀ name, (table.get? name).map (fun p => (p.1.index, p.2.map (·.val))) =
    Sighting.entry? ss name
  /-- No call to come moves a name. -/
  places : ∀ (later : List SymbolCall), ∀ name ∈ Sighting.names ss,
    (Sighting.names (ss ++ SymbolCall.log later)).idxOf name = (Sighting.names ss).idxOf name
  answers : ∀ c, SymbolAnswer.Fits ss c (table.call c).1
  freezes : (∃ frozen, table.freeze = .ok frozen) ↔
    ∀ name ∈ Sighting.names ss, (Sighting.address? ss name).isSome = true
  frozen : ∀ frozen, table.freeze = .ok frozen →
    frozen.entries.map (·.name) = table.entries.map (·.name) ∧
      (∀ o, frozen.address? o = (table.entries[o.index]?).bind (·.address)) ∧
      ∀ name, frozen.get? name = (table.get? name).bind (·.2)
  unresolved : ∀ name, Sighting.unresolved? ss = some name →
    ∃ line, Sighting.line? ss name = some line ∧
      table.freeze = .error (.undefinedSymbol line name)

section Freeze

variable {table : SymbolTable} {frozen : FrozenTable}

theorem address?_of_freeze (h : table.freeze = .ok frozen) (o : Ordinal) :
    frozen.address? o = (table.entries[o.index]?).bind (·.address) := by
  have he := congrArg (fun es => (es[o.index]?).bind Prod.snd) (freeze_eq_ok_iff.1 h)
  simp only [List.getElem?_map, Option.bind_map] at he
  rw [FrozenTable.address?, Option.map_eq_bind]
  exact he

theorem get?_of_freeze (h : table.freeze = .ok frozen) (name : Text) :
    frozen.get? name = (table.get? name).bind (·.2) := by
  have he := congrArg (fun es => (es.find? (·.1 = name)).bind Prod.snd) (freeze_eq_ok_iff.1 h)
  simp only [List.find?_map, Option.bind_map] at he
  rw [FrozenTable.get?, Option.map_eq_bind, get?, Option.bind_map]
  exact he

end Freeze

section Logs

variable {table : SymbolTable} {ss : List Sighting}

theorem Logs.call (h : table.Logs ss) (c : SymbolCall) :
    (table.call c).2.Logs (ss ++ [c.sighting]) := by
  cases c with
  | reference name line => exact h.reference name line 0
  | define name a line => exact h.define name a line
  | bind name a line => exact h.bind name a line

theorem Logs.run (h : table.Logs ss) (cs : List SymbolCall) :
    (table.run cs).Logs (ss ++ SymbolCall.log cs) := by
  induction cs generalizing table ss with
  | nil =>
    rw [SymbolCall.log, List.map_nil, List.append_nil]
    exact h
  | cons c cs ih =>
    have hlater := ih (h.call c)
    rw [List.append_assoc] at hlater
    exact hlater

theorem Logs.mem_names_iff (h : table.Logs ss) {name : Text} :
    name ∈ Sighting.names ss ↔ ∃ e, table.find? name = some e := by
  rw [← Option.ne_none_iff_exists', ne_eq, find?_eq_none_iff, h.names, not_not]

theorem Logs.place_eq (h : table.Logs ss) (name : Text) :
    table.place name = ⟨(Sighting.names ss).idxOf name⟩ := by
  rw [place, ← h.names, List.idxOf, List.findIdx_map]
  congr 2
  funext e
  simp [beq_eq_decide]

theorem Logs.get?_eq (h : table.Logs ss) (name : Text) :
    (table.get? name).map (fun p => (p.1.index, p.2.map (·.val))) = Sighting.entry? ss name := by
  unfold get? Sighting.entry?
  cases hf : table.find? name with
  | none =>
    have hn : name ∉ Sighting.names ss := by simp [h.mem_names_iff, hf]
    rw [if_neg hn]
    rfl
  | some e =>
    rw [if_pos (h.mem_names_iff.2 ⟨e, hf⟩), h.address_of_find? hf, h.place_eq]
    rfl

theorem Logs.entry?_of_getElem? (h : table.Logs ss) {k : Nat} {e : SymbolEntry}
    (he : table.entries[k]? = some e) :
    Sighting.entry? ss e.name = some (k, e.address.map (·.val)) := by
  have hk : (Sighting.names ss)[k]? = some e.name := by
    rw [← h.names, List.getElem?_map, he, Option.map_some]
  obtain ⟨hlt, hname⟩ := List.getElem?_eq_some_iff.1 hk
  have hidx := List.Nodup.idxOf_getElem (Sighting.nodup_names ss) k hlt
  rw [hname] at hidx
  rw [Sighting.entry?, if_pos (List.mem_of_getElem? hk), hidx,
    h.address e (List.mem_of_getElem? he)]

theorem Logs.fits (h : table.Logs ss) (c : SymbolCall) :
    SymbolAnswer.Fits ss c (table.call c).1 := by
  cases c with
  | reference name line =>
    have hp : (table.reference name line).1 = table.place name := by
      unfold SymbolTable.reference
      split <;> rfl
    simp only [SymbolTable.call, hp, h.place_eq]
    exact .reference name line
  | define name a line =>
    simp only [SymbolTable.call, SymbolTable.define]
    cases hf : table.find? name with
    | none =>
      have hn : name ∉ Sighting.names ss := by simp [h.mem_names_iff, hf]
      simp only [h.place_eq, List.idxOf_eq_length hn]
      exact .inserted a line hn
    | some e =>
      have hn := h.mem_names_iff.2 ⟨e, hf⟩
      have ha := h.address_of_find? hf
      cases he : e.address with
      | none =>
        simp only [he, h.place_eq]
        exact .resolved a line hn (by rw [ha, he]; rfl)
      | some kept =>
        simp only [he, h.place_eq]
        exact .alreadyDefined a line hn (by rw [ha, he]; rfl)
  | bind name a line =>
    simp only [SymbolTable.call, SymbolTable.bind]
    cases hf : table.find? name with
    | none => exact .bind a line (h.address_of_find?_none hf)
    | some e => exact .bind a line (h.address_of_find? hf)

theorem Logs.freeze_of_unresolved? (h : table.Logs ss) {name : Text}
    (hs : Sighting.unresolved? ss = some name) :
    ∃ line, Sighting.line? ss name = some line ∧
      table.freeze = .error (.undefinedSymbol line name) := by
  rw [Sighting.unresolved?_eq] at hs
  obtain ⟨s, hu, rfl⟩ := Option.map_eq_some_iff.1 hs
  have hline := Sighting.line?_of_find? (q := fun n => !ss.any (Sighting.labels n)) hu
  exact ⟨s.line, hline, h.freeze_eq_error hu⟩

theorem Logs.exists_freeze_iff (h : table.Logs ss) :
    (∃ frozen, table.freeze = .ok frozen) ↔
      ∀ name ∈ Sighting.names ss, (Sighting.address? ss name).isSome = true := by
  rw [← Sighting.unresolved?_eq_none_iff]
  cases hs : Sighting.unresolved? ss with
  | none =>
    rw [Sighting.unresolved?_eq, Option.map_eq_none_iff] at hs
    simpa using h.exists_freeze hs
  | some name =>
    obtain ⟨line, -, hf⟩ := h.freeze_of_unresolved? hs
    simp [hf]

theorem Logs.refines (h : table.Logs ss) : table.Refines ss where
  names := h.names
  nodup := Sighting.nodup_names ss
  entries _ _ he := h.entry?_of_getElem? he
  get? := h.get?_eq
  places later _ hn := Sighting.idxOf_names_append hn (SymbolCall.log later)
  answers := h.fits
  freezes := h.exists_freeze_iff
  frozen _ hf :=
    ⟨map_name_of_frozen (freeze_eq_ok_iff.1 hf), address?_of_freeze hf, get?_of_freeze hf⟩
  unresolved _ hs := h.freeze_of_unresolved? hs

end Logs

theorem refines_log (cs : List SymbolCall) : (empty.run cs).Refines (SymbolCall.log cs) :=
  (Logs.empty.run cs).refines

end SymbolTable

end TwoPass
