import TwoPass.Proofs.Encoding

/-! The growth of a draft. Whatever a line holds, and whether it succeeds or fails, a draft loses
nothing by it: code and warnings are only appended, entries stay in their places, and code never
points outside the tables. -/

namespace TwoPass

section Extends

variable {α : Type} {keeps : α → α → Prop}

/-- The elements of one list are in another at their places, in the form that `keeps` allows. -/
def Extends (keeps : α → α → Prop) (xs ys : List α) : Prop :=
  ∀ (k : Nat) (x : α), xs[k]? = some x → ∃ y, ys[k]? = some y ∧ keeps x y

theorem Extends.refl (h : ∀ x, keeps x x) (xs : List α) : Extends keeps xs xs :=
  fun _ x hx => ⟨x, hx, h x⟩

theorem Extends.trans {xs ys zs : List α} (hxy : Extends keeps xs ys) (hyz : Extends keeps ys zs)
    (h : ∀ {x y z}, keeps x y → keeps y z → keeps x z) : Extends keeps xs zs := by
  intro k x hx
  obtain ⟨y, hy, hk⟩ := hxy k x hx
  obtain ⟨z, hz, hk'⟩ := hyz k y hy
  exact ⟨z, hz, h hk hk'⟩

theorem Extends.append (h : ∀ x, keeps x x) (xs ys : List α) : Extends keeps xs (xs ++ ys) := by
  intro k x hx
  have hk := (List.getElem?_eq_some_iff.1 hx).1
  exact ⟨x, by rw [List.getElem?_append_left hk, hx], h x⟩

theorem Extends.map {f : α → α} (h : ∀ x, keeps x (f x)) (xs : List α) :
    Extends keeps xs (xs.map f) := by
  intro k x hx
  exact ⟨f x, by rw [List.getElem?_map, hx, Option.map_some], h x⟩

theorem Extends.cons {x y : α} {xs ys : List α} (h : keeps x y) (hs : Extends keeps xs ys) :
    Extends keeps (x :: xs) (y :: ys) := by
  intro k z hz
  cases k with
  | zero =>
    obtain rfl : x = z := by simpa using hz
    exact ⟨y, rfl, h⟩
  | succ k => exact hs k z hz

theorem Extends.length_le {xs ys : List α} (h : Extends keeps xs ys) : xs.length ≤ ys.length := by
  by_contra hlt
  have hk : ys.length < xs.length := by omega
  obtain ⟨y, hy, -⟩ := h ys.length xs[ys.length] (List.getElem?_eq_getElem hk)
  simp at hy

end Extends

/-- A symbol keeps its name, and it may change its address but not lose it. -/
structure SymbolEntry.Keeps (e f : SymbolEntry) : Prop where
  name : f.name = e.name
  address : e.address.isSome = true → f.address.isSome = true

theorem SymbolEntry.Keeps.refl (e : SymbolEntry) : e.Keeps e :=
  ⟨rfl, id⟩

theorem SymbolEntry.Keeps.trans {e f g : SymbolEntry} (h : e.Keeps f) (h' : f.Keeps g) :
    e.Keeps g :=
  ⟨h'.name.trans h.name, fun ha => h'.address (h.address ha)⟩

/-- A literal keeps its text, and its address once it has one. -/
structure LiteralEntry.Keeps (e f : LiteralEntry) : Prop where
  text : f.text = e.text
  address : ∀ a, e.address = some a → f.address = some a

theorem LiteralEntry.Keeps.refl (e : LiteralEntry) : e.Keeps e :=
  ⟨rfl, fun _ => id⟩

theorem LiteralEntry.Keeps.trans {e f g : LiteralEntry} (h : e.Keeps f) (h' : f.Keeps g) :
    e.Keeps g :=
  ⟨h'.text.trans h.text, fun a ha => h'.address a (h.address a ha)⟩

namespace SymbolTable

def Keeps (table next : SymbolTable) : Prop :=
  Extends SymbolEntry.Keeps table.entries next.entries

theorem Keeps.refl (table : SymbolTable) : table.Keeps table :=
  Extends.refl SymbolEntry.Keeps.refl _

theorem Keeps.trans {t u v : SymbolTable} (h : t.Keeps u) (h' : u.Keeps v) : t.Keeps v :=
  Extends.trans h h' SymbolEntry.Keeps.trans

theorem keeps_push (table : SymbolTable) (e : SymbolEntry) : table.Keeps (table.push e) :=
  Extends.append SymbolEntry.Keeps.refl _ _

theorem keeps_setAddress (table : SymbolTable) (name : Text) (a : Address) :
    table.Keeps (table.setAddress name a) := by
  apply Extends.map
  intro e
  by_cases h : e.name = name
  · rw [if_pos h]
    exact ⟨rfl, fun _ => rfl⟩
  · rw [if_neg h]
    exact .refl e

theorem keeps_reference (table : SymbolTable) (name : Text) (line : Nat) :
    table.Keeps (table.reference name line).2 := by
  unfold reference
  split
  · exact .refl table
  · exact table.keeps_push _

theorem keeps_define (table : SymbolTable) (name : Text) (a : Address) (line : Nat) :
    table.Keeps (table.define name a line).2 := by
  unfold define
  split
  · exact table.keeps_push _
  · split
    · exact table.keeps_setAddress name a
    · exact .refl table

theorem keeps_bind (table : SymbolTable) (name : Text) (a : Address) (line : Nat) :
    table.Keeps (table.bind name a line).2 := by
  unfold bind
  split
  · exact table.keeps_push _
  · exact table.keeps_setAddress name a

end SymbolTable

namespace LiteralTable

def Keeps (table next : LiteralTable) : Prop :=
  Extends LiteralEntry.Keeps table.entries next.entries

theorem Keeps.refl (table : LiteralTable) : table.Keeps table :=
  Extends.refl LiteralEntry.Keeps.refl _

theorem Keeps.trans {t u v : LiteralTable} (h : t.Keeps u) (h' : u.Keeps v) : t.Keeps v :=
  Extends.trans h h' LiteralEntry.Keeps.trans

theorem keeps_add (table : LiteralTable) (text : Text) (line : Nat) :
    table.Keeps (table.add text line).2 := by
  unfold add
  split
  · exact .refl table
  · exact Extends.append LiteralEntry.Keeps.refl _ _

/-- A pool gives addresses only to entries without one, even if the words run out. -/
theorem extends_pool (line : Nat) (location : Address) (es : List LiteralEntry) :
    Extends LiteralEntry.Keeps es (pool line location es).entries := by
  induction es generalizing location with
  | nil => exact Extends.refl LiteralEntry.Keeps.refl []
  | cons e es ih =>
    unfold pool
    split
    · exact .cons (.refl e) (ih location)
    · next ha =>
      split
      · exact Extends.refl LiteralEntry.Keeps.refl _
      · next taken next _ =>
        have he : e.Keeps { e with address := some taken } :=
          ⟨rfl, fun a h => by rw [ha] at h; cases h⟩
        exact .cons he (ih next)

end LiteralTable

/-- An operand points into tables of some sizes. -/
def Operand.Within (symbols literals : Nat) : Operand → Prop
  | .symbol o => 1 ≤ o.number ∧ o.number ≤ symbols
  | .literal o => 1 ≤ o.number ∧ o.number ≤ literals
  | _ => True

theorem Operand.Within.mono {s s' l l' : Nat} {o : Operand} (h : o.Within s l) (hs : s ≤ s')
    (hl : l ≤ l') : o.Within s' l' := by
  cases o with
  | symbol o => exact ⟨h.1, Nat.le_trans h.2 hs⟩
  | literal o => exact ⟨h.1, Nat.le_trans h.2 hl⟩
  | _ => trivial

def Record.Within (symbols literals : Nat) (r : Record) : Prop :=
  ∀ o ∈ r.operands, o.Within symbols literals

theorem Ordinal.within_of_getElem? {xs : List Text} {o : Ordinal} {t : Text}
    (h : xs[o.index]? = some t) : 1 ≤ o.number ∧ o.number ≤ xs.length := by
  have hlt := (List.getElem?_eq_some_iff.1 h).1
  unfold Ordinal.number
  omega

namespace Draft

/-- The code of a draft points into its tables. -/
def Closed (d : Draft) : Prop :=
  ∀ r ∈ d.records, r.Within d.symbols.size d.literals.size

/-- A draft that comes of another one: what was there stays, and new code points into the tables
that there are now. -/
structure Grows (d e : Draft) : Prop where
  records : ∃ rs, e.records = d.records ++ rs ∧ ∀ r ∈ rs, r.Within e.symbols.size e.literals.size
  warnings : d.warnings <+: e.warnings
  symbols : d.symbols.Keeps e.symbols
  literals : d.literals.Keeps e.literals

theorem Grows.refl (d : Draft) : Grows d d :=
  ⟨⟨[], by simp, by simp⟩, List.prefix_refl _, .refl _, .refl _⟩

theorem Grows.within {d e : Draft} (h : Grows d e) {r : Record}
    (hr : r.Within d.symbols.size d.literals.size) : r.Within e.symbols.size e.literals.size :=
  fun o ho => (hr o ho).mono (Extends.length_le h.symbols) (Extends.length_le h.literals)

theorem Grows.trans {d e f : Draft} (h : Grows d e) (h' : Grows e f) : Grows d f := by
  obtain ⟨rs, hrs, hin⟩ := h.records
  obtain ⟨qs, hqs, hin'⟩ := h'.records
  refine ⟨⟨rs ++ qs, by rw [hqs, hrs, List.append_assoc], ?_⟩, h.warnings.trans h'.warnings,
    h.symbols.trans h'.symbols, h.literals.trans h'.literals⟩
  intro r hr
  rcases List.mem_append.1 hr with hr | hr
  · exact h'.within (hin r hr)
  · exact hin' r hr

theorem Grows.closed {d e : Draft} (h : Grows d e) (hd : d.Closed) : e.Closed := by
  obtain ⟨rs, hrs, hin⟩ := h.records
  intro r hr
  rw [hrs] at hr
  rcases List.mem_append.1 hr with hr | hr
  · exact h.within (hd r hr)
  · exact hin r hr

theorem grows_warnings (d : Draft) (ws : List Warning) :
    Grows d { d with warnings := d.warnings ++ ws } :=
  ⟨⟨[], by simp, by simp⟩, List.prefix_append _ _, .refl _, .refl _⟩

theorem grows_warn (d : Draft) (line : Nat) (remark : Remark) : Grows d (d.warn line remark) :=
  grows_warnings d [⟨line, remark⟩]

theorem grows_emit {d : Draft} {r : Record} (h : r.Within d.symbols.size d.literals.size) :
    Grows d (d.emit r) :=
  ⟨⟨[r], rfl, by simpa [emit] using h⟩, List.prefix_refl _, .refl _, .refl _⟩

theorem grows_emit_constants (d : Draft) (location : Option Address) (tag : Tag)
    (cs : List Constant) : Grows d (d.emit ⟨location, tag, cs.map .constant⟩) := by
  apply grows_emit
  intro o ho
  obtain ⟨c, -, rfl⟩ := List.mem_map.1 ho
  trivial

theorem grows_location (d : Draft) (location : Address) :
    Grows d { d with location := location } :=
  ⟨⟨[], by simp, by simp⟩, List.prefix_refl _, .refl _, .refl _⟩

theorem grows_ended (d : Draft) : Grows d { d with ended := true } :=
  ⟨⟨[], by simp, by simp⟩, List.prefix_refl _, .refl _, .refl _⟩

theorem grows_symbols {d : Draft} {symbols : SymbolTable} (h : d.symbols.Keeps symbols) :
    Grows d { d with symbols := symbols } :=
  ⟨⟨[], by simp, by simp⟩, List.prefix_refl _, h, .refl _⟩

theorem grows_literals {d : Draft} {literals : LiteralTable} (h : d.literals.Keeps literals) :
    Grows d { d with literals := literals } :=
  ⟨⟨[], by simp, by simp⟩, List.prefix_refl _, .refl _, h⟩

theorem composes_grows : Composes Grows :=
  ⟨.refl, .trans⟩

section Steps

variable (options : Options) (registers : RegisterTable) (line : Nat)

theorem grows_advance (d : Draft) (words : Address) : Grows d (d.advance words line).draft := by
  unfold advance
  split
  · exact grows_location d _
  · exact .refl d

theorem grows_defineLabel (name : Text) (d : Draft) :
    Grows d (defineLabel options line name d).draft := by
  obtain ⟨ws, h⟩ := defineLabel_frame options line name d
  rw [h]
  exact (grows_symbols (d.symbols.keeps_define name d.location line)).trans (grows_warnings _ ws)

theorem grows_bindLabel (name : Text) (d : Draft) :
    Grows d (bindLabel options line name d).draft := by
  obtain ⟨ws, h⟩ := bindLabel_frame options line name d
  rw [h]
  exact (grows_symbols (d.symbols.keeps_bind name d.location line)).trans (grows_warnings _ ws)

theorem grows_operand (token : Text) (d : Draft) :
    Grows d (operand registers line token d).2 := by
  unfold operand
  split
  · exact .refl d
  · split
    · exact grows_literals (d.literals.keeps_add token line)
    · exact grows_symbols (d.symbols.keeps_reference token line)

theorem within_operand (token : Text) (d : Draft) :
    (operand registers line token d).1.Within (operand registers line token d).2.symbols.size
      (operand registers line token d).2.literals.size := by
  unfold operand
  split
  · trivial
  · split
    · have h := Ordinal.within_of_getElem? (LiteralTable.getElem?_add d.literals token line)
      rw [List.length_map] at h
      exact h
    · have h := Ordinal.within_of_getElem? (SymbolTable.getElem?_reference d.symbols token line)
      rw [List.length_map] at h
      exact h

theorem within_operands (tokens : List Text) (d : Draft) :
    ∀ o ∈ (operands registers line tokens d).1,
      o.Within (operands registers line tokens d).2.symbols.size
        (operands registers line tokens d).2.literals.size :=
  composes_grows.forall_operands (fun d o => o.Within d.symbols.size d.literals.size)
    (grows_operand registers line) (within_operand registers line)
    (fun h ho => ho.mono (Extends.length_le h.symbols) (Extends.length_le h.literals)) tokens d

theorem grows_poolLiterals (d : Draft) : Grows d (poolLiterals line d).draft :=
  (grows_location d _).trans
    (grows_literals (LiteralTable.extends_pool line d.location d.literals.entries))

theorem grows_directive (m : Mnemonic) (tokens : List Text) (d : Draft) :
    Grows d (directive line m tokens d).draft := by
  unfold directive
  split
  · unfold setOrigin
    split
    · exact .refl d
    · next a _ => exact (grows_emit_constants d _ _ [.ofAddress a]).trans (grows_location _ a)
  · have hemit := grows_emit_constants d none (.statement .directive m.opcode) []
    dsimp only
    split
    · exact composes_grows.andThen (hemit.trans (grows_poolLiterals line _)) grows_ended
    · exact hemit

theorem grows_imperative (m : Mnemonic) (tokens : List Text) (d : Draft) :
    Grows d (imperative registers line m tokens d).draft := by
  have hwithin := within_operands registers line tokens d
  have hgrows := composes_grows.operands (grows_operand registers line) tokens d
  refine (hgrows.trans (grows_emit ?_)).trans (grows_advance line _ _)
  exact hwithin

theorem grows_declarative (label : Option Text) (m : Mnemonic) (tokens : List Text) (d : Draft) :
    Grows d (declarative options line label m tokens d).draft := by
  unfold declarative
  split
  · exact .refl d
  · split
    · exact .refl d
    · next value words _ =>
      refine composes_grows.andThen
        (composes_grows.withLabel (grows_bindLabel options line) label d) fun e => ?_
      exact (grows_emit_constants e _ _ [value]).trans (grows_advance line _ _)

theorem grows_execute (setup : Setup) (d : Draft) (s : Source.Statement) :
    Grows d (execute setup line d s).draft := by
  have hlabel := composes_grows.withLabel (grows_defineLabel setup.options line)
  cases s with
  | blank => exact .refl d
  | bareLabel name =>
    exact (grows_warn d line (.bareLabel name)).trans (grows_defineLabel setup.options line name _)
  | unknown name => exact .refl d
  | instruction label m tokens =>
    cases hk : m.kind with
    | directive =>
      simp only [execute, hk]
      exact composes_grows.andThen (hlabel label d) (grows_directive line m tokens)
    | imperative =>
      simp only [execute, hk]
      exact composes_grows.andThen (hlabel label d)
        (grows_imperative setup.machine.registers line m tokens)
    | declarative =>
      simp only [execute, hk]
      exact grows_declarative setup.options line label m tokens d

theorem grows_statement (setup : Setup) (t : Text) (d : Draft) :
    Grows d (statement setup line t d).draft := by
  unfold statement
  split
  · exact .refl d
  · split
    · exact grows_warn d line .afterEnd
    · exact grows_execute line setup d _

end Steps

theorem statement_of_ended {setup : Setup} {d : Draft} (hd : d.ended = true) (line : Nat)
    (t : Text) :
    (statement setup line t d).draft =
      { d with warnings := (statement setup line t d).draft.warnings } := by
  unfold statement
  split
  · rfl
  · rw [if_pos hd]
    rfl

/-- The drafts that some lines lead to, of which any may have failed. -/
inductive Reachable (setup : Setup) : Draft → Prop
  | start : Reachable setup (.start setup.options)
  | statement {d : Draft} (line : Nat) (t : Text) (h : Reachable setup d) :
      Reachable setup (statement setup line t d).draft

theorem Reachable.closed {setup : Setup} {d : Draft} (h : Reachable setup d) : d.Closed := by
  induction h with
  | start => simp [Closed, Draft.start]
  | statement line t _ ih => exact (grows_statement line setup t _).closed ih

theorem Reachable.grows {setup : Setup} {d : Draft} (h : Reachable setup d) (line : Nat)
    (t : Text) :
    let e := (Draft.statement setup line t d).draft
    d.records <+: e.records ∧ d.warnings <+: e.warnings ∧
      Extends SymbolEntry.Keeps d.symbols.entries e.symbols.entries ∧
      Extends LiteralEntry.Keeps d.literals.entries e.literals.entries ∧
      (d.ended = true → e = { d with warnings := e.warnings }) ∧
      ∀ r ∈ e.records, ∀ o ∈ r.operands, o.Within e.symbols.size e.literals.size := by
  have hgrows := grows_statement line setup t d
  obtain ⟨rs, hrs, -⟩ := hgrows.records
  exact ⟨⟨rs, hrs.symm⟩, hgrows.warnings, hgrows.symbols, hgrows.literals,
    fun hd => statement_of_ended hd line t, hgrows.closed h.closed⟩

/-- A draft that ran out of words in an instruction and again at the end. -/
def stumbled : Draft :=
  let setup : Setup := ⟨.builtin, {}⟩
  let d := (statement setup 1 "START 65535".toList (.start {})).draft
  let d := (statement setup 2 "MOVER AREG,='5'".toList d).draft
  (statement setup 3 "END".toList d).draft

theorem stumbled_grows :
    let e := (statement ⟨.builtin, {}⟩ 4 "A SUB AREG,B".toList stumbled).draft
    Reachable ⟨.builtin, {}⟩ stumbled ∧ stumbled.records.length = 3 ∧
      stumbled.records <+: e.records ∧ e.records.length = 4 ∧
      ∀ r ∈ e.records, ∀ o ∈ r.operands, o.Within 2 1 := by
  have hr : Reachable ⟨.builtin, {}⟩ stumbled :=
    .statement _ _ (.statement _ _ (.statement _ _ .start))
  obtain ⟨hrecords, -, -, -, -, hwithin⟩ := hr.grows 4 "A SUB AREG,B".toList
  exact ⟨hr, rfl, hrecords, rfl, hwithin⟩

end Draft

end TwoPass
