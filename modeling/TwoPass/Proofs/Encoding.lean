import TwoPass.Proofs.LiteralLog
import TwoPass.Proofs.Run

/-! What the ordinals of emitted code stand for. Every operand keeps pointing at the name or the
literal that it was read from, however the tables grow behind it. -/

namespace TwoPass

/-- Operands that stand for tokens, over the names and the literal texts of two tables. Literals
that share no entries are numbered from `n`. -/
inductive Encodes (registers : RegisterTable) (merging : Bool) (names texts : List Text) :
    Nat → List Text → List Operand → Prop
  | nil (n : Nat) : Encodes registers merging names texts n [] []
  | register {n : Nat} {t : Text} {ts : List Text} {c : Code} {os : List Operand}
      (hc : registers.code? t = some c) (hr : Encodes registers merging names texts n ts os) :
      Encodes registers merging names texts n (t :: ts) (.register c :: os)
  | literal {n : Nat} {t : Text} {ts : List Text} {o : Ordinal} {os : List Operand}
      (hl : Source.isLiteralOperand registers t = true) (ht : texts[o.index]? = some t)
      (hn : merging = false → o.index = n)
      (hr : Encodes registers merging names texts (n + 1) ts os) :
      Encodes registers merging names texts n (t :: ts) (.literal o :: os)
  | symbol {n : Nat} {t : Text} {ts : List Text} {o : Ordinal} {os : List Operand}
      (hs : Source.isSymbolOperand registers t = true) (ht : names[o.index]? = some t)
      (hr : Encodes registers merging names texts n ts os) :
      Encodes registers merging names texts n (t :: ts) (.symbol o :: os)

theorem getElem?_mono {α : Type} {xs ys : List α} (h : xs <+: ys) {k : Nat} {x : α}
    (hx : xs[k]? = some x) : ys[k]? = some x := by
  obtain ⟨zs, rfl⟩ := h
  rw [List.getElem?_append_left (List.getElem?_eq_some_iff.1 hx).1, hx]

theorem Encodes.mono {registers : RegisterTable} {merging : Bool}
    {names names' texts texts' : List Text} {n : Nat} {ts : List Text} {os : List Operand}
    (h : Encodes registers merging names texts n ts os) (hn : names <+: names')
    (ht : texts <+: texts') : Encodes registers merging names' texts' n ts os := by
  induction h with
  | nil n => exact .nil n
  | register hc _ ih => exact .register hc ih
  | literal hl hx hi _ ih => exact .literal hl (getElem?_mono ht hx) hi ih
  | symbol hs hx _ ih => exact .symbol hs (getElem?_mono hn hx) ih

inductive Compiles (registers : RegisterTable) (merging : Bool) (names texts : List Text) :
    Nat → List Source.Instruction → List Record → Prop
  | nil (n : Nat) : Compiles registers merging names texts n [] []
  | cons {n : Nat} {i : Source.Instruction} {is : List Source.Instruction} {r : Record}
      {rs : List Record} (ht : r.tag = .statement i.mnemonic.kind i.mnemonic.opcode)
      (ho : i.mnemonic.kind = .imperative →
        Encodes registers merging names texts n i.operands r.operands)
      (hc : i.mnemonic.kind ≠ .imperative → ∀ o ∈ r.operands, ∃ c, o = .constant c)
      (hr : Compiles registers merging names texts (n + (i.literals registers).length) is rs) :
      Compiles registers merging names texts n (i :: is) (r :: rs)

theorem Compiles.mono {registers : RegisterTable} {merging : Bool}
    {names names' texts texts' : List Text} {n : Nat} {is : List Source.Instruction}
    {rs : List Record} (h : Compiles registers merging names texts n is rs)
    (hn : names <+: names') (ht : texts <+: texts') :
    Compiles registers merging names' texts' n is rs := by
  induction h with
  | nil n => exact .nil n
  | cons htag ho hc _ ih => exact .cons htag (fun hk => (ho hk).mono hn ht) hc ih

theorem Compiles.append {registers : RegisterTable} {merging : Bool} {names texts : List Text}
    {n : Nat} {is js : List Source.Instruction} {rs qs : List Record}
    (h : Compiles registers merging names texts n is rs)
    (h' : Compiles registers merging names texts
      (n + (Source.literals registers is).length) js qs) :
    Compiles registers merging names texts n (is ++ js) (rs ++ qs) := by
  induction h with
  | nil n => simpa [Source.literals] using h'
  | cons htag ho hc _ ih =>
    refine .cons htag ho hc (ih ?_)
    simpa [Source.literals, Nat.add_assoc] using h'

theorem Compiles.tags {registers : RegisterTable} {merging : Bool} {names texts : List Text}
    {n : Nat} {is : List Source.Instruction} {rs : List Record}
    (h : Compiles registers merging names texts n is rs) :
    rs.map (·.tag) = is.map fun i => .statement i.mnemonic.kind i.mnemonic.opcode := by
  induction h with
  | nil n => rfl
  | cons htag _ _ _ ih => simp [htag, ih]

theorem SymbolTable.getElem?_reference (table : SymbolTable) (name : Text) (line : Nat) :
    ((table.reference name line).2.entries.map (·.name))[(table.reference name line).1.index]? =
      some name := by
  have hplace : ∀ e, table.find? name = some e →
      (table.entries.map (·.name))[(table.place name).index]? = some name := by
    intro e he
    have hex : ∃ k ∈ table.entries, decide (k.name = name) = true :=
      ⟨e, mem_of_find? he, by simp [find?_name he]⟩
    have hlt := List.findIdx_lt_length_of_exists hex
    have hname := of_decide_eq_true (List.findIdx_getElem (w := hlt))
    simp only [place, List.getElem?_map]
    rw [List.getElem?_eq_getElem hlt, Option.map_some, hname]
  unfold SymbolTable.reference
  split
  · next e he => exact hplace e he
  · next hf =>
    have hidx : table.entries.findIdx (·.name = name) = table.entries.length := by
      rw [List.findIdx_eq_length]
      intro e he
      simpa using List.find?_eq_none.1 hf e he
    simp [place, push, hidx]

namespace Draft

def names (d : Draft) : List Text :=
  d.symbols.entries.map (·.name)

def texts (d : Draft) : List Text :=
  d.literals.entries.map (·.text)

/-- The tables of a draft are the logs of sightings and of occurrences of literals. -/
structure Logs (merging : Bool) (d : Draft) (ss : List Sighting) (ts : List Text) : Prop where
  symbols : d.symbols.Logs ss
  literals : LiteralTable.Logs merging d.literals ts

theorem prefix_names {d e : Draft} {ss zs : List Sighting} (hd : d.symbols.Logs ss)
    (he : e.symbols.Logs (ss ++ zs)) : d.names <+: e.names := by
  rw [names, names, hd.names, he.names]
  exact Sighting.prefix_names ss zs

theorem prefix_texts {merging : Bool} {d e : Draft} {ts us : List Text}
    (hd : d.texts = LiteralTable.kept merging ts)
    (he : e.texts = LiteralTable.kept merging (ts ++ us)) : d.texts <+: e.texts := by
  rw [hd, he]
  exact LiteralTable.prefix_kept merging ts us

section Operands

variable (registers : RegisterTable) (line : Nat) {merging : Bool} {d : Draft}
  {ss : List Sighting} {ts : List Text}

theorem logs_literals_operand (token : Text) (h : LiteralTable.Logs merging d.literals ts) :
    LiteralTable.Logs merging (operand registers line token d).2.literals
      (ts ++ [token].filter (Source.isLiteralOperand registers)) := by
  unfold operand
  split
  · next c hc => simpa [Source.isLiteralOperand, hc] using h
  · next hc =>
    split
    · next hl => simpa [Source.isLiteralOperand, hc, hl] using h.add token line
    · next hl => simpa [Source.isLiteralOperand, hl] using h

theorem logs_operand (l : Nat) (token : Text) (h : Logs merging d ss ts) :
    Logs merging (operand registers line token d).2
      (ss ++ Source.Statement.operandSightings registers line l [token])
      (ts ++ [token].filter (Source.isLiteralOperand registers)) :=
  ⟨logs_operands registers line l [token] h.symbols,
    logs_literals_operand registers line token h.literals⟩

theorem logs_all_operands (l : Nat) (tokens : List Text) (h : Logs merging d ss ts) :
    Logs merging (operands registers line tokens d).2
      (ss ++ Source.Statement.operandSightings registers line l tokens)
      (ts ++ tokens.filter (Source.isLiteralOperand registers)) := by
  refine ⟨logs_operands registers line l tokens h.symbols, ?_⟩
  replace h := h.literals
  induction tokens generalizing d ts with
  | nil => simpa [operands] using h
  | cons token tokens ih =>
    have hrest := ih (logs_literals_operand registers line token h)
    rw [List.append_assoc, ← List.filter_append] at hrest
    exact hrest

theorem encodes_cons {token : Text} {tokens names texts : List Text} {os : List Operand}
    (h : Logs merging d ss ts) (hn : (operand registers line token d).2.names <+: names)
    (ht : (operand registers line token d).2.texts <+: texts)
    (hr : Encodes registers merging names texts
      (ts ++ [token].filter (Source.isLiteralOperand registers)).length tokens os) :
    Encodes registers merging names texts ts.length (token :: tokens)
      ((operand registers line token d).1 :: os) := by
  unfold operand at hn ht ⊢
  cases hc : registers.code? token with
  | some c =>
    have hr' : Encodes registers merging names texts ts.length tokens os := by
      simpa [Source.isLiteralOperand, hc] using hr
    exact .register hc hr'
  | none =>
    simp only [hc] at hn ht ⊢
    cases hl : Source.isLiteral token with
    | true =>
      have hlit : Source.isLiteralOperand registers token = true := by
        simp [Source.isLiteralOperand, hc, hl]
      simp only [hl, if_true] at hn ht ⊢
      refine .literal hlit (getElem?_mono ht (LiteralTable.getElem?_add _ token line)) ?_ ?_
      · rintro rfl
        exact h.literals.index_add token line
      · simpa [hlit] using hr
    | false =>
      have hsym : Source.isSymbolOperand registers token = true := by
        simp [Source.isSymbolOperand, hc, hl]
      simp only [hl, Bool.false_eq_true, if_false] at hn ht ⊢
      refine .symbol hsym (getElem?_mono hn (SymbolTable.getElem?_reference _ token line)) ?_
      simpa [Source.isLiteralOperand, hl] using hr

/-- Reading operands yields code that stands for the tokens in the tables that it leaves. -/
theorem encodes_operands (tokens : List Text) (h : Logs merging d ss ts) :
    Encodes registers merging (operands registers line tokens d).2.names
      (operands registers line tokens d).2.texts ts.length tokens
      (operands registers line tokens d).1 := by
  induction tokens generalizing d ss ts with
  | nil => exact .nil _
  | cons token tokens ih =>
    have hfirst := logs_operand registers line 0 token h
    have hall := logs_all_operands registers line 0 tokens hfirst
    exact encodes_cons registers line h (prefix_names hfirst.symbols hall.symbols)
      (prefix_texts hfirst.literals.texts hall.literals.texts) (ih hfirst)

end Operands

theorem Labels.logs {role : Role} {line : Nat} {label : Option Text} {merging : Bool}
    {d e : Draft} {ss : List Sighting} {ts : List Text} (hl : Labels role line label d e)
    (h : Logs merging d ss ts) :
    Logs merging e (ss ++ Source.Statement.labelSightings role line d.location.val label) ts :=
  ⟨hl.symbols ss h.symbols, hl.literals ▸ h.literals⟩

theorem literals_of_kind {registers : RegisterTable} {i : Source.Instruction}
    (h : i.mnemonic.kind ≠ .imperative) : i.literals registers = [] := by
  simp [Source.Instruction.literals, h]

theorem texts_poolLiterals {line : Nat} {d e : Draft} (h : poolLiterals line d = .done e) :
    e.texts = d.texts := by
  obtain ⟨_, rfl⟩ := poolLiterals_eq_done h
  exact LiteralTable.map_text_pool line d.location d.literals.entries

section Statement

variable {setup : Setup} {line : Nat} {merging : Bool} {d e : Draft} {s : Source.Statement}
  {ss : List Sighting} {ts : List Text}

theorem Completes.literals (h : Completes setup line d s e) (hs : s.isEnd = false)
    (hd : Logs merging d ss ts) :
    LiteralTable.Logs merging e.literals
      (ts ++ Source.literals setup.machine.registers s.instruction?.toList) := by
  cases h with
  | blank => simpa [Source.literals, Source.Statement.instruction?] using hd.literals
  | bareLabel hl =>
    simpa [Source.literals, Source.Statement.instruction?] using (hl.logs hd).literals
  | start hk hn hl ho =>
    simpa [Source.literals, Source.Statement.instruction?, literals_of_kind, hk, emit] using
      (hl.logs hd).literals
  | finish hk hn hl hp => simp [Source.Statement.isEnd, hk, hn] at hs
  | directive hk hst hn hl =>
    simpa [Source.literals, Source.Statement.instruction?, literals_of_kind, hk, emit] using
      (hl.logs hd).literals
  | @imperative label m tokens f g os next hk hl ho hw =>
    have hlog := (logs_all_operands setup.machine.registers line 0 tokens (hl.logs hd)).literals
    rw [ho] at hlog
    simpa [Source.literals, Source.Statement.instruction?, Source.Instruction.literals, hk, emit]
      using hlog
  | declarative hk hv hl hw =>
    simpa [Source.literals, Source.Statement.instruction?, literals_of_kind, hk, emit] using
      (hl.logs hd).literals

theorem Completes.texts (h : Completes setup line d s e) (hd : Logs merging d ss ts) :
    e.texts = LiteralTable.kept merging
      (ts ++ Source.literals setup.machine.registers s.instruction?.toList) := by
  cases hs : s.isEnd with
  | false => exact (h.literals hs hd).texts
  | true =>
    obtain ⟨label, m, tokens, f, g, rfl, hk, hl, hp, rfl⟩ := h.of_isEnd hs
    have htexts : g.texts = LiteralTable.kept merging ts :=
      (texts_poolLiterals hp).trans (hl.logs hd).literals.texts
    have hnone : Source.literals setup.machine.registers [⟨m, tokens⟩] = [] := by
      simp [Source.literals, literals_of_kind, hk]
    show g.texts = LiteralTable.kept merging (ts ++ Source.literals _ [⟨m, tokens⟩])
    rw [hnone, List.append_nil, htexts]

/-- A record of constants stands for an instruction that mentions nothing. -/
theorem compiles_constants {registers : RegisterTable} {names texts : List Text} {n : Nat}
    {i : Source.Instruction} {location : Option Address} {k : StatementClass}
    (hi : i.mnemonic.kind = k) (hk : k ≠ .imperative) (cs : List Constant) :
    Compiles registers merging names texts n [i]
      [⟨location, .statement k i.mnemonic.opcode, cs.map .constant⟩] := by
  refine .cons (by rw [hi]) (fun h => absurd (hi.symm.trans h) hk) (fun _ o ho => ?_) (.nil _)
  obtain ⟨c, -, rfl⟩ := List.mem_map.1 ho
  exact ⟨c, rfl⟩

theorem Completes.compiles (h : Completes setup line d s e) (hd : Logs merging d ss ts) :
    ∃ rs, e.records = d.records ++ rs ∧
      Compiles setup.machine.registers merging e.names e.texts ts.length
        s.instruction?.toList rs := by
  cases h with
  | blank => exact ⟨[], by simp, .nil _⟩
  | bareLabel hl => exact ⟨[], by simp [hl.records], .nil _⟩
  | @start label m tokens a f hk hn hl ho =>
    exact ⟨_, by rw [← hl.records]; rfl, compiles_constants hk (by decide) [.ofAddress a]⟩
  | finish hk hn hl hp =>
    obtain ⟨_, rfl⟩ := poolLiterals_eq_done hp
    exact ⟨_, by rw [← hl.records]; rfl, compiles_constants hk (by decide) []⟩
  | directive hk hst hn hl =>
    exact ⟨_, by rw [← hl.records]; rfl, compiles_constants hk (by decide) []⟩
  | @imperative label m tokens f g os next hk hl ho hw =>
    obtain ⟨symbols, literals, hg⟩ := operands_frame setup.machine.registers line tokens f
    have henc := encodes_operands setup.machine.registers line tokens (hl.logs hd)
    rw [ho] at hg henc
    have hrecords : g.records = d.records := by
      rw [show g = _ from hg, hl.records]
    refine ⟨[⟨some g.location, .statement .imperative m.opcode, os⟩], ?_, ?_⟩
    · rw [← hrecords]
      rfl
    · exact .cons (by rw [hk]) (fun _ => henc) (fun hne => absurd hk hne) (.nil _)
  | @declarative label m t tokens f value words next hk hv hl hw =>
    exact ⟨_, by rw [← hl.records]; rfl, compiles_constants hk (by decide) [value]⟩

end Statement

section Run

variable {setup : Setup} {rs : List Source.Row} {merging : Bool} {d e : Draft}
  {ss : List Sighting} {ts : List Text}

theorem Completes.logs {line : Nat} {s : Source.Statement} (h : Completes setup line d s e)
    (hs : s.isEnd = false) (hd : Logs merging d ss ts) :
    Logs merging e (ss ++ s.sightings setup.machine.registers line d.location.val)
      (ts ++ Source.literals setup.machine.registers s.instruction?.toList) :=
  ⟨h.symbols hd.symbols, h.literals hs hd⟩

theorem Runs.texts (h : Runs setup rs d e) (hd : Logs merging d ss ts) :
    e.texts = LiteralTable.kept merging
      (ts ++ Source.literals setup.machine.registers (Source.instructions rs)) := by
  induction h generalizing ss ts with
  | nil d =>
    simp only [Source.instructions, Source.literals, List.filterMap_nil, List.flatMap_nil,
      List.append_nil]
    exact hd.literals.texts
  | last hs hc =>
    rw [Source.instructions_cons]
    simpa [Source.instructions] using hc.texts hd
  | cons hs hc hr ih =>
    rw [ih (hc.logs hs hd), Source.instructions_cons, List.append_assoc]
    rw [Source.literals_append]

theorem Runs.compiles (h : Runs setup rs d e) (hd : Logs merging d ss ts) :
    ∃ qs, e.records = d.records ++ qs ∧
      Compiles setup.machine.registers merging e.names e.texts ts.length
        (Source.instructions rs) qs := by
  induction h generalizing ss ts with
  | nil d => exact ⟨[], by simp, .nil _⟩
  | last hs hc =>
    rw [Source.instructions_cons]
    simpa [Source.instructions] using hc.compiles hd
  | @cons r rs d e f hs hc hr ih =>
    have he := hc.logs hs hd
    obtain ⟨qs, hq, hfirst⟩ := hc.compiles hd
    obtain ⟨ps, hp, hrest⟩ := ih he
    -- the rows behind the first one extend the tables and leave its places alone
    have hn : e.names <+: f.names := prefix_names he.symbols (hr.symbols he.symbols)
    have ht : e.texts <+: f.texts := prefix_texts he.literals.texts (hr.texts he)
    refine ⟨qs ++ ps, by rw [hp, hq, List.append_assoc], ?_⟩
    rw [Source.instructions_cons]
    rw [List.length_append] at hrest
    exact (hfirst.mono hn ht).append hrest

theorem logs_start (options : Options) : Logs options.mergeLiterals (start options) [] [] :=
  ⟨SymbolTable.Logs.empty, LiteralTable.Logs.empty _⟩

end Run

end Draft

namespace FrozenTables

def names (tables : FrozenTables) : List Text :=
  tables.symbols.entries.map (·.name)

def texts (tables : FrozenTables) : List Text :=
  tables.literals.entries.map (·.name)

end FrozenTables

/-- A program that stands for a source: its tables list the names and the literals that the source
mentions, and its records point at them. -/
structure Program.StandsFor (setup : Setup) (source : Text) (p : Program) : Prop where
  names : p.tables.names = Sighting.names (Source.sightingsOf setup.machine source)
  texts : p.tables.texts = LiteralTable.kept setup.options.mergeLiterals
    (Source.literals setup.machine.registers (Source.instructionsOf setup.machine source))
  records : Compiles setup.machine.registers setup.options.mergeLiterals p.tables.names
    p.tables.texts 0 (Source.instructionsOf setup.machine source) p.records

theorem Program.standsFor_of_source {setup : Setup} {source : Text} {p : Program}
    (h : ofSource setup source = .ok p) : p.StandsFor setup source := by
  obtain ⟨e, hrun, hs, hl, hrecords⟩ := exists_run h
  have hstart := Draft.logs_start setup.options
  have hnames : p.tables.names = e.names :=
    map_name_of_frozen (SymbolTable.freeze_eq_ok_iff.1 hs)
  have htexts : p.tables.texts = e.texts :=
    map_name_of_frozen (LiteralTable.freeze_eq_ok_iff.1 hl)
  obtain ⟨rs, hrs, hcompiles⟩ := hrun.compiles hstart
  obtain rfl : p.records = rs := hrecords.symm.trans hrs
  rw [← hnames, ← htexts] at hcompiles
  exact ⟨hnames.trans (hrun.symbols hstart.symbols).names, htexts.trans (hrun.texts hstart),
    hcompiles⟩

end TwoPass
