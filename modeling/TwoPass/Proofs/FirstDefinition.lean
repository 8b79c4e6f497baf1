import TwoPass.Proofs.Stopping

/-! First definitions under strict labels. A plain label asks the table before it writes, and so
nothing that a statement does, refused or not, moves an address that a name has; the label of data
is bound before it is refused, and that name is the only one whose address may change. -/

namespace TwoPass

namespace SymbolTable

variable {table next last : SymbolTable}

/-- What has an address keeps it, and its place. -/
def Holds (table next : SymbolTable) : Prop :=
  ∀ name place a, table.get? name = some (place, some a) → next.get? name = some (place, some a)

theorem Holds.refl (table : SymbolTable) : table.Holds table :=
  fun _ _ _ h => h

theorem Holds.trans (h : table.Holds next) (h' : next.Holds last) : table.Holds last :=
  fun name place a ha => h' name place a (h name place a ha)

theorem get?_push_of_some {name : Text} {p : Ordinal × Option Address}
    (h : table.get? name = some p) (e : SymbolEntry) : (table.push e).get? name = some p := by
  obtain ⟨f, hf, rfl⟩ := Option.map_eq_some_iff.1 h
  have hlt : table.entries.findIdx (·.name = name) < table.entries.length :=
    List.findIdx_lt_length_of_exists ⟨f, mem_of_find? hf, by simp [find?_name hf]⟩
  have hplace : (table.push e).place name = table.place name := by
    simp only [place, push, List.findIdx_append, if_pos hlt]
  rw [get?, find?_push, hf, Option.some_or, Option.map_some, hplace]

theorem holds_push (table : SymbolTable) (e : SymbolEntry) : table.Holds (table.push e) :=
  fun _ _ _ h => get?_push_of_some h e

theorem get?_setAddress_of_ne {name other : Text} (h : other ≠ name) (a : Address) :
    (table.setAddress name a).get? other = table.get? other := by
  have hnames : ∀ e : SymbolEntry,
      (if e.name = name then { e with address := some a } else e).name = e.name := by
    intro e
    split <;> rfl
  have hplace : (table.setAddress name a).place other = table.place other := by
    simp only [place, setAddress, List.findIdx_map, Function.comp_def, hnames]
  have hfind : (table.setAddress name a).find? other = table.find? other := by
    simp only [find?, setAddress, List.find?_map, Function.comp_def, hnames]
    cases he : table.entries.find? (·.name = other) with
    | none => rfl
    | some e =>
      have hname : e.name ≠ name := fun hn => h ((find?_name he).symm.trans hn)
      rw [Option.map_some, if_neg hname]
  rw [get?, get?, hfind, hplace]

theorem isDefined_of_find? {name : Text} {e : SymbolEntry} (h : table.find? name = some e) :
    table.isDefined name = e.address.isSome := by
  rw [isDefined, h, Option.bind_some]

theorem holds_setAddress {name : Text} (h : table.isDefined name = false) (a : Address) :
    table.Holds (table.setAddress name a) := by
  intro other place b hb
  have hne : other ≠ name := by
    rintro rfl
    obtain ⟨e, he, hp⟩ := Option.map_eq_some_iff.1 hb
    have ha : e.address = some b := congrArg Prod.snd hp
    rw [isDefined_of_find? he, ha] at h
    cases h
  rw [get?_setAddress_of_ne hne, hb]

theorem holds_reference (table : SymbolTable) (name : Text) (line : Nat) :
    table.Holds (table.reference name line).2 := by
  unfold reference
  split
  · exact .refl table
  · exact table.holds_push _

theorem holds_define (table : SymbolTable) (name : Text) (a : Address) (line : Nat) :
    table.Holds (table.define name a line).2 := by
  unfold define
  split
  · exact table.holds_push _
  · next e he =>
    split
    · next ha => exact holds_setAddress (by rw [isDefined_of_find? he, ha]; rfl) a
    · exact .refl table

theorem holds_bind {name : Text} (h : table.isDefined name = false) (a : Address) (line : Nat) :
    table.Holds (table.bind name a line).2 := by
  unfold bind
  split
  · exact table.holds_push _
  · exact holds_setAddress h a

end SymbolTable

namespace Draft

section Steps

variable {options : Options} {registers : RegisterTable} {line : Nat}

theorem symbols_defineLabel (name : Text) (d : Draft) :
    (defineLabel options line name d).draft.symbols =
      (d.symbols.define name d.location line).2 := by
  obtain ⟨ws, h⟩ := defineLabel_frame options line name d
  rw [h]

theorem symbols_bindLabel (name : Text) (d : Draft) :
    (bindLabel options line name d).draft.symbols = (d.symbols.bind name d.location line).2 := by
  obtain ⟨ws, h⟩ := bindLabel_frame options line name d
  rw [h]

theorem symbols_advance (d : Draft) (words : Address) (line : Nat) :
    (d.advance words line).draft.symbols = d.symbols := by
  obtain ⟨location, h⟩ := advance_frame d words line
  rw [h]

theorem composes_holds : Composes fun d e => d.symbols.Holds e.symbols :=
  ⟨fun d => .refl d.symbols, fun h h' => h.trans h'⟩

theorem holds_operand (token : Text) (d : Draft) :
    d.symbols.Holds (operand registers line token d).2.symbols := by
  unfold operand
  split
  · exact .refl _
  · split
    · exact .refl _
    · exact d.symbols.holds_reference token line

theorem holds_imperative (m : Mnemonic) (tokens : List Text) (d : Draft) :
    d.symbols.Holds (imperative registers line m tokens d).draft.symbols := by
  show d.symbols.Holds
    (advance (emit (operands registers line tokens d).2 _) m.length line).draft.symbols
  rw [symbols_advance]
  exact composes_holds.operands holds_operand tokens d

theorem holds_defineLabel (name : Text) (d : Draft) :
    d.symbols.Holds (defineLabel options line name d).draft.symbols := by
  rw [symbols_defineLabel]
  exact d.symbols.holds_define name d.location line

theorem holds_declarative (hs : options.strictLabels = true) {label : Option Text} {m : Mnemonic}
    {tokens : List Text} {d : Draft}
    (h : ∀ name, (declarative options line label m tokens d).fault ≠
      some (.labelRedefined line name)) :
    d.symbols.Holds (declarative options line label m tokens d).draft.symbols := by
  unfold declarative at h ⊢
  cases tokens with
  | nil => exact .refl _
  | cons t tokens =>
    cases hv : layout? m t with
    | none =>
      simp only [hv]
      exact .refl _
    | some laid =>
      simp only [hv] at h ⊢
      refine composes_holds.andThen ?_ fun e => ?_
      · cases label with
        | none => exact .refl _
        | some name =>
          -- a name that has an address would have been refused
          have hnew : d.symbols.isDefined name = false := by
            by_contra hd
            refine h name (Outcome.fault_andThen_of_some ?_ _)
            rw [withLabel, bindLabel_of_refused hs (by simpa using hd)]
            rfl
          rw [withLabel, symbols_bindLabel]
          exact SymbolTable.holds_bind hnew d.location line
      · rw [symbols_advance]
        exact .refl _

end Steps

section Strict

variable {setup : Setup} {line : Nat} {d : Draft}

theorem holds_execute (hs : setup.options.strictLabels = true) {s : Source.Statement}
    (h : ∀ name, s.kind? = some .declarative →
      (execute setup line d s).fault ≠ some (.labelRedefined line name)) :
    d.symbols.Holds (execute setup line d s).draft.symbols := by
  have hlabel := composes_holds.withLabel (@holds_defineLabel setup.options line)
  cases s with
  | blank => exact .refl _
  | unknown name => exact .refl _
  | bareLabel name => exact holds_defineLabel name (d.warn line (.bareLabel name))
  | instruction label m tokens =>
    cases hk : m.kind with
    | directive =>
      simp only [execute, hk]
      refine composes_holds.andThen (hlabel label d) fun e => ?_
      obtain ⟨location, literals, records, ended, h⟩ := directive_frame line m tokens e
      rw [h]
      exact .refl _
    | imperative =>
      simp only [execute, hk]
      exact composes_holds.andThen (hlabel label d) (holds_imperative m tokens)
    | declarative =>
      simp only [execute, hk] at h ⊢
      exact holds_declarative hs fun name => h name (congrArg some hk)

theorem holds_statement (hs : setup.options.strictLabels = true) {t : Text}
    (h : ∀ name, (Source.Statement.ofLine setup.machine.mnemonics t).kind? = some .declarative →
      (statement setup line t d).fault ≠ some (.labelRedefined line name)) :
    d.symbols.Holds (statement setup line t d).draft.symbols := by
  cases hd : d.ended with
  | true =>
    rw [statement_of_ended hd]
    exact .refl _
  | false =>
    rw [statement_of_not_ended hd] at h ⊢
    exact holds_execute hs h

theorem Stops.symbols_of_plain {s : Source.Statement} {l : Nat} {name : Text} {e : Draft}
    (h : Stops setup line d s (.labelRedefined l name) e) (hk : s.kind? ≠ some .declarative) :
    e.symbols = d.symbols := by
  cases h with
  | bareLabel hs hd => rfl
  | label hm hs hd => rfl
  | dataLabel hm hv hs hd => exact absurd (congrArg some hm) hk

theorem Stops.symbols_of_data {s : Source.Statement} {l : Nat} {name : Text} {e : Draft}
    (h : Stops setup line d s (.labelRedefined l name) e) (hk : s.kind? = some .declarative) :
    e.symbols = d.symbols.setAddress name d.location := by
  cases h with
  | bareLabel hs hd => cases hk
  | label hm hs hd => exact absurd (Option.some.inj hk) hm
  | dataLabel hm hv hs hd => rfl

theorem statement_firstDefinition (hs : setup.options.strictLabels = true) (line : Nat) (t : Text)
    (d : Draft) :
    let s := Source.Statement.ofLine setup.machine.mnemonics t
    let o := statement setup line t d
    (∀ name place a, d.symbols.get? name = some (place, some a) →
      ¬(s.kind? = some .declarative ∧ o.fault = some (.labelRedefined line name)) →
      o.draft.symbols.get? name = some (place, some a)) ∧
    (s.kind? ≠ some .declarative → ∀ name, o.fault = some (.labelRedefined line name) →
      o.draft.symbols = d.symbols) := by
  intro s o
  refine ⟨fun name place a ha hname => ?_, fun hk name hf =>
    (stops_of_statement hf).symbols_of_plain hk⟩
  by_cases hdata : ∃ other, s.kind? = some .declarative ∧
      o.fault = some (.labelRedefined line other)
  · -- the refused label moves one name, and that is not the one in question
    obtain ⟨other, hk, hf⟩ := hdata
    have hne : name ≠ other := by
      rintro rfl
      exact hname ⟨hk, hf⟩
    rw [(stops_of_statement hf).symbols_of_data hk, SymbolTable.get?_setAddress_of_ne hne, ha]
  · exact holds_statement hs (fun other hk hf => hdata ⟨other, hk, hf⟩) name place a ha

/-- A label that names a word of data and is taken again by an instruction. -/
theorem statement_firstDefinition_reused :
    let setup : Setup := ⟨.builtin, { strictLabels := true }⟩
    let d := (statement setup 2 "X DC 7".toList
      (statement setup 1 "MOVER AREG,X".toList (.start setup.options)).draft).draft
    let again := statement setup 3 "X ADD AREG,Y".toList d
    let fresh := statement setup 3 "Y DS 2".toList d
    again.fault = some (.labelRedefined 3 "X".toList) ∧ again.draft.symbols = d.symbols ∧
      fresh.fault = none ∧ fresh.draft.symbols.get? "X".toList = some (⟨0⟩, some 1) := by
  intro setup d again fresh
  have hagain : again.fault = some (.labelRedefined 3 "X".toList) := rfl
  have hfresh : fresh.fault = none := rfl
  have hrefused := (@statement_firstDefinition setup rfl 3 "X ADD AREG,Y".toList d).2
  have hholds := (@statement_firstDefinition setup rfl 3 "Y DS 2".toList d).1
  refine ⟨hagain, hrefused (by decide) "X".toList hagain, hfresh, ?_⟩
  exact hholds "X".toList ⟨0⟩ 1 rfl fun h => Option.some_ne_none _ (h.2.symm.trans hfresh)

/-- Data that takes the label of other data is refused, and has taken it. -/
theorem statement_loses_firstDefinition :
    let setup : Setup := ⟨.builtin, { strictLabels := true }⟩
    let d := (statement setup 1 "X DC 1".toList (.start setup.options)).draft
    let o := statement setup 2 "X DS 2".toList d
    Reachable setup d ∧ d.symbols.get? "X".toList = some (⟨0⟩, some 0) ∧
      o.fault = some (.labelRedefined 2 "X".toList) ∧
      o.draft.symbols.get? "X".toList = some (⟨0⟩, some 1) :=
  ⟨.statement _ _ .start, rfl, rfl, rfl⟩

end Strict

end Draft

end TwoPass
