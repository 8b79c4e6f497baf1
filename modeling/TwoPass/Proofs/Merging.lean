import TwoPass.Proofs.Resolution
import TwoPass.Proofs.SharedLiterals

/-! Programs whose equal literals share an entry. What assembles with an entry for each literal
assembles also when they share, into the same program but for the literals: each text is listed
once, and only an address that comes from a literal can change. -/

namespace TwoPass

/-- An operand that has an address. -/
def Operand.isPlace : Operand → Bool
  | .symbol _ => true
  | .literal _ => true
  | _ => false

def Operand.isLiteral : Operand → Bool
  | .literal _ => true
  | _ => false

/-- The first address of some operands is that of a literal. -/
def Operand.literalFirst (os : List Operand) : Bool :=
  (os.find? isPlace).any isLiteral

theorem exists_getElem?_of_forall₂ {α β : Type} {R : α → β → Prop} {xs : List α} {ys : List β}
    (h : List.Forall₂ R xs ys) {k : Nat} {x : α} (hx : xs[k]? = some x) :
    ∃ y, ys[k]? = some y ∧ R x y := by
  induction h generalizing k with
  | nil => simp at hx
  | cons hr _ ih =>
    cases k with
    | zero =>
      rw [List.getElem?_cons_zero, Option.some.injEq] at hx
      subst hx
      exact ⟨_, rfl, hr⟩
    | succ k => exact ih hx

namespace FrozenTables

variable {tables shared : FrozenTables} {plain merged : List Text}

theorem addresses_cons_of_not_isPlace {r : Record} {o : Operand} (h : o.isPlace = false)
    (os : List Operand) : tables.addresses r (o :: os) = tables.addresses r os := by
  cases o with
  | register c => rfl
  | constant c => rfl
  | symbol o => cases h
  | literal o => cases h

theorem addresses_symbol {r : Record} {o : Ordinal} {os : List Operand} {as : List Address}
    (h : tables.addresses r (.symbol o :: os) = .ok as) :
    ∃ a bs, tables.symbols.address? o = some a ∧ as = a :: bs := by
  cases ha : tables.symbols.address? o with
  | none => simp [addresses, operandAddress, ha] at h
  | some a =>
    cases hr : tables.addresses r os with
    | error c => simp [addresses, operandAddress, ha, hr, Except.map] at h
    | ok bs =>
      simp only [addresses, operandAddress, ha, hr, Except.map, Except.ok.injEq] at h
      exact ⟨a, bs, rfl, h.symm⟩

/-- Operands that differ in the places of literals give one address, unless a literal gives it. -/
theorem headD_addresses (hs : shared.symbols = tables.symbols) {r r' : Record}
    {os os' : List Operand} (h : List.Forall₂ (Operand.Matches plain merged) os os')
    (hl : Operand.literalFirst os = false) {as as' : List Address}
    (ha : tables.addresses r os = .ok as) (ha' : shared.addresses r' os' = .ok as') :
    as'.headD 0 = as.headD 0 := by
  induction h with
  | nil =>
    cases ha
    cases ha'
    rfl
  | @cons o o' os os' hm hrest ih =>
    cases hm with
    | literal hx hx' => exact Bool.noConfusion hl
    | same hne =>
      cases hp : o.isPlace with
      | true =>
        cases o with
        | symbol k =>
          obtain ⟨a, bs, hk, rfl⟩ := addresses_symbol ha
          obtain ⟨a', bs', hk', rfl⟩ := addresses_symbol ha'
          rw [hs, hk, Option.some.injEq] at hk'
          rw [List.headD_cons, List.headD_cons, hk']
        | literal k => exact absurd rfl (hne k)
        | register c => cases hp
        | constant c => cases hp
      | false =>
        rw [addresses_cons_of_not_isPlace hp] at ha ha'
        rw [Operand.literalFirst, List.find?_cons_of_neg (by simp [hp])] at hl
        exact ih hl ha ha'

theorem register?_of_matches {os os' : List Operand}
    (h : List.Forall₂ (Operand.Matches plain merged) os os') :
    os'.findSome? Operand.register? = os.findSome? Operand.register? := by
  induction h with
  | nil => rfl
  | cons hm _ ih =>
    cases hm with
    | literal hx hx' => simpa [List.findSome?_cons, Operand.register?] using ih
    | same hne => rw [List.findSome?_cons, List.findSome?_cons, ih]

theorem resolve_of_matches (hs : shared.symbols = tables.symbols) {r r' : Record}
    (h : r.Matches plain merged r') (hl : Operand.literalFirst r.operands = false)
    {o o' : Object} (ho : tables.resolve r = .ok o) (ho' : shared.resolve r' = .ok o') :
    o' = o := by
  unfold resolve at ho ho'
  rw [h.tag, register?_of_matches h.operands] at ho'
  split at ho
  · next opcode ht =>
    rw [ht] at ho'
    dsimp only at ho'
    cases ha : tables.addresses r r.operands with
    | error c => simp [ha] at ho
    | ok as =>
      cases ha' : shared.addresses r' r'.operands with
      | error c => simp [ha'] at ho'
      | ok as' =>
        have hhead := headD_addresses hs h.operands hl ha ha'
        simp only [ha, Except.ok.injEq] at ho
        simp only [ha', Except.ok.injEq, hhead] at ho'
        exact ho'.symm.trans ho
  · next hne =>
    split at ho'
    · next opcode ht => exact absurd ht (hne opcode)
    · exact (Except.ok.inj ho').symm.trans (Except.ok.inj ho)

theorem length_of_resolveAll {rs : List Record} {os : List Object}
    (h : tables.resolveAll rs = .ok os) : os.length = rs.length := by
  have hmap := congrArg List.length (mapM_eq_ok_iff_map.1 h)
  rw [List.length_map, List.length_map] at hmap
  exact hmap.symm

theorem getElem?_resolveAll {rs : List Record} {os : List Object}
    (h : tables.resolveAll rs = .ok os) {k : Nat} {r : Record} (hr : rs[k]? = some r) :
    ∃ o, os[k]? = some o ∧ tables.resolve r = .ok o := by
  have hmap := congrArg (·[k]?) (mapM_eq_ok_iff_map.1 h)
  simp only [List.getElem?_map, hr, Option.map_some] at hmap
  obtain ⟨o, ho, hres⟩ := Option.map_eq_some_iff.1 hmap.symm
  exact ⟨o, ho, hres.symm⟩

end FrozenTables

namespace Program

/-- A program whose equal literals share an entry stands beside the one in which they do not. -/
structure Merges (p q : Program) : Prop where
  symbols : q.symbols = p.symbols
  warnings : q.warnings = p.warnings
  texts : q.tables.texts = p.tables.texts.eraseDups
  records : List.Forall₂ (Record.Matches p.tables.texts q.tables.texts) p.records q.records

theorem exists_merges {machine : Machine} {strict : Bool} {source : Text} {p : Program}
    (h : ofSource ⟨machine, ⟨strict, false⟩⟩ source = .ok p) :
    ∃ q, ofSource ⟨machine, ⟨strict, true⟩⟩ source = .ok q ∧ Merges p q := by
  obtain ⟨d, hd, hended, hs, hl, -⟩ := Outcome.finish_eq_ok h
  obtain ⟨e, he, hmatch⟩ := Draft.exists_statements_of_plain hd
  have hended' : e.ended = true := hmatch.ended.trans hended
  have hs' : e.symbols.freeze = .ok p.symbols := hmatch.symbols ▸ hs
  obtain ⟨literals, hl'⟩ : ∃ literals, e.literals.freeze = .ok literals := by
    obtain ⟨f, hr, hfe, -, hfl, -⟩ := Draft.exists_run_of_source he
    rw [hfl]
    exact hr.exists_freeze rfl (hfe.symm.trans hended')
  have hp : p = ⟨d.records, ⟨p.symbols, p.literals⟩, d.warnings⟩ := by
    have hfinish : (Outcome.done d).finish = .ok p := by
      rw [← hd]
      exact h
    exact Except.ok.inj (hfinish.symm.trans (Draft.finish_of_freeze hended hs hl))
  have hq : ofSource ⟨machine, ⟨strict, true⟩⟩ source =
      .ok ⟨e.records, ⟨p.symbols, literals⟩, e.warnings⟩ := by
    rw [ofSource, he]
    exact Draft.finish_of_freeze hended' hs' hl'
  have htexts : p.tables.texts = d.texts :=
    map_name_of_frozen (LiteralTable.freeze_eq_ok_iff.1 hl)
  have htexts' : FrozenTables.texts ⟨p.symbols, literals⟩ = e.texts :=
    map_name_of_frozen (LiteralTable.freeze_eq_ok_iff.1 hl')
  refine ⟨_, hq, rfl, ?_, ?_, ?_⟩
  · rw [hp]
    exact hmatch.warnings
  · rw [(standsFor_of_source hq).texts, (standsFor_of_source h).texts]
    rfl
  · rw [htexts, htexts', hp]
    exact hmatch.records

theorem ofSource_merging {machine : Machine} {strict : Bool} {source : Text} {p : Program}
    (h : ofSource ⟨machine, { strictLabels := strict, mergeLiterals := false }⟩ source = .ok p) :
    ∃ q, ofSource ⟨machine, { strictLabels := strict, mergeLiterals := true }⟩ source = .ok q ∧
      q.symbols = p.symbols ∧ q.warnings = p.warnings ∧
      q.tables.texts = p.tables.texts.eraseDups ∧ q.tables.texts.Nodup ∧
      List.Forall₂ (Record.Matches p.tables.texts q.tables.texts) p.records q.records ∧
      ∃ os qs, p.objects = .ok os ∧ q.objects = .ok qs ∧
        os.length = p.records.length ∧ qs.length = p.records.length ∧
        ∀ (k : Nat) (r : Record), p.records[k]? = some r → Operand.literalFirst r.operands = false →
          qs[k]? = os[k]? := by
  obtain ⟨q, hq, hm⟩ := exists_merges h
  have hp := standsFor_of_source h
  have hq' := standsFor_of_source hq
  obtain ⟨os, hos, hmap⟩ := hp.records.resolveAll hp.distinct
  obtain ⟨qs, hqs, hmap'⟩ := hq'.records.resolveAll hq'.distinct
  have hlength := FrozenTables.length_of_resolveAll hos
  have hlength' := (FrozenTables.length_of_resolveAll hqs).trans hm.records.length_eq.symm
  refine ⟨q, hq, hm.symbols, hm.warnings, hm.texts, hq'.distinct.texts rfl, hm.records, os, qs, hos,
    hqs, hlength, hlength', ?_⟩
  intro k r hr hl
  obtain ⟨r', hr', hmatch⟩ := exists_getElem?_of_forall₂ hm.records hr
  obtain ⟨o, ho, hres⟩ := FrozenTables.getElem?_resolveAll hos hr
  obtain ⟨o', ho', hres'⟩ := FrozenTables.getElem?_resolveAll hqs hr'
  rw [ho, ho', FrozenTables.resolve_of_matches hm.symbols hmatch hl hres hres']

/-- Of its three literals two are equal, and a symbol is addressed between them. -/
def repeating : Text :=
  "MOVER AREG,='5'\nADD BREG,X\nMOVEM ='7',CREG\nSUB AREG,='5',X\nX DS 1\nEND\n".toList

theorem ofSource_repeating :
    ∃ p q, ofSource ⟨.builtin, ⟨false, false⟩⟩ repeating = .ok p ∧
      ofSource ⟨.builtin, ⟨false, true⟩⟩ repeating = .ok q ∧
      p.tables.texts = ["='5'".toList, "='7'".toList, "='5'".toList] ∧
      q.tables.texts = ["='5'".toList, "='7'".toList] ∧
      ∃ os qs, p.objects = .ok os ∧ q.objects = .ok qs ∧ qs.length = 6 ∧ qs[1]? = os[1]? := by
  obtain ⟨q, hq, -, -, htexts, -, -, os, qs, hos, hqs, -, hlength, hsame⟩ :=
    @ofSource_merging .builtin false repeating _ rfl
  exact ⟨_, q, rfl, hq, rfl, htexts, os, qs, hos, hqs, hlength, hsame 1 _ rfl rfl⟩

end Program

end TwoPass
