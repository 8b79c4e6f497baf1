import TwoPass.Proofs.Counter
import TwoPass.Proofs.Run
import TwoPass.Proofs.SourceNumbers
import TwoPass.Proofs.TokenSubstitution
import TwoPass.Proofs.WrittenCode

/-! The constants of code, written in a source. The decimal text of a constant is read back from a
record, and a data statement reads it as the same constant, with or without quotes. The least
constant is the exception: a source reads digits before it applies their sign, and no constant is as
large as the digits of the least one. -/

namespace TwoPass

namespace Source

/-- The decimal text of a constant, which a source may put between single quotes. -/
inductive Writes (c : Constant) : Text → Prop
  | plain : Writes c (Numeral.signedDecimal c.value)
  | quoted : Writes c ('\x27' :: (Numeral.signedDecimal c.value ++ ['\x27']))

variable {c : Constant} {n : Nat} {v : Int} {t : Text}

theorem magnitude_decimal (h : n < 2 ^ 63) : Magnitude n (Numeral.decimal n) := by
  have hdigits := Numeral.magnitude?_decimal n
  rw [Numeral.magnitude?_eq_some_iff_positional (by decide)] at hdigits
  exact ⟨h, 10, [], _, .decimal, rfl, hdigits⟩

/-- The digits of a number lie below the bound on both sides of zero. -/
theorem spells_signedDecimal (h : -2 ^ 63 < v ∧ v < 2 ^ 63) :
    Spells v (Numeral.signedDecimal v) := by
  cases v with
  | ofNat n =>
    rw [Int.ofNat_eq_natCast] at h
    exact .plain (magnitude_decimal (by omega))
  | negSucc n =>
    rw [Int.negSucc_eq] at h
    exact .minus (n := n + 1) (magnitude_decimal (by omega))

theorem constant?_of_writes (hc : c.value ≠ -2 ^ 63) (ht : Writes c t) : constant? t = some c := by
  have hlower := c.lower
  have hupper := c.upper
  have hspells := spells_signedDecimal (v := c.value) (by omega)
  rw [constant?_eq_some_iff]
  cases ht with
  | plain => exact .inl hspells
  | quoted => exact .inr ⟨_, rfl, hspells⟩

theorem isToken_signedDecimal (v : Int) : IsToken (Numeral.signedDecimal v) := by
  refine ⟨?_, fun d hd => ?_⟩
  · cases v with
    | ofNat n => exact Numeral.decimal_ne_nil n
    | negSucc n => simp [Numeral.signedDecimal]
  · have hcomma : ∀ {e : Char}, e.isDigit = true → e ≠ ',' ∧ e ≠ ';' := by
      rintro e he
      constructor <;> (rintro rfl; exact absurd he (by decide))
    have hblank := Numeral.solid_signedDecimal v d hd
    rcases Numeral.mem_signedDecimal hd with rfl | hdigit
    · decide
    · simp [isSeparator, hblank, hcomma hdigit]

theorem Writes.isToken (ht : Writes c t) : IsToken t := by
  have hplain := isToken_signedDecimal c.value
  cases ht with
  | plain => exact hplain
  | quoted =>
    have hquoted := hplain.snoc (c := '\x27') (by decide) (by decide)
    exact ⟨by simp, List.forall_mem_cons.2 ⟨by decide, hquoted.2⟩⟩

end Source

namespace Draft

variable {setup : Setup} {line : Nat} {raw t : Text} {label : Option Text} {m : Mnemonic}
  {later : List Text} {c : Constant} {d : Draft}

/-- Data whose label is accepted is recorded where it stands, before its words are laid out. -/
theorem statement_of_constant
    (hs : Source.Statement.ofLine setup.machine.mnemonics raw = .instruction label m (t :: later))
    (hk : m.kind = .declarative) (hm : m.name ≠ "DS".toList) (hd : d.ended = false)
    (hl : d.acceptsLabel setup.options label = true) (hc : Source.constant? t = some c) :
    (statement setup line raw d).fault =
        Fault.overflow? line (d.location.val + m.length.val) ∧
      (statement setup line raw d).draft.records =
        d.records ++ [⟨some d.location, .statement .declarative m.opcode, [.constant c]⟩] := by
  obtain ⟨e, he⟩ := exists_withLabel (fault_bindLabel line) hl
  have hlabels := labels_of_withLabel labels_of_bindLabel he
  have hlays : Lays m t c m.length := .constant hm (Source.constant?_eq_some_iff.1 hc)
  have hstatement : statement setup line raw d =
      (e.emit ⟨some e.location, .statement .declarative m.opcode, [.constant c]⟩).advance
        m.length line := by
    rw [statement_of_not_ended hd, hs]
    simp only [execute, hk, declarative_of_lays hlays, he, Outcome.done_andThen]
  obtain ⟨location, hframe⟩ :=
    advance_frame (e.emit ⟨some e.location, .statement .declarative m.opcode, [.constant c]⟩)
      m.length line
  rw [hstatement]
  refine ⟨?_, ?_⟩
  · rw [fault_advance, ← hlabels.location]
    rfl
  · rw [hframe, ← hlabels.location, ← hlabels.records]
    rfl

/-- The shortest source for a constant: a statement that lays it out, and the end. -/
theorem ofSource_of_constant (options : Options) (ht : Source.IsToken t)
    (hc : Source.constant? t = some c) :
    ∃ p, Program.ofSource ⟨.builtin, options⟩ ("DC ".toList ++ t ++ "\nEND\n".toList) = .ok p ∧
      p.records = [⟨some 0, .statement .declarative 2, [.constant c]⟩,
        ⟨none, .statement .directive 2, []⟩] := by
  have hline : Text.IsLine ("DC ".toList ++ t) := by
    have hname : Text.isBlank 'D' = false ∧ Text.isBlank 'C' = false := by decide
    refine Text.isLine_of_mem (List.forall_mem_append.2 ⟨by simpa using hname, fun d hd => ?_⟩)
    have hs := (ht.2 d hd).1
    simp only [Source.isSeparator, Bool.or_eq_false_iff] at hs
    exact .inr (.inr hs.1)
  have hlines : Text.lines ("DC ".toList ++ t ++ "\nEND\n".toList) =
      ["DC ".toList ++ t, "END".toList] :=
    Text.lines_append_lineFeed hline.1 hline.2 "END\n".toList
  have htokens : Source.tokens ("DC ".toList ++ t) = ["DC".toList, t] := by
    have hdc : Source.IsToken "DC".toList := by decide
    rw [← ht.tokens]
    exact hdc.tokens_append_separator (c := ' ') (by decide) t
  have hlays : Lays ⟨"DC".toList, .declarative, 2, 1⟩ t c 1 :=
    .constant (by decide) (Source.constant?_eq_some_iff.1 hc)
  have hfirst : statement ⟨.builtin, options⟩ 1 ("DC ".toList ++ t) (start options) =
      .done { start options with
        location := 1
        records := [⟨some 0, .statement .declarative 2, [.constant c]⟩] } := by
    rw [statement_of_not_ended rfl, Source.Statement.ofLine, htokens]
    have hdata : declarative options 1 none ⟨"DC".toList, .declarative, 2, 1⟩ [t]
        (start options) = _ := declarative_of_lays hlays options none (start options)
    exact hdata
  refine ⟨⟨[⟨some 0, .statement .declarative 2, [.constant c]⟩,
    ⟨none, .statement .directive 2, []⟩], ⟨.empty, .empty⟩, []⟩, ?_, rfl⟩
  rw [Program.ofSource, hlines, Text.numbered, Text.numberedFrom, statements, hfirst]
  rfl

/-- A constant is read back from the code that it is written in, and every constant but the least is
what a data statement makes of the text that code has for it. -/
theorem statement_writtenConstant (hc : c.value ≠ -2 ^ 63) (ht : Source.Writes c t) :
    Operand.readConstant? (Numeral.signedDecimal c.value) = some c ∧
      Source.constant? t = some c ∧
      (∀ setup line raw label m later (d : Draft),
        Source.Statement.ofLine setup.machine.mnemonics raw = .instruction label m (t :: later) →
        m.kind = .declarative → m.name ≠ "DS".toList → d.ended = false →
        d.acceptsLabel setup.options label = true →
        (statement setup line raw d).fault =
            Fault.overflow? line (d.location.val + m.length.val) ∧
          (statement setup line raw d).draft.records =
            d.records ++ [⟨some d.location, .statement .declarative m.opcode, [.constant c]⟩]) ∧
      ∀ options, ∃ p, Program.ofSource ⟨.builtin, options⟩
          ("DC ".toList ++ t ++ "\nEND\n".toList) = .ok p ∧
        p.records = [⟨some 0, .statement .declarative 2, [.constant c]⟩,
          ⟨none, .statement .directive 2, []⟩] := by
  have hread := Source.constant?_of_writes hc ht
  exact ⟨Operand.readConstant?_signedDecimal c, hread,
    fun setup line raw label m later d hs hk hm hd hl =>
      statement_of_constant hs hk hm hd hl hread, fun options =>
      ofSource_of_constant options ht.isToken hread⟩

/-- The constant next to the least one, between quotes and under a label, at the last address that
leaves room for it. -/
theorem statement_writtenConstant_lowest :
    let c : Constant := ⟨-9223372036854775807, by decide, by decide⟩
    let d : Draft := { start {} with location := 65534 }
    let o := statement ⟨.builtin, {}⟩ 1 "LOW DC '-9223372036854775807' ; low".toList d
    c.value ≠ -2 ^ 63 ∧ Source.Writes c "'-9223372036854775807'".toList ∧ o.fault = none ∧
      o.draft.records = [⟨some 65534, .statement .declarative 2, [.constant c]⟩] := by
  intro c d o
  have hc : c.value ≠ -2 ^ 63 := by decide
  have ht : Source.Writes c "'-9223372036854775807'".toList := .quoted
  obtain ⟨hfault, hrecords⟩ := (statement_writtenConstant hc ht).2.2.1 ⟨.builtin, {}⟩ 1
    "LOW DC '-9223372036854775807' ; low".toList (some "LOW".toList)
    ⟨"DC".toList, .declarative, 2, 1⟩ [] d rfl rfl (by decide) rfl rfl
  exact ⟨hc, ht, hfault, hrecords⟩

/-- The least constant is read from its record, and blamed on the source that has the same text. -/
theorem statement_refuses_leastConstant :
    let c : Constant := ⟨-9223372036854775808, by decide, by decide⟩
    let t := Numeral.signedDecimal c.value
    let o := statement ⟨.builtin, {}⟩ 1 ("DC ".toList ++ t) (start {})
    Source.Writes c t ∧ Operand.readConstant? t = some c ∧
      o.fault = some (.badNumber 1 t) ∧ o.draft.records = [] :=
  ⟨.plain, Operand.readConstant?_signedDecimal _, rfl, rfl⟩

end Draft

end TwoPass
