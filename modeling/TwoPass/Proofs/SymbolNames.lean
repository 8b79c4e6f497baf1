import TwoPass.Proofs.NumberedLines
import TwoPass.Proofs.RelabelledRuns
import TwoPass.Proofs.TokenSubstitution

/-! The names of symbols. They decide nothing but which mentions belong together: under other names
a source gives the same code, and the tables, remarks and faults say the other names. -/

namespace TwoPass

/-- What a symbol can be called. -/
abbrev Source.Name : Type :=
  { t : Text // Source.IsToken t }

/-- Other names for symbols. What is not a mnemonic does not become one, and what an instruction
takes for a symbol stays one. -/
structure Renaming (machine : Machine) where
  name : Source.Name → Source.Name
  injective : Function.Injective name
  unknown : ∀ x, machine.mnemonics.find? x.val = none →
    machine.mnemonics.find? (name x).val = none
  symbol : ∀ x, Source.isSymbolOperand machine.registers x.val = true →
    Source.isSymbolOperand machine.registers (name x).val = true

namespace Renaming

variable {machine : Machine} (σ : Renaming machine)

/-- The other name for a text; one that is not a token names nothing and stays. -/
def text (t : Text) : Text :=
  if h : Source.IsToken t then (σ.name ⟨t, h⟩).val else t

def relabelling : Relabelling :=
  ⟨σ.text, id⟩

def operands (m : Mnemonic) (ts : List Text) : List Text :=
  if m.kind = .imperative then
    ts.map (Source.relabelOperand σ.relabelling machine.registers)
  else ts

/-- The tokens of a line with other names for its label and for the symbols of an instruction. -/
def tokens : List Text → List Text
  | [] => []
  | first :: rest =>
    match machine.mnemonics.find? first with
    | some m => first :: σ.operands m rest
    | none =>
      match rest with
      | [] => [σ.text first]
      | second :: later =>
        match machine.mnemonics.find? second with
        | some m => σ.text first :: second :: σ.operands m later
        | none => σ.text first :: second :: later

/-- A source with other names in the places of the names that it has. -/
def source (a : Text) : Text :=
  Text.unlines ((Text.lines a).map fun t => Source.respell false (σ.tokens (Source.tokens t)) t)

/-- Line by line a source has the tokens of another, under the other names. -/
def Renames (a b : Text) : Prop :=
  (Text.lines b).map Source.tokens = (Text.lines a).map fun t => σ.tokens (Source.tokens t)

theorem isToken_text {t : Text} (h : Source.IsToken t) : Source.IsToken (σ.text t) := by
  rw [text, dif_pos h]
  exact (σ.name ⟨t, h⟩).property

theorem injective_text : Function.Injective σ.text := by
  intro s t h
  unfold text at h
  split at h <;> split at h
  · exact congrArg Subtype.val (σ.injective (Subtype.ext h))
  · next hs ht => exact absurd (h ▸ (σ.name ⟨s, hs⟩).property) ht
  · next hs ht => exact absurd (h ▸ (σ.name ⟨t, ht⟩).property) hs
  · exact h

theorem find?_text {t : Text} (h : machine.mnemonics.find? t = none) :
    machine.mnemonics.find? (σ.text t) = none := by
  unfold text
  split
  · next ht => exact σ.unknown ⟨t, ht⟩ h
  · exact h

theorem keeps : σ.relabelling.Keeps machine.registers := by
  refine ⟨σ.injective_text, fun t h => ?_⟩
  change Source.isSymbolOperand machine.registers (σ.text t) = true
  unfold text
  split
  · next ht => exact σ.symbol ⟨t, ht⟩ h
  · exact h

theorem isToken_operands {m : Mnemonic} {ts : List Text} (h : ∀ t ∈ ts, Source.IsToken t) :
    ∀ t ∈ σ.operands m ts, Source.IsToken t := by
  unfold operands
  split
  · refine List.forall_mem_map.2 fun t ht => ?_
    unfold Source.relabelOperand
    split
    · exact σ.isToken_text (h t ht)
    · exact h t ht
  · exact h

theorem length_operands (m : Mnemonic) (ts : List Text) :
    (σ.operands m ts).length = ts.length := by
  unfold operands
  split
  · exact List.length_map _
  · rfl

theorem isToken_tokens {ts : List Text} (h : ∀ t ∈ ts, Source.IsToken t) :
    ∀ t ∈ σ.tokens ts, Source.IsToken t := by
  fun_cases tokens σ ts with
  | case1 => simp
  | case2 first rest m hm =>
    obtain ⟨hfirst, hrest⟩ := List.forall_mem_cons.1 h
    exact List.forall_mem_cons.2 ⟨hfirst, σ.isToken_operands hrest⟩
  | case3 first hfirst =>
    exact List.forall_mem_cons.2 ⟨σ.isToken_text (h first (by simp)), by simp⟩
  | case4 first hfirst second later m hm =>
    obtain ⟨hlabel, hothers⟩ := List.forall_mem_cons.1 h
    obtain ⟨hsecond, hlater⟩ := List.forall_mem_cons.1 hothers
    exact List.forall_mem_cons.2 ⟨σ.isToken_text hlabel,
      List.forall_mem_cons.2 ⟨hsecond, σ.isToken_operands hlater⟩⟩
  | case5 first hfirst second later hm =>
    obtain ⟨hlabel, hothers⟩ := List.forall_mem_cons.1 h
    exact List.forall_mem_cons.2 ⟨σ.isToken_text hlabel, hothers⟩

theorem length_tokens (ts : List Text) : (σ.tokens ts).length = ts.length := by
  fun_cases tokens σ ts <;> simp [length_operands]

/-- Other names do not change what kind of statement a line is. -/
theorem ofTokens_tokens (ts : List Text) :
    Source.Statement.ofTokens machine.mnemonics (σ.tokens ts) =
      (Source.Statement.ofTokens machine.mnemonics ts).relabel σ.relabelling
        machine.registers := by
  fun_cases tokens σ ts with
  | case1 => rfl
  | case2 first rest m hm =>
    simp [Source.Statement.ofTokens, hm, Source.Statement.relabel, operands]
  | case3 first hfirst =>
    simp [Source.Statement.ofTokens, hfirst, σ.find?_text hfirst, Source.Statement.relabel,
      relabelling]
  | case4 first hfirst second later m hm =>
    simp [Source.Statement.ofTokens, hfirst, σ.find?_text hfirst, hm, Source.Statement.relabel,
      operands, relabelling]
  | case5 first hfirst second later hm =>
    simp [Source.Statement.ofTokens, hfirst, σ.find?_text hfirst, hm, Source.Statement.relabel]

theorem renames_source (a : Text) : σ.Renames a (σ.source a) := by
  have htokens : ∀ t : Text, ∀ k ∈ σ.tokens (Source.tokens t), Source.IsToken k :=
    fun t => σ.isToken_tokens fun k hk => Source.isToken_of_mem_tokens hk
  have hlines : ∀ l ∈ (Text.lines a).map fun t =>
      Source.respell false (σ.tokens (Source.tokens t)) t, '\n' ∉ l := by
    refine List.forall_mem_map.2 fun t ht => ?_
    exact Source.not_mem_respell (htokens t) (Text.not_mem_of_mem_lines ht)
  rw [Renames, source, Source.map_tokens_lines_unlines hlines, List.map_map]
  apply List.map_congr_left
  intro t _
  exact Source.tokens_respell (htokens t) (σ.length_tokens (Source.tokens t)).symm

/-- An underscore behind every name. No mnemonic and no register ends in one. -/
def underscored : Renaming .builtin where
  name x := ⟨x.val ++ ['_'], x.property.snoc (by decide) (by decide)⟩
  injective x y h := Subtype.ext (List.append_cancel_right (congrArg Subtype.val h))
  unknown x _ := by
    have hnames : ∀ m ∈ MnemonicTable.builtin.entries, m.name.getLast? ≠ some '_' := by decide
    refine List.find?_eq_none.2 fun m hm h => hnames m hm ?_
    have hname : m.name = x.val ++ ['_'] := by simpa using h
    simp [hname]
  symbol x h := by
    have hnames : ∀ r ∈ RegisterTable.builtin.entries, r.name.getLast? ≠ some '_' := by decide
    have hcode : RegisterTable.builtin.code? (x.val ++ ['_']) = none := by
      refine Option.map_eq_none_iff.2 (List.find?_eq_none.2 fun r hr h => hnames r hr ?_)
      have hname : r.name = x.val ++ ['_'] := by simpa using h
      simp [hname]
    obtain ⟨c, cs, hx⟩ := List.exists_cons_of_ne_nil x.property.1
    have hliteral : Source.isLiteral x.val = false := by
      simpa using (Bool.and_eq_true_iff.1 h).2
    have hc : c ≠ '=' := by
      rintro rfl
      rw [hx] at hliteral
      cases hliteral
    have hsuffix : Source.isLiteral (x.val ++ ['_']) = false := by
      rw [hx, List.cons_append]
      simpa using Source.isLiteral_cons.not.2 hc
    simp [Source.isSymbolOperand, Machine.builtin, hcode, hsuffix]

example : underscored.source "X ADD\tAREG,,Y ;X\n\nY DS 2".toList =
    "X_ ADD\tAREG,,Y_ ;X\n\nY_ DS 2\n".toList :=
  rfl

variable {σ}

theorem Renames.rows {a b : Text} (h : σ.Renames a b) :
    Source.rowsOfLines machine.mnemonics (Text.numbered (Text.lines b)) =
      (Source.rowsOfLines machine.mnemonics (Text.numbered (Text.lines a))).map
        (.relabel σ.relabelling machine.registers) := by
  have hrows : ∀ source, Source.rowsOfLines machine.mnemonics (Text.numbered (Text.lines source)) =
      (Text.numbered ((Text.lines source).map Source.tokens)).map fun l =>
        ⟨l.1, .ofTokens machine.mnemonics l.2⟩ := by
    intro source
    rw [Text.numbered, Text.numbered, Text.numberedFrom_map, List.map_map]
    rfl
  have hb : (Text.lines b).map Source.tokens = ((Text.lines a).map Source.tokens).map σ.tokens := by
    rw [h, List.map_map]
    rfl
  rw [hrows, hrows, hb, Text.numbered, Text.numberedFrom_map, Text.numbered, List.map_map,
    List.map_map]
  apply List.map_congr_left
  intro l _
  exact congrArg (Source.Row.mk l.1) (σ.ofTokens_tokens l.2)

end Renaming

namespace Program

theorem ofSource_of_renames {setup : Setup} {σ : Renaming setup.machine} {a b : Text}
    (h : σ.Renames a b) :
    ofSource setup b =
      ((ofSource setup a).mapError (.relabel σ.relabelling)).map (.relabel σ.relabelling) := by
  rw [ofSource_eq_ofRows, ofSource_eq_ofRows, h.rows]
  exact ofRows_relabel σ.keeps _

theorem ofSource_renamed (setup : Setup) (σ : Renaming setup.machine) (a : Text) :
    σ.Renames a (σ.source a) ∧ ∀ b, σ.Renames a b →
      (∀ p, ofSource setup a = .ok p → ∃ q, ofSource setup b = .ok q ∧
        q.records = p.records ∧ q.literals = p.literals ∧
        q.symbols.entries = p.symbols.entries.map (fun e => ⟨σ.text e.name, e.address⟩) ∧
        q.warnings = p.warnings.map (.relabel ⟨σ.text, id⟩) ∧ q.objects = p.objects) ∧
      ∀ f, ofSource setup a = .error f →
        ofSource setup b = .error (f.relabel ⟨σ.text, id⟩) := by
  refine ⟨σ.renames_source a, fun b h => ⟨fun p hp => ?_, fun f hf => ?_⟩⟩
  · have hb := ofSource_of_renames h
    rw [hp] at hb
    exact ⟨_, hb, rfl, rfl, rfl, rfl, p.objects_relabel⟩
  · have hb := ofSource_of_renames h
    rw [hf] at hb
    exact hb

/-- A label that comes twice. -/
def twice : Text :=
  "X ADD AREG,Y\nX SUB BREG,='5' ; again\nY DS 2\nEND\n".toList

def twiceUnderscored : Text :=
  "X_ ADD AREG , Y_\nX_ SUB BREG,='5'\nY_ DS 2 ; words\nEND".toList

theorem ofSource_twiceUnderscored :
    Renaming.underscored.Renames twice twiceUnderscored ∧
      (∃ p q, ofSource ⟨.builtin, {}⟩ twice = .ok p ∧
        ofSource ⟨.builtin, {}⟩ twiceUnderscored = .ok q ∧ q.records = p.records ∧
        q.literals = p.literals ∧ q.objects = p.objects ∧
        q.symbols.entries.map (·.name) = ["X_".toList, "Y_".toList] ∧
        q.warnings = [⟨2, .labelIgnored "X_".toList 0⟩]) ∧
      ofSource ⟨.builtin, { strictLabels := true }⟩ twice =
        .error (.labelRedefined 2 "X".toList) ∧
      ofSource ⟨.builtin, { strictLabels := true }⟩ twiceUnderscored =
        .error (.labelRedefined 2 "X_".toList) := by
  have hr : Renaming.underscored.Renames twice twiceUnderscored := rfl
  obtain ⟨-, hlenient⟩ := ofSource_renamed ⟨.builtin, {}⟩ .underscored twice
  obtain ⟨-, hstrict⟩ := ofSource_renamed ⟨.builtin, { strictLabels := true }⟩ .underscored twice
  obtain ⟨q, hq, hrecords, hliterals, -, hwarnings, hobjects⟩ :=
    (hlenient twiceUnderscored hr).1 _ rfl
  have herror := (hstrict twiceUnderscored hr).2 (.labelRedefined 2 "X".toList) rfl
  refine ⟨hr, ⟨_, q, rfl, hq, hrecords, hliterals, hobjects, ?_, hwarnings⟩, rfl, herror⟩
  obtain rfl := Except.ok.inj hq
  rfl

end Program

end TwoPass
