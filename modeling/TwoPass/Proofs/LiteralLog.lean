import TwoPass.Proofs.SymbolLog
import TwoPass.Table.Literal

/-! The literal table as a log of occurrences. Until the pool is laid out it holds one entry for
each occurrence, or one for each text when equal literals share an entry. -/

namespace TwoPass.LiteralTable

/-- The texts of the entries for some occurrences. -/
def kept (merging : Bool) (ts : List Text) : List Text :=
  if merging then ts.eraseDups else ts

theorem prefix_kept (merging : Bool) (ts us : List Text) :
    kept merging ts <+: kept merging (ts ++ us) := by
  cases merging with
  | false => exact List.prefix_append ts us
  | true => exact prefix_eraseDups ts us

theorem kept_sublist (merging : Bool) (ts : List Text) : (kept merging ts).Sublist ts := by
  cases merging with
  | false => exact List.Sublist.refl ts
  | true => exact eraseDups_sublist ts

theorem nodup_kept (ts : List Text) : (kept true ts).Nodup :=
  nodup_eraseDups ts

/-- The table is what the occurrences make of the empty one. -/
structure Logs (merging : Bool) (table : LiteralTable) (ts : List Text) : Prop where
  sharing : table.merging = merging
  texts : table.entries.map (·.text) = kept merging ts
  unpooled : ∀ e ∈ table.entries, e.address = none

theorem Logs.empty (merging : Bool) : Logs merging (.empty merging) [] := by
  refine ⟨rfl, ?_, by simp [LiteralTable.empty]⟩
  cases merging <;> rfl

theorem Logs.any_shares_iff {merging : Bool} {table : LiteralTable} {ts : List Text}
    (h : Logs merging table ts) (text : Text) :
    table.entries.any (shares text) = true ↔ text ∈ table.entries.map (·.text) := by
  simp only [List.any_eq_true, List.mem_map, shares, Bool.and_eq_true, decide_eq_true_eq]
  constructor
  · rintro ⟨e, he, _, ht⟩
    exact ⟨e, he, ht⟩
  · rintro ⟨e, he, ht⟩
    exact ⟨e, he, by simp [h.unpooled e he], ht⟩

theorem Logs.push {merging : Bool} {table : LiteralTable} {ts : List Text}
    (h : Logs merging table ts) {text : Text} (line : Nat)
    (hk : kept merging (ts ++ [text]) = kept merging ts ++ [text]) :
    Logs merging { table with entries := table.entries ++ [⟨text, none, line⟩] }
      (ts ++ [text]) := by
  refine ⟨h.sharing, by simp [hk, h.texts], ?_⟩
  intro e he
  rcases List.mem_append.1 he with he | he
  · exact h.unpooled e he
  · rw [List.mem_singleton.1 he]

theorem Logs.add {merging : Bool} {table : LiteralTable} {ts : List Text}
    (h : Logs merging table ts) (text : Text) (line : Nat) :
    Logs merging (table.add text line).2 (ts ++ [text]) := by
  unfold LiteralTable.add
  cases hm : merging with
  | false =>
    rw [if_neg (by simp [h.sharing, hm])]
    exact hm ▸ h.push line (by simp [kept, hm])
  | true =>
    subst hm
    have htexts : table.entries.map (·.text) = ts.eraseDups := h.texts
    have hmem := h.any_shares_iff text
    rw [htexts, List.mem_eraseDups] at hmem
    by_cases ht : text ∈ ts
    · rw [if_pos (by simp [h.sharing, hmem.2 ht])]
      exact ⟨h.sharing, htexts.trans (eraseDups_snoc_of_mem ht).symm, h.unpooled⟩
    · rw [if_neg (by simp only [Bool.and_eq_true, hmem, ht, and_false, not_false_iff])]
      exact h.push line (eraseDups_snoc_of_not_mem ht)

theorem getElem?_add (table : LiteralTable) (text : Text) (line : Nat) :
    ((table.add text line).2.entries.map (·.text))[(table.add text line).1.index]? =
      some text := by
  unfold LiteralTable.add
  split
  · next hs =>
    have hany : table.entries.any (shares text) = true := (Bool.and_eq_true _ _ ▸ hs).2
    have hlt : table.entries.findIdx (shares text) < table.entries.length :=
      List.findIdx_lt_length_of_exists (List.any_eq_true.1 hany)
    have hp := List.findIdx_getElem (w := hlt)
    have ht : (table.entries[table.entries.findIdx (shares text)]).text = text :=
      of_decide_eq_true (Bool.and_eq_true _ _ ▸ hp).2
    rw [List.getElem?_map, List.getElem?_eq_getElem hlt, Option.map_some, ht]
  · simp

theorem prefix_texts_add (table : LiteralTable) (text : Text) (line : Nat) :
    table.entries.map (·.text) <+: (table.add text line).2.entries.map (·.text) := by
  unfold LiteralTable.add
  split
  · exact List.prefix_refl _
  · simp

theorem Logs.index_add {table : LiteralTable} {ts : List Text} (h : Logs false table ts)
    (text : Text) (line : Nat) : (table.add text line).1.index = ts.length := by
  have hl := congrArg List.length h.texts
  rw [List.length_map] at hl
  simpa [LiteralTable.add, h.sharing, kept] using hl

end TwoPass.LiteralTable
