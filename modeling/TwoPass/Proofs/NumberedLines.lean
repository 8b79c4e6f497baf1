import TwoPass.Proofs.Reading

/-! The places of rows in a source. Lines are numbered from one in their order, and the rows of a
program are the first ones of its source. -/

namespace TwoPass

namespace Text

variable {α β : Type}

theorem numberedFrom_map (f : α → β) (n : Nat) (xs : List α) :
    numberedFrom n (xs.map f) = (numberedFrom n xs).map fun (k, x) => (k, f x) := by
  induction xs generalizing n with
  | nil => rfl
  | cons x xs ih => rw [List.map_cons, numberedFrom, numberedFrom, List.map_cons, ih]

theorem getElem?_numberedFrom (n k : Nat) (xs : List α) :
    (numberedFrom n xs)[k]? = xs[k]?.map fun x => (n + k, x) := by
  induction xs generalizing n k with
  | nil => simp [numberedFrom]
  | cons x xs ih =>
    cases k with
    | zero => simp [numberedFrom]
    | succ k =>
      rw [numberedFrom, List.getElem?_cons_succ, List.getElem?_cons_succ, ih,
        Nat.add_right_comm, Nat.add_assoc]

theorem mem_numberedFrom {n k : Nat} {x : α} {xs : List α} :
    (k, x) ∈ numberedFrom n xs ↔ n ≤ k ∧ xs[k - n]? = some x := by
  rw [List.mem_iff_getElem?]
  constructor
  · rintro ⟨i, hi⟩
    rw [getElem?_numberedFrom] at hi
    obtain ⟨y, hy, he⟩ := Option.map_eq_some_iff.1 hi
    obtain ⟨rfl, rfl⟩ := Prod.mk.inj he
    exact ⟨Nat.le_add_right n i, by rw [Nat.add_sub_cancel_left, hy]⟩
  · rintro ⟨hle, hx⟩
    refine ⟨k - n, ?_⟩
    rw [getElem?_numberedFrom, hx, Option.map_some, Nat.add_sub_cancel' hle]

theorem pairwise_numberedFrom (n : Nat) (xs : List α) :
    (numberedFrom n xs).Pairwise fun x y => x.1 < y.1 := by
  induction xs generalizing n with
  | nil => exact .nil
  | cons x xs ih =>
    refine List.pairwise_cons.2 ⟨?_, ih (n + 1)⟩
    rintro ⟨k, y⟩ hy
    exact (mem_numberedFrom.1 hy).1

end Text

namespace Source

/-- The line of a source with a number from one, which is not blank. -/
structure HasLine (source : Text) (n : Nat) (t : Text) : Prop where
  lower : 1 ≤ n
  upper : n ≤ (Text.lines source).length
  line : (Text.lines source)[n - 1]? = some t
  tokens : tokens t ≠ []

theorem hasLine_of_mem {source : Text} {n : Nat} {t : Text}
    (h : (n, t) ∈ Text.numbered (Text.lines source)) (ht : tokens t ≠ []) :
    HasLine source n t := by
  obtain ⟨hn, hline⟩ := Text.mem_numberedFrom.1 h
  have hlt := (List.getElem?_eq_some_iff.1 hline).1
  exact ⟨hn, by omega, hline, ht⟩

theorem throughEnd_append_afterEnd (rs : List Row) : throughEnd rs ++ afterEnd rs = rs := by
  induction rs with
  | nil => rfl
  | cons r rs ih =>
    unfold throughEnd afterEnd
    split
    · rfl
    · rw [List.cons_append, ih]

/-- The row at a place of a program is read from the line at that place. -/
theorem exists_line_of_program {table : MnemonicTable} {source : Text} {k : Nat} {r : Row}
    (h : (program table source)[k]? = some r) :
    ∃ t, (Text.lines source)[k]? = some t ∧ r = ⟨k + 1, .ofLine table t⟩ := by
  unfold program at h
  have hk : (rowsOfLines table (Text.numbered (Text.lines source)))[k]? = some r := by
    rw [← throughEnd_append_afterEnd (rowsOfLines table (Text.numbered (Text.lines source))),
      List.getElem?_append_left (List.getElem?_eq_some_iff.1 h).1]
    exact h
  rw [rowsOfLines, Text.numbered, List.getElem?_map, Text.getElem?_numberedFrom,
    Option.map_map] at hk
  obtain ⟨t, ht, rfl⟩ := Option.map_eq_some_iff.1 hk
  exact ⟨t, ht, by simp [Nat.add_comm]⟩

end Source

end TwoPass
