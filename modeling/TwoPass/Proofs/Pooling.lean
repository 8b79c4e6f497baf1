import TwoPass.Proofs.Counter
import TwoPass.Proofs.Freezing

/-! The pool of literals. It hands the words from the counter on to the entries without an address,
in the order of the table, and stops short of the last address; the entries that it has not come to
keep the table from freezing. -/

namespace TwoPass.LiteralTable

def unpooled (es : List LiteralEntry) : Nat :=
  es.countP (·.address.isNone)

/-- Of the entries without an address the first `n` get the words from `c` on, in order, and all
else stays. -/
structure HandsOut (c n : Nat) (es fs : List LiteralEntry) : Prop where
  length : fs.length = es.length
  entry : ∀ (k : Nat) (e : LiteralEntry), es[k]? = some e →
    ∃ f, fs[k]? = some f ∧ f.text = e.text ∧ f.line = e.line ∧
      f.address.map (·.val) =
        if e.address.isNone = true ∧ unpooled (es.take k) < n then some (c + unpooled (es.take k))
        else e.address.map (·.val)

/-- What a pool does to each entry in turn; the fourth case ends it. -/
inductive Pools (line : Nat) : Address → List LiteralEntry → Pooling → Prop
  | nil (c : Address) : Pools line c [] ⟨[], c, none⟩
  | pooled {c : Address} {e : LiteralEntry} {es : List LiteralEntry} {p : Pooling}
      (he : e.address.isNone = false) (h : Pools line c es p) :
      Pools line c (e :: es) { p with entries := e :: p.entries }
  | taken {c next : Address} {e : LiteralEntry} {es : List LiteralEntry} {p : Pooling}
      (he : e.address.isNone = true) (hn : next.val = c.val + 1) (h : Pools line next es p) :
      Pools line c (e :: es) { p with entries := { e with address := some c } :: p.entries }
  | stuck {c : Address} {e : LiteralEntry} (es : List LiteralEntry)
      (he : e.address.isNone = true) (hc : c.val = 65535) :
      Pools line c (e :: es) ⟨e :: es, c, some (.addressOverflow line)⟩

theorem pools_pool (line : Nat) (c : Address) (es : List LiteralEntry) :
    Pools line c es (pool line c es) := by
  induction es generalizing c with
  | nil => exact .nil c
  | cons e es ih =>
    cases ha : e.address with
    | some a =>
      have he : e.address.isNone = false := by rw [ha]; rfl
      simp only [pool, ha]
      exact .pooled he (ih c)
    | none =>
      have he : e.address.isNone = true := by rw [ha]; rfl
      by_cases hover : 65535 < c.val + 1
      · rw [pool_cons_of_overflow ha hover]
        exact .stuck es he (by omega)
      · obtain ⟨next, hn, hp⟩ := exists_pool_cons ha (Nat.not_lt.1 hover) line es
        rw [hp]
        exact .taken he hn (ih next)

section Counts

variable {line : Nat} {c : Address} {es : List LiteralEntry} {p : Pooling}

theorem unpooled_cons_of_isNone {e : LiteralEntry} (he : e.address.isNone = true)
    (es : List LiteralEntry) : unpooled (e :: es) = unpooled es + 1 :=
  List.countP_cons_of_pos he

theorem unpooled_cons_of_pooled {e : LiteralEntry} (he : e.address.isNone = false)
    (es : List LiteralEntry) : unpooled (e :: es) = unpooled es :=
  List.countP_cons_of_neg (by simp [he])

theorem unpooled_take_lt {k : Nat} {e : LiteralEntry} (hk : es[k]? = some e)
    (he : e.address.isNone = true) : unpooled (es.take k) < unpooled es := by
  have hle : unpooled (es.take (k + 1)) ≤ unpooled es :=
    (List.take_sublist (k + 1) es).countP_le
  rw [List.take_add_one, hk] at hle
  simp only [unpooled, List.countP_append, Option.toList_some, List.countP_singleton, he,
    if_true] at hle ⊢
  omega

theorem Pools.fault (h : Pools line c es p) :
    p.fault = Fault.overflow? line (c.val + unpooled es) := by
  induction h with
  | nil c => exact (Fault.overflow?_of_le (Nat.le_of_lt_succ c.isLt) line).symm
  | pooled he _ ih => rw [unpooled_cons_of_pooled he, ← ih]
  | @taken c next e es p he hn _ ih =>
    rw [unpooled_cons_of_isNone he,
      show c.val + (unpooled es + 1) = next.val + unpooled es by omega, ← ih]
  | stuck es he hc =>
    rw [unpooled_cons_of_isNone he]
    exact (Fault.overflow?_of_lt (by omega) line).symm

theorem Pools.location (h : Pools line c es p) :
    p.location.val = min (c.val + unpooled es) 65535 := by
  induction h with
  | nil c =>
    have hc := c.isLt
    show c.val = min (c.val + 0) 65535
    omega
  | pooled he _ ih => rw [unpooled_cons_of_pooled he, ← ih]
  | taken he hn _ ih =>
    rw [unpooled_cons_of_isNone he]
    dsimp only
    omega
  | stuck es he hc =>
    rw [unpooled_cons_of_isNone he]
    dsimp only
    omega

/-- What a pool leaves waiting are the words that it would have needed past the last one. -/
theorem Pools.unpooled (h : Pools line c es p) :
    unpooled p.entries = c.val + unpooled es - 65535 := by
  induction h with
  | nil c =>
    have hc := c.isLt
    show 0 = c.val + 0 - 65535
    omega
  | pooled he _ ih => rw [unpooled_cons_of_pooled he, unpooled_cons_of_pooled he, ih]
  | taken he hn _ ih =>
    rw [unpooled_cons_of_isNone he, unpooled_cons_of_pooled rfl, ih]
    omega
  | stuck es he hc =>
    rw [unpooled_cons_of_isNone he]
    omega

theorem Pools.filter_sublist (h : Pools line c es p) :
    (p.entries.filter (·.address.isNone)).Sublist (es.filter (·.address.isNone)) := by
  induction h with
  | nil c => exact List.Sublist.refl _
  | pooled he _ ih => simpa [List.filter_cons, he] using ih
  | taken he _ _ ih => simpa [List.filter_cons, he] using ih.cons _
  | stuck es he _ => exact List.Sublist.refl _

end Counts

section HandsOut

variable {c n : Nat} {e : LiteralEntry} {es fs : List LiteralEntry}

theorem HandsOut.refl (c : Nat) (es : List LiteralEntry) : HandsOut c 0 es es :=
  ⟨rfl, fun _ e hk => ⟨e, hk, rfl, rfl, by simp⟩⟩

theorem HandsOut.cons_pooled (he : e.address.isNone = false) (h : HandsOut c n es fs) :
    HandsOut c n (e :: es) (e :: fs) := by
  refine ⟨congrArg (· + 1) h.length, fun k x hx => ?_⟩
  cases k with
  | zero =>
    obtain rfl : e = x := by simpa using hx
    exact ⟨e, rfl, rfl, rfl, by simp [he]⟩
  | succ k =>
    rw [List.take_succ_cons, unpooled_cons_of_pooled he]
    exact h.entry k x hx

theorem HandsOut.cons_taken {a : Address} (he : e.address.isNone = true) (ha : a.val = c)
    (h : HandsOut (c + 1) n es fs) :
    HandsOut c (n + 1) (e :: es) ({ e with address := some a } :: fs) := by
  refine ⟨congrArg (· + 1) h.length, fun k x hx => ?_⟩
  cases k with
  | zero =>
    obtain rfl : e = x := by simpa using hx
    exact ⟨_, rfl, rfl, rfl, by simp [he, ha, LiteralTable.unpooled]⟩
  | succ k =>
    obtain ⟨f, hf, htext, hline, haddress⟩ := h.entry k x hx
    refine ⟨f, hf, htext, hline, haddress.trans ?_⟩
    simp only [List.take_succ_cons, unpooled_cons_of_isNone he, Nat.add_lt_add_iff_right,
      Nat.add_assoc, Nat.add_comm 1]

/-- Words beyond those that are waited for are handed to nobody. -/
theorem HandsOut.of_le (h : HandsOut c n es fs) (hn : unpooled es ≤ n) :
    HandsOut c (unpooled es) es fs := by
  refine ⟨h.length, fun k e he => ?_⟩
  obtain ⟨f, hf, htext, hline, haddress⟩ := h.entry k e he
  refine ⟨f, hf, htext, hline, haddress.trans ?_⟩
  cases hnone : e.address.isNone with
  | false => simp
  | true =>
    have hlt := unpooled_take_lt he hnone
    rw [if_pos ⟨rfl, by omega⟩, if_pos ⟨rfl, hlt⟩]

theorem Pools.handsOut {line : Nat} {c : Address} {p : Pooling} (h : Pools line c es p) :
    HandsOut c.val (65535 - c.val) es p.entries := by
  induction h with
  | nil c => exact ⟨rfl, fun k e hk => by simp at hk⟩
  | pooled he _ ih => exact ih.cons_pooled he
  | @taken c next e es p he hn _ ih =>
    have hnext := next.isLt
    have ht := HandsOut.cons_taken (c := c.val) he rfl (hn ▸ ih)
    rwa [show 65535 - (c.val + 1) + 1 = 65535 - c.val by omega] at ht
  | stuck es he hc =>
    rw [hc]
    exact .refl _ _

end HandsOut

section Freeze

variable {table : LiteralTable}

theorem freeze_eq_error {e : LiteralEntry}
    (h : table.entries.find? (·.address.isNone) = some e) :
    table.freeze = .error (.corrupt (.unpooledLiteral e.text e.line)) := by
  have hok : ∀ k : LiteralEntry, k.address.isNone = false → ∃ s, k.freeze = .ok s := by
    intro k hk
    cases ha : k.address with
    | none => simp [ha] at hk
    | some a => exact ⟨⟨k.text, a⟩, by simp [LiteralEntry.freeze, ha]⟩
  have herror : ∀ k : LiteralEntry, k.address.isNone = true →
      k.freeze = .error (.corrupt (.unpooledLiteral k.text k.line)) := by
    intro k hk
    simp [LiteralEntry.freeze, Option.isNone_iff_eq_none.1 hk]
  rw [LiteralTable.freeze, mapM_eq_error hok herror h]
  rfl

theorem freeze_of_unpooled_pos (h : 0 < unpooled table.entries) :
    ∃ text line, table.freeze = .error (.corrupt (.unpooledLiteral text line)) := by
  obtain ⟨e, he, hnone⟩ := List.countP_pos_iff.1 h
  cases hf : table.entries.find? (·.address.isNone) with
  | none => exact absurd hnone (List.find?_eq_none.1 hf e he)
  | some f => exact ⟨f.text, f.line, freeze_eq_error hf⟩

theorem exists_freeze_of_unpooled_eq_zero (h : unpooled table.entries = 0) :
    ∃ frozen, table.freeze = .ok frozen := by
  have hsome : ∀ e ∈ table.entries, e.address.isSome = true := by
    intro e he
    have hnone := List.countP_eq_zero.1 h e he
    simpa [Option.isSome_iff_ne_none] using hnone
  obtain ⟨frozen, hf⟩ := exists_frozen (n := LiteralEntry.text) hsome
  exact ⟨frozen, freeze_eq_ok_iff.2 hf⟩

end Freeze

end TwoPass.LiteralTable
