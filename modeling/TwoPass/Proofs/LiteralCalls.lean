import TwoPass.Proofs.LiteralLog
import TwoPass.Proofs.Pooling

/-! The literal table under calls in any order: literals are added, the counter is set back, and
pools are laid out, of which any may run out of words. Places and texts stay, equal literals share
an entry only until it has an address, and a pool serves the entries that wait as far as it can. -/

namespace TwoPass

inductive LiteralCall
  | add (text : Text) (line : Nat)
  | reset (origin : Address)
  | pool (line : Nat)
deriving DecidableEq

/-- A literal table with the counter that its pools draw on. -/
structure LiteralStock where
  table : LiteralTable
  location : Address
deriving DecidableEq

namespace LiteralStock

def start (merging : Bool) : LiteralStock :=
  ⟨.empty merging, 0⟩

def pool (line : Nat) (s : LiteralStock) : Option Fault × LiteralStock :=
  let pooling := LiteralTable.pool line s.location s.table.entries
  (pooling.fault, ⟨{ s.table with entries := pooling.entries }, pooling.location⟩)

def call (s : LiteralStock) : LiteralCall → LiteralStock
  | .add text line => { s with table := (s.table.add text line).2 }
  | .reset origin => { s with location := origin }
  | .pool line => (s.pool line).2

def run (s : LiteralStock) (cs : List LiteralCall) : LiteralStock :=
  cs.foldl call s

def texts (s : LiteralStock) : List Text :=
  s.table.entries.map (·.text)

def waiting (s : LiteralStock) : Nat :=
  LiteralTable.unpooled s.table.entries

/-- What holds of a stock after any calls, and of the next one. -/
structure Lawful (merging : Bool) (s : LiteralStock) : Prop where
  /-- Two entries that wait for a pool never share a text, where equal literals share an entry. -/
  distinct : merging = true →
    ((s.table.entries.filter (·.address.isNone)).map (·.text)).Nodup
  texts : ∀ later, s.texts <+: (s.run later).texts
  added : ∀ text line, ∃ e,
    (s.table.add text line).2.entries[(s.table.add text line).1.index]? = some e ∧
      e.address = none ∧ e.text = text
  shared : ∀ text line, merging = true →
    (∃ e ∈ s.table.entries, e.address = none ∧ e.text = text) →
      (s.table.add text line).2 = s.table
  appended : ∀ text line,
    (merging = false ∨ ∀ e ∈ s.table.entries, e.address = none → e.text ≠ text) →
      (s.table.add text line).1.index = s.table.size ∧
        (s.table.add text line).2.entries = s.table.entries ++ [⟨text, none, line⟩]
  pooled : ∀ line, s.location.val + s.waiting ≤ 65535 →
    (s.pool line).1 = none ∧ (s.pool line).2.location.val = s.location.val + s.waiting ∧
      LiteralTable.HandsOut s.location.val s.waiting s.table.entries
        (s.pool line).2.table.entries ∧
      ∃ frozen, (s.pool line).2.table.freeze = .ok frozen
  stopped : ∀ line, 65535 < s.location.val + s.waiting →
    (s.pool line).1 = some (.addressOverflow line) ∧ (s.pool line).2.location.val = 65535 ∧
      LiteralTable.HandsOut s.location.val (65535 - s.location.val) s.table.entries
        (s.pool line).2.table.entries ∧
      ∃ text n, (s.pool line).2.table.freeze = .error (.corrupt (.unpooledLiteral text n))

end LiteralStock

namespace LiteralTable

section Add

variable {table : LiteralTable} {text : Text}

theorem any_shares_iff {es : List LiteralEntry} :
    es.any (shares text) = true ↔ ∃ e ∈ es, e.address = none ∧ e.text = text := by
  simp [shares]

theorem add_of_shared (hm : table.merging = true)
    (hs : ∃ e ∈ table.entries, e.address = none ∧ e.text = text) (line : Nat) :
    table.add text line = (⟨table.entries.findIdx (shares text)⟩, table) := by
  rw [add, hm, any_shares_iff.2 hs]
  rfl

theorem add_of_not_shared
    (h : table.merging = false ∨ ∀ e ∈ table.entries, e.address = none → e.text ≠ text)
    (line : Nat) :
    table.add text line =
      (⟨table.size⟩, { table with entries := table.entries ++ [⟨text, none, line⟩] }) := by
  have hnot : ¬ (table.merging && table.entries.any (shares text)) = true := by
    rw [Bool.and_eq_true, any_shares_iff]
    rintro ⟨hm, e, he, hnone, ht⟩
    rcases h with h | h
    · rw [hm] at h
      cases h
    · exact h e he hnone ht
  rw [add, if_neg hnot]
  rfl

theorem shared_or_not (table : LiteralTable) (text : Text) :
    (table.merging = true ∧ ∃ e ∈ table.entries, e.address = none ∧ e.text = text) ∨
      (table.merging = false ∨ ∀ e ∈ table.entries, e.address = none → e.text ≠ text) := by
  cases hm : table.merging with
  | false => exact Or.inr (Or.inl rfl)
  | true =>
    by_cases hs : ∃ e ∈ table.entries, e.address = none ∧ e.text = text
    · exact Or.inl ⟨rfl, hs⟩
    · exact Or.inr (Or.inr fun e he hnone ht => hs ⟨e, he, hnone, ht⟩)

theorem exists_entry_of_add (table : LiteralTable) (text : Text) (line : Nat) :
    ∃ e, (table.add text line).2.entries[(table.add text line).1.index]? = some e ∧
      e.address = none ∧ e.text = text := by
  rcases shared_or_not table text with ⟨hm, hs⟩ | h
  · rw [add_of_shared hm hs]
    have hlt := List.findIdx_lt_length_of_exists (List.any_eq_true.1 (any_shares_iff.2 hs))
    have hshares := List.findIdx_getElem (w := hlt)
    simp only [shares, Bool.and_eq_true, Option.isNone_iff_eq_none, decide_eq_true_eq] at hshares
    exact ⟨_, List.getElem?_eq_getElem hlt, hshares.1, hshares.2⟩
  · rw [add_of_not_shared h]
    exact ⟨_, List.getElem?_concat_length, rfl, rfl⟩

theorem merging_add (table : LiteralTable) (text : Text) (line : Nat) :
    (table.add text line).2.merging = table.merging := by
  unfold add
  split <;> rfl

/-- Where equal literals share an entry, those that wait for a pool differ. -/
def Distinct (table : LiteralTable) : Prop :=
  table.merging = true → ((table.entries.filter (·.address.isNone)).map (·.text)).Nodup

theorem Distinct.add (h : table.Distinct) (text : Text) (line : Nat) :
    (table.add text line).2.Distinct := by
  rcases shared_or_not table text with ⟨hm, hs⟩ | hnot
  · rw [add_of_shared hm hs]
    exact h
  · rw [add_of_not_shared hnot]
    intro hm
    have hm' : table.merging = true := hm
    have hnew := hnot.resolve_left (by simp [hm'])
    have hmem : text ∉ (table.entries.filter (·.address.isNone)).map (·.text) := by
      rintro hmem
      obtain ⟨e, he, ht⟩ := List.mem_map.1 hmem
      obtain ⟨he, hnone⟩ := List.mem_filter.1 he
      exact hnew e he (Option.isNone_iff_eq_none.1 hnone) ht
    have hconcat := (h hm').concat hmem
    rw [List.concat_eq_append] at hconcat
    rw [List.filter_append, List.map_append]
    exact hconcat

end Add

end LiteralTable

namespace LiteralStock

variable {merging : Bool} {s : LiteralStock}

theorem merging_call (s : LiteralStock) (c : LiteralCall) :
    (s.call c).table.merging = s.table.merging := by
  cases c with
  | add text line => exact s.table.merging_add text line
  | reset origin => rfl
  | pool line => rfl

theorem merging_run (s : LiteralStock) (cs : List LiteralCall) :
    (s.run cs).table.merging = s.table.merging := by
  induction cs generalizing s with
  | nil => rfl
  | cons c cs ih => exact (ih (s.call c)).trans (s.merging_call c)

theorem prefix_texts_call (s : LiteralStock) (c : LiteralCall) : s.texts <+: (s.call c).texts := by
  cases c with
  | add text line => exact s.table.prefix_texts_add text line
  | reset origin => exact List.prefix_refl _
  | pool line =>
    have htexts : (s.call (.pool line)).texts = s.texts :=
      LiteralTable.map_text_pool line s.location s.table.entries
    exact ⟨[], by rw [htexts, List.append_nil]⟩

theorem prefix_texts_run (s : LiteralStock) (cs : List LiteralCall) :
    s.texts <+: (s.run cs).texts := by
  induction cs generalizing s with
  | nil => exact List.prefix_refl _
  | cons c cs ih => exact (s.prefix_texts_call c).trans (ih (s.call c))

theorem distinct_call (h : s.table.Distinct) (c : LiteralCall) : (s.call c).table.Distinct := by
  cases c with
  | add text line => exact h.add text line
  | reset origin => exact h
  | pool line =>
    -- a pool only takes entries out of those that wait
    intro hm
    have hsub := (LiteralTable.pools_pool line s.location s.table.entries).filter_sublist
    exact (h hm).sublist (hsub.map _)

theorem distinct_run (h : s.table.Distinct) (cs : List LiteralCall) :
    (s.run cs).table.Distinct := by
  induction cs generalizing s with
  | nil => exact h
  | cons c cs ih => exact ih (distinct_call h c)

theorem lawful (hm : s.table.merging = merging) (hd : s.table.Distinct) : s.Lawful merging where
  distinct hmerging := hd (hm.trans hmerging)
  texts := s.prefix_texts_run
  added := s.table.exists_entry_of_add
  shared text line hmerging hs := by
    rw [LiteralTable.add_of_shared (hm.trans hmerging) hs]
  appended text line h := by
    rw [← hm] at h
    rw [LiteralTable.add_of_not_shared h]
    exact ⟨rfl, rfl⟩
  pooled line hfits := by
    have hp := LiteralTable.pools_pool line s.location s.table.entries
    have hzero := hp.unpooled.trans (Nat.sub_eq_zero_of_le hfits)
    have hlocation := hp.location.trans (Nat.min_eq_left hfits)
    have hhands := hp.handsOut.of_le (Nat.le_sub_of_add_le' hfits)
    exact ⟨hp.fault.trans (Fault.overflow?_of_le hfits line), hlocation, hhands,
      LiteralTable.exists_freeze_of_unpooled_eq_zero hzero⟩
  stopped line hover := by
    have hp := LiteralTable.pools_pool line s.location s.table.entries
    have hpos := hp.unpooled.symm ▸ Nat.sub_pos_of_lt hover
    have hlocation := hp.location.trans (Nat.min_eq_right hover.le)
    exact ⟨hp.fault.trans (Fault.overflow?_of_lt hover line), hlocation, hp.handsOut,
      LiteralTable.freeze_of_unpooled_pos hpos⟩

theorem lawful_run (merging : Bool) (cs : List LiteralCall) :
    ((start merging).run cs).Lawful merging := by
  have hempty : (start merging).table.Distinct := fun _ => List.nodup_nil
  exact lawful ((start merging).merging_run cs) (distinct_run hempty cs)

end LiteralStock

end TwoPass
