import TwoPass.Proofs.KeyedLists
import TwoPass.Table.Symbol

/-! The symbol table as a log of sightings. What the table holds after any sequence of mentions,
definitions and bindings is read off the sequence: each name once, in the order of the first
sightings, with the address of its last data label or else of its first plain one. -/

namespace TwoPass

/-- How a name is sighted: as an operand, as a plain label, or as the label of data. -/
inductive Role
  | mention
  | plain
  | data
deriving DecidableEq

/-- The location is the counter's when the name is sighted. -/
structure Sighting where
  name : Text
  line : Nat
  role : Role
  location : Nat
deriving DecidableEq

namespace Sighting

def labels (name : Text) (s : Sighting) : Bool :=
  s.role ≠ .mention && s.name = name

def names (ss : List Sighting) : List Text :=
  (ss.map (·.name)).eraseDups

def line? (ss : List Sighting) (name : Text) : Option Nat :=
  (ss.find? (·.name = name)).map (·.line)

def address? (ss : List Sighting) (name : Text) : Option Nat :=
  ((ss.reverse.find? fun s => s.role = .data && s.name = name).or
    (ss.find? fun s => s.role = .plain && s.name = name)).map (·.location)

/-- The first sighting of a name that labels nothing. -/
def undefined? (ss : List Sighting) : Option Sighting :=
  ss.find? fun s => !ss.any (labels s.name)

theorem mem_names {ss : List Sighting} {name : Text} :
    name ∈ names ss ↔ ∃ s ∈ ss, s.name = name := by
  simp [names]

theorem names_snoc_of_mem {ss : List Sighting} {s : Sighting} (h : s.name ∈ names ss) :
    names (ss ++ [s]) = names ss := by
  rw [names, List.map_append]
  exact eraseDups_snoc_of_mem (List.mem_eraseDups.1 h)

theorem names_snoc_of_not_mem {ss : List Sighting} {s : Sighting} (h : s.name ∉ names ss) :
    names (ss ++ [s]) = names ss ++ [s.name] := by
  rw [names, List.map_append]
  exact eraseDups_snoc_of_not_mem fun hm => h (List.mem_eraseDups.2 hm)

theorem nodup_names (ss : List Sighting) : (names ss).Nodup :=
  nodup_eraseDups _

theorem prefix_names (ss ts : List Sighting) : names ss <+: names (ss ++ ts) := by
  rw [names, names, List.map_append]
  exact prefix_eraseDups _ _

theorem line?_snoc (ss : List Sighting) (s : Sighting) (name : Text) :
    line? (ss ++ [s]) name =
      (line? ss name).or (if s.name = name then some s.line else none) := by
  by_cases h : s.name = name <;> cases hf : ss.find? (·.name = name) <;>
    simp [line?, List.find?_append, h, hf]

theorem line?_isSome_iff {ss : List Sighting} {name : Text} :
    (line? ss name).isSome = true ↔ name ∈ names ss := by
  simp [line?, mem_names]

theorem address?_snoc_of_ne {ss : List Sighting} {s : Sighting} {name : Text}
    (h : s.name ≠ name) : address? (ss ++ [s]) name = address? ss name := by
  simp [address?, List.find?_append, h]

theorem address?_snoc_mention {ss : List Sighting} {s : Sighting} (h : s.role = .mention)
    (name : Text) : address? (ss ++ [s]) name = address? ss name := by
  simp [address?, List.find?_append, h]

theorem address?_snoc_data {ss : List Sighting} {s : Sighting} (h : s.role = .data) :
    address? (ss ++ [s]) s.name = some s.location := by
  simp [address?, h]

theorem address?_snoc_plain {ss : List Sighting} {s : Sighting} (h : s.role = .plain) :
    address? (ss ++ [s]) s.name = (address? ss s.name).or (some s.location) := by
  simp only [address?, List.reverse_append, List.reverse_cons, List.reverse_nil, List.nil_append,
    List.singleton_append, List.find?_append]
  cases hd : ss.reverse.find? fun t => t.role = .data && t.name = s.name with
  | some t => simp [h, hd]
  | none =>
    simp only [List.find?_cons, h, hd, Option.none_or]
    cases ss.find? fun t => t.role = .plain && t.name = s.name <;> simp

theorem find?_names (q : Text → Bool) (ss : List Sighting) :
    (names ss).find? q = (ss.find? fun s => q s.name).map (·.name) := by
  -- the last sighting of a known name repeats an earlier one, which has answered already
  induction ss using List.reverseRecOn with
  | nil => rfl
  | append_singleton ss s ih =>
    rw [List.find?_append]
    by_cases h : s.name ∈ names ss
    · rw [names_snoc_of_mem h, ih]
      cases hf : ss.find? fun s => q s.name with
      | some t => rfl
      | none =>
        obtain ⟨t, ht, htn⟩ := mem_names.1 h
        have hq : q s.name = false := by
          simpa [htn] using List.find?_eq_none.1 hf t ht
        simp [hq]
    · rw [names_snoc_of_not_mem h, List.find?_append, ih]
      cases hf : ss.find? fun s => q s.name with
      | some t => rfl
      | none => cases hq : q s.name <;> simp [hq]

theorem line?_of_find? {q : Text → Bool} {ss : List Sighting} {s : Sighting}
    (h : ss.find? (fun t => q t.name) = some s) : line? ss s.name = some s.line := by
  obtain ⟨hq, as, bs, rfl, has⟩ := List.find?_eq_some_iff_append.1 h
  have hnone : as.find? (fun t => t.name = s.name) = none := by
    rw [List.find?_eq_none]
    intro a ha hn
    have hqa := has a ha
    have hn' : a.name = s.name := by simpa using hn
    simp [hn', hq] at hqa
  simp [line?, List.find?_append, hnone]

theorem address?_isNone_iff {ss : List Sighting} {name : Text} :
    address? ss name = none ↔ ss.any (labels name) = false := by
  rw [List.any_eq_false]
  simp only [address?, Option.map_eq_none_iff, Option.or_eq_none_iff, List.find?_eq_none,
    List.mem_reverse]
  constructor
  · rintro ⟨hd, hp⟩ s hs
    have hds := hd s hs
    have hps := hp s hs
    cases hr : s.role <;> simp_all [labels]
  · intro h
    constructor <;>
    · intro s hs
      have hl := h s hs
      cases hr : s.role <;> simp_all [labels]

end Sighting

namespace SymbolTable

/-- The table is what the sightings make of the empty one. -/
structure Logs (table : SymbolTable) (ss : List Sighting) : Prop where
  names : table.entries.map (·.name) = Sighting.names ss
  line : ∀ e ∈ table.entries, Sighting.line? ss e.name = some e.line
  address : ∀ e ∈ table.entries, Sighting.address? ss e.name = e.address.map (·.val)

theorem Logs.empty : empty.Logs [] :=
  ⟨rfl, by simp [SymbolTable.empty], by simp [SymbolTable.empty]⟩

theorem find?_name {table : SymbolTable} {name : Text} {e : SymbolEntry}
    (h : table.find? name = some e) : e.name = name := by
  simpa using List.find?_some h

theorem find?_eq_none_iff {table : SymbolTable} {name : Text} :
    table.find? name = none ↔ name ∉ table.entries.map (·.name) := by
  simp [find?]

theorem mem_of_find? {table : SymbolTable} {name : Text} {e : SymbolEntry}
    (h : table.find? name = some e) : e ∈ table.entries :=
  List.mem_of_find?_eq_some h

/-- A new name gets the next place, with the address that its sighting gives. -/
theorem Logs.push {table : SymbolTable} {ss : List Sighting} {e : SymbolEntry} {s : Sighting}
    (h : table.Logs ss) (hf : table.find? s.name = none) (hn : e.name = s.name)
    (hl : e.line = s.line) (ha : Sighting.address? (ss ++ [s]) s.name = e.address.map (·.val)) :
    (table.push e).Logs (ss ++ [s]) := by
  have hnew : s.name ∉ Sighting.names ss := h.names ▸ find?_eq_none_iff.1 hf
  have hold : ∀ k ∈ table.entries, s.name ≠ k.name := by
    intro k hk he
    exact hnew (h.names ▸ he ▸ List.mem_map_of_mem hk)
  refine ⟨?_, ?_, ?_⟩
  · simp [SymbolTable.push, h.names, Sighting.names_snoc_of_not_mem hnew, hn]
  · intro k hk
    rcases List.mem_append.1 hk with hk | hk
    · rw [Sighting.line?_snoc, h.line k hk]
      rfl
    · obtain rfl := List.mem_singleton.1 hk
      have hnone : Sighting.line? ss s.name = none := by
        rw [← Option.not_isSome_iff_eq_none, Sighting.line?_isSome_iff]
        exact hnew
      simp [Sighting.line?_snoc, hnone, hn, hl]
  · intro k hk
    rcases List.mem_append.1 hk with hk | hk
    · rw [Sighting.address?_snoc_of_ne (hold k hk), h.address k hk]
    · obtain rfl := List.mem_singleton.1 hk
      rw [hn, ha]

/-- A sighting of a known name leaves places and lines; it may give the name another address. -/
theorem Logs.update {table next : SymbolTable} {ss : List Sighting} {s : Sighting}
    {e : SymbolEntry} (h : table.Logs ss) (hf : table.find? s.name = some e)
    (hn : next.entries.map (·.name) = table.entries.map (·.name))
    (hs : ∀ k ∈ next.entries, k.name = s.name →
      k.line = e.line ∧ Sighting.address? (ss ++ [s]) s.name = k.address.map (·.val))
    (ho : ∀ k ∈ next.entries, k.name ≠ s.name → k ∈ table.entries) :
    next.Logs (ss ++ [s]) := by
  have hmem : s.name ∈ Sighting.names ss := by
    rw [← h.names, ← find?_name hf]
    exact List.mem_map_of_mem (mem_of_find? hf)
  have hline := find?_name hf ▸ h.line e (mem_of_find? hf)
  refine ⟨?_, ?_, ?_⟩
  · rw [hn, h.names, Sighting.names_snoc_of_mem hmem]
  · intro k hk
    rw [Sighting.line?_snoc]
    by_cases he : k.name = s.name
    · rw [he, hline, (hs k hk he).1]
      rfl
    · rw [h.line k (ho k hk he)]
      rfl
  · intro k hk
    by_cases he : k.name = s.name
    · rw [he, (hs k hk he).2]
    · rw [Sighting.address?_snoc_of_ne (Ne.symm he), h.address k (ho k hk he)]

theorem Logs.eq_of_name {table : SymbolTable} {ss : List Sighting} (h : table.Logs ss)
    {k e : SymbolEntry} (hk : k ∈ table.entries) (he : e ∈ table.entries)
    (hn : k.name = e.name) : k = e := by
  have hd : (table.entries.map (·.name)).Nodup := h.names ▸ Sighting.nodup_names ss
  exact List.inj_on_of_nodup_map hd hk he hn

theorem mem_setAddress {table : SymbolTable} {name : Text} {a : Address} {k : SymbolEntry}
    (h : k ∈ (table.setAddress name a).entries) :
    (k.name ≠ name ∧ k ∈ table.entries) ∨
      (∃ e ∈ table.entries, e.name = name ∧ k = { e with address := some a }) := by
  simp only [setAddress, List.mem_map] at h
  obtain ⟨e, he, rfl⟩ := h
  by_cases hn : e.name = name
  · exact Or.inr ⟨e, he, hn, by simp [hn]⟩
  · exact Or.inl ⟨by simp [hn], by simpa [hn] using he⟩

theorem Logs.keep {table : SymbolTable} {ss : List Sighting} {s : Sighting} {e : SymbolEntry}
    (h : table.Logs ss) (hf : table.find? s.name = some e)
    (ha : Sighting.address? (ss ++ [s]) s.name = e.address.map (·.val)) :
    table.Logs (ss ++ [s]) := by
  refine h.update hf rfl ?_ fun k hk _ => hk
  intro k hk hn
  obtain rfl := h.eq_of_name hk (mem_of_find? hf) (hn.trans (find?_name hf).symm)
  exact ⟨rfl, ha⟩

theorem Logs.setAddress {table : SymbolTable} {ss : List Sighting} {s : Sighting}
    {e : SymbolEntry} {a : Address} (h : table.Logs ss) (hf : table.find? s.name = some e)
    (ha : Sighting.address? (ss ++ [s]) s.name = some a.val) :
    (table.setAddress s.name a).Logs (ss ++ [s]) := by
  refine h.update hf (map_name_setAddress table s.name a) ?_ ?_
  · intro k hk hn
    rcases mem_setAddress hk with ⟨hne, _⟩ | ⟨d, hd, hdn, rfl⟩
    · exact absurd hn hne
    · obtain rfl := h.eq_of_name hd (mem_of_find? hf) (hdn.trans (find?_name hf).symm)
      exact ⟨rfl, ha⟩
  · intro k hk hn
    rcases mem_setAddress hk with ⟨_, hm⟩ | ⟨d, _, hdn, rfl⟩
    · exact hm
    · exact absurd hdn hn

theorem Logs.address_of_find? {table : SymbolTable} {ss : List Sighting} {name : Text}
    {e : SymbolEntry} (h : table.Logs ss) (hf : table.find? name = some e) :
    Sighting.address? ss name = e.address.map (·.val) :=
  find?_name hf ▸ h.address e (mem_of_find? hf)

theorem Logs.address_of_find?_none {table : SymbolTable} {ss : List Sighting} {name : Text}
    (h : table.Logs ss) (hf : table.find? name = none) : Sighting.address? ss name = none := by
  rw [Sighting.address?_isNone_iff, List.any_eq_false]
  intro s hs
  have hn : name ∉ Sighting.names ss := h.names ▸ find?_eq_none_iff.1 hf
  have hne : s.name ≠ name := fun he => hn (Sighting.mem_names.2 ⟨s, hs, he⟩)
  simp [Sighting.labels, hne]

theorem Logs.reference {table : SymbolTable} {ss : List Sighting} (h : table.Logs ss)
    (name : Text) (line location : Nat) :
    (table.reference name line).2.Logs (ss ++ [⟨name, line, .mention, location⟩]) := by
  unfold SymbolTable.reference
  split
  · next e hf =>
    apply h.keep hf
    rw [Sighting.address?_snoc_mention rfl, h.address_of_find? hf]
  · next hf =>
    apply h.push hf rfl rfl
    rw [Sighting.address?_snoc_mention rfl, h.address_of_find?_none hf]
    rfl

theorem Logs.define {table : SymbolTable} {ss : List Sighting} (h : table.Logs ss)
    (name : Text) (a : Address) (line : Nat) :
    (table.define name a line).2.Logs (ss ++ [⟨name, line, .plain, a.val⟩]) := by
  unfold SymbolTable.define
  split
  · next hf =>
    apply h.push hf rfl rfl
    rw [Sighting.address?_snoc_plain rfl, h.address_of_find?_none hf]
    rfl
  · next e hf =>
    split
    · next ha =>
      refine h.setAddress (s := ⟨name, line, .plain, a.val⟩) hf ?_
      rw [Sighting.address?_snoc_plain rfl, h.address_of_find? hf, ha]
      rfl
    · next kept ha =>
      apply h.keep hf
      rw [Sighting.address?_snoc_plain rfl, h.address_of_find? hf, ha]
      rfl

theorem Logs.bind {table : SymbolTable} {ss : List Sighting} (h : table.Logs ss)
    (name : Text) (a : Address) (line : Nat) :
    (table.bind name a line).2.Logs (ss ++ [⟨name, line, .data, a.val⟩]) := by
  unfold SymbolTable.bind
  split
  · next hf => exact h.push hf rfl rfl (Sighting.address?_snoc_data rfl)
  · next e hf =>
    exact h.setAddress (s := ⟨name, line, .data, a.val⟩) hf (Sighting.address?_snoc_data rfl)

end SymbolTable

end TwoPass
