import Mathlib.Data.List.Find
import Mathlib.Data.List.Nodup
import TwoPass.Proofs.FirstFault
import TwoPass.Proofs.SymbolLog
import TwoPass.Table.Frozen

/-! Freezing a table keeps its names, its order and its addresses, and fails at the first entry
that has no address. Pooling leaves no literal without one unless the words run out. -/

namespace TwoPass

theorem SymbolEntry.freeze_eq_ok_iff {e : SymbolEntry} {s : FrozenEntry} :
    e.freeze = .ok s ↔ (s.name, some s.address) = (e.name, e.address) := by
  unfold SymbolEntry.freeze
  cases ha : e.address with
  | none => simp
  | some a =>
    obtain ⟨name, address⟩ := s
    simp [eq_comm]

theorem LiteralEntry.freeze_eq_ok_iff {e : LiteralEntry} {s : FrozenEntry} :
    e.freeze = .ok s ↔ (s.name, some s.address) = (e.text, e.address) := by
  unfold LiteralEntry.freeze
  cases ha : e.address with
  | none => simp
  | some a =>
    obtain ⟨name, address⟩ := s
    simp [eq_comm]

theorem map_mk_eq_ok_iff {r : Except Fault (List FrozenEntry)} {frozen : FrozenTable} :
    r.map FrozenTable.mk = .ok frozen ↔ r = .ok frozen.entries := by
  obtain ⟨entries⟩ := frozen
  cases r <;> simp [Except.map]

theorem SymbolTable.freeze_eq_ok_iff {table : SymbolTable} {frozen : FrozenTable} :
    table.freeze = .ok frozen ↔ frozen.entries.map (fun s => (s.name, some s.address)) =
      table.entries.map fun e => (e.name, e.address) := by
  rw [SymbolTable.freeze, map_mk_eq_ok_iff]
  exact mapM_eq_ok_iff fun _ _ => SymbolEntry.freeze_eq_ok_iff

theorem LiteralTable.freeze_eq_ok_iff {table : LiteralTable} {frozen : FrozenTable} :
    table.freeze = .ok frozen ↔ frozen.entries.map (fun s => (s.name, some s.address)) =
      table.entries.map fun e => (e.text, e.address) := by
  rw [LiteralTable.freeze, map_mk_eq_ok_iff]
  exact mapM_eq_ok_iff fun _ _ => LiteralEntry.freeze_eq_ok_iff

theorem SymbolTable.freeze_eq_error {table : SymbolTable} {e : SymbolEntry}
    (h : table.entries.find? (·.address.isNone) = some e) :
    table.freeze = .error (.undefinedSymbol e.line e.name) := by
  have hok : ∀ k : SymbolEntry, k.address.isNone = false → ∃ s, k.freeze = .ok s := by
    intro k hk
    cases ha : k.address with
    | none => simp [ha] at hk
    | some a => exact ⟨⟨k.name, a⟩, by simp [SymbolEntry.freeze, ha]⟩
  have herror : ∀ k : SymbolEntry, k.address.isNone = true →
      k.freeze = .error (.undefinedSymbol k.line k.name) := by
    intro k hk
    simp [SymbolEntry.freeze, Option.isNone_iff_eq_none.1 hk]
  rw [SymbolTable.freeze, mapM_eq_error hok herror h]
  rfl

theorem exists_frozen {κ : Type} {entries : List κ} {n : κ → Text}
    {a : κ → Option Address} (h : ∀ e ∈ entries, (a e).isSome = true) :
    ∃ frozen : FrozenTable, frozen.entries.map (fun s => (s.name, some s.address)) =
      entries.map fun e => (n e, a e) := by
  refine ⟨⟨entries.map fun e => ⟨n e, (a e).getD 0⟩⟩, ?_⟩
  rw [List.map_map]
  apply List.map_congr_left
  intro e he
  obtain ⟨b, hb⟩ := Option.isSome_iff_exists.1 (h e he)
  simp [hb]

theorem map_name_of_frozen {κ : Type} {entries : List κ} {n : κ → Text}
    {a : κ → Option Address} {frozen : FrozenTable}
    (h : frozen.entries.map (fun s => (s.name, some s.address)) =
      entries.map fun e => (n e, a e)) :
    frozen.entries.map (·.name) = entries.map n := by
  have hfst := congrArg (List.map Prod.fst) h
  simpa [List.map_map, Function.comp_def] using hfst

theorem SymbolTable.Logs.isNone_eq {table : SymbolTable} {ss : List Sighting} (h : table.Logs ss)
    {e : SymbolEntry} (he : e ∈ table.entries) :
    e.address.isNone = !ss.any (Sighting.labels e.name) := by
  have ha := h.address e he
  cases hany : ss.any (Sighting.labels e.name) with
  | false =>
    rw [Sighting.address?_isNone_iff.2 hany] at ha
    simpa using ha.symm
  | true =>
    cases hn : e.address with
    | some a => rfl
    | none =>
      rw [hn, Option.map_none, Sighting.address?_isNone_iff, hany] at ha
      cases ha

/-- The table fails to freeze at the first sighted name that labels nothing, and with the line of
its first sighting. -/
theorem SymbolTable.Logs.freeze_eq_error {table : SymbolTable} {ss : List Sighting}
    (h : table.Logs ss) {s : Sighting} (hs : Sighting.undefined? ss = some s) :
    table.freeze = .error (.undefinedSymbol s.line s.name) := by
  have hfirst : (ss.find? fun t => !ss.any (Sighting.labels t.name)) = some s := hs
  have hnames := Sighting.find?_names (fun n => !ss.any (Sighting.labels n)) ss
  rw [hfirst, ← h.names, List.find?_map] at hnames
  obtain ⟨e, he, hn⟩ := Option.map_eq_some_iff.1 hnames
  have hsl := Sighting.line?_of_find? (q := fun n => !ss.any (Sighting.labels n)) hfirst
  have hfind : table.entries.find? (·.address.isNone) = some e := by
    rw [← he]
    exact List.find?_congr fun k hk => h.isNone_eq hk
  have hline := h.line e (List.mem_of_find?_eq_some he)
  rw [hn, hsl, Option.some.injEq] at hline
  rw [SymbolTable.freeze_eq_error hfind, hn, hline]

theorem SymbolTable.Logs.exists_freeze {table : SymbolTable} {ss : List Sighting}
    (h : table.Logs ss) (hs : Sighting.undefined? ss = none) :
    ∃ frozen, table.freeze = .ok frozen := by
  have hsome : ∀ e ∈ table.entries, e.address.isSome = true := by
    intro e he
    have hmem : e.name ∈ Sighting.names ss := h.names ▸ List.mem_map_of_mem he
    obtain ⟨s, hss, hn⟩ := Sighting.mem_names.1 hmem
    have hlabel := List.find?_eq_none.1 hs s hss
    rw [hn, ← h.isNone_eq he] at hlabel
    simpa [Option.isSome_iff_ne_none] using hlabel
  obtain ⟨frozen, hf⟩ := exists_frozen (n := SymbolEntry.name) hsome
  exact ⟨frozen, SymbolTable.freeze_eq_ok_iff.2 hf⟩

theorem SymbolTable.Logs.entries_of_freeze {table : SymbolTable} {ss : List Sighting}
    (h : table.Logs ss) {frozen : FrozenTable} (hf : table.freeze = .ok frozen) :
    frozen.entries.map (fun e => (e.name, some e.address.val)) =
      (Sighting.names ss).map fun name => (name, Sighting.address? ss name) := by
  have he := congrArg (List.map fun e => (e.1, e.2.map Fin.val)) (freeze_eq_ok_iff.1 hf)
  rw [List.map_map, List.map_map] at he
  rw [← h.names, List.map_map]
  refine Eq.trans he ?_
  apply List.map_congr_left
  intro e hm
  exact congrArg (Prod.mk e.name) (h.address e hm).symm

namespace LiteralTable

theorem isSome_of_pool {line : Nat} {location : Address} {es : List LiteralEntry}
    (h : (pool line location es).fault = none) :
    ∀ e ∈ (pool line location es).entries, e.address.isSome = true := by
  induction es generalizing location with
  | nil => simp [pool]
  | cons e es ih =>
    rw [pool] at h ⊢
    split at h
    · next a ha =>
      intro k hk
      rcases List.mem_cons.1 hk with rfl | hk
      · simp [ha]
      · exact ih h k hk
    · split at h
      · simp at h
      · next taken next ht =>
        intro k hk
        rcases List.mem_cons.1 hk with rfl | hk
        · rfl
        · exact ih h k hk

theorem exists_freeze_of_pool {line : Nat} {location : Address} {table : LiteralTable}
    (h : (pool line location table.entries).fault = none) :
    ∃ frozen, freeze ⟨(pool line location table.entries).entries, table.merging⟩ = .ok frozen := by
  obtain ⟨frozen, hf⟩ := exists_frozen (n := LiteralEntry.text) (isSome_of_pool h)
  exact ⟨frozen, freeze_eq_ok_iff.2 hf⟩

end LiteralTable

namespace FrozenTable

theorem find?_of_getElem? {table : FrozenTable} {k : Nat} {e : FrozenEntry}
    (hn : (table.entries.map (·.name)).Nodup) (h : table.entries[k]? = some e) :
    table.entries.find? (·.name = e.name) = some e :=
  find?_key_of_mem hn (List.mem_of_getElem? h)

/-- In a table of distinct names the place of a name and the name itself give one address. -/
theorem address?_eq_get? {table : FrozenTable} {k : Nat} {name : Text}
    (hn : (table.entries.map (·.name)).Nodup)
    (h : (table.entries.map (·.name))[k]? = some name) :
    table.address? ⟨k⟩ = table.get? name := by
  rw [List.getElem?_map] at h
  obtain ⟨e, he, rfl⟩ := Option.map_eq_some_iff.1 h
  rw [address?, get?, he, find?_of_getElem? hn he]

theorem exists_address {table : FrozenTable} {k : Nat} {name : Text}
    (h : (table.entries.map (·.name))[k]? = some name) : ∃ a, table.address? ⟨k⟩ = some a := by
  rw [List.getElem?_map] at h
  obtain ⟨e, he, rfl⟩ := Option.map_eq_some_iff.1 h
  exact ⟨e.address, by rw [address?, he]; rfl⟩

end FrozenTable

end TwoPass
