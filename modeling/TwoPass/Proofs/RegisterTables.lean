import Mathlib.Order.Fin.Basic
import TwoPass.Proofs.FirstFault
import TwoPass.Proofs.KeyedLists
import TwoPass.Setup

/-! The register table as a bijection. After any calls of insert it lists the registers that were
kept, by increasing codes, and finds a code by its name exactly when it finds the name by the code.
A list of registers makes a table when no two of them share a code, and the first that has the code
of an earlier one is blamed otherwise. -/

namespace TwoPass

namespace RegisterTable

/-- A register that can stand beside those that are held. -/
def Fits (held : List Register) (r : Register) : Prop :=
  ∀ e ∈ held, e.name ≠ r.name ∧ e.code ≠ r.code

instance (held : List Register) (r : Register) : Decidable (Fits held r) :=
  inferInstanceAs (Decidable (∀ e ∈ held, e.name ≠ r.name ∧ e.code ≠ r.code))

/-- The registers that are held after some more have come, of which those that do not fit are
dropped. -/
def kept (held : List Register) : List Register → List Register
  | [] => held
  | r :: later => kept (if Fits held r then held ++ [r] else held) later

/-- The table after a call of insert, which a register that is refused leaves as it is. -/
def attempt (table : RegisterTable) (r : Register) : RegisterTable :=
  match table.insert r with
  | .ok next => next
  | .error _ => table

def attempts (table : RegisterTable) (rs : List Register) : RegisterTable :=
  rs.foldl attempt table

/-- The table of some registers, whose names are distinct and so are their codes. -/
structure Lists (table : RegisterTable) (held : List Register) : Prop where
  perm : table.entries.Perm held
  increasing : table.entries.Pairwise fun e f => e.code < f.code
  names : (held.map (·.name)).Nodup

section Listing

variable {table next : RegisterTable} {held : List Register} {r : Register} {es : List Register}

theorem perm_placeIn (r : Register) (es : List Register) : (placeIn r es).Perm (r :: es) := by
  induction es with
  | nil => exact .refl _
  | cons e es ih =>
    unfold placeIn
    split
    · exact (ih.cons e).trans (.swap r e es)
    · exact .refl _

theorem increasing_placeIn (h : es.Pairwise fun e f => e.code < f.code)
    (hr : ∀ e ∈ es, e.code ≠ r.code) : (placeIn r es).Pairwise fun e f => e.code < f.code := by
  induction es with
  | nil => exact List.pairwise_singleton _ r
  | cons e es ih =>
    obtain ⟨he, hes⟩ := List.pairwise_cons.1 h
    obtain ⟨hne, hlater⟩ := List.forall_mem_cons.1 hr
    unfold placeIn
    split
    · next hlt =>
      refine List.pairwise_cons.2 ⟨fun f hf => ?_, ih hes hlater⟩
      rcases mem_placeIn.1 hf with rfl | hf
      · exact hlt
      · exact he f hf
    · next hge =>
      have hlt : r.code < e.code := lt_of_le_of_ne (not_lt.1 hge) hne.symm
      refine List.pairwise_cons.2 ⟨fun f hf => ?_, h⟩
      rcases List.mem_cons.1 hf with rfl | hf
      · exact hlt
      · exact hlt.trans (he f hf)

theorem lists_empty : empty.Lists [] :=
  ⟨.refl _, .nil, .nil⟩

theorem lists_builtin : builtin.Lists builtin.entries :=
  ⟨.refl _, by decide, by decide⟩

theorem Lists.codes (h : table.Lists held) : (held.map (·.code)).Nodup := by
  have hentries : (table.entries.map (·.code)).Nodup :=
    List.pairwise_map.2 (h.increasing.imp fun hlt => hlt.ne)
  exact (h.perm.map _).nodup_iff.1 hentries

/-- No two tables list the same registers. -/
theorem Lists.unique (h : table.Lists held) (h' : next.Lists held) : table = next := by
  obtain ⟨es⟩ := table
  obtain ⟨fs⟩ := next
  have hperm : es.Perm fs := h.perm.trans h'.perm.symm
  congr 1
  refine hperm.eq_of_pairwise (fun e f _ _ hef hfe => ?_) h.increasing h'.increasing
  exact absurd hef hfe.not_gt

theorem Lists.fits_iff (h : table.Lists held) : table.accepts r = true ↔ Fits held r := by
  simp only [accepts_iff, Fits, h.perm.mem_iff]

theorem Lists.insert_of_fits (h : table.Lists held) (hr : Fits held r) :
    ∃ next, table.insert r = .ok next ∧ next.Lists (held ++ [r]) := by
  refine ⟨_, if_pos (h.fits_iff.2 hr), ?_, ?_, ?_⟩
  · exact (perm_placeIn r _).trans ((h.perm.cons r).trans (List.perm_append_singleton r held).symm)
  · exact increasing_placeIn h.increasing fun e he => (hr e (h.perm.mem_iff.1 he)).2
  · rw [List.map_append, List.nodup_append]
    refine ⟨h.names, by simp, ?_⟩
    rintro name hname _ hr' rfl
    obtain ⟨e, he, rfl⟩ := List.mem_map.1 hname
    exact (hr e he).1 (by simpa using hr')

theorem Lists.insert_of_not_fits (h : table.Lists held) (hr : ¬ Fits held r) :
    table.insert r = .error (.registerConflict r.name) :=
  if_neg fun ha => hr (h.fits_iff.1 ha)

theorem Lists.exists_insert_iff (h : table.Lists held) :
    (∃ next, table.insert r = .ok next) ↔ Fits held r := by
  constructor
  · rintro ⟨next, hn⟩
    by_contra hr
    rw [h.insert_of_not_fits hr] at hn
    cases hn
  · intro hr
    obtain ⟨next, hn, -⟩ := h.insert_of_fits hr
    exact ⟨next, hn⟩

theorem Lists.insert_eq_error_iff (h : table.Lists held) {f : Fault} :
    table.insert r = .error f ↔ ¬ Fits held r ∧ f = .registerConflict r.name := by
  constructor
  · intro hf
    have hr : ¬ Fits held r := by
      rw [← h.exists_insert_iff, hf]
      nofun
    rw [h.insert_of_not_fits hr] at hf
    exact ⟨hr, (Except.error.inj hf).symm⟩
  · rintro ⟨hr, rfl⟩
    exact h.insert_of_not_fits hr

theorem Lists.attempt (h : table.Lists held) (r : Register) :
    (table.attempt r).Lists (if Fits held r then held ++ [r] else held) := by
  unfold RegisterTable.attempt
  by_cases hr : Fits held r
  · obtain ⟨next, hn, hlists⟩ := h.insert_of_fits hr
    rwa [hn, if_pos hr]
  · rwa [h.insert_of_not_fits hr, if_neg hr]

/-- Calls of insert keep a listing, whichever of them are refused. -/
theorem Lists.attempts (h : table.Lists held) (rs : List Register) :
    (table.attempts rs).Lists (kept held rs) := by
  induction rs generalizing table held with
  | nil => exact h
  | cons r later ih => exact ih (h.attempt r)

theorem Lists.code?_eq_some_iff (h : table.Lists held) {name : Text} {code : Code} :
    table.code? name = some code ↔ ⟨name, code⟩ ∈ held := by
  have hnames := (h.perm.map (·.name)).nodup_iff.2 h.names
  simp only [code?, Option.map_eq_some_iff, find?_key_eq_some_iff hnames, h.perm.mem_iff]
  constructor
  · rintro ⟨r, ⟨hr, rfl⟩, rfl⟩
    exact hr
  · intro hr
    exact ⟨_, ⟨hr, rfl⟩, rfl⟩

theorem Lists.name?_eq_some_iff (h : table.Lists held) {name : Text} {code : Code} :
    table.name? code = some name ↔ ⟨name, code⟩ ∈ held := by
  have hcodes := (h.perm.map (·.code)).nodup_iff.2 h.codes
  simp only [name?, Option.map_eq_some_iff, find?_key_eq_some_iff hcodes, h.perm.mem_iff]
  constructor
  · rintro ⟨r, ⟨hr, rfl⟩, rfl⟩
    exact hr
  · intro hr
    exact ⟨_, ⟨hr, rfl⟩, rfl⟩

theorem Lists.fits_iff_unknown (h : table.Lists held) :
    Fits held r ↔ table.code? r.name = none ∧ table.name? r.code = none := by
  simp only [Option.eq_none_iff_forall_ne_some, ne_eq, h.code?_eq_some_iff, h.name?_eq_some_iff]
  constructor
  · intro hr
    exact ⟨fun code hc => (hr _ hc).1 rfl, fun name hn => (hr _ hn).2 rfl⟩
  · rintro ⟨hname, hcode⟩ e he
    exact ⟨fun hn => hname e.code (hn ▸ he), fun hc => hcode e.name (hc ▸ he)⟩

/-- In whatever order the registers come, sorting them by their codes gives the entries. -/
theorem Lists.mergeSort_eq (h : table.Lists held) {order : List Register}
    (ho : order.Perm held) :
    (order.mergeSort fun e f => decide (e.code ≤ f.code)) = table.entries := by
  have hsorted := @List.pairwise_mergeSort Register (fun e f => decide (e.code ≤ f.code))
    (fun e f g hef hfg => by simp only [decide_eq_true_eq] at *; exact hef.trans hfg)
    (fun e f => by simpa using le_total e.code f.code) order
  have hperm : (order.mergeSort fun e f => decide (e.code ≤ f.code)).Perm table.entries :=
    (List.mergeSort_perm order _).trans (ho.trans h.perm.symm)
  refine hperm.eq_of_pairwise (fun e f he hf hef hfe => ?_) hsorted
    (h.increasing.imp fun hlt => by simpa using hlt.le)
  simp only [decide_eq_true_eq] at hef hfe
  have hcodes := (h.perm.map (·.code)).nodup_iff.2 h.codes
  exact List.inj_on_of_nodup_map hcodes (hperm.mem_iff.1 he) hf (le_antisymm hef hfe)

end Listing

section Loading

variable {table next : RegisterTable} {held rs : List Register} {f : Fault}

theorem Lists.foldlM_eq_ok_iff (h : table.Lists held) :
    rs.foldlM insert table = .ok next ↔ next.Lists (held ++ rs) := by
  induction rs generalizing table held with
  | nil =>
    rw [List.append_nil]
    constructor
    · rintro ⟨⟩
      exact h
    · intro h'
      rw [h.unique h']
      rfl
  | cons r later ih =>
    rw [List.foldlM_cons]
    by_cases hr : Fits held r
    · obtain ⟨after, ha, hlists⟩ := h.insert_of_fits hr
      rw [ha, List.append_cons]
      exact ih hlists
    · rw [h.insert_of_not_fits hr]
      refine ⟨nofun, fun h' => absurd (fun e he => ?_) hr⟩
      exact ⟨key_ne_of_nodup h'.names he, key_ne_of_nodup h'.codes he⟩

theorem exists_lists_iff : (∃ table : RegisterTable, table.Lists rs) ↔
    (rs.map (·.name)).Nodup ∧ (rs.map (·.code)).Nodup := by
  refine ⟨fun ⟨_, h⟩ => ⟨h.names, h.codes⟩, ?_⟩
  rintro ⟨hn, hc⟩
  induction rs using List.reverseRecOn with
  | nil => exact ⟨_, lists_empty⟩
  | append_singleton rs r ih =>
    have hsub : ∀ {κ : Type} {key : Register → κ}, ((rs ++ [r]).map key).Nodup →
        (rs.map key).Nodup := fun h => h.sublist ((List.sublist_append_left rs [r]).map _)
    obtain ⟨table, ht⟩ := ih (hsub hn) (hsub hc)
    obtain ⟨next, -, hnext⟩ := ht.insert_of_fits fun e he =>
      ⟨key_ne_of_nodup hn he, key_ne_of_nodup hc he⟩
    exact ⟨next, hnext⟩

theorem ofList_eq_ok_iff : ofList rs = .ok table ↔ table.Lists rs :=
  lists_empty.foldlM_eq_ok_iff

theorem ofList_eq_error_iff (hn : (rs.map (·.name)).Nodup) : ofList rs = .error f ↔
    ∃ before r after, rs = before ++ r :: after ∧ (before.map (·.code)).Nodup ∧
      (∃ e ∈ before, e.code = r.code) ∧ f = .registerConflict r.name := by
  have hclash : ∀ {before r after}, rs = before ++ r :: after →
      (¬ Fits before r ↔ ∃ e ∈ before, e.code = r.code) := by
    rintro before r after rfl
    have hnames : ∀ e ∈ before, e.name ≠ r.name := fun e he => key_ne_of_nodup hn he
    simp only [Fits, not_forall, exists_prop, not_and, not_not]
    exact ⟨fun ⟨e, he, h⟩ => ⟨e, he, h (hnames e he)⟩, fun ⟨e, he, h⟩ => ⟨e, he, fun _ => h⟩⟩
  rw [ofList, foldlM_eq_error_iff]
  constructor
  · rintro ⟨before, r, after, t, hrs, ht, hf⟩
    have hlists : t.Lists before := lists_empty.foldlM_eq_ok_iff.1 ht
    obtain ⟨hr, rfl⟩ := hlists.insert_eq_error_iff.1 hf
    exact ⟨before, r, after, hrs, hlists.codes, (hclash hrs).1 hr, rfl⟩
  · rintro ⟨before, r, after, hrs, hcodes, hr, rfl⟩
    have hnames : (before.map (·.name)).Nodup := by
      rw [hrs, List.map_append] at hn
      exact hn.of_append_left
    obtain ⟨t, ht⟩ := exists_lists_iff.2 ⟨hnames, hcodes⟩
    exact ⟨before, r, after, t, hrs, lists_empty.foldlM_eq_ok_iff.2 ht,
      ht.insert_of_not_fits ((hclash hrs).2 hr)⟩

end Loading

end RegisterTable

namespace Settings

section Machine

variable {s : Settings} {rs : List Register}

theorem machine_eq_ok_iff (hrs : s.registers = some rs) {machine : Machine} :
    s.machine = .ok machine ↔ machine.registers.Lists rs ∧
      machine.mnemonics = s.mnemonics.elim .builtin MnemonicTable.ofList := by
  obtain ⟨mnemonics, registers⟩ := machine
  simp only [Settings.machine, hrs, map_eq_ok_iff, RegisterTable.ofList_eq_ok_iff,
    Machine.mk.injEq]
  constructor
  · rintro ⟨table, ht, rfl, rfl⟩
    exact ⟨ht, rfl⟩
  · rintro ⟨ht, rfl⟩
    exact ⟨_, ht, rfl, rfl⟩

theorem machine_eq_error_iff (hrs : s.registers = some rs) (hn : (rs.map (·.name)).Nodup)
    {f : Fault} : s.machine = .error f ↔
      ∃ before r after, rs = before ++ r :: after ∧ (before.map (·.code)).Nodup ∧
        (∃ e ∈ before, e.code = r.code) ∧ f = .registerConflict r.name := by
  simp only [Settings.machine, hrs, map_eq_error_iff, RegisterTable.ofList_eq_error_iff hn]

theorem exists_machine_iff (hrs : s.registers = some rs) (hn : (rs.map (·.name)).Nodup) :
    (∃ machine, s.machine = .ok machine) ↔ (rs.map (·.code)).Nodup := by
  simp only [machine_eq_ok_iff hrs]
  constructor
  · rintro ⟨machine, h, -⟩
    exact h.codes
  · intro hc
    obtain ⟨table, ht⟩ := RegisterTable.exists_lists_iff.2 ⟨hn, hc⟩
    exact ⟨⟨_, table⟩, ht, rfl⟩

end Machine

end Settings

namespace RegisterTable

/-- Calls of insert on a table keep the names and the codes in step, and the registers of settings
are such calls on the empty table, which must all succeed. -/
theorem attempts_bijection {start : RegisterTable} (hstart : start = .empty ∨ start = .builtin)
    (calls : List Register) :
    let table := start.attempts calls
    let held := kept start.entries calls
    (∀ r, (∃ next, table.insert r = .ok next) ↔
        table.code? r.name = none ∧ table.name? r.code = none) ∧
      (∀ r f, table.insert r = .error f →
        f = .registerConflict r.name ∧ table.attempt r = table) ∧
      (∀ name code, table.code? name = some code ↔ table.name? code = some name) ∧
      (∀ name code, table.code? name = some code ↔ ⟨name, code⟩ ∈ held) ∧
      table.Lists held ∧ table.size = held.length ∧
      (∀ order : List Register, order.Perm held →
        order.mergeSort (fun e f => decide (e.code ≤ f.code)) = table.entries) ∧
      ∀ (s : Settings) rs, s.registers = some rs → (rs.map (·.name)).Nodup →
        ((∃ machine, s.machine = .ok machine) ↔ (rs.map (·.code)).Nodup) ∧
          (∀ f, s.machine = .error f ↔
            ∃ before r after, rs = before ++ r :: after ∧ (before.map (·.code)).Nodup ∧
              (∃ e ∈ before, e.code = r.code) ∧ f = .registerConflict r.name) ∧
          ∀ machine, s.machine = .ok machine ↔ machine.registers.Lists rs ∧
            machine.mnemonics = s.mnemonics.elim .builtin MnemonicTable.ofList := by
  intro table held
  have hfirst : start.Lists start.entries := by
    rcases hstart with rfl | rfl
    · exact lists_empty
    · exact lists_builtin
  have h : table.Lists held := hfirst.attempts calls
  refine ⟨fun r => h.exists_insert_iff.trans h.fits_iff_unknown, fun r f hf => ?_,
    fun name code => h.code?_eq_some_iff.trans h.name?_eq_some_iff.symm,
    fun name code => h.code?_eq_some_iff, h, h.perm.length_eq, fun order => h.mergeSort_eq,
    fun s rs hrs hn => ⟨Settings.exists_machine_iff hrs hn,
      fun f => Settings.machine_eq_error_iff hrs hn,
      fun machine => Settings.machine_eq_ok_iff hrs⟩⟩
  refine ⟨(h.insert_eq_error_iff.1 hf).2, ?_⟩
  rw [attempt, hf]

/-- A taken code and a taken name are refused between two registers that are not, and settings list
two codes twice. -/
theorem attempts_bijection_clashing :
    let calls : List Register := [⟨"XREG".toList, 1⟩, ⟨"EREG".toList, 9⟩, ⟨"AREG".toList, 7⟩,
      ⟨"ZERO".toList, 0⟩]
    let table := builtin.attempts calls
    let listed : List Register := [⟨"ZREG".toList, 7⟩, ⟨"AREG".toList, 1⟩, ⟨"YREG".toList, 7⟩,
      ⟨"XREG".toList, 1⟩]
    table.entries = ⟨"ZERO".toList, 0⟩ :: builtin.entries ++ [⟨"EREG".toList, 9⟩] ∧
      (∃ next, table.insert ⟨"XREG".toList, 7⟩ = .ok next) ∧
      table.name? 9 = some "EREG".toList ∧
      (listed.map (·.name)).Nodup ∧ Settings.machine ⟨{}, some listed, none⟩ =
        .error (.registerConflict "YREG".toList) := by
  intro calls table listed
  obtain ⟨hinsert, -, hinverse, -, -, -, -, hsettings⟩ :=
    attempts_bijection (.inr rfl) calls
  have hn : (listed.map (·.name)).Nodup := by decide
  have hclash := ((hsettings ⟨{}, some listed, none⟩ listed rfl hn).2.1
    (.registerConflict "YREG".toList)).2 ⟨listed.take 2, ⟨"YREG".toList, 7⟩, listed.drop 3, rfl,
      by decide, ⟨_, List.mem_cons_self .., rfl⟩, rfl⟩
  exact ⟨rfl, (hinsert ⟨"XREG".toList, 7⟩).2 ⟨rfl, rfl⟩, (hinverse "EREG".toList 9).1 rfl, hn,
    hclash⟩

end RegisterTable

end TwoPass
