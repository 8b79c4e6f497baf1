import TwoPass.Proofs.Freezing
import TwoPass.Proofs.StreamText

/-! The rows of a dump. A row is a name, blanks and an address, with any blanks around, and the name
may hold blanks of its own; a dump is read exactly when its rows are such, and what is read from it
is written as a dump that gives it back. -/

namespace TwoPass

namespace Text

variable {t left right : Text}

/-- A text that begins and ends with a character that is no blank. -/
structure Trimmed (t : Text) : Prop where
  head : ∃ c ∈ t.head?, isBlank c = false
  last : ∃ c ∈ t.getLast?, isBlank c = false

theorem Trimmed.ne_nil (h : Trimmed t) : t ≠ [] := by
  obtain ⟨c, hc, -⟩ := h.head
  exact List.ne_nil_of_mem (List.mem_of_mem_head? hc)

theorem trimStart_of_head (h : ∃ c ∈ t.head?, isBlank c = false) : trimStart t = t := by
  obtain ⟨c, hc, hb⟩ := h
  obtain ⟨cs, rfl⟩ := List.head?_eq_some_iff.1 hc
  exact trimStart_cons_of_not_blank hb cs

theorem trimEnd_of_last (h : ∃ c ∈ t.getLast?, isBlank c = false) : trimEnd t = t := by
  obtain ⟨c, hc, hb⟩ := h
  obtain ⟨cs, rfl⟩ := List.getLast?_eq_some_iff.1 hc
  exact trimEnd_append_of_solid (solid_cons.2 ⟨hb, .nil⟩) (by simp)

theorem trim_of_around_trimmed {piece : Text} (hp : Trimmed piece) (h : Around piece t) :
    trim t = piece := by
  obtain ⟨before, after, hbefore, hafter, rfl⟩ := h
  have hhead : ∃ c ∈ (piece ++ after).head?, isBlank c = false := by
    obtain ⟨c, hc, hb⟩ := hp.head
    exact ⟨c, List.mem_head?_append_of_mem_head? hc, hb⟩
  rw [trim, List.append_assoc, trimStart_blanks_append hbefore, trimStart_of_head hhead,
    trimEnd_append_blanks hafter, trimEnd_of_last hp.last]

theorem last_trimEnd (h : trimEnd t ≠ []) : ∃ c ∈ (trimEnd t).getLast?, isBlank c = false := by
  induction t with
  | nil => exact absurd rfl h
  | cons c cs ih =>
    rw [trimEnd] at h ⊢
    cases he : trimEnd cs with
    | nil =>
      rw [he] at h
      by_cases hc : isBlank c = true
      · simp [hc] at h
      · simp [hc]
    | cons d ds =>
      rw [he] at ih
      obtain ⟨e, hlast, hb⟩ := ih (by simp)
      exact ⟨e, by simpa using hlast, hb⟩

theorem head_trimEnd (h : trimEnd t ≠ []) : (trimEnd t).head? = t.head? := by
  obtain ⟨after, -, ht⟩ := exists_trimEnd t
  obtain ⟨c, cs, hc⟩ := List.exists_cons_of_ne_nil h
  rw [hc] at ht
  rw [hc, ht]
  rfl

theorem trimmed_trim (h : trim t ≠ []) : Trimmed (trim t) := by
  refine ⟨?_, last_trimEnd h⟩
  rw [trim, head_trimEnd h]
  have hstart : trimStart t ≠ [] := by
    intro hnil
    rw [trim, hnil] at h
    exact h rfl
  obtain ⟨c, cs, hc⟩ := List.exists_cons_of_ne_nil hstart
  have hb := List.head?_dropWhile_not isBlank t
  rw [trimStart] at hc
  rw [hc] at hb
  rw [trimStart, hc]
  exact ⟨c, rfl, by simpa using hb⟩

theorem splitLast?_of_solid (h : Solid t) : splitLast? isBlank t = none := by
  induction t with
  | nil => rfl
  | cons c cs ih =>
    obtain ⟨hc, hcs⟩ := solid_cons.1 h
    simp [splitLast?, ih hcs, hc]

theorem splitLast?_append (h : Solid right) {c : Char} (hc : isBlank c = true) (left : Text) :
    splitLast? isBlank (left ++ c :: right) = some (left, right) := by
  induction left with
  | nil => simp [splitLast?, splitLast?_of_solid h, hc]
  | cons d ds ih => simp [splitLast?, ih]

end Text

namespace FrozenEntry

/-- A row of a dump: the name of the entry, blanks, and its address as a numeral. -/
def Spelling (e : FrozenEntry) (row : Text) : Prop :=
  Text.Trimmed e.name ∧ ∃ gap numeral, gap ≠ [] ∧ Text.isAllBlank gap = true ∧
    Numeral.Unsigned e.address.val numeral ∧ Text.Around (e.name ++ gap ++ numeral) row

variable {e f : FrozenEntry} {row : Text}

theorem spelling_of_read (h : FrozenTable.readEntry? (Text.trim row) = some e) :
    e.Spelling row := by
  unfold FrozenTable.readEntry? at h
  cases hs : Text.splitLast? Text.isBlank (Text.trim row) with
  | none => simp [hs] at h
  | some found =>
    obtain ⟨left, right⟩ := found
    obtain ⟨c, hc, hrow⟩ := Text.eq_append_of_splitLast? hs
    simp only [hs] at h
    split at h
    · cases h
    · next hname =>
      have hne : Text.trimEnd left ≠ [] := by simpa using hname
      obtain ⟨a, ha, rfl⟩ := Option.map_eq_some_iff.1 h
      obtain ⟨after, hafter, hleft⟩ := Text.exists_trimEnd left
      -- the name begins where the trimmed row begins
      have htrimmed : Text.Trimmed (Text.trim row) := Text.trimmed_trim (by simp [hrow])
      have hhead : (Text.trim row).head? = left.head? := by
        obtain ⟨d, ds, hd⟩ := List.exists_cons_of_ne_nil hne
        rw [hrow, hleft, hd]
        rfl
      refine ⟨⟨?_, Text.last_trimEnd hne⟩, after ++ [c], right, by simp, ?_,
        Numeral.below?_eq_some_iff.1 ha, ?_⟩
      · rw [Text.head_trimEnd hne, ← hhead]
        exact htrimmed.head
      · simpa [Text.isAllBlank, hc] using hafter
      · have haround := Text.around_trim row
        rw [hrow, hleft] at haround
        simpa using haround

theorem Spelling.read (h : e.Spelling row) :
    FrozenTable.readEntry? (Text.trim row) = some e := by
  obtain ⟨hname, gap, numeral, hgap, hblank, hnumeral, haround⟩ := h
  have hsolid := Numeral.solid_of_isNumeric fun _ => hnumeral.isNumeric
  have htrimmed : Text.Trimmed (e.name ++ gap ++ numeral) := by
    obtain ⟨c, hc, hb⟩ := hname.head
    obtain ⟨d, hd⟩ := List.getLast?_isSome.2 hnumeral.ne_nil |> Option.isSome_iff_exists.1
    constructor
    · rw [List.append_assoc]
      exact ⟨c, List.mem_head?_append_of_mem_head? hc, hb⟩
    · exact ⟨d, List.mem_getLast?_append_of_mem_getLast? hd, hsolid d (List.mem_of_getLast? hd)⟩
  -- the last blank of the gap is the last one of the row
  obtain ⟨before, c, rfl⟩ : ∃ before c, gap = before ++ [c] :=
    ⟨_, _, (List.dropLast_append_getLast hgap).symm⟩
  obtain ⟨hbefore, hc⟩ : Text.isAllBlank before = true ∧ Text.isBlank c = true := by
    simpa [Text.isAllBlank] using hblank
  have hsplit : Text.splitLast? Text.isBlank (Text.trim row) =
      some (e.name ++ before, numeral) := by
    rw [Text.trim_of_around_trimmed htrimmed haround]
    simpa using Text.splitLast?_append hsolid hc (e.name ++ before)
  have htrim : Text.trimEnd (e.name ++ before) = e.name := by
    rw [Text.trimEnd_append_blanks hbefore, Text.trimEnd_of_last hname.last]
  have hne : e.name.isEmpty = false := by simpa using hname.ne_nil
  simp only [FrozenTable.readEntry?, hsplit, htrim, hne, Bool.false_eq_true, if_false,
    Numeral.below?_eq_some_iff.2 hnumeral, Option.map_some]

theorem Spelling.unique (he : e.Spelling row) (hf : f.Spelling row) : e = f := by
  rw [← Option.some_inj, ← he.read, hf.read]

theorem Spelling.mem (h : e.Spelling row) {c : Char} (hc : c ∈ e.name) : c ∈ row := by
  obtain ⟨-, gap, numeral, -, -, -, before, after, -, -, rfl⟩ := h
  simp [hc]

/-- An entry whose name can stand in a dump. -/
structure Writable (e : FrozenEntry) : Prop where
  trimmed : Text.Trimmed e.name
  oneLine : '\n' ∉ e.name

theorem Spelling.writable (h : e.Spelling row) (hrow : '\n' ∉ row) : e.Writable :=
  ⟨h.1, fun hn => hrow (h.mem hn)⟩

theorem Writable.spelling_text (h : e.Writable) : e.Spelling e.text :=
  ⟨h.trimmed, ['\t'], Numeral.decimal e.address.val, by simp, by decide,
    Numeral.unsigned_decimal _, [], [], rfl, rfl, by simp [text]⟩

theorem Writable.isLine_text (h : e.Writable) : Text.IsLine e.text := by
  have hne := Numeral.decimal_ne_nil e.address.val
  constructor
  · simp [text, h.oneLine, Numeral.not_mem_decimal (c := '\n') (by decide)]
  · obtain ⟨d, hd⟩ := Option.isSome_iff_exists.1 (List.getLast?_isSome.2 hne)
    have hlast : e.text.getLast? = some d := by
      rw [text, List.getLast?_append_cons, List.getLast?_cons, hd]
      rfl
    rw [hlast]
    rintro ⟨⟩
    exact Numeral.not_mem_decimal (by decide) _ (List.mem_of_getLast? hd)

theorem Writable.isAllBlank_text (h : e.Writable) : Text.isAllBlank e.text = false := by
  obtain ⟨c, hc, hb⟩ := h.trimmed.head
  exact Text.isAllBlank_of_mem (List.mem_append_left _ (List.mem_of_mem_head? hc)) hb

/-- An entry whose name is a word. -/
structure Named (e : FrozenEntry) : Prop where
  solid : Text.Solid e.name
  ne_nil : e.name ≠ []

theorem Named.writable (h : e.Named) : e.Writable := by
  have hfirst := h.solid _ (List.head_mem h.ne_nil)
  have hlast := h.solid _ (List.getLast_mem h.ne_nil)
  refine ⟨⟨⟨_, List.head?_eq_some_head h.ne_nil, hfirst⟩,
    ⟨_, List.getLast?_eq_some_getLast h.ne_nil, hlast⟩⟩, fun hn => ?_⟩
  exact absurd (h.solid _ hn) (by decide)

end FrozenEntry

namespace FrozenTable

/-- Rows that are the entries in order. Where names must be distinct, none comes twice or is among
those that have been seen. -/
structure Listed (distinct : Bool) (seen : List Text) (es : List FrozenEntry) (rows : List Text) :
    Prop where
  spelled : List.Forall₂ FrozenEntry.Spelling es rows
  fresh : distinct = true → (es.map (·.name)).Nodup ∧ ∀ e ∈ es, e.name ∉ seen

/-- A row that is no entry, or whose name has been seen where names must be distinct. -/
inductive Refused (distinct : Bool) (seen : List Text) (row : Text) : Corruption → Prop
  | bad (h : ∀ e : FrozenEntry, ¬ e.Spelling row) :
    Refused distinct seen row (.dumpEntry (Text.trim row))
  | repeated {e : FrozenEntry} (hd : distinct = true) (h : e.Spelling row) (hseen : e.name ∈ seen) :
    Refused distinct seen row (.repeatedSymbol e.name)

variable {distinct : Bool} {seen : List Text} {es : List FrozenEntry} {e : FrozenEntry}
  {row : Text} {rows ls : List Text} {c : Corruption}

theorem listed_cons_iff : Listed distinct seen es (row :: rows) ↔
    ∃ e later, es = e :: later ∧ e.Spelling row ∧ (distinct = true → e.name ∉ seen) ∧
      Listed distinct (e.name :: seen) later rows := by
  constructor
  · rintro ⟨hspelled, hfresh⟩
    obtain ⟨e, later, hrow, hrows, rfl⟩ := List.forall₂_cons_right_iff.1 hspelled
    refine ⟨e, later, rfl, hrow, fun hd => (hfresh hd).2 e (by simp), hrows, fun hd => ?_⟩
    obtain ⟨hnodup, hseen⟩ := hfresh hd
    obtain ⟨hne, hnodup⟩ := List.nodup_cons.1 hnodup
    refine ⟨hnodup, fun k hk hmem => ?_⟩
    rcases List.mem_cons.1 hmem with hname | hmem
    · exact hne (List.mem_map.2 ⟨k, hk, hname⟩)
    · exact hseen k (by simp [hk]) hmem
  · rintro ⟨e, later, rfl, hrow, he, hrows, hfresh⟩
    refine ⟨.cons hrow hrows, fun hd => ?_⟩
    obtain ⟨hnodup, hseen⟩ := hfresh hd
    refine ⟨List.nodup_cons.2 ⟨fun hmem => ?_, hnodup⟩, fun k hk => ?_⟩
    · obtain ⟨k, hk, hname⟩ := List.mem_map.1 hmem
      exact hseen k hk (by simp [hname])
    · rcases List.mem_cons.1 hk with rfl | hk
      · exact he hd
      · exact fun hmem => hseen k hk (List.mem_cons_of_mem _ hmem)

theorem Refused.perm {other : List Text} (h : Refused distinct seen row c)
    (hp : seen.Perm other) : Refused distinct other row c := by
  cases h with
  | bad h => exact .bad h
  | repeated hd h hseen => exact .repeated hd h (hp.mem_iff.1 hseen)

theorem Refused.not_fresh (h : Refused distinct seen row c) (he : e.Spelling row) :
    ¬ (distinct = true → e.name ∉ seen) := by
  cases h with
  | bad h => exact absurd he (h e)
  | repeated hd hk hseen => exact fun hfresh => hfresh hd (he.unique hk ▸ hseen)

theorem Refused.unique {d : Corruption} (hc : Refused distinct seen row c)
    (hd : Refused distinct seen row d) : c = d := by
  cases hc with
  | bad h =>
    cases hd with
    | bad => rfl
    | repeated _ he => exact absurd he (h _)
  | repeated _ he =>
    cases hd with
    | bad h => exact absurd he (h _)
    | repeated _ hf => rw [he.unique hf]

theorem refused_or_spelled (distinct : Bool) (seen : List Text) (row : Text) :
    (∃ c, Refused distinct seen row c) ∨
      ∃ e : FrozenEntry, e.Spelling row ∧ (distinct = true → e.name ∉ seen) := by
  by_cases h : ∃ e : FrozenEntry, e.Spelling row
  · obtain ⟨e, he⟩ := h
    by_cases hfresh : distinct = true → e.name ∉ seen
    · exact .inr ⟨e, he, hfresh⟩
    · push Not at hfresh
      exact .inl ⟨_, .repeated hfresh.1 he hfresh.2⟩
  · exact .inl ⟨_, .bad fun e he => h ⟨e, he⟩⟩

/-- The first row that is refused, behind rows that are entries. -/
def FirstRefused (distinct : Bool) (seen rows : List Text) (c : Corruption) : Prop :=
  ∃ before row after es, rows = before ++ row :: after ∧ Listed distinct seen es before ∧
    Refused distinct (es.map (·.name) ++ seen) row c

theorem firstRefused_cons_iff : FirstRefused distinct seen (row :: rows) c ↔
    Refused distinct seen row c ∨ ∃ e : FrozenEntry, e.Spelling row ∧
      (distinct = true → e.name ∉ seen) ∧ FirstRefused distinct (e.name :: seen) rows c := by
  constructor
  · rintro ⟨before, k, after, es, hrows, hlisted, hrefused⟩
    cases before with
    | nil =>
      obtain ⟨rfl, rfl⟩ := List.cons.inj hrows
      obtain rfl := List.forall₂_nil_right_iff.1 hlisted.spelled
      exact .inl hrefused
    | cons first before =>
      obtain ⟨rfl, rfl⟩ := List.cons.inj hrows
      obtain ⟨e, es, rfl, he, hfresh, hlisted⟩ := listed_cons_iff.1 hlisted
      exact .inr ⟨e, he, hfresh, before, k, after, es, rfl, hlisted,
        hrefused.perm List.perm_middle.symm⟩
  · rintro (hrefused | ⟨e, he, hfresh, before, k, after, es, rfl, hlisted, hrefused⟩)
    · exact ⟨[], row, rows, [], rfl, ⟨.nil, by simp⟩, hrefused⟩
    · exact ⟨row :: before, k, after, e :: es, rfl,
        listed_cons_iff.2 ⟨e, es, rfl, he, hfresh, hlisted⟩, hrefused.perm List.perm_middle⟩

theorem readLines_of_refused (hrow : Text.isAllBlank row = false)
    (h : Refused distinct seen row c) : readLines distinct seen (row :: ls) = .error c := by
  rw [readLines, hrow]
  cases h with
  | bad h =>
    have hread : readEntry? (Text.trim row) = none :=
      Option.eq_none_iff_forall_ne_some.2 fun e he => h e (FrozenEntry.spelling_of_read he)
    simp only [Bool.false_eq_true, if_false, hread]
  | repeated hd he hseen =>
    simp [he.read, hd, hseen]

theorem readLines_of_spelled (hrow : Text.isAllBlank row = false) (he : e.Spelling row)
    (hfresh : distinct = true → e.name ∉ seen) : readLines distinct seen (row :: ls) =
      (readLines distinct (e.name :: seen) ls).map (e :: ·) := by
  have hseen : (distinct && seen.contains e.name) = false := by simpa using hfresh
  simp only [readLines, hrow, he.read, hseen, Bool.false_eq_true, if_false]

theorem readLines_eq_ok_iff : readLines distinct seen ls = .ok es ↔
    Listed distinct seen es (ls.filter fun line => !Text.isAllBlank line) := by
  induction ls generalizing seen es with
  | nil =>
    constructor
    · rintro ⟨⟩
      exact ⟨.nil, by simp⟩
    · intro h
      rw [List.forall₂_nil_right_iff.1 h.spelled]
      rfl
  | cons row ls ih =>
    by_cases hblank : Text.isAllBlank row = true
    · rw [readLines, if_pos hblank, ih, List.filter_cons_of_neg (by simp [hblank])]
    · rw [List.filter_cons_of_pos (by simpa using hblank), listed_cons_iff]
      have hrow : Text.isAllBlank row = false := by simpa using hblank
      obtain ⟨c, hc⟩ | ⟨e, he, hfresh⟩ := refused_or_spelled distinct seen row
      · rw [readLines_of_refused hrow hc]
        refine ⟨nofun, ?_⟩
        rintro ⟨e, -, -, he, hfresh, -⟩
        exact absurd hfresh (hc.not_fresh he)
      · rw [readLines_of_spelled hrow he hfresh, map_eq_ok_iff]
        constructor
        · rintro ⟨later, hlater, rfl⟩
          exact ⟨e, later, rfl, he, hfresh, ih.1 hlater⟩
        · rintro ⟨f, later, rfl, hf, -, hlater⟩
          obtain rfl := hf.unique he
          exact ⟨later, ih.2 hlater, rfl⟩

theorem readLines_eq_error_iff : readLines distinct seen ls = .error c ↔
    FirstRefused distinct seen (ls.filter fun line => !Text.isAllBlank line) c := by
  induction ls generalizing seen with
  | nil =>
    refine ⟨nofun, ?_⟩
    rintro ⟨before, row, after, -, hrows, -⟩
    simp at hrows
  | cons row ls ih =>
    by_cases hblank : Text.isAllBlank row = true
    · rw [readLines, if_pos hblank, ih, List.filter_cons_of_neg (by simp [hblank])]
    · rw [List.filter_cons_of_pos (by simpa using hblank), firstRefused_cons_iff]
      have hrow : Text.isAllBlank row = false := by simpa using hblank
      obtain ⟨d, hd⟩ | ⟨e, he, hfresh⟩ := refused_or_spelled distinct seen row
      · rw [readLines_of_refused hrow hd]
        constructor
        · rintro ⟨⟩
          exact .inl hd
        · rintro (hc | ⟨e, he, hfresh, -⟩)
          · rw [hd.unique hc]
          · exact absurd hfresh (hd.not_fresh he)
      · rw [readLines_of_spelled hrow he hfresh, map_eq_error_iff, ih]
        constructor
        · exact fun h => .inr ⟨e, he, hfresh, h⟩
        · rintro (hc | ⟨f, hf, -, h⟩)
          · exact absurd hfresh (hc.not_fresh he)
          · rwa [hf.unique he] at h

section Rows

variable {k : Nat}

theorem exists_entry_of_spelled (h : List.Forall₂ FrozenEntry.Spelling es rows)
    (hrow : rows[k]? = some row) : ∃ e, es[k]? = some e ∧ e.Spelling row := by
  obtain ⟨hk, rfl⟩ := List.getElem?_eq_some_iff.1 hrow
  have hke : k < es.length := h.length_eq ▸ hk
  exact ⟨es[k], List.getElem?_eq_getElem hke, h.get hke hk⟩

theorem exists_row_of_spelled (h : List.Forall₂ FrozenEntry.Spelling es rows)
    (he : es[k]? = some e) : ∃ row, rows[k]? = some row ∧ e.Spelling row := by
  obtain ⟨hk, rfl⟩ := List.getElem?_eq_some_iff.1 he
  have hkr : k < rows.length := h.length_eq ▸ hk
  exact ⟨rows[k], List.getElem?_eq_getElem hkr, h.get hk hkr⟩

theorem exists_spelled (h : ∀ row ∈ rows, ∃ e : FrozenEntry, e.Spelling row) :
    ∃ es, List.Forall₂ FrozenEntry.Spelling es rows := by
  induction rows with
  | nil => exact ⟨[], .nil⟩
  | cons row rows ih =>
    obtain ⟨e, he⟩ := h row (by simp)
    obtain ⟨es, hes⟩ := ih fun row hrow => h row (by simp [hrow])
    exact ⟨e :: es, .cons he hes⟩

/-- Rows of which no two spell entries of one name. -/
def DistinctRows (rows : List Text) : Prop :=
  rows.Pairwise fun k l => ∀ e f : FrozenEntry, e.Spelling k → f.Spelling l → e.name ≠ f.name

theorem nodup_iff_distinctRows (h : List.Forall₂ FrozenEntry.Spelling es rows) :
    (es.map (·.name)).Nodup ↔ DistinctRows rows := by
  induction h with
  | nil => simp [DistinctRows]
  | @cons e row es rows he hes ih =>
    have hfirst : e.name ∉ es.map (·.name) ↔ ∀ l ∈ rows, ∀ d f : FrozenEntry,
        d.Spelling row → f.Spelling l → d.name ≠ f.name := by
      constructor
      · intro hnot l hl d f hd hf hname
        obtain ⟨k, hk⟩ := List.mem_iff_getElem?.1 hl
        obtain ⟨g, hg, hspelled⟩ := exists_entry_of_spelled hes hk
        obtain rfl := hspelled.unique hf
        obtain rfl := hd.unique he
        exact hnot (List.mem_map.2 ⟨g, List.mem_of_getElem? hg, hname.symm⟩)
      · intro hall hmem
        obtain ⟨f, hf, hname⟩ := List.mem_map.1 hmem
        obtain ⟨k, hk⟩ := List.mem_iff_getElem?.1 hf
        obtain ⟨l, hl, hspelled⟩ := exists_row_of_spelled hes hk
        exact hall l (List.mem_of_getElem? hl) e f he hspelled hname.symm
    rw [List.map_cons, List.nodup_cons, hfirst, ih, DistinctRows, DistinctRows,
      List.pairwise_cons]

theorem exists_listed_iff : (∃ es, Listed distinct [] es rows) ↔
    (∀ row ∈ rows, ∃ e : FrozenEntry, e.Spelling row) ∧
      (distinct = true → DistinctRows rows) := by
  constructor
  · rintro ⟨es, hspelled, hfresh⟩
    refine ⟨fun row hrow => ?_, fun hd => (nodup_iff_distinctRows hspelled).1 (hfresh hd).1⟩
    obtain ⟨k, hk⟩ := List.mem_iff_getElem?.1 hrow
    obtain ⟨e, -, he⟩ := exists_entry_of_spelled hspelled hk
    exact ⟨e, he⟩
  · rintro ⟨hrows, hdistinct⟩
    obtain ⟨es, hes⟩ := exists_spelled hrows
    exact ⟨es, hes, fun hd => ⟨(nodup_iff_distinctRows hes).2 (hdistinct hd), by simp⟩⟩

end Rows

section Dumps

variable {table : FrozenTable} {dump : Text} {fault : Fault}

theorem readDump_eq_ok_iff : readDump distinct dump = .ok table ↔
    Listed distinct [] table.entries (Record.filledLines dump) := by
  obtain ⟨es⟩ := table
  rw [Record.filledLines, ← readLines_eq_ok_iff, readDump]
  cases readLines distinct [] (Text.lines dump) <;> simp

theorem readDump_eq_error_iff : readDump distinct dump = .error fault ↔
    ∃ c, fault = .corrupt c ∧ FirstRefused distinct [] (Record.filledLines dump) c := by
  simp only [Record.filledLines, ← readLines_eq_error_iff, readDump]
  cases readLines distinct [] (Text.lines dump) <;> simp [eq_comm]

theorem exists_readDump_iff : (∃ table, readDump distinct dump = .ok table) ↔
    (∀ row ∈ Record.filledLines dump, ∃ e : FrozenEntry, e.Spelling row) ∧
      (distinct = true → DistinctRows (Record.filledLines dump)) := by
  rw [← exists_listed_iff]
  constructor
  · rintro ⟨table, h⟩
    exact ⟨table.entries, readDump_eq_ok_iff.1 h⟩
  · rintro ⟨es, h⟩
    exact ⟨⟨es⟩, readDump_eq_ok_iff.2 h⟩

theorem filledLines_dump (h : ∀ e ∈ table.entries, e.Writable) :
    Record.filledLines table.dump = table.entries.map FrozenEntry.text := by
  rw [Record.filledLines, dump, Text.lines_unlines_map fun e he => (h e he).isLine_text,
    List.filter_eq_self]
  intro l hl
  obtain ⟨e, he, rfl⟩ := List.mem_map.1 hl
  simp [(h e he).isAllBlank_text]

theorem readDump_dump_of_writable (h : ∀ e ∈ table.entries, e.Writable)
    (hd : distinct = true → (table.entries.map (·.name)).Nodup) :
    readDump distinct table.dump = .ok table := by
  rw [readDump_eq_ok_iff, filledLines_dump h]
  refine ⟨?_, fun hdistinct => ⟨hd hdistinct, by simp⟩⟩
  rw [List.forall₂_map_right_iff, List.forall₂_same]
  exact fun e he => (h e he).spelling_text

theorem readDump_dump (h : ∀ e ∈ table.entries, e.Named)
    (hd : distinct = true → (table.entries.map (·.name)).Nodup) :
    readDump distinct table.dump = .ok table :=
  readDump_dump_of_writable (fun e he => (h e he).writable) hd

/-- What is read from a dump is written as a dump that gives it back. -/
theorem readDump_dump_of_readDump (h : readDump distinct dump = .ok table) :
    readDump distinct table.dump = .ok table := by
  obtain ⟨hspelled, hfresh⟩ := readDump_eq_ok_iff.1 h
  refine readDump_dump_of_writable (fun e he => ?_) fun hd => (hfresh hd).1
  obtain ⟨k, hk⟩ := List.mem_iff_getElem?.1 he
  obtain ⟨row, hrow, hspelling⟩ := exists_row_of_spelled hspelled hk
  have hmem := (List.mem_filter.1 (List.mem_of_getElem? hrow)).1
  exact hspelling.writable (Text.not_mem_of_mem_lines hmem)

/-- A table that has an entry for each of some rows, at the place of the row, and no other. -/
structure Lists (table : FrozenTable) (rows : List Text) : Prop where
  size : table.size = rows.length
  entry : ∀ k row, rows[k]? = some row → ∃ e, table.entries[k]? = some e ∧ e.Spelling row ∧
    table.address? ⟨k⟩ = some e.address
  beyond : ∀ k, rows.length ≤ k → table.address? ⟨k⟩ = none

theorem Listed.lists (h : Listed distinct seen table.entries rows) : table.Lists rows := by
  have hlength : table.size = rows.length := h.spelled.length_eq
  refine ⟨hlength, fun k row hrow => ?_, fun k hk => ?_⟩
  · obtain ⟨e, he, hspelling⟩ := exists_entry_of_spelled h.spelled hrow
    exact ⟨e, he, hspelling, by rw [address?, he]; rfl⟩
  · rw [address?, List.getElem?_eq_none (by rwa [← size, hlength])]
    rfl

theorem Listed.get?_eq_some_iff (h : Listed true seen table.entries rows) {name : Text}
    {a : Address} : table.get? name = some a ↔
      ∃ k row, rows[k]? = some row ∧ FrozenEntry.Spelling ⟨name, a⟩ row ∧
        table.address? ⟨k⟩ = some a := by
  constructor
  · intro hget
    obtain ⟨e, he, rfl⟩ := Option.map_eq_some_iff.1 hget
    obtain rfl : e.name = name := by simpa using List.find?_some he
    obtain ⟨k, hk⟩ := List.mem_iff_getElem?.1 (List.mem_of_find?_eq_some he)
    obtain ⟨row, hrow, hspelling⟩ := exists_row_of_spelled h.spelled hk
    exact ⟨k, row, hrow, hspelling, by rw [address?, hk]; rfl⟩
  · rintro ⟨k, row, hrow, hspelling, -⟩
    obtain ⟨e, he, hspelled⟩ := exists_entry_of_spelled h.spelled hrow
    obtain rfl := hspelled.unique hspelling
    rw [get?, find?_of_getElem? (h.fresh rfl).1 he]
    rfl

end Dumps

/-- A dump is read exactly when its rows are entries, in a table of symbols of distinct names, and
the table has them at the places of their rows and is written as a dump that gives it back. A dump
that is not read is answered by the first row that is in the way. -/
theorem readDump_rows (dump : Text) :
    ((∃ table, readSymbols dump = .ok table) ↔
        (∀ row ∈ Record.filledLines dump, ∃ e : FrozenEntry, e.Spelling row) ∧
          DistinctRows (Record.filledLines dump)) ∧
      ((∃ table, readLiterals dump = .ok table) ↔
        ∀ row ∈ Record.filledLines dump, ∃ e : FrozenEntry, e.Spelling row) ∧
      (∀ table, readSymbols dump = .ok table →
        table.Lists (Record.filledLines dump) ∧
          (∀ name a, table.get? name = some a ↔
            ∃ k row, (Record.filledLines dump)[k]? = some row ∧
              FrozenEntry.Spelling ⟨name, a⟩ row ∧ table.address? ⟨k⟩ = some a) ∧
          readSymbols table.dump = .ok table) ∧
      (∀ table, readLiterals dump = .ok table →
        table.Lists (Record.filledLines dump) ∧ readLiterals table.dump = .ok table) ∧
      (∀ fault, readSymbols dump = .error fault ↔
        ∃ c, fault = .corrupt c ∧ FirstRefused true [] (Record.filledLines dump) c) ∧
      ∀ fault, readLiterals dump = .error fault ↔
        ∃ c, fault = .corrupt c ∧ FirstRefused false [] (Record.filledLines dump) c := by
  refine ⟨?_, ?_, fun table h => ?_, fun table h => ?_, fun _ => readDump_eq_error_iff,
    fun _ => readDump_eq_error_iff⟩
  · exact exists_readDump_iff.trans (by simp)
  · exact exists_readDump_iff.trans (by simp)
  · have hlisted := readDump_eq_ok_iff.1 h
    exact ⟨hlisted.lists, fun _ _ => hlisted.get?_eq_some_iff, readDump_dump_of_readDump h⟩
  · exact ⟨(readDump_eq_ok_iff.1 h).lists, readDump_dump_of_readDump h⟩

/-- Rows whose names hold blanks, set apart from their addresses by blanks of all kinds. -/
def oddRows : Text :=
  "  A\tB\u2003+007 \r\n \t\n\r\nA B\u0085 65535\r\r\n=\x275\x27 0000".toList

theorem readDump_oddRows :
    ∃ table, readSymbols oddRows = .ok table ∧ readLiterals oddRows = .ok table ∧
      table.dump = "A\tB\t7\nA B\t65535\n=\x275\x27\t0\n".toList ∧
      table.Lists (Record.filledLines oddRows) ∧ readSymbols table.dump = .ok table ∧
      readLiterals table.dump = .ok table := by
  have hsymbols := (readDump_rows oddRows).2.2.1 _ rfl
  have hliterals := (readDump_rows oddRows).2.2.2.1 _ rfl
  exact ⟨_, rfl, rfl, rfl, hsymbols.1, hsymbols.2.2, hliterals.2⟩

end FrozenTable

end TwoPass
