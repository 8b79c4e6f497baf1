import Mathlib.Data.List.Nodup
import TwoPass.Command.Session

/-! Files that are written one after another. A written file moves no directory, so which paths
can be written is settled by the tree before the first write, and each file is found afterwards
with the contents that it was given. -/

namespace TwoPass.Command.FileTree

variable {tree : FileTree} {names start place way front : List Text} {path name : Text}

theorem find?_put_file (h : tree.find? names ≠ some .directory) (contents : Bytes)
    (way : List Text) : (tree.put names (.file contents)).find? way =
      if way = names then some (.file contents) else tree.find? way :=
  find?_put (fun hu => h (if_pos hu)) _ way

theorem find?_put_eq_directory (h : tree.find? names ≠ some .directory) (contents : Bytes)
    (way : List Text) : (tree.put names (.file contents)).find? way = some .directory ↔
      tree.find? way = some .directory := by
  rw [find?_put_file h]
  by_cases hw : way = names
  · subst hw
    simp [h]
  · rw [if_neg hw]

/-- A step to an entry of its own, neither to a directory itself nor out of it. -/
def IsStep (step : Text) : Prop :=
  step ≠ [] ∧ step ≠ ['.'] ∧ isUp step = false

instance (step : Text) : Decidable (IsStep step) :=
  inferInstanceAs (Decidable (_ ∧ _ ∧ _))

/-- The directory that steps lead to. -/
def directory? (tree : FileTree) (start steps : List Text) : Option (List Text) :=
  (tree.follow start steps).filter fun way => tree.find? way = some .directory

theorem directory?_nil : tree.directory? start [] =
    if tree.find? start = some .directory then some start else none := by
  simp [directory?, follow, Option.filter]

theorem directory?_cons (step : Text) (later : List Text) : tree.directory? start (step :: later) =
    if step = [] ∨ step = ['.'] then tree.directory? start later
    else if isUp step then tree.directory? start.dropLast later
    else if tree.find? (start ++ [step]) = some .directory then
      tree.directory? (start ++ [step]) later
    else none := by
  rw [directory?, follow]
  by_cases hs : step = [] ∨ step = ['.']
  · rw [if_pos hs, if_pos hs, directory?]
  · rw [if_neg hs, if_neg hs]
    by_cases hu : isUp step = true
    · rw [if_pos hu, if_pos hu, directory?]
    · rw [if_neg hu, if_neg hu]
      cases he : tree.find? (start ++ [step]) with
      | none => simp
      | some e =>
        cases e with
        | directory => simp [directory?]
        -- a way may end at a file, which is no directory
        | file contents => cases later <;> simp [he]

theorem directory?_put (h : tree.find? names ≠ some .directory) (contents : Bytes)
    (start steps : List Text) :
    (tree.put names (.file contents)).directory? start steps = tree.directory? start steps := by
  induction steps generalizing start with
  | nil => simp only [directory?_nil, find?_put_eq_directory h]
  | cons step later ih => simp only [directory?_cons, find?_put_eq_directory h, ih]

theorem follow_append {steps later : List Text} (h : tree.directory? start steps = some way) :
    tree.follow start (steps ++ later) = tree.follow way later := by
  induction steps generalizing start with
  | nil =>
    rw [directory?_nil] at h
    split at h
    · rw [Option.some.inj h, List.nil_append]
    · cases h
  | cons step steps ih =>
    rw [directory?_cons] at h
    rw [List.cons_append, follow]
    by_cases hs : step = [] ∨ step = ['.']
    · rw [if_pos hs] at h ⊢
      exact ih h
    · rw [if_neg hs] at h ⊢
      by_cases hu : isUp step = true
      · rw [if_pos hu] at h ⊢
        exact ih h
      · rw [if_neg hu] at h ⊢
        split at h
        · next hd =>
          rw [hd]
          exact ih h
        · cases h

/-- A path to a name leads to it from the directory that holds it. -/
theorem look?_of_directory? (hp : tree.route? path = some (start, front ++ [name]))
    (hn : IsStep name) (hd : tree.directory? start front = some place) :
    tree.look? path = tree.find? (place ++ [name]) := by
  have hs : ¬ (name = [] ∨ name = ['.']) := by simp [hn.1, hn.2.1]
  rw [look?, hp, Option.bind_some]
  dsimp only
  rw [follow_append hd, follow, if_neg hs, if_neg (by simp [hn.2.2])]
  cases he : tree.find? (place ++ [name]) with
  | none => rfl
  | some e => cases e <;> simp [follow, he]

theorem target?_eq (tree : FileTree) (path : Text) : tree.target? path =
    (tree.route? path).bind fun (start, steps) => steps.getLast?.bind fun name =>
      if IsStep name then (tree.directory? start steps.dropLast).bind fun place =>
        if tree.find? (place ++ [name]) = some .directory then none else some (place ++ [name])
      else none := by
  rw [target?]
  congr 1
  funext (start, steps)
  dsimp only
  cases steps.getLast? with
  | none => rfl
  | some name =>
    rw [Option.bind_some, directory?]
    cases tree.follow start steps.dropLast with
    | none => simp
    | some place =>
      have hn : (name = [] ∨ name = ['.'] ∨ isUp name = true) ↔ ¬ IsStep name := by
        simp only [IsStep, ← not_or, ← Bool.not_eq_true, not_not, ne_eq]
      rw [Option.filter_some]
      by_cases hs : IsStep name
      · by_cases hd : tree.find? place = some .directory <;> simp [hn, hs, hd]
      · simp [hn, hs]

theorem target?_of_isStep (hp : tree.route? path = some (start, front ++ [name]))
    (hn : IsStep name) : tree.target? path = (tree.directory? start front).bind fun place =>
      if tree.find? (place ++ [name]) = some .directory then none else some (place ++ [name]) := by
  simp [target?_eq, hp, hn]

/-- A path that can be written leads to a name in a directory. -/
theorem exists_step_of_target? (h : tree.target? path = some way) :
    ∃ start front name place, tree.route? path = some (start, front ++ [name]) ∧ IsStep name ∧
      tree.directory? start front = some place ∧ way = place ++ [name] ∧
      tree.find? way ≠ some .directory := by
  rw [target?_eq] at h
  obtain ⟨⟨start, steps⟩, hp, h⟩ := Option.bind_eq_some_iff.1 h
  obtain ⟨name, hl, h⟩ := Option.bind_eq_some_iff.1 h
  obtain ⟨hn, h⟩ := Option.ite_none_right_eq_some.1 h
  obtain ⟨place, hd, h⟩ := Option.bind_eq_some_iff.1 h
  obtain ⟨hf, h⟩ := Option.ite_none_left_eq_some.1 h
  obtain rfl := Option.some.inj h
  refine ⟨start, steps.dropLast, name, place, ?_, hn, hd, rfl, hf⟩
  rw [hp, List.dropLast_append_getLast? name (by simpa using hl)]

theorem find?_of_target? (h : tree.target? path = some way) :
    tree.find? way ≠ some .directory := by
  obtain ⟨_, _, _, _, _, _, _, _, hf⟩ := exists_step_of_target? h
  exact hf

theorem look?_of_target? (h : tree.target? path = some way) :
    tree.look? path = tree.find? way := by
  obtain ⟨_, _, _, _, hp, hn, hd, rfl, _⟩ := exists_step_of_target? h
  exact look?_of_directory? hp hn hd

/-- A written file changes nothing about what can be written. -/
theorem target?_put (h : tree.find? names ≠ some .directory) (contents : Bytes)
    (path : Text) : (tree.put names (.file contents)).target? path = tree.target? path := by
  have hroute : (tree.put names (.file contents)).route? path = tree.route? path := rfl
  simp only [target?_eq, hroute, directory?_put h, find?_put_eq_directory h]

/-- Writes files one after another, up to the first that cannot be written. -/
def writeAll (tree : FileTree) : List (Text × Text) → Except Fault Unit × FileTree
  | [] => (.ok (), tree)
  | (path, contents) :: later =>
    match tree.write? path contents.bytes with
    | some written => written.writeAll later
    | none => (.error (.unwritable path), tree)

theorem writeAll_cons_of_some {contents : Text} (later : List (Text × Text))
    (h : tree.target? path = some way) : tree.writeAll ((path, contents) :: later) =
      (tree.put way (.file contents.bytes)).writeAll later := by
  simp [writeAll, write?, h]

theorem writeAll_cons_of_none {contents : Text} (later : List (Text × Text))
    (h : tree.target? path = none) : tree.writeAll ((path, contents) :: later) =
      (.error (.unwritable path), tree) := by
  simp [writeAll, write?, h]

/-- The files are all written exactly when each of them can be. -/
theorem writeAll_eq_ok_iff {files : List (Text × Text)} :
    (tree.writeAll files).1 = .ok () ↔ ∀ f ∈ files, (tree.target? f.1).isSome = true := by
  induction files generalizing tree with
  | nil => simp [writeAll]
  | cons f later ih =>
    obtain ⟨path, contents⟩ := f
    cases ht : tree.target? path with
    | none => simp [writeAll_cons_of_none later ht, ht]
    | some way =>
      have hput := target?_put (find?_of_target? ht) contents.bytes
      simp [writeAll_cons_of_some later ht, ih, hput, ht]

theorem look?_writeAll_of_forall_ne {files : List (Text × Text)}
    (hp : tree.target? path = some way) (hne : ∀ f ∈ files, tree.target? f.1 ≠ some way) :
    (tree.writeAll files).2.look? path = tree.look? path := by
  induction files generalizing tree with
  | nil => rfl
  | cons f later ih =>
    obtain ⟨q, contents⟩ := f
    cases ht : tree.target? q with
    | none => rw [writeAll_cons_of_none later ht]
    | some names =>
      have hd := find?_of_target? ht
      have hput := target?_put hd contents.bytes
      have hw : way ≠ names := fun he => hne _ List.mem_cons_self (ht.trans (by rw [he]))
      have hlater : ∀ f ∈ later,
          (tree.put names (.file contents.bytes)).target? f.1 ≠ some way := by
        intro f hf
        rw [hput]
        exact hne f (List.mem_cons_of_mem _ hf)
      rw [writeAll_cons_of_some later ht, ih ((hput path).trans hp) hlater,
        look?_of_target? ((hput path).trans hp), look?_of_target? hp, find?_put_file hd, if_neg hw]

/-- Files at places of their own are found as they were written. -/
theorem look?_writeAll {files : List (Text × Text)} (hok : (tree.writeAll files).1 = .ok ())
    (hd : files.Pairwise fun f g => tree.target? f.1 ≠ tree.target? g.1) :
    ∀ f ∈ files, (tree.writeAll files).2.look? f.1 = some (.file f.2.bytes) := by
  induction files generalizing tree with
  | nil => simp
  | cons f later ih =>
    obtain ⟨path, contents⟩ := f
    obtain ⟨hhead, hlater⟩ := List.pairwise_cons.1 hd
    cases ht : tree.target? path with
    | none => simp [writeAll_cons_of_none later ht] at hok
    | some way =>
      have hf := find?_of_target? ht
      have hput := target?_put hf contents.bytes
      rw [writeAll_cons_of_some later ht] at hok ⊢
      have hne : ∀ g ∈ later, (tree.put way (.file contents.bytes)).target? g.1 ≠ some way := by
        intro g hg
        rw [hput, ← ht]
        exact (hhead g hg).symm
      intro g hg
      obtain rfl | hg := List.mem_cons.1 hg
      -- what is written first stays, since the rest goes elsewhere
      · have hp := (hput path).trans ht
        rw [look?_writeAll_of_forall_ne hp hne, look?_of_target? hp, find?_put_file hf, if_pos rfl]
      · exact ih hok (by simpa only [hput] using hlater) g hg

section InDirectory

open TwoPass.Command.Action (inDirectory)

variable {directory other : Text}

/-- The name of a file, which is one step of the paths that end with it. -/
def IsName (name : Text) : Prop :=
  IsStep name ∧ '/' ∉ name

instance (name : Text) : Decidable (IsName name) :=
  inferInstanceAs (Decidable (_ ∧ _))

theorem splitOn_of_not_mem (hs : '/' ∉ name) : name.splitOn '/' = [name] := by
  refine List.splitOnP_eq_singleton fun c hc => ?_
  have hne : c ≠ '/' := fun he => hs (he ▸ hc)
  simpa using hne

theorem splitOn_append (t : Text) (hs : '/' ∉ name) :
    (t ++ '/' :: name).splitOn '/' = t.splitOn '/' ++ [name] := by
  rw [List.splitOn, List.splitOnP_append_cons t name (by simp)]
  exact congrArg _ (splitOn_of_not_mem hs)

theorem route?_append (tree : FileTree) (t : Text) (hs : '/' ∉ name) :
    tree.route? (t ++ '/' :: name) =
      some (if (t ++ ['/']).head? = some '/' then [] else tree.here, t.splitOn '/' ++ [name]) := by
  have hhead : (t ++ '/' :: name).head? = (t ++ ['/']).head? := by simp
  rw [route?, if_neg (by simp), splitOn_append t hs, hhead]

/-- The names in one directory are all reached from one place by the same steps. -/
theorem exists_route?_inDirectory (tree : FileTree) (directory : Text) : ∃ start front,
    ∀ name, IsName name →
      tree.route? (inDirectory directory name) = some (start, front ++ [name]) := by
  -- a slash is put in between unless the directory ends in one or is empty
  obtain rfl | ⟨t, c, rfl⟩ := List.eq_nil_or_concat' directory
  · refine ⟨tree.here, [], fun name hn => ?_⟩
    have hhead : name.head? ≠ some '/' := fun he => hn.2 (List.mem_of_mem_head? he)
    simp [inDirectory, route?, hn.1.1, hhead, splitOn_of_not_mem hn.2]
  · by_cases hc : c = '/'
    · subst hc
      have hpath (name : Text) : inDirectory (t ++ ['/']) name = t ++ '/' :: name := by
        simp [inDirectory]
      exact ⟨_, _, fun name hn => hpath name ▸ route?_append tree t hn.2⟩
    · have hpath (name : Text) : inDirectory (t ++ [c]) name = t ++ [c] ++ '/' :: name := by
        simp [inDirectory, hc]
      exact ⟨_, _, fun name hn => hpath name ▸ route?_append tree (t ++ [c]) hn.2⟩

theorem getLast?_of_target?_inDirectory (hn : IsName name)
    (h : tree.target? (inDirectory directory name) = some way) : way.getLast? = some name := by
  obtain ⟨start, front, hfront⟩ := exists_route?_inDirectory tree directory
  obtain ⟨_, _, last, place, hp, -, -, rfl, -⟩ := exists_step_of_target? h
  rw [hfront name hn, Option.some.injEq, Prod.mk.injEq] at hp
  rw [List.getLast?_concat, (List.append_singleton_inj.1 hp.2).2]

/-- Where one name can be written, only a directory keeps another from being written. -/
theorem look?_inDirectory_of_target? (hn : IsName name) (ho : IsName other)
    (hw : tree.target? (inDirectory directory other) = some way)
    (h : tree.target? (inDirectory directory name) = none) :
    tree.look? (inDirectory directory name) = some .directory := by
  obtain ⟨start, front, hfront⟩ := exists_route?_inDirectory tree directory
  obtain ⟨_, _, _, place, hp, -, hd, -, -⟩ := exists_step_of_target? hw
  rw [hfront other ho, Option.some.injEq, Prod.mk.injEq] at hp
  obtain ⟨rfl, hsteps⟩ := hp
  obtain ⟨rfl, -⟩ := List.append_singleton_inj.1 hsteps
  have hname := hfront name hn
  rw [target?_of_isStep hname hn.1, hd, Option.bind_some] at h
  rw [look?_of_directory? hname hn.1 hd]
  by_contra hf
  rw [if_neg hf] at h
  cases h

theorem target?_inDirectory_ne (hn : IsName name) (ho : IsName other)
    (hw : (tree.target? (inDirectory directory name)).isSome = true)
    (hne : name ≠ other) :
    tree.target? (inDirectory directory name) ≠ tree.target? (inDirectory directory other) := by
  intro he
  obtain ⟨way, hway⟩ := Option.isSome_iff_exists.1 hw
  have hname := getLast?_of_target?_inDirectory hn hway
  have hother := getLast?_of_target?_inDirectory ho (he ▸ hway)
  exact hne (Option.some.inj (hname.symm.trans hother))

/-- Writes files into a directory, by their names in it. -/
def writeInto (tree : FileTree) (directory : Text) (files : List (Text × Text)) :
    Except Fault Unit × FileTree :=
  tree.writeAll (files.map fun f => (inDirectory directory f.1, f.2))

theorem writeInto_eq_ok_iff {files : List (Text × Text)} :
    (tree.writeInto directory files).1 = .ok () ↔
      ∀ f ∈ files, (tree.target? (inDirectory directory f.1)).isSome = true := by
  rw [writeInto, writeAll_eq_ok_iff, List.forall_mem_map]

theorem look?_writeInto {files : List (Text × Text)}
    (hn : ∀ f ∈ files, IsName f.1) (hd : (files.map (·.1)).Nodup)
    (hok : (tree.writeInto directory files).1 = .ok ()) :
    ∀ f ∈ files, (tree.writeInto directory files).2.look? (inDirectory directory f.1) =
      some (.file f.2.bytes) := by
  have hw := writeInto_eq_ok_iff.1 hok
  have hplaces : files.Pairwise fun f g => tree.target? (inDirectory directory f.1) ≠
      tree.target? (inDirectory directory g.1) := by
    refine (List.pairwise_map.1 hd).imp_of_mem fun {f g} hf hg hne => ?_
    exact target?_inDirectory_ne (hn f hf) (hn g hg) (hw f hf) hne
  intro f hf
  exact look?_writeAll hok (List.pairwise_map.2 hplaces) _ (List.mem_map_of_mem hf)

/-- Either the first file cannot be written and nothing is, or the name of a later one is that of a
directory. -/
theorem writeInto_of_fault {files : List (Text × Text)}
    (hn : ∀ f ∈ files, IsName f.1)
    (h : (tree.writeInto directory files).1 ≠ .ok ()) :
    (tree.writeInto directory files).2 = tree ∨
      ∃ first later, files = first :: later ∧
        (tree.target? (inDirectory directory first.1)).isSome = true ∧
        ∃ f ∈ later, tree.look? (inDirectory directory f.1) = some .directory := by
  cases files with
  | nil => exact absurd rfl h
  | cons first later =>
    cases hfirst : tree.target? (inDirectory directory first.1) with
    | none => exact .inl (congrArg Prod.snd (writeAll_cons_of_none _ hfirst))
    | some way =>
      rw [ne_eq, writeInto_eq_ok_iff] at h
      push Not at h
      obtain ⟨f, hf, hnot⟩ := h
      have hnone := Option.not_isSome_iff_eq_none.1 hnot
      obtain rfl | hlater := List.mem_cons.1 hf
      · rw [hfirst] at hnone
        cases hnone
      · have hother := hn first List.mem_cons_self
        have htaken := look?_inDirectory_of_target? (hn f hf) hother hfirst hnone
        exact .inr ⟨first, later, rfl, by rw [hfirst]; rfl, f, hlater, htaken⟩

end InDirectory

end TwoPass.Command.FileTree
