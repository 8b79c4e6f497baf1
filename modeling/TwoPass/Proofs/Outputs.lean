import TwoPass.Command.Libraries
import TwoPass.Proofs.FileWrites
import TwoPass.Proofs.FirstFault

/-! What a run of the command leaves in the directory that it is given. It settles all that it has
to write from the tree that it finds, and only then writes, one file after another. -/

namespace TwoPass.Command

variable {α β γ : Type} {lib : Libraries} {tree : FileTree} {a : Arguments}

/-- Goes on from an answer, unless it is a fault. -/
def proceed (r : Except Fault α) (left : FileTree) (next : α → Except Fault β × FileTree) :
    Except Fault β × FileTree :=
  match r with
  | .ok y => next y
  | .error f => (.error f, left)

theorem proceed_ok (y : α) (left : FileTree) (next : α → Except Fault β × FileTree) :
    proceed (.ok y) left next = next y :=
  rfl

theorem proceed_bind (r : Except Fault α) (g : α → Except Fault β) (left : FileTree)
    (next : β → Except Fault γ × FileTree) :
    proceed (r >>= g) left next = proceed r left fun y => proceed (g y) left next := by
  cases r <;> rfl

theorem proceed_answers (r : Except Fault α) (left : FileTree) (g : α → Except Fault β) :
    proceed r left (fun y => (g y, left)) = (r >>= g, left) := by
  cases r <;> rfl

namespace FileTree

theorem writeAll_cons_cons (tree : FileTree) (f g : Text × Text) (later : List (Text × Text)) :
    tree.writeAll (f :: g :: later) =
      let (r, left) := tree.writeAll [f]
      proceed r left fun _ => left.writeAll (g :: later) := by
  simp only [writeAll]
  cases tree.write? f.1 f.2.bytes <;> rfl

def text (tree : FileTree) (path : Text) : Except Fault Text :=
  Action.textAt path (Script.readIn tree path)

def settings (tree : FileTree) (lib : Libraries) (path : Text) : Except Fault Settings :=
  Action.settingsAt lib path (Script.readIn tree path)

/-- The frozen table that is written down at a path. Without a path it is empty. -/
def table (tree : FileTree) (path : Option Text) (reader : Text → Except Fault FrozenTable) :
    Except Fault FrozenTable :=
  match path with
  | none => .ok .empty
  | some path => tree.text path >>= reader

end FileTree

namespace Action

/-- The answer of an action on a file tree, and the tree that it leaves. -/
def outcome (tree : FileTree) (x : Action α) : Except Fault α × FileTree :=
  let r := Script.run tree x.run
  (r.value, r.tree)

theorem outcome_bind (tree : FileTree) (x : Action α) (next : α → Action β) :
    outcome tree (x >>= next) =
      let (r, left) := outcome tree x
      proceed r left fun y => outcome left (next y) := by
  -- the bind of the script, without the transformer around it
  have h : (x >>= next).run = x.run.bind fun
      | .ok y => (next y).run
      | .error f => .done (.error f) := by
    refine congrArg x.run.bind (funext fun r => ?_)
    cases r <;> rfl
  simp only [outcome, h, Script.run_bind]
  cases (Script.run tree x.run).value <;> rfl

theorem outcome_ofExcept (tree : FileTree) (r : Except Fault α) :
    outcome tree (ofExcept r) = (r, tree) :=
  rfl

theorem outcome_pure (tree : FileTree) (y : α) : outcome tree (pure y) = (.ok y, tree) :=
  rfl

theorem outcome_print (tree : FileTree) (t : Text) : outcome tree (print t) = (.ok (), tree) :=
  rfl

theorem outcome_printLine (tree : FileTree) (t : Text) :
    outcome tree (printLine t) = (.ok (), tree) :=
  rfl

theorem outcome_announce (tree : FileTree) (path : Text) :
    outcome tree (announce path) = (.ok (), tree) :=
  rfl

theorem outcome_read (tree : FileTree) (path : Text) :
    outcome tree (read path) = (tree.text path, tree) :=
  rfl

theorem outcome_readSettings (tree : FileTree) (lib : Libraries) (path : Text) :
    outcome tree (readSettings lib path) = (tree.settings lib path, tree) :=
  rfl

theorem outcome_write (tree : FileTree) (directory name contents : Text) :
    outcome tree (write directory name contents) =
      tree.writeAll [(inDirectory directory name, contents)] := by
  simp only [write, outcome_bind, outcome_printLine, proceed_ok]
  simp only [outcome, ExceptT.run_mk, Script.run, FileTree.writeAll]
  cases tree.write? (inDirectory directory name) contents.bytes <;> rfl

end Action

open TwoPass.Command.Action

theorem outcome_loadTable (tree : FileTree) (path : Option Text)
    (reader : Text → Except Fault FrozenTable) :
    outcome tree (loadTable path reader) = (tree.table path reader, tree) := by
  cases path with
  | none => rfl
  | some path =>
    simp only [loadTable, FileTree.table, outcome_bind, outcome_announce, outcome_read,
      outcome_ofExcept, proceed_answers, ok_bind]

theorem assemble_eq (setup : Setup) (source : Text) :
    Program.assemble setup source = Program.ofSource setup source >>= fun program =>
      program.objects >>= fun objects => .ok (program, objects) := by
  rw [Program.assemble]
  cases Program.ofSource setup source with
  | error f => rfl
  | ok program =>
    simp only [ok_bind]
    cases program.objects <;> rfl

namespace Arguments

def settingsIn (a : Arguments) (lib : Libraries) (tree : FileTree) : Except Fault Settings :=
  match a.settings with
  | none => .ok .standard
  | some path => tree.settings lib path

def mnemonicsIn (a : Arguments) (tree : FileTree) (own : MnemonicTable) :
    Except Fault MnemonicTable :=
  match a.mnemonics with
  | none => .ok own
  | some path => tree.text path >>= MnemonicTable.ofDefinitionText

def setupIn (a : Arguments) (lib : Libraries) (tree : FileTree) : Except Fault Setup := do
  let settings ← a.settingsIn lib tree
  let machine ← settings.machine
  let mnemonics ← a.mnemonicsIn tree machine.mnemonics
  pure ⟨⟨mnemonics, machine.registers⟩, ⟨settings.options.strictLabels || a.strict,
    settings.options.mergeLiterals || a.mergeLiterals⟩⟩

/-- The files of a run of both passes, by name. -/
def assembledIn (a : Arguments) (lib : Libraries) (tree : FileTree) (source : Text) :
    Except Fault (List (Text × Text)) := do
  let setup ← a.setupIn lib tree
  let (program, objects) ← Program.assemble setup source
  pure [(Output.stream, Record.streamText program.records),
    (Output.symbols, program.symbols.dump), (Output.literals, program.literals.dump),
    (Output.objects, listing program.records objects)]

/-- The file of a run of the second pass alone. -/
def resolvedIn (a : Arguments) (tree : FileTree) (source : Text) :
    Except Fault (List (Text × Text)) := do
  let records ← Record.readStream source
  let symbols ← tree.table a.symbols FrozenTable.readSymbols
  let literals ← tree.table a.literals FrozenTable.readLiterals
  let objects ← (Program.ofParts records symbols literals).objects
  pure [(Output.objects, listing records objects)]

/-- The files that a run is to write, or the fault that keeps it from having any. -/
def outputsIn (a : Arguments) (lib : Libraries) (tree : FileTree) :
    Except Fault (List (Text × Text)) := do
  let source ← tree.text a.source
  if a.secondPass then a.resolvedIn tree source else a.assembledIn lib tree source

end Arguments

theorem outcome_loadSetup (tree : FileTree) (lib : Libraries) (a : Arguments) :
    outcome tree (loadSetup lib a) = (a.setupIn lib tree, tree) := by
  unfold loadSetup Arguments.setupIn Arguments.settingsIn Arguments.mnemonicsIn
  -- nothing is written on the way, so every reading is of the tree that the run found
  cases a.settings <;> cases a.mnemonics <;>
    simp only [outcome_bind, outcome_pure, outcome_printLine, outcome_announce, outcome_read,
      outcome_readSettings, outcome_ofExcept, proceed_answers, ok_bind, bind_assoc, pure_eq_ok]

/-- Writes the files that a run gives into its directory, when it has one. -/
def FileTree.deliver (tree : FileTree) (directory : Option Text) (files : List (Text × Text)) :
    Except Fault Unit × FileTree :=
  match directory with
  | none => (.ok (), tree)
  | some directory => tree.writeInto directory files

theorem outcome_resolve (tree : FileTree) (lib : Libraries) (a : Arguments) (source : Text) :
    outcome tree (resolve lib a source) = proceed (a.resolvedIn tree source) tree fun files =>
      tree.deliver a.outputDirectory files := by
  unfold resolve Arguments.resolvedIn
  simp only [proceed_bind, outcome_bind, outcome_printLine, outcome_print, outcome_ofExcept,
    outcome_loadTable, proceed_ok, pure_eq_ok]
  cases a.outputDirectory with
  | none => rfl
  | some directory =>
    simp only [outcome_write, FileTree.deliver, FileTree.writeInto, List.map_cons, List.map_nil]

theorem outcome_assemble (tree : FileTree) (lib : Libraries) (a : Arguments) (source : Text) :
    outcome tree (assemble lib a source) =
      proceed (a.assembledIn lib tree source) tree fun files =>
        tree.deliver a.outputDirectory files := by
  unfold assemble Arguments.assembledIn
  simp only [proceed_bind, outcome_bind, outcome_printLine, outcome_print, outcome_ofExcept,
    outcome_loadSetup, outcome_announce, proceed_ok, pure_eq_ok, assemble_eq]
  cases a.outputDirectory <;> cases a.dump <;>
    simp only [Bool.false_eq_true, if_false, if_true, outcome_bind, outcome_printLine,
      outcome_print, outcome_pure, outcome_write, proceed_ok, FileTree.deliver,
      FileTree.writeInto, List.map_cons, List.map_nil, FileTree.writeAll_cons_cons]

/-- The names of the files that a run writes, in the order in which it writes them. -/
def Arguments.outputNames (a : Arguments) : List Text :=
  if a.secondPass then [Output.objects]
  else [Output.stream, Output.symbols, Output.literals, Output.objects]

theorem map_name_of_outputsIn {files : List (Text × Text)}
    (h : a.outputsIn lib tree = .ok files) : files.map (·.1) = a.outputNames := by
  obtain ⟨source, -, h⟩ := bind_eq_ok_iff.1 h
  rw [Arguments.outputNames]
  split at h
  · next hs =>
    obtain ⟨records, -, h⟩ := bind_eq_ok_iff.1 h
    obtain ⟨symbols, -, h⟩ := bind_eq_ok_iff.1 h
    obtain ⟨literals, -, h⟩ := bind_eq_ok_iff.1 h
    obtain ⟨objects, -, h⟩ := bind_eq_ok_iff.1 h
    obtain rfl := Except.ok.inj h
    rw [if_pos hs]
    rfl
  · next hs =>
    obtain ⟨setup, -, h⟩ := bind_eq_ok_iff.1 h
    obtain ⟨made, -, h⟩ := bind_eq_ok_iff.1 h
    obtain rfl := Except.ok.inj h
    rw [if_neg hs]
    rfl

/-- The first file of a run can be written, and a directory takes the name of a later one. -/
def Arguments.Interrupted (a : Arguments) (lib : Libraries) (tree : FileTree) : Prop :=
  ∃ first later directory, a.outputsIn lib tree = .ok (first :: later) ∧
    a.outputDirectory = some directory ∧
    (tree.target? (inDirectory directory first.1)).isSome = true ∧
    ∃ f ∈ later, tree.look? (inDirectory directory f.1) = some .directory

def exitCode : Except Fault Unit → Nat
  | .ok () => 0
  | .error _ => 1

theorem run_concluding (lib : Libraries) (tree : FileTree) (file : Text) (source : List Text)
    (x : Action Unit) :
    let r := (concluding lib file source x).run tree
    r.value = exitCode (outcome tree x).1 ∧ r.tree = (outcome tree x).2 := by
  simp only [concluding, Script.run_bind, outcome]
  cases (Script.run tree x.run).value <;> exact ⟨rfl, rfl⟩

/-- A run settles what it has to write before it writes anything. -/
theorem run_start {arguments : List Text} (h : lib.arguments arguments = .ok a)
    (tree : FileTree) :
    let r := (start lib arguments).run tree
    let w := proceed (a.outputsIn lib tree) tree fun files =>
      tree.deliver a.outputDirectory files
    r.value = exitCode w.1 ∧ r.tree = w.2 := by
  simp only [start, h, runWith, Script.run, Arguments.outputsIn, FileTree.text]
  cases Action.textAt a.source (Script.readIn tree a.source) with
  | error f => exact ⟨rfl, rfl⟩
  | ok source =>
    obtain ⟨hvalue, hleft⟩ := run_concluding lib tree a.source (Text.lines source)
      (if a.secondPass then resolve lib a source else assemble lib a source)
    refine ⟨hvalue.trans ?_, hleft.trans ?_⟩ <;>
      cases a.secondPass <;> simp [outcome_resolve, outcome_assemble, ok_bind]

theorem isName_of_mem_outputNames (a : Arguments) :
    ∀ name ∈ a.outputNames, FileTree.IsName name := by
  rw [Arguments.outputNames]
  split <;> decide

theorem outputNames_nodup (a : Arguments) : a.outputNames.Nodup := by
  rw [Arguments.outputNames]
  split <;> decide

theorem exitCode_eq_zero_iff {r : Except Fault Unit} : exitCode r = 0 ↔ r = .ok () := by
  cases r <;> simp [exitCode]

theorem exitCode_eq_one_iff {r : Except Fault Unit} : exitCode r = 1 ↔ r ≠ .ok () := by
  cases r <;> simp [exitCode]

section Files

variable {files : List (Text × Text)} (hfiles : a.outputsIn lib tree = .ok files)
include hfiles

theorem isName_of_outputsIn : ∀ f ∈ files, FileTree.IsName f.1 := by
  have hall := isName_of_mem_outputNames a
  rw [← map_name_of_outputsIn hfiles, List.forall_mem_map] at hall
  exact hall

theorem deliver_eq_ok_iff :
    (tree.deliver a.outputDirectory files).1 = .ok () ↔
      ¬ ∃ directory, a.outputDirectory = some directory ∧
        ∃ name ∈ a.outputNames, tree.target? (inDirectory directory name) = none := by
  cases a.outputDirectory with
  | none => simp [FileTree.deliver]
  | some directory =>
    rw [FileTree.deliver, FileTree.writeInto_eq_ok_iff, ← map_name_of_outputsIn hfiles]
    simp [Option.isSome_iff_ne_none]

theorem deliver_of_fault
    (h : (tree.deliver a.outputDirectory files).1 ≠ .ok ()) :
    (tree.deliver a.outputDirectory files).2 = tree ∨ a.Interrupted lib tree := by
  cases hd : a.outputDirectory with
  | none => exact .inl rfl
  | some directory =>
    rw [hd] at h
    obtain hleft | ⟨first, later, rfl, hfirst, htaken⟩ :=
      FileTree.writeInto_of_fault (isName_of_outputsIn hfiles) h
    · exact .inl hleft
    · exact .inr ⟨first, later, directory, hfiles, hd, hfirst, htaken⟩

end Files

/-- Whatever its libraries read, a run fails exactly when it has nothing to write or cannot write one
of its files. It leaves the tree as it was then, unless it is interrupted. A run that does not fail
leaves all its files. -/
theorem start_outputs {arguments : List Text} (h : lib.arguments arguments = .ok a)
    (tree : FileTree) :
    let r := (start lib arguments).run tree
    (r.value = 0 ∨ r.value = 1) ∧
      (r.value = 1 ↔ (∃ f, a.outputsIn lib tree = .error f) ∨
        ∃ directory, a.outputDirectory = some directory ∧
          ∃ name ∈ a.outputNames, tree.target? (inDirectory directory name) = none) ∧
      (r.value = 1 → r.tree = tree ∨ a.Interrupted lib tree) ∧
      (r.value = 0 → ∃ files, a.outputsIn lib tree = .ok files ∧ files.map (·.1) = a.outputNames ∧
        ∀ directory, a.outputDirectory = some directory →
          ∀ f ∈ files, r.tree.look? (inDirectory directory f.1) = some (.file f.2.bytes)) := by
  intro r
  obtain ⟨hvalue, hleft⟩ : r.value = _ ∧ r.tree = _ := run_start h tree
  cases hfiles : a.outputsIn lib tree with
  | error f =>
    simp only [hfiles, proceed, exitCode] at hvalue hleft
    simp [hvalue, hleft]
  | ok files =>
    simp only [hfiles, proceed_ok] at hvalue hleft
    have hone : r.value = 1 ↔ ∃ directory, a.outputDirectory = some directory ∧
        ∃ name ∈ a.outputNames, tree.target? (inDirectory directory name) = none := by
      rw [hvalue, exitCode_eq_one_iff, ne_eq, deliver_eq_ok_iff hfiles, not_not]
    refine ⟨?_, ?_, fun hr => ?_, fun hr => ⟨files, rfl, map_name_of_outputsIn hfiles, ?_⟩⟩
    · rw [hvalue]
      cases (tree.deliver a.outputDirectory files).1 <;> simp [exitCode]
    · simpa using hone
    · rw [hleft]
      exact deliver_of_fault hfiles (exitCode_eq_one_iff.1 (hvalue.symm.trans hr))
    · intro directory hd f hf
      have hok := exitCode_eq_zero_iff.1 (hvalue.symm.trans hr)
      rw [hd] at hok hleft
      have hdistinct := map_name_of_outputsIn hfiles ▸ outputNames_nodup a
      rw [hleft]
      exact FileTree.look?_writeInto (isName_of_outputsIn hfiles) hdistinct hok f hf

/-- The arguments that name a directory for the output and nothing else. -/
def plainArguments (directory : Text) : Arguments :=
  ⟨"input.txt".toList, none, none, some directory, false, false, false, none, none, false⟩

/-- A run over an older dump of its symbols, in a directory that is named from the root. -/
theorem start_outputs_overwritten :
    let arguments := ["-o".toList, "/out".toList]
    let tree : FileTree := ⟨["home".toList],
      [(["home".toList, "input.txt".toList], .file (Text.bytes "X DC 3\nEND\n".toList)),
        (["out".toList], .directory),
        (["out".toList, Output.symbols], .file (Text.bytes "Y\t7\n".toList))]⟩
    let r := (start libraries arguments).run tree
    libraries.arguments arguments = .ok (plainArguments "/out".toList) ∧ r.value = 0 ∧
      r.tree.look? "/out/symtab.txt".toList = some (.file (Text.bytes "X\t0\n".toList)) := by
  intro arguments tree r
  have ha : libraries.arguments arguments = .ok (plainArguments "/out".toList) := by decide +kernel
  have hzero : r.value = 0 := by decide +kernel
  obtain ⟨files, hfiles, -, hfound⟩ := (start_outputs ha tree).2.2.2 hzero
  have hsettled : (plainArguments "/out".toList).outputsIn libraries tree =
      .ok [(Output.stream, "0 (DL,02) (C,3)\n(AD,02)\n".toList),
        (Output.symbols, "X\t0\n".toList), (Output.literals, []),
        (Output.objects,
          "0 (DL,02) (C,3)      ->      ----\n(AD,02)      ->      ----\n".toList)] := by
    decide +kernel
  obtain rfl := Except.ok.inj (hfiles.symm.trans hsettled)
  have hpath : inDirectory "/out".toList Output.symbols = "/out/symtab.txt".toList := by decide
  have hsymbols := hfound "/out".toList rfl (Output.symbols, "X\t0\n".toList)
    (List.mem_cons_of_mem _ List.mem_cons_self)
  rw [hpath] at hsymbols
  exact ⟨ha, hzero, hsymbols⟩

/-- A run that fails at its second file leaves the first behind. -/
theorem start_leaves_stream :
    let arguments := ["-o".toList, "out".toList]
    let tree : FileTree := ⟨[], [(["input.txt".toList], .file (Text.bytes "END\n".toList)),
      (["out".toList], .directory), (["out".toList, Output.symbols], .directory)]⟩
    let r := (start libraries arguments).run tree
    libraries.arguments arguments = .ok (plainArguments "out".toList) ∧ r.value = 1 ∧
      tree.look? "out/output_pass1.txt".toList = none ∧
      r.tree.look? "out/output_pass1.txt".toList =
        some (.file (Text.bytes "(AD,02)\n".toList)) := by
  decide +kernel

end TwoPass.Command
