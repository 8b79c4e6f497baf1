import TwoPass.Text.Blank

/-! The files and directories of a machine, as the paths of a command reach them. A path starts from
the root when a slash opens it, and from the working directory otherwise, and it may step through a
dot or two dots. There are no links, no path is too long, every file may be read and written, and
there is room for it. -/

namespace TwoPass

abbrev Bytes := List UInt8

namespace Text

/-- A text in UTF-8. -/
def bytes (t : Text) : Bytes :=
  (String.ofList t).toUTF8.data.toList

/-- The text that some bytes are, when they are UTF-8. -/
def ofBytes? (contents : Bytes) : Option Text :=
  (ByteArray.mk contents.toArray).utf8Decode?.map Array.toList

@[simp] theorem ofBytes?_bytes (t : Text) : ofBytes? t.bytes = some t := by
  have hbytes : ByteArray.mk t.bytes.toArray = t.utf8Encode := by
    rw [bytes, Array.toArray_toList]
    simp
  rw [ofBytes?, hbytes, List.utf8Decode?_utf8Encode, Option.map_some, List.toList_toArray]

end Text

namespace Command

inductive Entry
  | file (contents : Bytes)
  | directory
deriving DecidableEq

/-- The entries of a machine, each by the names on the way to it from the root. -/
structure FileTree where
  /-- The way to the working directory. -/
  here : List Text
  entries : List (List Text × Entry)
deriving DecidableEq

namespace FileTree

def isUp (step : Text) : Bool :=
  step = ['.', '.']

/-- The entry at the end of a way of names. The working directory and those that hold it, up to the
root, are there in any case. -/
def find? (tree : FileTree) (names : List Text) : Option Entry :=
  if names <+: tree.here then some .directory
  else (tree.entries.find? (·.1 = names)).map (·.2)

/-- Puts an entry at the end of a way, in the place of the one that is there. -/
def placeIn (names : List Text) (e : Entry) : List (List Text × Entry) → List (List Text × Entry)
  | [] => [(names, e)]
  | (way, old) :: rest =>
    if way = names then (names, e) :: rest else (way, old) :: placeIn names e rest

def put (tree : FileTree) (names : List Text) (e : Entry) : FileTree :=
  { tree with entries := placeIn names e tree.entries }

/-- Follows the steps of a path from a directory. All but the last must lead to directories, and a
step up from the root stays there. -/
def follow (tree : FileTree) (place : List Text) : List Text → Option (List Text)
  | [] => some place
  | step :: later =>
    if step = [] ∨ step = ['.'] then follow tree place later
    else if isUp step then follow tree place.dropLast later
    else
      match tree.find? (place ++ [step]) with
      | some .directory => follow tree (place ++ [step]) later
      | some (.file _) => if later.isEmpty then some (place ++ [step]) else none
      | none => none

/-- The directory that a path starts from, and its steps. The empty path leads nowhere. -/
def route? (tree : FileTree) (path : Text) : Option (List Text × List Text) :=
  if path = [] then none
  else some (if path.head? = some '/' then [] else tree.here, path.splitOn '/')

def look? (tree : FileTree) (path : Text) : Option Entry :=
  (tree.route? path).bind fun (start, steps) => (tree.follow start steps).bind tree.find?

/-- The way to the file that a path names, when a file is there or can be made there. -/
def target? (tree : FileTree) (path : Text) : Option (List Text) :=
  (tree.route? path).bind fun (start, steps) =>
    match steps.getLast?, tree.follow start steps.dropLast with
    | some name, some place =>
      if name = [] ∨ name = ['.'] ∨ isUp name then none
      else if tree.find? place = some .directory ∧
          tree.find? (place ++ [name]) ≠ some .directory then
        some (place ++ [name])
      else none
    | _, _ => none

def write? (tree : FileTree) (path : Text) (contents : Bytes) : Option FileTree :=
  (tree.target? path).map fun names => tree.put names (.file contents)

theorem find?_put {tree : FileTree} {names : List Text} (h : ¬ names <+: tree.here) (e : Entry)
    (way : List Text) :
    (tree.put names e).find? way = if way = names then some e else tree.find? way := by
  obtain ⟨here, entries⟩ := tree
  by_cases hu : way <+: here
  · have hn : way ≠ names := by
      rintro rfl
      exact h hu
    simp [find?, put, hu, hn]
  · simp only [find?, put, hu, if_false]
    clear h
    by_cases hw : way = names
    · subst hw
      rw [if_pos rfl]
      induction entries with
      | nil => simp [placeIn]
      | cons x xs ih => by_cases ho : x.1 = way <;> simp [placeIn, ho, ih]
    · have hn : names ≠ way := fun h' => hw h'.symm
      rw [if_neg hw]
      induction entries with
      | nil => simp [placeIn, hn]
      | cons x xs ih =>
        by_cases ho : x.1 = names
        · simp [placeIn, ho, hn]
        · by_cases hx : x.1 = way <;> simp [placeIn, ho, hx, hw, ih]

end FileTree

end Command

end TwoPass
