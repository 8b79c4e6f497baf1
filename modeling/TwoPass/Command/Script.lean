import TwoPass.Command.FileTree

/-! Scripts: what a command prints, reads and writes, in order. A script can be run on a file tree,
which gives what it prints and the tree that it leaves. -/

namespace TwoPass.Command

inductive Reading
  | missing
  /-- There is something, but it cannot be read. -/
  | unreadable
  | contents (bytes : Bytes)
deriving DecidableEq

inductive Script (α : Type)
  | done (a : α)
  | print (t : Text) (next : Script α)
  | read (path : Text) (next : Reading → Script α)
  /-- Goes on with whether the file was written. -/
  | write (path : Text) (contents : Bytes) (next : Bool → Script α)

namespace Script

def bind {α β : Type} (s : Script α) (f : α → Script β) : Script β :=
  match s with
  | done a => f a
  | print t next => print t (next.bind f)
  | read path next => read path fun r => (next r).bind f
  | write path contents next => write path contents fun b => (next b).bind f

instance : Monad Script where
  pure := done
  bind := bind

structure Result (α : Type) where
  value : α
  printed : Text
  tree : FileTree
deriving DecidableEq

def readIn (tree : FileTree) (path : Text) : Reading :=
  match tree.look? path with
  | some (.file bytes) => .contents bytes
  | some .directory => .unreadable
  | none => .missing

def run {α : Type} (tree : FileTree) : Script α → Result α
  | done a => ⟨a, [], tree⟩
  | print t next =>
    let r := run tree next
    { r with printed := t ++ r.printed }
  | read path next => run tree (next (readIn tree path))
  | write path contents next =>
    match tree.write? path contents with
    | some written => run written (next true)
    | none => run tree (next false)

theorem run_bind {α β : Type} (s : Script α) (f : α → Script β) (tree : FileTree) :
    (s.bind f).run tree =
      let first := s.run tree
      let second := (f first.value).run first.tree
      { second with printed := first.printed ++ second.printed } := by
  induction s generalizing tree with
  | done a => simp [bind, run]
  | print t next ih => simp [bind, run, ih]
  | read path next ih => simp [bind, run, ih]
  | write path contents next ih =>
    simp only [bind, run]
    split <;> simp [ih]

end Script

end TwoPass.Command
