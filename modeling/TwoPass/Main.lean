import TwoPass.Command.Libraries

/-! The program: the command on the files of the machine that it runs on. -/

namespace TwoPass.Command

def readFile (path : Text) : IO Reading := do
  let opened ← (IO.FS.Handle.mk (String.ofList path) .read).toBaseIO
  match opened with
  | .error _ => pure .missing
  | .ok handle =>
    match ← handle.readBinToEnd.toBaseIO with
    | .error _ => pure .unreadable
    | .ok bytes => pure (.contents bytes.data.toList)

def writeFile (path : Text) (contents : Bytes) : IO Bool := do
  match ← (IO.FS.writeBinFile (String.ofList path) ⟨contents.toArray⟩).toBaseIO with
  | .error _ => pure false
  | .ok _ => pure true

def Script.perform {α : Type} : Script α → IO α
  | .done a => pure a
  | .print t next => do
    IO.print (String.ofList t)
    next.perform
  | .read path next => do
    let r ← readFile path
    (next r).perform
  | .write path contents next => do
    let b ← writeFile path contents
    (next b).perform

end TwoPass.Command

def main (arguments : List String) : IO UInt32 := do
  let code ← (TwoPass.Command.start TwoPass.Command.libraries (arguments.map String.toList)).perform
  pure (UInt32.ofNat code)
