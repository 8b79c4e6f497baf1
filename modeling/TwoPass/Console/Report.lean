import TwoPass.Console.Message
import TwoPass.Program

/-! What the console shows of a program: its records, its tables, and its listing with the objects
in one column. -/

namespace TwoPass.Console

variable (paint : Paint)

def entryRow (number : Nat) (e : FrozenEntry) : Text :=
  "  ".toList ++ paint [.blue] (Numeral.padded 3 number) ++
    ' ' :: e.name.rightpad 12 ' ' ++
    paint [.yellow] (Numeral.decimal e.address.val) ++ ['\n']

def tableRows (table : FrozenTable) : Text :=
  (Text.numbered table.entries).flatMap fun (number, e) => entryRow paint number e

def tables (p : Program) : Text :=
  "=== INTERMEDIATE CODE ===\n".toList ++
    p.records.flatMap (fun r => "  ".toList ++ r.text ++ ['\n']) ++
    "=== SYMBOL TABLE ===\n".toList ++ tableRows paint p.symbols ++
    "=== LITERAL TABLE ===\n".toList ++ tableRows paint p.literals

/-- The number of bytes that a text takes in UTF-8, never less than its characters. -/
def byteLength : Text → Nat
  | [] => 0
  | c :: cs => c.utf8Size + byteLength cs

def recordWidth (rs : List Record) : Nat :=
  (rs.map fun r => byteLength r.text).foldl max 0

def paintedObject : Object → Text
  | .placeholder => paint [.dim] Object.placeholder.text
  | o => paint [.green] o.text

def listingRow (width : Nat) (r : Record) (o : Object) : Text :=
  "  ".toList ++ r.text.rightpad width ' ' ++ arrow ++ paintedObject paint o ++ ['\n']

def listing (rs : List Record) (os : List Object) : Text :=
  let width := recordWidth rs
  (rs.zip os).flatMap fun (r, o) => listingRow paint width r o

end TwoPass.Console
