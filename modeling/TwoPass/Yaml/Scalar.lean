import TwoPass.Text.Numeral
import TwoPass.Yaml.Position

/-! Scalars of YAML, plain and quoted. A scalar may run over several lines: spaces around a break
are dropped, a single break is read as one space, and further breaks are kept. -/

namespace TwoPass.Yaml

structure Scalar where
  text : Text
  plain : Bool
  /-- The name of its tag in the core schema. -/
  tag : Option Text
deriving DecidableEq

def Scalar.absent : Scalar :=
  ⟨[], true, none⟩

/-- What stands between two characters of a scalar: spaces within a line, or breaks. Texts are held
last character first. -/
inductive Gap
  | spaces (held : Text)
  | breaks (first : Option Char) (later : Text)
deriving DecidableEq

namespace Gap

def nothing : Gap :=
  .spaces []

def isNothing : Gap → Bool
  | .spaces [] => true
  | _ => false

def isBroken : Gap → Bool
  | .spaces _ => false
  | .breaks _ _ => true

def space (c : Char) : Gap → Gap
  | .spaces held => .spaces (c :: held)
  | .breaks first later => .breaks first later

def lineBreak (c : Char) : Gap → Gap
  | .spaces _ => .breaks (some c) []
  | .breaks first later => .breaks first (c :: later)

/-- Puts what a gap stands for behind a text that is held last character first. -/
def join (held : Text) : Gap → Text
  | .spaces blanks => blanks ++ held
  | .breaks (some '\n') [] => ' ' :: held
  | .breaks (some '\n') later => later ++ held
  | .breaks (some c) later => later ++ c :: held
  | .breaks none later => later ++ held

end Gap

/-- A scalar's text and whether it ended at a line break, with the cursor behind it. -/
structure Scanned where
  text : Text
  broken : Bool
  cursor : Cursor
deriving DecidableEq

def opensFlow (c : Char) : Bool :=
  c == ',' || c == '[' || c == ']' || c == '\x7b' || c == '\x7d'

/-- Reads a plain scalar on. Outside flow it ends at a line that is indented by fewer columns than
`indent`; everywhere it ends at a comment, at a mark of a value, or at a document mark. -/
def plainFrom (flow : Bool) (indent : Nat) (gap : Gap) (held : Text) (p : Position) :
    Text → Option Scanned
  | [] => some ⟨held.reverse, gap.isBroken, ⟨p, []⟩⟩
  | c :: cs =>
    if isSpace c then
      if c == '\t' && gap.isBroken && p.column < indent then none
      else plainFrom flow indent (gap.space c) held (p.after c) cs
    else if isBreak c then plainFrom flow indent (gap.lineBreak c) held (p.after c) cs
    else
      let stop : Scanned := ⟨held.reverse, gap.isBroken, ⟨p, c :: cs⟩⟩
      if !gap.isNothing &&
          ((!flow && p.column < indent) || c == '#' || Cursor.atDocumentMark ⟨p, c :: cs⟩) then
        some stop
      else if flow && c == ':' && cs.head?.any (fun d => opensFlow d || d == '?') then none
      else if (c == ':' && atGap cs) || (flow && opensFlow c) then some stop
      else plainFrom flow indent .nothing (c :: gap.join held) (p.after c) cs

def escapes : List (Char × Nat) :=
  [('0', 0), ('a', 7), ('b', 8), ('t', 9), ('\t', 9), ('n', 10), ('v', 11), ('f', 12), ('r', 13),
    ('e', 27), (' ', 32), ('"', 34), ('/', 47), ('\\', 92), ('N', 0x85), ('_', 0xA0),
    ('L', 0x2028), ('P', 0x2029)]

def escaped? (c : Char) : Option Char :=
  (escapes.find? (·.1 = c)).map fun (_, n) => Char.ofNat n

/-- The digits of the number behind a backslash and a letter. -/
def escapeDigits? : Char → Option Nat
  | 'x' => some 2
  | 'u' => some 4
  | 'U' => some 8
  | _ => none

inductive QuotedScan
  | content (gap : Gap)
  | escape
  | digits (left : Nat) (value : Nat)

/-- Reads a scalar in double quotes on, up to the closing quote. -/
def doubleQuotedFrom (scan : QuotedScan) (held : Text) (p : Position) : Text → Option Scanned
  | [] => none
  | c :: cs =>
    match scan with
    | .content gap =>
      if isSpace c then doubleQuotedFrom (.content (gap.space c)) held (p.after c) cs
      else if isBreak c then doubleQuotedFrom (.content (gap.lineBreak c)) held (p.after c) cs
      else if Cursor.atDocumentMark ⟨p, c :: cs⟩ then none
      else if c == '"' then some ⟨(gap.join held).reverse, false, ⟨p.after c, cs⟩⟩
      else if c == '\\' then doubleQuotedFrom .escape (gap.join held) (p.after c) cs
      else doubleQuotedFrom (.content .nothing) (c :: gap.join held) (p.after c) cs
    | .escape =>
      if isBreak c then doubleQuotedFrom (.content (.breaks none [])) held (p.after c) cs
      else
        match escaped? c, escapeDigits? c with
        | some d, _ => doubleQuotedFrom (.content .nothing) (d :: held) (p.after c) cs
        | none, some n => doubleQuotedFrom (.digits (n - 1) 0) held (p.after c) cs
        | none, none => none
    | .digits left value =>
      match Numeral.digit? 16 c with
      | none => none
      | some d =>
        let n := value * 16 + d
        match left with
        | left + 1 => doubleQuotedFrom (.digits left n) held (p.after c) cs
        | 0 =>
          if n.isValidChar then
            doubleQuotedFrom (.content .nothing) (Char.ofNat n :: held) (p.after c) cs
          else none

/-- Reads a scalar in single quotes on, up to a quote that no second one follows. -/
def singleQuotedFrom (gap : Gap) (held : Text) (p : Position) : Text → Option Scanned
  | [] => none
  | c :: cs =>
    if isSpace c then singleQuotedFrom (gap.space c) held (p.after c) cs
    else if isBreak c then singleQuotedFrom (gap.lineBreak c) held (p.after c) cs
    else if Cursor.atDocumentMark ⟨p, c :: cs⟩ then none
    else if c == '\x27' then
      match cs with
      | d :: ds =>
        if d == '\x27' then
          singleQuotedFrom .nothing (c :: gap.join held) ((p.after c).after d) ds
        else some ⟨(gap.join held).reverse, false, ⟨p.after c, d :: ds⟩⟩
      | [] => some ⟨(gap.join held).reverse, false, ⟨p.after c, []⟩⟩
    else singleQuotedFrom .nothing (c :: gap.join held) (p.after c) cs

end TwoPass.Yaml
