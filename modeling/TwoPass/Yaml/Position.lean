import TwoPass.Text.Blank

/-! Places in a YAML text, and the characters that its layout depends on. -/

namespace TwoPass.Yaml

def isSpace (c : Char) : Bool :=
  c == ' ' || c == '\t'

/-- The line breaks of a text whose breaks are uniform. -/
def isBreak (c : Char) : Bool :=
  c == '\n' || c.toNat == 0x2028 || c.toNat == 0x2029

def atGap : Text → Bool
  | [] => true
  | c :: _ => isSpace c || isBreak c

def isAllowed (c : Char) : Bool :=
  let n := c.toNat
  n == 0x09 || n == 0x0A || n == 0x0D || (0x20 ≤ n && n ≤ 0x7E) || n == 0x85 ||
    (0xA0 ≤ n && n != 0xFFFE && n != 0xFFFF)

def isByteOrderMark (c : Char) : Bool :=
  c.toNat == 0xFEFF

/-- Writes every break that counts as a line feed as one. -/
def uniformBreaks : Text → Text
  | [] => []
  | '\r' :: '\n' :: cs => '\n' :: uniformBreaks cs
  | c :: cs => (if c == '\r' || c.toNat == 0x85 then '\n' else c) :: uniformBreaks cs

/-- A place: its line and its column, counted from zero, and the bytes that UTF-8 takes for the text
before it. -/
structure Position where
  line : Nat
  column : Nat
  offset : Nat
deriving DecidableEq

namespace Position

def start : Position :=
  ⟨0, 0, 0⟩

def after (p : Position) (c : Char) : Position :=
  let offset := p.offset + c.utf8Size
  if isBreak c then ⟨p.line + 1, 0, offset⟩ else ⟨p.line, p.column + 1, offset⟩

end Position

structure Cursor where
  position : Position
  rest : Text
deriving DecidableEq

namespace Cursor

def skip : Nat → Cursor → Cursor
  | 0, s => s
  | _ + 1, ⟨p, []⟩ => ⟨p, []⟩
  | n + 1, ⟨p, c :: cs⟩ => skip n ⟨p.after c, cs⟩

/-- Whether a line that starts here marks the start or the end of a document. -/
def atMark (mark : Char) (s : Cursor) : Bool :=
  s.position.column == 0 &&
    match s.rest with
    | a :: b :: c :: rest => a == mark && b == mark && c == mark && atGap rest
    | _ => false

def atDocumentMark (s : Cursor) : Bool :=
  s.atMark '-' || s.atMark '.'

end Cursor

end TwoPass.Yaml
