import TwoPass.Yaml.Scalar

/-! Tokens of YAML. Indentation opens and closes blocks, and a colon shows that what stood before
it was a key, so the mark of a key is put among the tokens that are already there. Anchors, block
scalars and directives are not part of the language here, and a tag must be one of the core
schema. -/

namespace TwoPass.Yaml

inductive Token
  | documentStart
  | documentEnd
  | blockList
  | blockMap
  | blockEnd
  | flowList
  | flowListEnd
  | flowMap
  | flowMapEnd
  | entry
  | comma
  | key
  | value
  | tag (name : Text)
  | scalar (s : Scalar)
deriving DecidableEq

/-- A place where a key may begin. A required one begins a line of a block map. -/
structure Candidate where
  index : Nat
  position : Position
  required : Bool
deriving DecidableEq

structure Lexer where
  cursor : Cursor
  /-- The tokens found so far, last first. -/
  tokens : List Token
  /-- The columns of the open blocks, innermost first. -/
  columns : List Nat
  keyAllowed : Bool
  candidate : Option Candidate
  /-- The candidates around the open flow collections, innermost first. -/
  outer : List (Option Candidate)
deriving DecidableEq

namespace Lexer

def start (source : Text) : Lexer :=
  ⟨⟨.start, source⟩, [], [], true, none, []⟩

def inFlow (l : Lexer) : Bool :=
  !l.outer.isEmpty

def column (l : Lexer) : Nat :=
  l.cursor.position.column

def push (l : Lexer) (t : Token) : Lexer :=
  { l with tokens := t :: l.tokens }

def skip (l : Lexer) (n : Nat) : Lexer :=
  { l with cursor := l.cursor.skip n }

def allowKey (l : Lexer) (allowed : Bool) : Lexer :=
  { l with keyAllowed := allowed }

def insert (l : Lexer) (index : Nat) (t : Token) : Lexer :=
  let later := l.tokens.length - index
  { l with tokens := l.tokens.take later ++ t :: l.tokens.drop later }

/-- Gives a candidate up, which a required one does not allow. -/
def dropCandidate (l : Lexer) : Option Lexer :=
  if l.candidate.any (·.required) then none else some { l with candidate := none }

def saveCandidate (l : Lexer) : Option Lexer :=
  if l.keyAllowed then
    let required := !l.inFlow && l.columns.head? == some l.column
    l.dropCandidate.map fun m =>
      { m with candidate := some ⟨l.tokens.length, l.cursor.position, required⟩ }
  else some l

/-- A key ends on its line, at most 1024 bytes from its beginning. -/
def isStale (now : Position) (k : Candidate) : Bool :=
  k.position.line < now.line || k.position.offset + 1024 < now.offset

def keepFresh (now : Position) : Option Candidate → Option (Option Candidate)
  | none => some none
  | some k => if isStale now k then (if k.required then none else some none) else some (some k)

def dropStale (l : Lexer) : Option Lexer :=
  match keepFresh l.cursor.position l.candidate,
      l.outer.mapM (keepFresh l.cursor.position) with
  | some candidate, some outer => some { l with candidate := candidate, outer := outer }
  | _, _ => none

/-- Closes the blocks that are indented further than a column; all of them without one. -/
def closeBlocks (column : Option Nat) (l : Lexer) : Lexer :=
  if l.inFlow then l
  else
    let isOpen (c : Nat) : Bool := column.any (c ≤ ·)
    let closed := l.columns.takeWhile fun c => !isOpen c
    { l with
      tokens := closed.map (fun _ => .blockEnd) ++ l.tokens
      columns := l.columns.dropWhile fun c => !isOpen c }

/-- Opens a block at a column that is indented further than the open ones. -/
def openBlock (column index : Nat) (t : Token) (l : Lexer) : Lexer :=
  if l.inFlow || l.columns.head?.any (column ≤ ·) then l
  else insert { l with columns := column :: l.columns } index t

/-- Passes over spaces, comments and breaks, and over a byte order mark at the beginning of a line,
which takes a column. A break allows a key outside flow. -/
def gapFrom (flow comment allowed : Bool) (p : Position) : Text → Bool × Cursor
  | [] => (allowed, ⟨p, []⟩)
  | c :: cs =>
    if isBreak c then gapFrom flow false (allowed || !flow) (p.after c) cs
    else if comment then gapFrom flow true allowed (p.after c) cs
    else if c == ' ' || (c == '\t' && (flow || !allowed)) ||
        (p.column == 0 && isByteOrderMark c) then
      gapFrom flow false allowed (p.after c) cs
    else if c == '#' then gapFrom flow true allowed (p.after c) cs
    else (allowed, ⟨p, c :: cs⟩)

def skipGap (l : Lexer) : Lexer :=
  let (allowed, cursor) := gapFrom l.inFlow false l.keyAllowed l.cursor.position l.cursor.rest
  { l with keyAllowed := allowed, cursor := cursor }

def documentMark (t : Token) (l : Lexer) : Option Lexer :=
  (l.closeBlocks none).dropCandidate.map fun m => ((m.allowKey false).push t).skip 3

def flowStart (t : Token) (l : Lexer) : Option Lexer :=
  l.saveCandidate.map fun m =>
    let opened := { m with candidate := none, outer := m.candidate :: m.outer }
    ((opened.allowKey true).push t).skip 1

def flowEnd (t : Token) (l : Lexer) : Option Lexer :=
  l.dropCandidate.map fun m =>
    let closed :=
      match m.outer with
      | [] => m
      | k :: ks => { m with candidate := k, outer := ks }
    ((closed.allowKey false).push t).skip 1

def comma (l : Lexer) : Option Lexer :=
  l.dropCandidate.map fun m => ((m.allowKey true).push .comma).skip 1

def entry (l : Lexer) : Option Lexer :=
  if !l.inFlow && !l.keyAllowed then none
  else
    (openBlock l.column l.tokens.length .blockList l).dropCandidate.map fun m =>
      ((m.allowKey true).push .entry).skip 1

def key (l : Lexer) : Option Lexer :=
  if !l.inFlow && !l.keyAllowed then none
  else
    (openBlock l.column l.tokens.length .blockMap l).dropCandidate.map fun m =>
      ((m.allowKey (!l.inFlow)).push .key).skip 1

def value (l : Lexer) : Option Lexer :=
  match l.candidate with
  | some k =>
    let marked := openBlock k.position.column k.index .blockMap (l.insert k.index .key)
    some (((({ marked with candidate := none }).allowKey false).push .value).skip 1)
  | none =>
    if !l.inFlow && !l.keyAllowed then none
    else
      let opened := openBlock l.column l.tokens.length .blockMap l
      some (((opened.allowKey (!l.inFlow)).push .value).skip 1)

def scalar (plain : Bool) (scan : Lexer → Option Scanned) (l : Lexer) : Option Lexer :=
  l.saveCandidate.bind fun m =>
    (scan m).map fun s =>
      { m.push (.scalar ⟨s.text, plain, none⟩) with cursor := s.cursor, keyAllowed := s.broken }

def plainScalar (l : Lexer) : Option Lexer :=
  scalar true (fun m =>
    plainFrom m.inFlow (m.columns.head?.elim 0 (· + 1)) .nothing [] m.cursor.position
      m.cursor.rest) l

def isTagCharacter (c : Char) : Bool :=
  c.isAlphanum || "-_;/?:@&=+$.!~*\x27()".toList.contains c

/-- A tag of the core schema is written with two exclamation marks. -/
def tag (l : Lexer) : Option Lexer :=
  match l.cursor.rest with
  | '!' :: '!' :: cs =>
    let name := cs.takeWhile fun c => !atGap [c] && !(l.inFlow && c == ',')
    if name.isEmpty || !name.all isTagCharacter then none
    else
      l.saveCandidate.map fun m => ((m.allowKey false).push (.tag name)).skip (name.length + 2)
  | _ => none

/-- The characters that no plain scalar begins with, unless it goes on without a gap. -/
def indicators : Text :=
  "-?:,[]\x7b\x7d#&*!|>\x27\"%@\x60".toList

def startsPlain (flow : Bool) (c : Char) (rest : Text) : Bool :=
  (!isSpace c && !indicators.contains c) || (c == '-' && !rest.head?.any isSpace) ||
    (!flow && (c == '?' || c == ':') && !atGap rest)

/-- Reads the token that begins with a character. -/
def next (c : Char) (rest : Text) (l : Lexer) : Option Lexer :=
  if l.column == 0 && c == '%' then none
  else if l.cursor.atMark '-' then documentMark .documentStart l
  else if l.cursor.atMark '.' then documentMark .documentEnd l
  else if c == '[' then flowStart .flowList l
  else if c == '\x7b' then flowStart .flowMap l
  else if c == ']' then flowEnd .flowListEnd l
  else if c == '\x7d' then flowEnd .flowMapEnd l
  else if c == ',' then comma l
  else if c == '-' && atGap rest then entry l
  else if c == '?' && (l.inFlow || atGap rest) then key l
  else if c == ':' && (l.inFlow || atGap rest) then value l
  else if c == '!' then tag l
  else if c == '\x27' then
    scalar false (fun m => singleQuotedFrom .nothing [] (m.cursor.position.after c) rest) l
  else if c == '"' then
    scalar false (fun m =>
      doubleQuotedFrom (.content .nothing) [] (m.cursor.position.after c) rest) l
  else if startsPlain l.inFlow c rest then plainScalar l
  else none

/-- Reads tokens up to the end of the text. Each takes at least one character of it, so the fuel
need not exceed its length by more than one. -/
def run : Nat → Lexer → Option (List Token)
  | 0, _ => none
  | fuel + 1, l =>
    match l.skipGap.dropStale with
    | none => none
    | some m =>
      match m.cursor.rest with
      | [] => (m.closeBlocks none).dropCandidate.map fun done => done.tokens.reverse
      | c :: rest => (next c rest (m.closeBlocks (some m.column))).bind (run fuel)

end Lexer

/-- The tokens of a text; none when it holds a character or a construct that it must not. -/
def tokens? (source : Text) : Option (List Token) :=
  if source.all isAllowed then
    let uniform := uniformBreaks source
    Lexer.run (uniform.length + 1) (.start uniform)
  else none

end TwoPass.Yaml
