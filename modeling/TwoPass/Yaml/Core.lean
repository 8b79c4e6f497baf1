import TwoPass.Text.Numeral
import TwoPass.Yaml.Scalar

/-! The core schema of YAML: which plain scalars are null, booleans or integers. An integer with
leading zeros is a text, and integers of other radices than ten are marked by 0x, 0o or 0b. -/

namespace TwoPass.Yaml

def isNull (t : Text) : Bool :=
  ["null", "Null", "NULL", "~"].any (·.toList = t)

def boolean? (t : Text) : Option Bool :=
  if ["true", "True", "TRUE"].any (·.toList = t) then some true
  else if ["false", "False", "FALSE"].any (·.toList = t) then some false
  else none

/-- Digits after a zero, which make no number. -/
def hasLeadingZero : Text → Bool
  | '0' :: c :: cs => (c :: cs).all Char.isDigit
  | _ => false

def magnitude? : Text → Option Nat
  | '0' :: 'x' :: digits => Numeral.magnitude? 16 digits
  | '0' :: 'o' :: digits => Numeral.magnitude? 8 digits
  | '0' :: 'b' :: digits => Numeral.magnitude? 2 digits
  | t => if hasLeadingZero t then none else Numeral.magnitude? 10 t

def unsigned? (t : Text) : Option Nat :=
  magnitude? (Numeral.dropPlus t)

def integer? : Text → Option Int
  | '-' :: t => (magnitude? t).map fun n => -(n : Int)
  | t => (unsigned? t).map Int.ofNat

/-- Whether an integer fits into sixty-four bits, with a sign or without. -/
def isWord (v : Int) : Bool :=
  -9223372036854775808 ≤ v && v < 18446744073709551616

/-- Whether an integer fits into a hundred and twenty-eight bits, with a sign or without. -/
def isDoubleWord (v : Int) : Bool :=
  -170141183460469231731687303715884105728 ≤ v && v < 340282366920938463463374607431768211456

namespace Scalar

/-- A boolean is written plain, or has the tag of booleans. -/
def boolean? (s : Scalar) : Option Bool :=
  match s.tag with
  | none => if s.plain then Yaml.boolean? s.text else none
  | some tag => if tag = "bool".toList then Yaml.boolean? s.text else none

def below? (bound : Nat) (s : Scalar) : Option (Fin bound) :=
  if s.plain then
    (unsigned? s.text).bind fun n => if h : n < bound then some ⟨n, h⟩ else none
  else none

def isUnwritten (s : Scalar) : Bool :=
  s.plain && s.text.isEmpty

def isAbsent (s : Scalar) : Bool :=
  s.plain && s.tag.isNone && (s.text.isEmpty || isNull s.text)

/-- Whether a scalar has a value of some kind. A tag must fit the text, and an integer must not lie
between sixty-four and a hundred and twenty-eight bits. -/
def hasValue (s : Scalar) : Bool :=
  match s.tag with
  | none => !(s.plain && (integer? s.text).any fun v => !isWord v && isDoubleWord v)
  | some tag =>
    if tag = "bool".toList then (Yaml.boolean? s.text).isSome
    else if tag = "int".toList then (integer? s.text).any isWord
    else if tag = "null".toList then isNull s.text
    else true

end Scalar

end TwoPass.Yaml
