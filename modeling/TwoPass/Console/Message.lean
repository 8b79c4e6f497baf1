import TwoPass.Fault
import TwoPass.Text.Line

/-! Messages for the user: a headline, which may point at a line of a source and show it. Parts of
a message are painted. On a terminal a painted text stands between control sequences that switch its
colour or its weight on and off again. -/

namespace TwoPass

namespace Console

inductive Style
  | red
  | green
  | yellow
  | blue
  | bold
  | dim
  | underline
deriving DecidableEq

/-- How a text is shown in some styles. -/
abbrev Paint := List Style → Text → Text

def control (number : String) : Text :=
  '\x1b' :: '[' :: number.toList ++ ['m']

namespace Style

def opening : Style → Text
  | red => control "31"
  | green => control "32"
  | yellow => control "33"
  | blue => control "34"
  | bold => control "1"
  | dim => control "2"
  | underline => control "4"

/-- All colours end alike, and so do the two weights. -/
def closing : Style → Text
  | red | green | yellow | blue => control "39"
  | bold | dim => control "22"
  | underline => control "24"

end Style

def terminal : Paint :=
  fun styles t => styles.flatMap Style.opening ++ t ++ styles.flatMap Style.closing

inductive Level
  | error
  | warn
  | note
deriving DecidableEq

def Level.label (paint : Paint) : Level → Text
  | error => paint [.red, .bold] "error".toList
  | warn => paint [.yellow, .bold] "warn".toList
  | note => paint [.green, .bold] "note".toList

structure Message where
  level : Level
  text : Text
deriving DecidableEq

namespace Message

def headline (paint : Paint) (m : Message) : Text :=
  m.level.label paint ++ ": ".toList ++ m.text ++ ['\n']

def margin (paint : Paint) : Text :=
  "      ".toList ++ paint [.blue] ['|'] ++ ['\n']

def pointing (paint : Paint) (m : Message) (file : Text) (line : Nat) (source : List Text) :
    Text :=
  m.headline paint ++
    "     ".toList ++ paint [.blue] "-->".toList ++
      ' ' :: paint [.underline] (file ++ ':' :: Numeral.decimal line) ++ ['\n'] ++
    margin paint ++
    ' ' :: paint [.blue] (Numeral.padded 4 line ++ " |".toList) ++
      ' ' :: Text.lineAt source line ++ ['\n'] ++
    margin paint

end Message

end Console

open Console (Paint)

/-- What the user is shown of a fault; `source` holds the lines of the file. -/
def Fault.report (paint : Paint) (f : Fault) (file : Text) (source : List Text) : Text :=
  let message : Console.Message := ⟨.error, f.message⟩
  match f.line? with
  | some line => message.pointing paint file line source
  | none => message.headline paint

def Warning.report (paint : Paint) (w : Warning) (file : Text) (source : List Text) : Text :=
  Console.Message.pointing paint ⟨.warn, w.remark.text⟩ file w.line source

end TwoPass
