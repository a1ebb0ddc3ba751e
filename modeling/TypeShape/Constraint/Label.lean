import TypeShape.Text.Letter
import TypeShape.Text.Quoted

/-!
# Labels

A path to a place in data is a list of labels.  A field whose name is an identifier is written as it
is; any other name stands in quotes.
-/

namespace TypeShape.Label

/-- Whether a code point may begin a name that needs no quotes. -/
def isStart (r : Nat) : Bool :=
  Letter.isLetter r || r = 36

/-- Whether a code point may stand inside a name that needs no quotes. -/
def isPart (r : Nat) : Bool :=
  isStart r || Letter.isDigit r || r = 95

/-- Whether a field name is written without quotes. -/
def isPlain (name : Text) : Bool :=
  match Utf8.pieces name with
  | .rune r :: rest => isStart r && rest.all fun
    | .rune r => isPart r
    | .stray _ => false
  | _ => false

/-- One code point between quotes: a control character without a letter of its own is written by its
number in four digits. -/
def escape (r : Nat) : Text :=
  if (r < 0x20 || r = 0x7F) && (Quoted.letterEscape? r).isNone then text "\\u" ++ Text.hex 4 r
  else Quoted.escape Quoted.doubleQuote r

/-- A name between quotes. -/
def quote (name : Text) : Text :=
  let body := (Utf8.pieces name).flatMap fun
    | .rune r => escape r
    | .stray _ => escape Utf8.replacement
  [Quoted.doubleQuote] ++ body ++ [Quoted.doubleQuote]

/-- The label of a field. -/
def ofField (name : Text) : Text :=
  if isPlain name then name else quote name

/-- The label of a place in a list. -/
def ofIndex (i : Nat) : Text :=
  Text.ofNat i

end TypeShape.Label
