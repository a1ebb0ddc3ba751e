/-!
# Text as bytes

Type expressions are read byte by byte, and the texts made from them may cut a multi-byte
character in two, so text is a sequence of bytes here and not a sequence of characters.  This
module holds the byte-level vocabulary that every other module uses: literals, joining, decimal
numerals, the order of names, and the classes of bytes that the reader of type expressions asks
for, in which a byte stands for the code point of the same number.
-/

namespace TypeShape

/-- Text is a sequence of bytes, not necessarily well-formed UTF-8. -/
abbrev Text := List UInt8

/-- The bytes of a literal that holds ASCII characters only. -/
def text (s : String) : Text :=
  s.toList.map fun c => c.toNat.toUInt8

namespace Text

/-- The byte of an ASCII character. -/
def byte (c : Char) : UInt8 :=
  c.toNat.toUInt8

/-- Puts `sep` between the parts. -/
def join (sep : Text) : List Text → Text
  | [] => []
  | [t] => t
  | t :: ts => t ++ sep ++ join sep ts

/-- The parts with `", "` between them. -/
def commas (ts : List Text) : Text :=
  join (text ", ") ts

/-- The text in brackets. -/
def bracketed (t : Text) : Text :=
  text "[" ++ (t ++ text "]")

/-- The text in parentheses. -/
def parenthesized (t : Text) : Text :=
  text "(" ++ (t ++ text ")")

/-- The decimal numeral of `n`. -/
def ofNat (n : Nat) : Text :=
  (Nat.toDigits 10 n).map fun c => c.toNat.toUInt8

/-- The decimal numeral of `n`, with a minus sign when it is negative. -/
def ofInt : Int → Text
  | .ofNat n => ofNat n
  | .negSucc n => text "-" ++ ofNat (n + 1)

/-- `n` in base sixteen, lower case, filled with zeros to at least `width` digits. -/
def hex (width n : Nat) : Text :=
  let digits := (Nat.toDigits 16 n).map fun c => c.toNat.toUInt8
  List.replicate (width - digits.length) (byte '0') ++ digits

/-- Byte order, shorter first among texts that agree: the order in which names are listed. -/
def le : Text → Text → Bool
  | [], _ => true
  | _ :: _, [] => false
  | a :: as, b :: bs => if a < b then true else if b < a then false else le as bs

/-- Texts in byte order. -/
def sort (ts : List Text) : List Text :=
  ts.mergeSort le

/-- Whether `t` begins with `p`. -/
def startsWith (t p : Text) : Bool :=
  p.isPrefixOf t

/-- What is left of `t` after the lead `p`, if it begins with it. -/
def afterLead? (p t : Text) : Option Text :=
  if startsWith t p then some (t.drop p.length) else none

/-- Whether `part` occurs somewhere in `t`. -/
def contains (part : Text) : Text → Bool
  | [] => part.isEmpty
  | c :: cs => startsWith (c :: cs) part || contains part cs

/-- Splits at every `sep`; the parts joined by `sep` give the text back. -/
def splitOn (sep : UInt8) : Text → List Text
  | [] => [[]]
  | c :: cs =>
    if c = sep then [] :: splitOn sep cs
    else match splitOn sep cs with
      | [] => [[c]]
      | part :: parts => (c :: part) :: parts

/-- ASCII letters in lower case; all other bytes stay. -/
def lower (t : Text) : Text :=
  t.map fun c => if 65 ≤ c && c ≤ 90 then c + 32 else c

/-- ASCII letters in upper case; all other bytes stay. -/
def upper (t : Text) : Text :=
  t.map fun c => if 97 ≤ c && c ≤ 122 then c - 32 else c

/-- Drops the leading and trailing bytes of a class. -/
def trim (p : UInt8 → Bool) (t : Text) : Text :=
  ((t.dropWhile p).reverse.dropWhile p).reverse

/-! ## Classes of bytes -/

/-- `0` to `9`. -/
def isDigit (c : UInt8) : Bool :=
  48 ≤ c && c ≤ 57

/-- A letter among the first 256 code points. -/
def isLetter (c : UInt8) : Bool :=
  (65 ≤ c && c ≤ 90) || (97 ≤ c && c ≤ 122) || c = 0xAA || c = 0xB5 || c = 0xBA ||
    (0xC0 ≤ c && c ≠ 0xD7 && c ≠ 0xF7)

/-- White space among the first 256 code points. -/
def isSpace (c : UInt8) : Bool :=
  (9 ≤ c && c ≤ 13) || c = 32 || c = 0x85 || c = 0xA0

/-- Whether a byte is one of some ASCII characters. -/
def isOneOf (chars : String) (c : UInt8) : Bool :=
  (text chars).any (· == c)

/-- The value of a digit in base sixteen, either case. -/
def hexDigit? (c : UInt8) : Option Nat :=
  if isDigit c then some (c.toNat - 48)
  else if 97 ≤ c && c ≤ 102 then some (c.toNat - 87)
  else if 65 ≤ c && c ≤ 70 then some (c.toNat - 55)
  else none

/-- The number a run of decimal digits spells; `none` for no digits or another byte. -/
def toNat? (t : Text) : Option Nat :=
  if t.isEmpty then none
  else t.foldl (fun acc c => do
    let n ← acc
    if isDigit c then some (10 * n + (c.toNat - 48)) else none) (some 0)

end Text

end TypeShape
