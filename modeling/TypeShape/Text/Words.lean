import TypeShape.Text.Utf8

/-!
# Words

The words of a text are its longest parts without white space.
-/

namespace TypeShape.Words

/-- Whether a code point is white space. -/
def isSpace (r : Nat) : Bool :=
  (9 ≤ r && r ≤ 13) || r = 0x20 || r = 0x85 || r = 0xA0 || r = 0x1680 ||
    (0x2000 ≤ r && r ≤ 0x200A) || r = 0x2028 || r = 0x2029 || r = 0x202F || r = 0x205F || r = 0x3000

/-- The bytes of a piece of text; nothing for white space. -/
def bytes? : Utf8.Piece → Option Text
  | .rune r => if isSpace r then none else some (Utf8.encode r)
  | .stray c => some [c]

/-- The parts between white space, empty ones among them. -/
def parts : List Utf8.Piece → List Text
  | [] => [[]]
  | p :: ps =>
    match bytes? p, parts ps with
    | none, rest => [] :: rest
    | some t, [] => [t]
    | some t, part :: rest => (t ++ part) :: rest

/-- The words of a text, in order. -/
def split (t : Text) : List Text :=
  (parts (Utf8.pieces t)).filter fun part => !part.isEmpty

end TypeShape.Words
