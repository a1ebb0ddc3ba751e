import TypeShape.Text.Utf8

/-!
# Regular expressions

The regular expressions of string constraints: characters, classes in brackets, the wildcard,
groups, alternatives, the three repetitions, and the anchors at the ends of the text.  A pattern
matches a text if it matches some part of it.
-/

namespace TypeShape

/-- A regular expression over code points. -/
inductive Regex where
  | empty
  | start
  | finish
  /-- One code point in, or with `negated` outside, some ranges. -/
  | oneOf (negated : Bool) (ranges : List (Nat × Nat))
  | seq (first second : Regex)
  | alt (first second : Regex)
  | star (body : Regex)
  deriving Repr

namespace Regex

/-- One or more. -/
def plus (r : Regex) : Regex := seq r (star r)

/-- None or one. -/
def maybe (r : Regex) : Regex := alt r empty

/-- A single code point. -/
def char (c : Nat) : Regex := oneOf false [(c, c)]

/-- Adds the positions reached from those of `frontier` to `found`, at most `fuel` times. -/
def closure (step : Nat → List Nat) : Nat → List Nat → List Nat → List Nat
  | 0, found, _ => found
  | fuel + 1, found, frontier =>
    let new := (frontier.flatMap step).eraseDups.filter fun p => !found.contains p
    if new.isEmpty then found else closure step fuel (found ++ new) new

/-- The positions at which a match that begins at a position may end. -/
def ends (s : Array Nat) : Regex → Nat → List Nat
  | empty, p => [p]
  | start, p => if p = 0 then [p] else []
  | finish, p => if p = s.size then [p] else []
  | oneOf negated ranges, p =>
    match s[p]? with
    | none => []
    | some c =>
      if (ranges.any fun (lo, hi) => lo ≤ c && c ≤ hi) != negated then [p + 1] else []
  | seq a b, p => (ends s a p).flatMap (ends s b)
  | alt a b, p => ends s a p ++ ends s b p
  | star a, p => closure (ends s a) (s.size + 1) [p] [p]

/-- Whether the expression matches some part of a text; stray bytes count as replacement
characters. -/
def isMatch (r : Regex) (t : Text) : Bool :=
  let s := ((Utf8.pieces t).map fun
    | .rune c => c
    | .stray _ => Utf8.replacement).toArray
  (List.range (s.size + 1)).any fun p => !(ends s r p).isEmpty

/-! ## Reading -/

/-- The ranges of an escaped class letter, and whether they are negated. -/
def classEscape? (c : Nat) : Option (Bool × List (Nat × Nat)) :=
  let digits := [(48, 57)]
  let words := [(48, 57), (65, 90), (95, 95), (97, 122)]
  let spaces := [(9, 10), (12, 13), (32, 32)]
  match Char.ofNat c with
  | 'd' => some (false, digits)
  | 'D' => some (true, digits)
  | 'w' => some (false, words)
  | 'W' => some (true, words)
  | 's' => some (false, spaces)
  | 'S' => some (true, spaces)
  | _ => none

/-- Whether a code point stands for itself after a backslash. -/
def isEscapable (c : Nat) : Bool :=
  33 ≤ c && c ≤ 126 && !(48 ≤ c && c ≤ 57) && !(65 ≤ c && c ≤ 90) && !(97 ≤ c && c ≤ 122)

/-- The items of a class in brackets, up to its closing bracket.  `first` tells that no item was
read yet, when a closing bracket stands for itself. -/
def classItems? (first : Bool) : List Nat → Option (List (Nat × Nat) × List Nat)
  | [] => none
  | 93 :: rest =>
    -- A closing bracket that stands first is an item.
    if first then do
      let (items, rest) ← classItems? false rest
      pure ((93, 93) :: items, rest)
    else some ([], rest)
  -- A negated class cannot stand in brackets: its ranges are those that it leaves out.
  | 92 :: c :: rest => do
    let own ← match classEscape? c with
      | some (false, ranges) => some ranges
      | some (true, _) => none
      | none => if isEscapable c then some [(c, c)] else none
    let (items, rest) ← classItems? false rest
    pure (own ++ items, rest)
  -- A dash before the closing bracket stands for itself.
  | lo :: 45 :: hi :: rest =>
    if hi = 93 then do
      let (items, rest) ← classItems? false (45 :: hi :: rest)
      pure ((lo, lo) :: items, rest)
    else if lo ≤ hi && hi ≠ 92 then do
      let (items, rest) ← classItems? false rest
      pure ((lo, hi) :: items, rest)
    else none
  | c :: rest => do
    let (items, rest) ← classItems? false rest
    pure ((c, c) :: items, rest)

mutual

/-- Alternatives with bars between them. -/
def parseAlternatives? : Nat → List Nat → Option (Regex × List Nat)
  | 0, _ => none
  | fuel + 1, cs => do
    let (first, rest) ← parseSequence? fuel cs
    match rest with
    | 124 :: rest =>
      let (second, rest) ← parseAlternatives? fuel rest
      pure (alt first second, rest)
    | rest => pure (first, rest)

/-- Repeated atoms, one after the other. -/
def parseSequence? : Nat → List Nat → Option (Regex × List Nat)
  | 0, _ => none
  | fuel + 1, cs =>
    match cs with
    | [] => some (empty, [])
    | c :: _ =>
      if c = 124 || c = 41 then some (empty, cs)
      else do
        let (first, rest) ← parseAtom? fuel cs
        -- An atom is repeated by at most one mark.
        let (first, rest) ← match rest with
          | 42 :: rest => pure (star first, rest)
          | 43 :: rest => pure (plus first, rest)
          | 63 :: rest => pure (maybe first, rest)
          | rest => pure (first, rest)
        let (others, rest) ← parseSequence? fuel rest
        pure (seq first others, rest)

/-- An atom. -/
def parseAtom? : Nat → List Nat → Option (Regex × List Nat)
  | 0, _ => none
  | fuel + 1, cs =>
    match cs with
    | [] => none
    -- The ends of the text, any code point but a line feed, classes, groups, escapes.
    | 94 :: rest => some (start, rest)
    | 36 :: rest => some (finish, rest)
    | 46 :: rest => some (oneOf true [(10, 10)], rest)
    | 91 :: 94 :: rest => do
      let (items, rest) ← classItems? true rest
      pure (oneOf true items, rest)
    | 91 :: rest => do
      let (items, rest) ← classItems? true rest
      pure (oneOf false items, rest)
    | 40 :: rest => do
      let (body, rest) ← parseAlternatives? fuel rest
      match rest with
      | 41 :: rest => pure (body, rest)
      | _ => none
    | 92 :: c :: rest =>
      match classEscape? c with
      | some (negated, ranges) => some (oneOf negated ranges, rest)
      | none => if isEscapable c then some (char c, rest) else none
    -- Marks of repetition and closing brackets are no atoms.
    | c :: rest =>
      if c = 42 || c = 43 || c = 63 || c = 41 || c = 92 then none else some (char c, rest)

end

/-- The regular expression that a text spells. -/
def parse? (t : Text) : Option Regex := do
  let cs ← (Utf8.pieces t).mapM fun
    | .rune c => some c
    | .stray _ => none
  let (r, rest) ← parseAlternatives? (4 * cs.length + 4) cs
  if rest.isEmpty then some r else none

end Regex

end TypeShape
