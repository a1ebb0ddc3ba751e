import TypeShape.Text.Basic

/-!
# Comma-separated values

A record is a line of fields with commas between them.  A field may stand in double quotes; then it
may hold commas and line breaks, and a quote inside it is written twice.  Empty lines in front of a
record do not count, and what follows its last line is not read.
-/

namespace TypeShape.Separated

/-- Why a text holds no record.  Lines and columns are counted from one, columns in bytes. -/
inductive Fault where
  /-- All lines are empty. -/
  | empty
  /-- A quote stands in a field that does not begin with one. -/
  | bareQuote (line column : Nat)
  /-- A quoted field has no closing quote, or goes on after it.  The record began at `start`. -/
  | strayQuote (start line column : Nat)
  deriving DecidableEq, Repr

namespace Fault

/-- Where a record is faulty. -/
def place (start line column : Nat) : Text :=
  (if start = line then [] else text "record on line " ++ Text.ofNat start ++ text "; ") ++
    text "parse error on line " ++ Text.ofNat line ++ text ", column " ++ Text.ofNat column ++
    text ": "

/-- The wording of a fault. -/
def message : Fault → Text
  | empty => text "EOF"
  | bareQuote line column => place line line column ++ text "bare \" in non-quoted-field"
  | strayQuote start line column =>
    place start line column ++ text "extraneous or missing \" in quoted-field"

end Fault

/-- Line breaks as single line feeds; a carriage return at the very end is dropped. -/
def normalize : Text → Text
  | [] => []
  | [c] => if c = 13 then [] else [c]
  | c :: d :: cs => if c = 13 && d = 10 then normalize (d :: cs) else c :: normalize (d :: cs)

/-- What has been seen of the current field. -/
inductive Place where
  /-- Nothing. -/
  | start
  /-- The beginning of a field without quotes. -/
  | bare
  /-- The opening quote and what follows it. -/
  | quoted
  /-- A quote that closes the field unless another one follows. -/
  | closing
  deriving DecidableEq, Repr

/-- Where the reader is. -/
structure Cursor where
  /-- The line that the record begins at. -/
  first : Nat
  line : Nat
  column : Nat := 1

/-- The cursor after a byte. -/
def Cursor.next (cursor : Cursor) : Cursor :=
  { cursor with column := cursor.column + 1 }

/-- Reads the rest of a record: `field` is what the current field holds so far. -/
def fields (place : Place) (cursor : Cursor) (field : Text) : Text → Except Fault (List Text)
  | [] =>
    if place = .quoted then .error (.strayQuote cursor.first cursor.line cursor.column)
    else .ok [field]
  | c :: cs =>
    match place with
    -- Inside quotes, commas and ends of lines are text.
    | .quoted =>
      if c = 34 then fields .closing cursor.next field cs
      else if c = 10 && !cs.isEmpty then
        fields .quoted { cursor with line := cursor.line + 1, column := 1 } (field ++ [c]) cs
      else fields .quoted cursor.next (field ++ [c]) cs
    -- A second quote after a quote is a quote in the text; else the field must be over.
    | .closing =>
      if c = 34 then fields .quoted cursor.next (field ++ [c]) cs
      else if c = 44 then (fields .start cursor.next [] cs).map (field :: ·)
      else if c = 10 then .ok [field]
      else .error (.strayQuote cursor.first cursor.line (cursor.column - 1))
    -- Outside, a quote may only begin a field.
    | place =>
      if c = 44 then (fields .start cursor.next [] cs).map (field :: ·)
      else if c = 10 then .ok [field]
      else if c = 34 then
        if place = .start then fields .quoted cursor.next [] cs
        else .error (.bareQuote cursor.line cursor.column)
      else fields .bare cursor.next (field ++ [c]) cs

/-- The fields of the first record of a text; an empty text has none. -/
def read (t : Text) : Except Fault (List Text) :=
  if t.isEmpty then .ok []
  else
    let lines := normalize t
    let skipped := (lines.takeWhile (· = 10)).length
    match lines.drop skipped with
    | [] => .error .empty
    | rest => fields .start { first := skipped + 1, line := skipped + 1 } [] rest

end TypeShape.Separated
