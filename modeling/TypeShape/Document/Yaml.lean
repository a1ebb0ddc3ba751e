import TypeShape.Document.Flow

/-!
# YAML documents

The block structure of a document is given by indentation: a sequence is a run of lines that begin
with a dash at one indentation, a mapping a run of lines that begin with a key.  The items of a
sequence may stand at the indentation of the key it belongs to.  Everything else is a scalar or a
flow collection, which may run over the lines that follow.

Covered are block and flow collections, plain and quoted scalars and comments.  Anchors, tags,
block scalars and explicit keys are refused.
-/

namespace TypeShape.Yaml

/-- A line without the spaces in front of it. -/
structure Line where
  indent : Nat
  content : Text

/-- Counts the spaces in front of a line. -/
def Line.of (raw : Text) : Line :=
  ⟨(raw.takeWhile (· == 32)).length, raw.dropWhile (· == 32)⟩

/-- Whether a text holds nothing but white space and perhaps a comment. -/
def isVoid (t : Text) : Bool :=
  match t.dropWhile (fun c => isBlank c || c = 13) with
  | [] => true
  | c :: _ => c = Text.byte '#'

/-- Drops the lines in front that hold nothing. -/
def significant (lines : List Line) : List Line :=
  lines.dropWhile fun l => isVoid l.content

/-- What follows the dash of a sequence item. -/
def afterDash? : Text → Option Text
  | c :: cs => if c = Text.byte '-' && endsKey cs then some cs else none
  | [] => none

/-- The part of a text before a comment, and whether there is one; `blank` tells whether the byte
before was white space. -/
def beforeComment (blank : Bool) : Text → Text × Bool
  | [] => ([], false)
  | c :: cs =>
    if blank && c = Text.byte '#' then ([], true)
    else
      let (t, commented) := beforeComment (isBlank c) cs
      (c :: t, commented)

/-- Splits a text at the first colon that ends a key. -/
def splitKey? : Text → Option (Text × Text)
  | [] => none
  | c :: cs =>
    if c = Text.byte ':' && endsKey cs then some ([], cs)
    else (splitKey? cs).map fun (key, rest) => (c :: key, rest)

/-- The key that a line begins with, and what follows its colon. -/
def keyOf? (t : Text) : Option (Document × Text) :=
  match t with
  | [] => none
  | c :: cs =>
    if isQuote c then do
      let (key, rest) ← quotedScalar c cs
      match rest.dropWhile isBlank with
      | d :: ds => if d = Text.byte ':' && endsKey ds then some (key, ds) else none
      | [] => none
    else if startsPlain t then
      (splitKey? (beforeComment false t).1).map fun (key, rest) =>
        (.scalar false (Text.trim isBlank key), rest)
    else none

/-- The lines that continue a plain scalar whose lines are indented by `floor` or more, each without
its comment; after a comment the scalar does not go on. -/
def continuation (floor : Nat) : List Line → List Text × List Line
  | [] => ([], [])
  | l :: ls =>
    if l.content.all isGap then
      let (more, rest) := continuation floor ls
      -- Empty lines go on only if a line that holds something does.
      if more.isEmpty then ([], l :: ls) else ([] :: more, rest)
    else if l.indent < floor || isVoid l.content then ([], l :: ls)
    else
      let (body, commented) := beforeComment false l.content
      if commented then ([body], ls)
      else
        let (more, rest) := continuation floor ls
        (body :: more, rest)

/-- A scalar or a flow collection that begins on a line; the lines after it may belong to it. -/
def inlineNode (floor : Nat) (content : Text) (lines : List Line) : Option (Document × List Line) :=
  match content with
  | [] => some (nothing, lines)
  | c :: _ =>
    if c = Text.byte '[' || c = Text.byte '\x7b' || isQuote c then do
      let source := Text.join [lineFeed] (content :: lines.map (·.content))
      -- A flow collection may go on over several lines, so it is read from all that are left.
      let (node, rest) ← flowNode (source.length + 1) source
      let parts := Text.splitOn lineFeed rest
      if isVoid (parts.headD []) then
        pure (node, lines.drop (lines.length + 1 - parts.length))
      else none
    else if startsPlain content then
      let (body, commented) := beforeComment false content
      let (more, rest) := if commented then ([], lines) else continuation floor lines
      -- A colon that ends a key would make the scalar a mapping.
      if (body :: more).any fun t => (splitKey? t).isSome then none
      else some (.scalar false (Text.trim isGap (foldLines (Text.join [lineFeed] (body :: more)))), rest)
    else none

mutual

/-- The node that begins on the first line that holds something; a scalar goes on with lines
indented by `floor` or more. -/
def block : Nat → Nat → List Line → Option (Document × List Line)
  | 0, _, _ => none
  | fuel + 1, floor, lines =>
    match significant lines with
    | [] => some (nothing, [])
    | l :: ls =>
      if (afterDash? l.content).isSome then
        (items fuel l.indent (l :: ls)).map fun (ds, rest) => (.seq ds, rest)
      else if (keyOf? l.content).isSome then
        (entries fuel l.indent (l :: ls)).map fun (es, rest) => (.map es, rest)
      else inlineNode floor l.content ls

/-- The node on the lines after a dash or a key at indentation `indent`, where nothing follows on
the same line.  A sequence under a key may stand at the indentation of the key. -/
def below : Nat → Bool → Nat → List Line → Option (Document × List Line)
  | 0, _, _, _ => none
  | fuel + 1, underKey, indent, lines =>
    match significant lines with
    | [] => some (nothing, [])
    | l :: ls =>
      if indent < l.indent then block fuel (indent + 1) (l :: ls)
      -- Only under a key may a sequence stand as far left as what it belongs to.
      else if underKey && l.indent = indent && (afterDash? l.content).isSome then
        block fuel (indent + 1) (l :: ls)
      else some (nothing, l :: ls)

/-- The items of the sequence at an indentation. -/
def items : Nat → Nat → List Line → Option (List Document × List Line)
  | 0, _, _ => none
  | fuel + 1, indent, lines =>
    match significant lines with
    | [] => some ([], [])
    | l :: ls =>
      if l.indent ≠ indent then some ([], l :: ls)
      else match afterDash? l.content with
        | none => some ([], l :: ls)
        | some rest => do
          let (item, ls) ←
            if isVoid rest then below fuel false indent ls
            else
              let inner := Line.of rest
              -- What follows the dash stands further right than the dash, by the spaces between
              -- them.
              block fuel (indent + 1) (⟨indent + 1 + inner.indent, inner.content⟩ :: ls)
          let (more, ls) ← items fuel indent ls
          pure (item :: more, ls)

/-- The entries of the mapping at an indentation. -/
def entries : Nat → Nat → List Line → Option (List (Document × Document) × List Line)
  | 0, _, _ => none
  | fuel + 1, indent, lines =>
    match significant lines with
    | [] => some ([], [])
    | l :: ls =>
      if l.indent ≠ indent then some ([], l :: ls)
      else match keyOf? l.content with
        | none => some ([], l :: ls)
        | some (key, rest) => do
          let rest := rest.dropWhile isBlank
          let (value, ls) ←
            if isVoid rest then below fuel true indent ls
            else if (afterDash? rest).isSome then none
            else inlineNode (indent + 1) rest ls
          let (more, ls) ← entries fuel indent ls
          pure ((key, value) :: more, ls)

end

/-- Whether a line begins or ends a document. -/
def isDocumentMark (raw : Text) : Bool :=
  [text "---", text "..."].any fun mark => ((Text.afterLead? mark raw).map isVoid).getD false

/-- Whether a byte may occur in a document. -/
def isAllowed (c : UInt8) : Bool :=
  32 ≤ c && c ≠ 127 || c = 9 || c = 10 || c = 13

/-- The lines of the first document of a source, without the mark that may stand before it. -/
def documentLines (source : Text) : List Line :=
  let raws := (Text.splitOn lineFeed source).map fun l => Text.trim (· == 13) l
  let body := match raws.dropWhile isVoid with
    | l :: ls => if isDocumentMark l then ls else l :: ls
    | [] => []
  (body.takeWhile fun l => !isDocumentMark l).map Line.of

/-- The document that a source holds; an empty source holds nothing.  `none` if the source is not
well formed. -/
def parse? (source : Text) : Option Document :=
  if source.all isAllowed then
    match block (2 * source.length + 4) 0 (documentLines source) with
    | some (d, rest) => if (significant rest).isEmpty then some d else none
    | none => none
  else none

end TypeShape.Yaml
