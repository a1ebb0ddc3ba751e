import TypeShape.Document.Quoted

/-!
# Flow collections of YAML documents

A flow sequence stands in brackets and a flow mapping in braces; between their parts there may be
white space, line breaks and comments.  A mapping entry without value maps its key to nothing, and
a pair inside a sequence is a mapping with one entry.  A question mark may stand before a key, even
if nothing else of it is written; apart from that nothing begins with a question mark or a colon.
-/

namespace TypeShape.Yaml

/-- Drops a comment up to the end of its line. -/
def dropComment (t : Text) : Text :=
  t.dropWhile (· != lineFeed)

/-- Whether a byte separates the parts of a collection. -/
def isGap (c : UInt8) : Bool :=
  isBlank c || c = lineFeed || c = 13

/-- Drops white space and comments in front, through at most `fuel` comments. -/
def dropGapsFuel : Nat → Text → Text
  | 0, t => t
  | fuel + 1, t =>
    match t.dropWhile isGap with
    | [] => []
    | c :: cs => if c = Text.byte '#' then dropGapsFuel fuel (dropComment cs) else c :: cs

/-- Drops white space and comments in front. -/
def dropGaps (t : Text) : Text :=
  dropGapsFuel (t.length + 1) t

/-- Whether a byte ends a plain scalar inside a flow collection. -/
def isFlowMark (c : UInt8) : Bool :=
  Text.isOneOf ",?[]\x7b\x7d" c

/-- The rest of a plain scalar in a flow collection, and what follows it; `blank` tells whether the
byte before was white space, after which a comment may begin. -/
def plainBody (blank : Bool) : Text → Text × Text
  | [] => ([], [])
  | c :: cs =>
    if isFlowMark c || (c = Text.byte ':' && endsKey cs) || (blank && c = Text.byte '#') then
      ([], c :: cs)
    else
      let (t, rest) := plainBody (isGap c) cs
      (c :: t, rest)

/-- A plain scalar in a flow collection. -/
def plainScalar (t : Text) : Option (Document × Text) :=
  if startsPlain t && !(t.head?.any (Text.isOneOf "?:" ·)) then
    let (body, rest) := plainBody false t
    some (.scalar false (foldLines (Text.trim isGap body)), rest)
  else none

/-- Nothing, as a document. -/
def nothing : Document := .scalar false []

mutual

/-- The node at the front of a text, and what follows it. -/
def flowNode : Nat → Text → Option (Document × Text)
  | 0, _ => none
  | fuel + 1, t =>
    match dropGaps t with
    | [] => none
    | c :: cs =>
      if c = Text.byte '[' then (flowItems fuel cs).map fun (ds, rest) => (.seq ds, rest)
      else if c = Text.byte '\x7b' then (flowEntries fuel cs).map fun (es, rest) => (.map es, rest)
      else if isQuote c then quotedScalar c cs
      else plainScalar (c :: cs)

/-- The value of an entry whose key stands before the text: nothing unless there is a colon and
something after it. -/
def flowValue : Nat → Text → Option (Document × Text)
  | 0, _ => none
  | fuel + 1, t =>
    match dropGaps t with
    | c :: cs =>
      if c = Text.byte ':' then
        match dropGaps cs with
        | [] => none
        | d :: ds =>
          if d = Text.byte ',' || d = Text.byte ']' || d = Text.byte '\x7d' then
            some (nothing, d :: ds)
          else flowNode fuel (d :: ds)
      else some (nothing, c :: cs)
    | [] => none

/-- The key after a question mark: nothing if something else follows at once. -/
def flowKey : Nat → Text → Option (Document × Text)
  | 0, _ => none
  | fuel + 1, t =>
    match dropGaps t with
    | [] => none
    | c :: cs =>
      if Text.isOneOf ":,]\x7d" c then some (nothing, c :: cs) else flowNode fuel (c :: cs)

/-- The items of a sequence up to its closing bracket. -/
def flowItems : Nat → Text → Option (List Document × Text)
  | 0, _ => none
  | fuel + 1, t =>
    match dropGaps t with
    | [] => none
    | c :: cs =>
      if c = Text.byte ']' then some ([], cs)
      else do
        -- An item with a mark before it, or with a colon after it, is a mapping of one entry.
        let marked := c = Text.byte '?'
        let (node, rest) ← if marked then flowKey fuel cs else flowNode fuel (c :: cs)
        let paired := marked || (dropGaps rest).head? == some (Text.byte ':')
        let (value, rest) ← if paired then flowValue fuel rest else pure (nothing, rest)
        let item := if paired then Document.map [(node, value)] else node
        match dropGaps rest with
        | [] => none
        | d :: ds =>
          if d = Text.byte ',' then (flowItems fuel ds).map fun (is, rest) => (item :: is, rest)
          else if d = Text.byte ']' then some ([item], ds)
          else none

/-- The entries of a mapping up to its closing brace. -/
def flowEntries : Nat → Text → Option (List (Document × Document) × Text)
  | 0, _ => none
  | fuel + 1, t =>
    match dropGaps t with
    | [] => none
    | c :: cs =>
      if c = Text.byte '\x7d' then some ([], cs)
      else do
        let (key, rest) ← if c = Text.byte '?' then flowKey fuel cs else flowNode fuel (c :: cs)
        let (value, rest) ← flowValue fuel rest
        match dropGaps rest with
        | [] => none
        | d :: ds =>
          if d = Text.byte ',' then
            (flowEntries fuel ds).map fun (es, rest) => ((key, value) :: es, rest)
          else if d = Text.byte '\x7d' then some ([(key, value)], ds)
          else none

end

end TypeShape.Yaml
