import TypeShape.Document.Toml
import TypeShape.Document.Yaml
import TypeShape.Registry.Basic
import TypeShape.Text.Letter

/-!
# Declaration files

A declaration file lists type variables, classes and aliases; every type in it is a text in the
notation of type expressions.  This module turns a document into such a file and checks what can be
checked without a registry: names and types are there, kinds are known, and no name is declared
twice.
-/

namespace TypeShape

/-- The declaration of a type variable, as written. -/
structure VarEntry where
  name : Text := []
  bound : Text := []
  constraints : List Text := []
  deriving Repr

/-- The declaration of a member, as written. -/
structure MemberEntry where
  name : Text := []
  type : Text := []
  deriving Repr

/-- The declaration of a class, as written. -/
structure ClassEntry where
  name : Text := []
  kind : Text := []
  params : List Text := []
  bases : List Text := []
  members : List MemberEntry := []
  deriving Repr

/-- The declaration of an alias, as written. -/
structure AliasEntry where
  name : Text := []
  type : Text := []
  deriving Repr

/-- The contents of a declaration file, and the path that messages name it by. -/
structure DeclarationFile where
  path : Text
  vars : List VarEntry := []
  classes : List ClassEntry := []
  aliases : List AliasEntry := []
  deriving Repr

namespace FileFormat

/-- The format of a file by the extension of its path. -/
def ofPath (path : Text) : FileFormat :=
  let base := (Text.splitOn (Text.byte '/') path).getLastD []
  match (Text.splitOn (Text.byte '.') base).reverse with
  -- Without a dot there is no extension.
  | ext :: _ :: _ => if Text.lower ext = text "toml" then .toml else .yaml
  | _ => .yaml

/-- Whether a document stands for an omitted part. -/
def omits : FileFormat → Document → Bool
  | .yaml, d => d.isNull
  | .toml, _ => false

/-- The text of a scalar.  In one format a bare word is taken as written, in the other texts are
quoted. -/
def text? : FileFormat → Document → Option Text
  | .yaml, .scalar _ t => some t
  | .toml, .scalar true t => some t
  | _, _ => none

/-- The entry of a mapping under a name; one of the formats does not mind the case. -/
def entry? (format : FileFormat) (entries : List (Text × Document)) (name : Text) :
    Option Document :=
  match format with
  | .yaml => entries.lookup name
  | .toml => (entries.find? fun (n, _) => Text.lower n = name).map (·.2)

end FileFormat

namespace DeclarationFile

/-- The items of a sequence that are there, each read by `read`.  An omitted sequence is empty. -/
def readSeq {α : Type} (format : FileFormat) (read : Document → Option α) (d : Document) :
    Option (List α) :=
  if format.omits d then some []
  else match d with
    -- Items that are omitted do not count, not even as empty ones.
    | .seq items => (items.filter fun d => !format.omits d).mapM read
    | _ => none

/-- A text field of a mapping; one that is not there is empty. -/
def textField (format : FileFormat) (entries : List (Text × Document)) (name : String) :
    Option Text :=
  match format.entry? entries (text name) with
  | none => some []
  | some d => if format.omits d then some [] else format.text? d

/-- A field of a mapping that holds a sequence; one that is not there is empty. -/
def seqField {α : Type} (format : FileFormat) (read : Document → Option α)
    (entries : List (Text × Document)) (name : String) : Option (List α) :=
  match format.entry? entries (text name) with
  | none => some []
  | some d => readSeq format read d

/-- The entries of a mapping by name, without those whose name is omitted.  No name may occur
twice. -/
def entriesOf? (format : FileFormat) : Document → Option (List (Text × Document))
  | .map entries =>
    -- Also a name that is dropped below may not be repeated.
    if Document.hasRepeatedKey entries then none
    else (entries.filter fun (key, _) => !format.omits key).mapM fun (key, d) =>
      key.scalar?.map fun name => (name, d)
  | _ => none

/-- Reads the declaration of a variable. -/
def readVar (format : FileFormat) (d : Document) : Option VarEntry := do
  let es ← entriesOf? format d
  let name ← textField format es "name"
  let bound ← textField format es "bound"
  let constraints ← seqField format format.text? es "constraints"
  pure { name, bound, constraints }

/-- Reads the declaration of a member. -/
def readMember (format : FileFormat) (d : Document) : Option MemberEntry := do
  let es ← entriesOf? format d
  let name ← textField format es "name"
  let type ← textField format es "type"
  pure { name, type }

/-- Reads the declaration of a class. -/
def readClass (format : FileFormat) (d : Document) : Option ClassEntry := do
  let es ← entriesOf? format d
  let name ← textField format es "name"
  let kind ← textField format es "kind"
  let params ← seqField format format.text? es "params"
  let bases ← seqField format format.text? es "bases"
  let members ← seqField format (readMember format) es "members"
  pure { name, kind, params, bases, members }

/-- Reads the declaration of an alias. -/
def readAlias (format : FileFormat) (d : Document) : Option AliasEntry := do
  let es ← entriesOf? format d
  let name ← textField format es "name"
  let type ← textField format es "type"
  pure { name, type }

/-- Reads the contents of a file; `none` if some part has the wrong shape. -/
def ofDocument? (format : FileFormat) (path : Text) (d : Document) : Option DeclarationFile :=
  -- An empty document is a file that declares nothing.
  if format.omits d then some { path }
  else do
    let es ← entriesOf? format d
    let vars ← seqField format (readVar format) es "vars"
    let classes ← seqField format (readClass format) es "classes"
    let aliases ← seqField format (readAlias format) es "aliases"
    pure { path, vars, classes, aliases }

/-! ## Checks without a registry -/

/-- The kind that a word stands for; no word stands for a nominal class. -/
def kindOf? (word : Text) : Option ClassKind :=
  let w := Letter.lower word
  if w = [] || w = text "class" || w = text "nominal" then some .nominal
  else if w = text "protocol" || w = text "interface" then some .protocol
  else if w = text "record" then some .record
  else none

/-- `part[index]`. -/
def place (part : Text) (index : Nat) : Text :=
  part ++ Text.bracketed (Text.ofNat index)

/-- `part[index] (name)`. -/
def placeOf (part : Text) (index : Nat) (name : Text) : Text :=
  place part index ++ text " " ++ Text.parenthesized name

/-- Takes a name for a part of the file, unless it is taken. -/
def claim (part name : Text) (taken : Table Text) : Except FileFault (Table Text) :=
  match taken.find? name with
  | some previous => .error (.alreadyDeclared part name previous)
  | none => .ok (Table.put name part taken)

/-- Checks the variables from index `i` on. -/
def checkVars : Nat → List VarEntry → Table Text → Except FileFault (Table Text)
  | _, [], taken => .ok taken
  | i, v :: vs, taken => do
    let part := text "vars"
    if v.name.isEmpty then throw (.missingName (place part i))
    -- One constraint alone would be a bound.
    if v.constraints.length = 1 then throw (.singleConstraint (placeOf part i v.name))
    let taken ← claim part v.name taken
    checkVars (i + 1) vs taken

/-- Checks the members of a class from index `j` on. -/
def checkMembers (owner : Text) (i : Nat) : Nat → List MemberEntry → Except FileFault Unit
  | _, [] => .ok ()
  | j, m :: ms => do
    let part := place (text "classes") i ++ text ".members"
    if m.name.isEmpty then throw (.missingName (placeOf part j owner))
    if m.type.isEmpty then throw (.missingType (placeOf part j (owner ++ text "." ++ m.name)))
    checkMembers owner i (j + 1) ms

/-- Checks the classes from index `i` on. -/
def checkClasses : Nat → List ClassEntry → Table Text → Except FileFault (Table Text)
  | _, [], taken => .ok taken
  | i, c :: cs, taken => do
    let part := text "classes"
    if c.name.isEmpty then throw (.missingName (place part i))
    if (kindOf? c.kind).isNone then throw (.unknownKind (placeOf part i c.name) c.kind)
    let taken ← claim part c.name taken
    checkMembers c.name i 0 c.members
    checkClasses (i + 1) cs taken

/-- Checks the aliases from index `i` on. -/
def checkAliases : Nat → List AliasEntry → Table Text → Except FileFault (Table Text)
  | _, [], taken => .ok taken
  | i, a :: as, taken => do
    let part := text "aliases"
    if a.name.isEmpty then throw (.missingName (place part i))
    if a.type.isEmpty then throw (.missingType (placeOf part i a.name))
    let taken ← claim part a.name taken
    checkAliases (i + 1) as taken

/-- The first fault of a file in the order vars, classes, aliases. -/
def check (f : DeclarationFile) : Except Error Unit :=
  let outcome : Except FileFault (Table Text) := do
    -- The names of all three parts are taken from one list.
    let taken ← checkVars 0 f.vars []
    let taken ← checkClasses 0 f.classes taken
    checkAliases 0 f.aliases taken
  match outcome with
  | .ok _ => .ok ()
  | .error fault => .error (.file f.path fault)

/-- Writes out the kind of classes that have none. -/
def withDefaults (f : DeclarationFile) : DeclarationFile :=
  { f with classes := f.classes.map fun c =>
      if c.kind.isEmpty then { c with kind := ClassKind.nominal.name } else c }

/-- The checked file that a document holds. -/
def ofDocument (format : FileFormat) (path : Text) (d : Option Document) :
    Except Error DeclarationFile :=
  match d.bind (ofDocument? format path) with
  | none => .error (.document path format)
  | some f => do
    f.check
    pure f.withDefaults

/-- The checked file that a source holds, in the format that its path tells. -/
def parse (source path : Text) : Except Error DeclarationFile :=
  match FileFormat.ofPath path with
  | .yaml => ofDocument .yaml path (Yaml.parse? source)
  | .toml => ofDocument .toml path (Toml.parse? source)

end DeclarationFile

end TypeShape
