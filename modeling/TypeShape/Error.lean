import TypeShape.Text.Quoted

/-!
# Errors

Every way in which an operation of the library can fail is a cause of its own here, and the
wording of all of them is in `Error.message` and the `message` functions of the causes that it is
built from.
-/

namespace TypeShape

/-- Nesting beyond this many levels is refused in matching and importing. -/
def maxRecursion : Nat := 256

/-- Why a text is no type expression.  A `token` is the text of the token found. -/
inductive ParseFault where
  /-- A string has no closing quote. -/
  | unterminated
  /-- A byte begins no token. -/
  | strange (byte : UInt8)
  /-- Something follows a complete expression. -/
  | unexpected (token : Text)
  | expected (what token : Text)
  | notOneArgument (constructor : Text)
  /-- A name that stands for no class was given arguments. -/
  | noArguments (name : Text)
  | metadata (token : Text)
  | badString (token : Text)
  | badNumber (token : Text)
  | badLiteral (token : Text)
  deriving DecidableEq, Repr

/-- The wording of a fault in a type expression. -/
def ParseFault.message : ParseFault → Text
  | unterminated => text "unterminated string"
  | strange byte => text "unexpected character " ++ Quoted.quoteRune byte.toNat
  | unexpected token => text "unexpected " ++ Quoted.quote token
  | expected what token => text "expected " ++ what ++ text ", got " ++ Quoted.quote token
  | notOneArgument constructor => constructor ++ text " takes exactly one argument"
  | noArguments name => Quoted.quote name ++ text " cannot take type arguments"
  | metadata token => text "Annotated metadata must be a string, got " ++ Quoted.quote token
  | badString token => text "bad string " ++ Quoted.quote token
  | badNumber token => text "bad number " ++ Quoted.quote token
  | badLiteral token => text "unsupported literal " ++ Quoted.quote token

/-- Why a declaration is refused. -/
inductive DeclarationFault where
  | nameRequired
  | nameReserved
  | isVariable
  | isClass
  | duplicateParameter (name : Text)
  | baseNotClass (base : Text)
  | inheritsItself
  | unknownBase (name : Text)
  | duplicateMember (name : Text)
  /-- A variable is declared twice with different bounds or constraints. -/
  | conflictingVariable
  | invalidAlias
  deriving DecidableEq, Repr

/-- The wording of a fault in a declaration. -/
def DeclarationFault.message : DeclarationFault → Text
  | nameRequired => text "name is required"
  | nameReserved => text "name is reserved"
  | isVariable => text "name is already a type variable"
  | isClass => text "name is already a class"
  | duplicateParameter name => text "duplicate type parameter " ++ name
  | baseNotClass base => text "base must be a class: " ++ base
  | inheritsItself => text "class cannot inherit from itself"
  | unknownBase name => text "unknown base " ++ name
  | duplicateMember name => text "duplicate member " ++ name
  | conflictingVariable => text "conflicting type variable declaration"
  | invalidAlias => text "invalid alias name"

/-- Why a template cannot be unified with an instance. -/
inductive MismatchReason where
  | tooDeep
  | origin (instanceName templateName : Text)
  | noArguments
  | arity (expected got : Nat)
  /-- One side has a parameter list where the other has a single type. -/
  | slot (index : Nat)
  | slotArity (index expected got : Nat)
  deriving DecidableEq, Repr

/-- The wording of a mismatch. -/
def MismatchReason.message : MismatchReason → Text
  | tooDeep => text "nesting deeper than " ++ Text.ofNat maxRecursion
  | origin i t => i ++ text " does not satisfy " ++ t
  | noArguments => text "instance has no type arguments"
  | arity expected got =>
    text "expected " ++ Text.ofNat expected ++ text " type arguments, got " ++ Text.ofNat got
  | slot index => text "argument " ++ Text.ofNat index ++ text " differs in shape"
  | slotArity index expected got =>
    text "argument " ++ Text.ofNat index ++ text ": expected " ++ Text.ofNat expected ++
      text " parameters, got " ++ Text.ofNat got

/-- Why a shape has no type expression. -/
inductive MalformedReason where
  | callableArguments
  | callableParameters
  | typeOfGroup
  | strayGroup
  deriving DecidableEq, Repr

/-- The wording of a malformed shape. -/
def MalformedReason.message : MalformedReason → Text
  | callableArguments => text "callable needs parameters and a return type"
  | callableParameters => text "callable parameters must be a group"
  | typeOfGroup => text "type-of takes a single type"
  | strayGroup => text "parameter group outside a callable"

/-- Why a type or a value is outside what value schemas cover. -/
inductive UnsupportedReason where
  | tooDeep (type : Text)
  /-- A type or a class without value schema, as it prints. -/
  | noSchema (type : Text)
  | mappingKeys
  | method (record member : Text)
  | literal (value : Text)
  | selfReferential
  | encoding
  deriving DecidableEq, Repr

/-- The wording of an unsupported type or value. -/
def UnsupportedReason.message : UnsupportedReason → Text
  | tooDeep type => type ++ text " nests too deeply"
  | noSchema type => type
  | mappingKeys => text "mappings need String keys"
  | method record member => text "record " ++ record ++ text " has method " ++ member
  | literal value => text "literal " ++ value
  | selfReferential => text "value is self-referential"
  | encoding => text "encoding value: no such value in schemas"

/-- Why the contents of a declaration file are refused. -/
inductive FileFault where
  | missingName (place : Text)
  | missingType (place : Text)
  | singleConstraint (place : Text)
  | unknownKind (place kind : Text)
  | alreadyDeclared (part name previous : Text)
  deriving DecidableEq, Repr

/-- The wording of a fault in a declaration file. -/
def FileFault.message : FileFault → Text
  | missingName place => place ++ text ": name is required"
  | missingType place => place ++ text ": type is required"
  | singleConstraint place => place ++ text ": a single constraint should be a bound"
  | unknownKind place kind => place ++ text ": unknown kind " ++ Quoted.quote kind
  | alreadyDeclared part name previous =>
    part ++ text " " ++ Quoted.quote name ++ text " already declared in " ++ previous

/-- The two formats of declaration files. -/
inductive FileFormat where
  | yaml
  | toml
  deriving DecidableEq, Repr

/-- The name of a file format. -/
def FileFormat.name : FileFormat → Text
  | yaml => text "yaml"
  | toml => text "toml"

/-- A failure of some operation of the library. -/
inductive Error where
  | parse (source : Text) (position : Nat) (fault : ParseFault)
  | unknownType (name : Text)
  | declaration (name : Text) (fault : DeclarationFault)
  | mismatch (templateText instanceText : Text) (reason : MismatchReason)
  /-- The members or bindings of a class could not be worked out. -/
  | evaluation (className : Text) (cause : Error)
  | inheritanceTooDeep
  | missingParameters (expected got : Nat)
  | unresolvedOptional (shape : Text) (present : Nat)
  | malformed (shape : Text) (reason : MalformedReason)
  | unsupported (reason : UnsupportedReason)
  /-- The schema of a type, with the constraints written in it, is not well formed. -/
  | schema (target : Text)
  /-- A value was rejected at a place inside it. -/
  | rejected (target path : Text)
  | unreadable (path : Text)
  | notFound (path : Text)
  | notDirectory (path : Text)
  | document (path : Text) (format : FileFormat)
  | file (path : Text) (fault : FileFault)
  | value (source : Text)
  | protoSource
  /-- The command line cannot be understood. -/
  | usage (complaint : Text)
  /-- A descriptor built by hand has a hole where a node is needed. -/
  | hole
  /-- A failure together with what was being done. -/
  | context (doing : Text) (cause : Error)
  deriving DecidableEq, Repr

namespace Error

/-- The wording of a rejected value. -/
def rejection (target path complaint : Text) : Text :=
  text "value does not match " ++ target ++ text ": " ++
    (if path.isEmpty then [] else path ++ text ": ") ++ complaint

/-- The wording of a failure. -/
def message : Error → Text
  | parse source position fault =>
    text "parse " ++ Quoted.quote source ++ text " at " ++ Text.ofNat position ++ text ": " ++
      fault.message
  | unknownType name => text "unknown type: " ++ name
  | declaration name fault => text "declaring " ++ name ++ text ": " ++ fault.message
  | mismatch t i reason =>
    text "cannot unify " ++ t ++ text " with " ++ i ++ text ": " ++ reason.message
  | evaluation name cause => text "evaluating " ++ name ++ text ": " ++ cause.message
  | inheritanceTooDeep => text "inheritance deeper than " ++ Text.ofNat maxRecursion
  | missingParameters expected got =>
    text "missing generic parameter: expected " ++ Text.ofNat expected ++
      text " arguments, got " ++ Text.ofNat got
  | unresolvedOptional shape present =>
    text "cannot resolve " ++ shape ++ text ": expected exactly one non-Nil branch, got " ++
      Text.ofNat present
  | malformed shape reason =>
    text "malformed descriptor " ++ shape ++ text ": " ++ reason.message
  | unsupported reason => text "no value schema for type: " ++ reason.message
  | schema target => text "compiling schema for " ++ target
  | rejected target path => rejection target path (text "value rejected by schema")
  | unreadable path =>
    text "reading declarations " ++ path ++ text ": read " ++ path ++
      text ": is a directory"
  | notFound path =>
    text "reading declarations " ++ path ++ text ": open " ++ path ++
      text ": no such file or directory"
  | notDirectory path =>
    text "reading declarations " ++ path ++ text ": open " ++ path ++ text ": not a directory"
  | document path format =>
    text "parsing " ++ path ++ text ": " ++ format.name ++ text ": malformed document"
  | file path fault => path ++ text ": " ++ fault.message
  | value source => text "value " ++ Quoted.quote source ++ text ": yaml: malformed document"
  | protoSource => text "parsing proto: malformed source"
  | usage complaint => complaint
  | hole => text "descriptor with a hole"
  | context doing cause => doing ++ text ": " ++ cause.message

end Error

end TypeShape
