import TypeShape.Command.Basic
import TypeShape.Declaration.Search
import TypeShape.Document.Value
import TypeShape.Engine
import TypeShape.Package.Import
import TypeShape.Proto.Load
import TypeShape.Shape.Approximation
import TypeShape.Text.Words

/-!
# Running commands

A command is run in surroundings: files, environment variables, and a loader of host packages.  What
a flag does not say is taken from the environment, and else from the defaults.  The output of a
command is a text; nothing is printed if it fails.
-/

namespace TypeShape

/-- What a command sees of the machine it runs on. -/
structure Surroundings (m : Type → Type) where
  files : Files m
  /-- The value of an environment variable, if it is set. -/
  environment : Text → m (Option Text)
  /-- Loads the host packages that patterns name. -/
  packages : List Text → m (Except Error Packages)

namespace Command

/-! ## Output -/

/-- A line of output. -/
def line (t : Text) : Text :=
  t ++ text "\n"

/-- The answer to a question. -/
def verdict (answer : Bool) : Text :=
  line (text (if answer then "true" else "false"))

/-- A class as it is listed: applied to its own parameters, with its bases. -/
def listing (c : Class) : Text :=
  c.selfType.render ++
    if c.bases.isEmpty then [] else text " <: " ++ Text.commas (c.bases.map TypeExpr.render)

/-- The classes of a registry by kind, kinds and names in byte order; an empty `only` stands for all
kinds. -/
def listClasses (r : Registry) (only : Text) : Text :=
  let classes := r.classNames.filterMap r.class?
  let kinds := [ClassKind.nominal, .protocol, .record].filter fun k => only.isEmpty || k.name == only
  kinds.flatMap fun k =>
    match classes.filter fun c => c.kind = k with
    | [] => []
    | members => line k.name ++ members.flatMap fun c => line (text "  " ++ listing c)

/-- Bindings, one to a line, in the order of their names. -/
def listBindings (s : Subst) : Text :=
  (Table.sorted s).flatMap fun (name, t) => line (name ++ text " = " ++ t.render)

/-- A labelled line. -/
def labelled (label : String) (t : Text) : Text :=
  line (text label ++ text ": " ++ t)

/-- A description of a reduced type. -/
def description (reduced : Reduced) : Text :=
  let s := reduced.shape
  let vars := TypeExpr.distinctVars s.varOccurrences
  labelled "descriptor" s.render ++ labelled "depth" (Text.ofNat s.depth) ++
    (if vars.isEmpty then [] else labelled "variables" (Text.commas (vars.map (·.name)))) ++
    reduced.metadata.annotations.flatMap (labelled "constraint") ++
    (reduced.metadata.literals.flatMap fun values =>
      labelled "literals" (Text.bracketed (Text.join (text " ") (values.map Literal.plain)))) ++
    s.approximations.flatMap fun a => labelled "approximation" a.render

/-- What is said when help is asked for. -/
def overview : Text :=
  line (text "Usage: " ++ programName ++ text " COMMAND [ARGUMENTS]") ++
    all.flatMap fun c => line (text "  " ++ c.name)

/-- The version of a build; a development build has none. -/
def versionText (version commit date : Text) : Text :=
  if version = text "dev" then text "dev (built from source)"
  else version ++ text " (commit: " ++ commit ++ text ", built: " ++ date ++ text ")"

/-! ## Running -/

/-- Reads a type given as an argument. -/
def readType (r : Registry) (source : Text) : Except Error TypeExpr :=
  match r.parse source with
  | .ok t => .ok t
  | .error e => .error (.context (text "type " ++ Quoted.quote source) e)

/-- The value that a flag was given last. -/
def given? (args : Arguments) (flag : String) : Option Text :=
  (args.values.find? (text flag)).bind (·.getLast?)

/-- The output of a command on an engine; the arguments are as many as the command takes. -/
def answer (e : Engine) (i : Invocation) : Except Error Text :=
  let r := e.registry
  match i.command, i.arguments.positional with
  -- The template of `subtype` and the target of `inst` come second, the template of `unify` first.
  | subtype, [a, b] => do
    let inst ← readType r a
    let tmpl ← readType r b
    pure (verdict (e.isSubtypeTypes inst tmpl).1)
  | inst, [a, b] => do
    let (v, h) ← Document.readValue a
    let target ← readType r b
    pure (verdict (e.isInstance h v target).1)
  | infer, [a] => do
    let (v, h) ← Document.readValue a
    match (e.run (r.inferM h v e.maxDepth e.maxSample)).1 with
    | some s => pure (line s.render)
    -- A shape with a missing node has no text.
    | none => throw .hole
  | unify, [a, b] => do
    let tmpl ← readType r a
    let inst ← readType r b
    let bindings ← r.unify (r.expandAliases tmpl).shape (r.expandAliases inst).shape
    pure (listBindings bindings)
  | describe, [a] => do
    let t ← readType r a
    pure (description (r.expandAliases t).reduce)
  | classes, _ =>
    pure (listClasses r ((given? i.arguments "kind").getD []))
  | _, _ => throw (.usage [])

section

variable {m : Type → Type} [Monad m]

/-- The environment variable that stands for a flag. -/
def variableName (flag : Text) : Text :=
  Text.upper (programName ++ text "_" ++ flag.map fun c => if c = Text.byte '-' then Text.byte '_' else c)

/-- What the environment says about a flag; an empty variable says nothing. -/
def fromEnvironment (w : Surroundings m) (flag : Text) : m (Option Text) := do
  let found ← w.environment (variableName flag)
  pure (found.filter fun t => !t.isEmpty)

/-- The text of a flag. -/
def textSetting (w : Surroundings m) (args : Arguments) (flag : String) : m Text := do
  match given? args flag with
  | some v => pure v
  | none => do
    let found ← fromEnvironment w (text flag)
    pure (found.getD [])

/-- The number that a text stands for; zero if it is none. -/
def numberOf (t : Text) : Int :=
  match Integer.word t with
  | .ok n => n
  | .error _ => 0

/-- The number of a flag; in the environment it may have decimals, which do not count. -/
def numberSetting (w : Surroundings m) (args : Arguments) (flag : String) (default : Int) :
    m Int := do
  match given? args flag with
  | some v => pure (numberOf v)
  | none => do
    match ← fromEnvironment w (text flag) with
    | some t => pure (numberOf (Integer.withoutDecimals t))
    | none => pure default

/-- The texts of a flag, where a single empty one counts as none; in the environment they are
words. -/
def textsSetting (w : Surroundings m) (args : Arguments) (flag : String) (default : List Text) :
    m (List Text) := do
  match args.values.find? (text flag) with
  | some vs => pure (if vs = [[]] then [] else vs)
  | none => do
    match ← fromEnvironment w (text flag) with
    | some t => pure (Words.split t)
    | none => pure default

/-- Changes the registry of an engine. -/
def declaring (e : Engine) (act : Declaring Unit) : ExceptT Error m Engine :=
  match e.declare act with
  | (.ok (), e) => pure e
  | (.error cause, _) => throw cause

/-- The engine that a command works on: the settings, the declaration file, host packages and
protocol buffer files. -/
def prepare (w : Surroundings m) (args : Arguments) : ExceptT Error m Engine := do
  let maxDepth ← ExceptT.lift (numberSetting w args "max-depth" 10)
  let maxSample ← ExceptT.lift (numberSetting w args "max-sample" (-1))
  let e : Engine := { maxDepth, maxSample }
  let path ← ExceptT.lift (textSetting w args "registry")
  let e ← match ← ExceptT.mk (DeclarationFile.choose w.files path) with
    | none => pure e
    | some f => declaring e f.apply
  -- Nothing is loaded for a setting without entries.
  let patterns ← ExceptT.lift (textsSetting w args "go-package" [])
  let e ← if patterns.isEmpty then pure e else do
    let ps ← ExceptT.mk (w.packages patterns)
    declaring e ps.declareAll
  let names ← ExceptT.lift (textsSetting w args "proto" [])
  if names.isEmpty then pure e
  else do
    let paths ← ExceptT.lift (textsSetting w args "proto-path" [text "."])
    let files ← ExceptT.mk (Proto.load w.files paths names)
    declaring e (ProtoFile.importAll files names)

/-- Runs the program with arguments. -/
def run (w : Surroundings m) (args : List Text) : m (Except Error Text) :=
  match parse args with
  | .error e => pure (.error e)
  | .ok none => pure (.ok overview)
  | .ok (some i) => do
    match ← ExceptT.run (prepare w i.arguments) with
    | .error e => pure (.error e)
    | .ok e => pure (answer e i)

end

end Command

end TypeShape
