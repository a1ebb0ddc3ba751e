import TypeShape.Constraint.Regex
import TypeShape.Value.Datum

/-!
# Constraints on data

A constraint says which data are accepted: data of a kind, one literal datum, numbers and strings
on one side of a bound, strings that match a pattern, lists and structures of accepted parts, and
the alternatives and conjunctions of constraints.

An atom is a constraint that is neither an alternative nor a conjunction.  A constraint is a list of
alternatives, each of them a conjunction of atoms.
-/

namespace TypeShape

/-- The kinds of data that have a name in constraints. -/
inductive DataKind where
  | int
  | float
  | number
  | string
  | bool
  | bytes
  deriving DecidableEq, Repr

/-- The comparisons of a bound. -/
inductive Comparison where
  | lt
  | le
  | gt
  | ge
  | ne
  deriving DecidableEq, Repr

/-- A constraint on data. -/
inductive Constraint where
  /-- Every datum. -/
  | top
  | kind (kind : DataKind)
  | literal (value : Datum)
  /-- Data that compare with an operand as stated, of the same kind as the operand. -/
  | bound (op : Comparison) (operand : Datum)
  /-- Strings that match, or with `negated` do not match, a pattern. -/
  | pattern (negated : Bool) (regex : Regex)
  /-- Lists of any length. -/
  | listOf (elem : Constraint)
  /-- Lists of exactly these elements. -/
  | tuple (elems : List Constraint)
  /-- Structures of whatever fields. -/
  | openStruct
  /-- Structures whose every field is accepted. -/
  | fieldsOf (elem : Constraint)
  /-- Structures of exactly these fields. -/
  | closed (fields : List (Text × Constraint))
  | either (first second : Constraint)
  | both (first second : Constraint)
  deriving Repr, Inhabited

namespace Comparison

/-- Whether an order satisfies a comparison. -/
def holds : Comparison → Ordering → Bool
  | lt, o => o == .lt
  | le, o => o != .gt
  | gt, o => o == .gt
  | ge, o => o != .lt
  | ne, o => o != .eq

end Comparison

namespace Constraint

/-! ## Data without parts -/

/-- The byte order of two texts. -/
def compareText (a b : Text) : Ordering :=
  if a = b then .eq else if Text.le a b then .lt else .gt

/-- The number of a numeric datum. -/
def number? : Datum → Option Binary.Extended
  | .int n => some (.finite (.ofInt n))
  | .float x => some x
  | _ => none

/-- Whether two data without parts are equal in kind and value. -/
def sameScalar : Datum → Datum → Bool
  | .null, .null => true
  | .bool a, .bool b => a == b
  | .int a, .int b => a == b
  | .float a, .float b => a.compare b == .eq
  | .string a, .string b => a == b
  | .bytes a, .bytes b => a == b
  | _, _ => false

/-- Whether a datum is of a kind. -/
def ofKind : DataKind → Datum → Bool
  | .int, .int _ => true
  | .float, .float _ => true
  | .number, .int _ => true
  | .number, .float _ => true
  | .string, .string _ => true
  | .bool, .bool _ => true
  | .bytes, .bytes _ => true
  | _, _ => false

/-- Whether a datum is within a bound. -/
def withinBound (op : Comparison) (operand d : Datum) : Bool :=
  match operand, d with
  | .string a, .string b => op.holds (compareText b a)
  | .bytes a, .bytes b => op.holds (compareText b a)
  | .bool a, .bool b => op = .ne && a != b
  | .null, d =>
    match d with
    | .null => false
    | _ => op = .ne
  | operand, d =>
    match number? operand, number? d with
    | some a, some b => op.holds (b.compare a)
    | _, _ => false

/-- Whether an atom admits a datum without parts. -/
def atomAdmits (d : Datum) : Constraint → Bool
  | .kind k => ofKind k d
  | .literal v => sameScalar v d
  | .bound op operand => withinBound op operand d
  | .pattern negated regex =>
    match d with
    | .string s => regex.isMatch s != negated
    | _ => false
  | _ => true

/-! ## Kinds -/

/-- A set of kinds of data, by their places in the list null, truth values, whole numbers,
floating-point numbers, strings, bytes, lists, structures. -/
abbrev Kinds := List Bool

namespace Kinds

/-- The kinds common to two sets. -/
def common (a b : Kinds) : Kinds :=
  List.zipWith (· && ·) a b

/-- All kinds. -/
def all : Kinds := List.replicate 8 true

/-- The set of one kind. -/
def one (i : Nat) : Kinds := (List.range 8).map (· == i)

/-- Whole numbers. -/
def wholeNumbers : Kinds := one 2

/-- Floating-point numbers. -/
def floats : Kinds := one 3

/-- Whole and floating-point numbers. -/
def numbers : Kinds := (List.range 8).map fun i => i == 2 || i == 3

/-- Lists. -/
def lists : Kinds := one 6

/-- Structures. -/
def structures : Kinds := one 7

/-- The kind of a datum. -/
def ofDatum : Datum → Kinds
  | .null => one 0
  | .bool _ => one 1
  | .int _ => wholeNumbers
  | .float _ => floats
  | .string _ => one 4
  | .bytes _ => one 5
  | .list _ => lists
  | .struct _ => structures

/-- The kinds that an atom admits. -/
def ofAtom : Constraint → Kinds
  | .kind .int => wholeNumbers
  | .kind .float => floats
  | .kind .number => numbers
  | .kind .string => one 4
  | .kind .bool => one 1
  | .kind .bytes => one 5
  | .literal d => ofDatum d
  | .bound op (.null) => if op = .ne then (one 0).map (!·) else one 0
  | .bound _ d => if (number? d).isSome then numbers else ofDatum d
  | .pattern _ _ => one 4
  | .listOf _ => lists
  | .tuple _ => lists
  | .openStruct => structures
  | .fieldsOf _ => structures
  | .closed _ => structures
  | _ => all

/-- Whether a set has no kind in it. -/
def isVoid (ks : Kinds) : Bool :=
  !ks.contains true

end Kinds

/-! ## Alternatives and conjunctions -/

/-- A constraint as alternatives of conjunctions of atoms. -/
def alternatives : Constraint → List (List Constraint)
  | .either a b => alternatives a ++ alternatives b
  | .both a b => (alternatives a).flatMap fun x => (alternatives b).map (x ++ ·)
  | c => [[c]]

/-- The alternatives of several constraints that hold together. -/
def allAlternatives : List Constraint → List (List Constraint)
  | [] => [[]]
  | c :: cs => (alternatives c).flatMap fun x => (allAlternatives cs).map (x ++ ·)

/-- Whether an atom admits everything. -/
def isTop : Constraint → Bool
  | .top => true
  | _ => false

/-- Whether an atom is a structure of whatever fields. -/
def isOpenStruct : Constraint → Bool
  | .openStruct => true
  | _ => false

/-- Whether a constraint is a conjunction. -/
def isConjunction : Constraint → Bool
  | .both _ _ => true
  | _ => false

mutual

/-- How many levels of lists and structures a constraint has, counting the outermost. -/
def depth : Constraint → Nat
  | .listOf elem => depth elem + 1
  | .tuple elems => depthAll elems + 1
  | .fieldsOf elem => depth elem + 1
  | .closed fields => depthFields fields + 1
  | .either a b => max (depth a) (depth b)
  | .both a b => max (depth a) (depth b)
  | _ => 1

/-- The greatest depth in a list. -/
def depthAll : List Constraint → Nat
  | [] => 0
  | c :: cs => max (depth c) (depthAll cs)

/-- The greatest depth among fields. -/
def depthFields : List (Text × Constraint) → Nat
  | [] => 0
  | (_, c) :: fs => max (depth c) (depthFields fs)

end

end Constraint

end TypeShape
