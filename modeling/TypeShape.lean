import TypeShape.Command.Basic
import TypeShape.Command.Flags
import TypeShape.Command.Run
import TypeShape.Constraint.Basic
import TypeShape.Constraint.Label
import TypeShape.Constraint.Limits
import TypeShape.Constraint.Parser
import TypeShape.Constraint.Regex
import TypeShape.Constraint.Schema
import TypeShape.Constraint.Settled
import TypeShape.Declaration.Apply
import TypeShape.Declaration.File
import TypeShape.Declaration.Search
import TypeShape.Document.Basic
import TypeShape.Document.Flow
import TypeShape.Document.Quoted
import TypeShape.Document.Toml
import TypeShape.Document.Value
import TypeShape.Document.Yaml
import TypeShape.Engine
import TypeShape.Error
import TypeShape.Expr.Basic
import TypeShape.Expr.Equality
import TypeShape.Expr.Names
import TypeShape.Expr.Parser
import TypeShape.Expr.Printer
import TypeShape.Expr.Substitution
import TypeShape.Expr.Token
import TypeShape.Files.Basic
import TypeShape.Files.Path
import TypeShape.Main
import TypeShape.Matching.Bindings
import TypeShape.Matching.Reducing
import TypeShape.Matching.Subtyping
import TypeShape.Matching.Unification
import TypeShape.Number.Binary
import TypeShape.Number.Decimal
import TypeShape.Number.Integer
import TypeShape.Number.Shortest
import TypeShape.Package.Basic
import TypeShape.Package.Identity
import TypeShape.Package.Import
import TypeShape.Package.Interface
import TypeShape.Package.Methods
import TypeShape.Package.Scope
import TypeShape.Proofs.AliasExpansion
import TypeShape.Proofs.AlikeRegistries
import TypeShape.Proofs.AppliedClasses
import TypeShape.Proofs.BaseWalks
import TypeShape.Proofs.CoarserInference
import TypeShape.Proofs.CompleteReading
import TypeShape.Proofs.Cycles
import TypeShape.Proofs.DecimalNotation
import TypeShape.Proofs.DeclarationOrder
import TypeShape.Proofs.DeclaredBases
import TypeShape.Proofs.DeclaringRuns
import TypeShape.Proofs.Delimited
import TypeShape.Proofs.Entries
import TypeShape.Proofs.Erasure
import TypeShape.Proofs.FailedDeclarations
import TypeShape.Proofs.FloatLiterals
import TypeShape.Proofs.GenericBindings
import TypeShape.Proofs.Grammar
import TypeShape.Proofs.GroundShapes
import TypeShape.Proofs.Histories
import TypeShape.Proofs.HostShapes
import TypeShape.Proofs.IdenticalTypes
import TypeShape.Proofs.ImplementedInterfaces
import TypeShape.Proofs.ImportedClasses
import TypeShape.Proofs.ImportedMessages
import TypeShape.Proofs.Imports
import TypeShape.Proofs.InferenceDepth
import TypeShape.Proofs.InferenceRuns
import TypeShape.Proofs.Inheritance
import TypeShape.Proofs.InheritedMembers
import TypeShape.Proofs.InstanceChecks
import TypeShape.Proofs.Keys
import TypeShape.Proofs.Levels
import TypeShape.Proofs.Lexing
import TypeShape.Proofs.Lineages
import TypeShape.Proofs.MemoAnswers
import TypeShape.Proofs.Mentions
import TypeShape.Proofs.MergeOrder
import TypeShape.Proofs.NarrowerShapes
import TypeShape.Proofs.NearestBinary
import TypeShape.Proofs.Occurrence
import TypeShape.Proofs.ReachableRegistry
import TypeShape.Proofs.Rebuilding
import TypeShape.Proofs.RecordSchemas
import TypeShape.Proofs.Recovery
import TypeShape.Proofs.RegularTypes
import TypeShape.Proofs.RepeatedDeclarations
import TypeShape.Proofs.RepeatedFiles
import TypeShape.Proofs.Resolution
import TypeShape.Proofs.RoundTrip
import TypeShape.Proofs.Sampling
import TypeShape.Proofs.ShortestDigits
import TypeShape.Proofs.Simulation
import TypeShape.Proofs.SinglePass
import TypeShape.Proofs.SingleQuotes
import TypeShape.Proofs.SoundReading
import TypeShape.Proofs.Spelling
import TypeShape.Proofs.StructuralEquality
import TypeShape.Proofs.Substitutions
import TypeShape.Proofs.SubtypeAnswers
import TypeShape.Proofs.SubtypeCorrect
import TypeShape.Proofs.SubtypeLevels
import TypeShape.Proofs.SubtypeRelation
import TypeShape.Proofs.SubtypeRun
import TypeShape.Proofs.SubtypeSteps
import TypeShape.Proofs.SubtypeTransitive
import TypeShape.Proofs.SubtypeUnions
import TypeShape.Proofs.UnambiguousKeys
import TypeShape.Proofs.UnificationRuns
import TypeShape.Proofs.UnificationSound
import TypeShape.Proofs.UniqueNames
import TypeShape.Proofs.WholeShapes
import TypeShape.Proto.Basic
import TypeShape.Proto.Load
import TypeShape.Proto.Source
import TypeShape.Registry.Alias
import TypeShape.Registry.Basic
import TypeShape.Registry.Declare
import TypeShape.Registry.Hierarchy
import TypeShape.Shape.Approximation
import TypeShape.Shape.Basic
import TypeShape.Shape.Instantiation
import TypeShape.Shape.Reduction
import TypeShape.Table
import TypeShape.Text.Basic
import TypeShape.Text.Letter
import TypeShape.Text.Printable
import TypeShape.Text.Quoted
import TypeShape.Text.Separated
import TypeShape.Text.Utf8
import TypeShape.Text.Words
import TypeShape.Validation
import TypeShape.Value.Basic
import TypeShape.Value.Datum
import TypeShape.Value.HostType
import TypeShape.Value.Inference
import TypeShape.Value.Moment
import TypeShape.Value.References
