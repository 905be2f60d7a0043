import Arithmetization.Body.Basic
import Arithmetization.Body.Builder
import Arithmetization.Body.Normal
import Arithmetization.Body.Sharing
import Arithmetization.Compile
import Arithmetization.Degree.Basic
import Arithmetization.Degree.Inference
import Arithmetization.Digest.Blake3
import Arithmetization.Domain
import Arithmetization.Expr.Arena
import Arithmetization.Expr.Basic
import Arithmetization.Expr.Op
import Arithmetization.Expr.Rule
import Arithmetization.Expr.Text
import Arithmetization.Fault
import Arithmetization.Field.Bytes
import Arithmetization.Field.Element
import Arithmetization.Field.Modular
import Arithmetization.Field.Word
import Arithmetization.Form
import Arithmetization.Grammar.Atom
import Arithmetization.Grammar.Expr
import Arithmetization.Grammar.Module
import Arithmetization.Grammar.Register
import Arithmetization.Input.Layout
import Arithmetization.Input.Tree
import Arithmetization.Machine.Basic
import Arithmetization.Machine.Fault
import Arithmetization.Machine.Program
import Arithmetization.Machine.Prover
import Arithmetization.Machine.Statics
import Arithmetization.Machine.Verifier
import Arithmetization.Overflow
import Arithmetization.Position
import Arithmetization.Procedure.Basic
import Arithmetization.Procedure.Kind
import Arithmetization.Register.Basic
import Arithmetization.Register.Builder
import Arithmetization.Register.Text
import Arithmetization.Report.Basic
import Arithmetization.Report.Document
import Arithmetization.Report.Operations
import Arithmetization.Schema.Basic
import Arithmetization.Schema.Options
import Arithmetization.Schema.Text
import Arithmetization.Sequence
import Arithmetization.Shape
import Arithmetization.Tensor
import Arithmetization.Text.Blank
import Arithmetization.Text.Digits
import Arithmetization.Text.Utf8
import Arithmetization.Token
import Arithmetization.Transform
import Arithmetization.Value
import Arithmetization.Proofs.Hoisting
import Arithmetization.Proofs.Measures
import Arithmetization.Proofs.Trees
import Arithmetization.Proofs.Evaluators
import Arithmetization.Proofs.Sharing
import Arithmetization.Proofs.Typing
import Arithmetization.Proofs.Elaboration
import Arithmetization.Proofs.Modules
import Arithmetization.Proofs.Abstraction
import Arithmetization.Proofs.Safety
import Arithmetization.Proofs.DegreeShapes
import Arithmetization.Proofs.Machines
import Arithmetization.Proofs.SharedSchemas
import Arithmetization.Proofs.Field
import Arithmetization.Proofs.BoundedPolynomials
import Arithmetization.Proofs.ExactDegrees
import Arithmetization.Proofs.ProcedurePolynomials
import Arithmetization.Proofs.StaticColumns
import Arithmetization.Proofs.Agreement
import Arithmetization.Proofs.Composition
import Arithmetization.Proofs.NormalForm
import Arithmetization.Proofs.Reading
import Arithmetization.Proofs.WrittenForms
import Arithmetization.Proofs.Denotation
import Arithmetization.Proofs.Acceptance
import Arithmetization.Proofs.Legible
import Arithmetization.Proofs.Canonical
import Arithmetization.Proofs.LegibleModules
import Arithmetization.Proofs.Rendering
import Arithmetization.Proofs.Declarations
import Arithmetization.Proofs.Sections
import Arithmetization.Proofs.RoundTrip
import Arithmetization.Proofs.Extensions
import Arithmetization.Proofs.Recompilation
import Arithmetization.Proofs.FormulaValues
import Arithmetization.Proofs.Quotients
import Arithmetization.Proofs.CheckedArithmetic
import Arithmetization.Proofs.Division
import Arithmetization.Proofs.Secrecy
import Arithmetization.Proofs.GuardedInference
import Arithmetization.Proofs.Domains
import Arithmetization.Proofs.Forest
import Arithmetization.Proofs.Groups
import Arithmetization.Proofs.Layouts
import Arithmetization.Proofs.TokenGrammar
import Arithmetization.Proofs.FormGrammar
import Arithmetization.Proofs.ShapeRules
import Arithmetization.Proofs.ExprGrammar
import Arithmetization.Proofs.UnknownColumns
import Arithmetization.Proofs.SharedBodies
import Arithmetization.Proofs.Clauses
import Arithmetization.Proofs.Placement
import Arithmetization.Proofs.SectionOrder
import Arithmetization.Proofs.ModuleGrammar
import Arithmetization.Proofs.Cycles
import Arithmetization.Proofs.Encodings
import Arithmetization.Proofs.Rounds
import Arithmetization.Proofs.Addresses
import Arithmetization.Proofs.Numbering
import Arithmetization.Proofs.Grounding
import Arithmetization.Proofs.Traversals
import Arithmetization.Proofs.Calls
