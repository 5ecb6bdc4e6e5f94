import NamedLambda.Error
import NamedLambda.Name.Fresh
import NamedLambda.Name.Macro
import NamedLambda.Name.Map
import NamedLambda.Name.Set
import NamedLambda.Proofs.Name.Fresh
import NamedLambda.Proofs.Name.Map
import NamedLambda.Proofs.Name.Search
import NamedLambda.Proofs.Name.Spelling
import NamedLambda.Proofs.Nameless.Beta
import NamedLambda.Proofs.Nameless.Confluence
import NamedLambda.Proofs.Nameless.Instantiation
import NamedLambda.Proofs.Nameless.Standardization
import NamedLambda.Proofs.Reduction.BoundNames
import NamedLambda.Proofs.Reduction.Budgets
import NamedLambda.Proofs.Reduction.CallByName
import NamedLambda.Proofs.Reduction.Contraction
import NamedLambda.Proofs.Reduction.Decomposition
import NamedLambda.Proofs.Reduction.Normalization
import NamedLambda.Proofs.Reduction.Progress
import NamedLambda.Proofs.Reduction.Redex
import NamedLambda.Proofs.Reduction.Rounds
import NamedLambda.Proofs.Reduction.Step
import NamedLambda.Proofs.Reduction.Traces
import NamedLambda.Proofs.Reduction.Traversal
import NamedLambda.Proofs.Reduction.Uniqueness
import NamedLambda.Proofs.Reduction.Values
import NamedLambda.Proofs.Source.Characters
import NamedLambda.Proofs.Source.Defining
import NamedLambda.Proofs.Source.Descent
import NamedLambda.Proofs.Source.Grammar
import NamedLambda.Proofs.Source.Layout
import NamedLambda.Proofs.Source.Names
import NamedLambda.Proofs.Source.Parsing
import NamedLambda.Proofs.Source.Pieces
import NamedLambda.Proofs.Source.Printing
import NamedLambda.Proofs.Source.Progress
import NamedLambda.Proofs.Source.Reading
import NamedLambda.Proofs.Source.Refusal
import NamedLambda.Proofs.Source.Rereading
import NamedLambda.Proofs.Source.Routines
import NamedLambda.Proofs.Source.Scoping
import NamedLambda.Proofs.Source.Uses
import NamedLambda.Proofs.Source.Words
import NamedLambda.Proofs.Table.Acceptance
import NamedLambda.Proofs.Table.Bare
import NamedLambda.Proofs.Table.Calls
import NamedLambda.Proofs.Table.Check
import NamedLambda.Proofs.Table.FoldedTexts
import NamedLambda.Proofs.Table.FoldedValues
import NamedLambda.Proofs.Table.Folding
import NamedLambda.Proofs.Table.History
import NamedLambda.Proofs.Table.Inlining
import NamedLambda.Proofs.Table.Invariant
import NamedLambda.Proofs.Table.Lines
import NamedLambda.Proofs.Table.Linked
import NamedLambda.Proofs.Table.Listing
import NamedLambda.Proofs.Table.Order
import NamedLambda.Proofs.Table.Reading
import NamedLambda.Proofs.Table.Rebuild
import NamedLambda.Proofs.Table.Recompilation
import NamedLambda.Proofs.Table.Refreshing
import NamedLambda.Proofs.Table.Resolution
import NamedLambda.Proofs.Table.Sound
import NamedLambda.Proofs.Table.Traces
import NamedLambda.Proofs.Term.Alike
import NamedLambda.Proofs.Term.Alpha
import NamedLambda.Proofs.Term.Bare
import NamedLambda.Proofs.Term.Closed
import NamedLambda.Proofs.Term.Comparison
import NamedLambda.Proofs.Term.Expansion
import NamedLambda.Proofs.Term.Folding
import NamedLambda.Proofs.Term.Instantiation
import NamedLambda.Proofs.Term.Nameless
import NamedLambda.Proofs.Term.Occurrence
import NamedLambda.Proofs.Term.Position
import NamedLambda.Proofs.Term.Replacement
import NamedLambda.Proofs.Term.Shape
import NamedLambda.Proofs.Term.Substitution
import NamedLambda.Proofs.Term.Text
import NamedLambda.Proofs.Term.Throughout
import NamedLambda.Proofs.Term.Traversal
import NamedLambda.Reduction.Redex
import NamedLambda.Reduction.Run
import NamedLambda.Reduction.Step
import NamedLambda.Reduction.Strategy
import NamedLambda.Session.Basic
import NamedLambda.Session.Settings
import NamedLambda.Source.Blank
import NamedLambda.Source.Lexer
import NamedLambda.Source.Reader
import NamedLambda.Source.Token
import NamedLambda.Table.Basic
import NamedLambda.Table.Define
import NamedLambda.Table.Definition
import NamedLambda.Table.Folding
import NamedLambda.Table.Graph
import NamedLambda.Table.Source
import NamedLambda.Term.Alpha
import NamedLambda.Term.Basic
import NamedLambda.Term.Position
import NamedLambda.Term.References
import NamedLambda.Term.Substitution
import NamedLambda.Term.Text
import NamedLambda.Term.Variables
