import WatchExpr.Text.Blank
import WatchExpr.Text.Numeral
import WatchExpr.Power
import WatchExpr.Binary.Basic
import WatchExpr.Binary.Arithmetic
import WatchExpr.Binary.Decimal
import WatchExpr.Diagnostic
import WatchExpr.Bytes
import WatchExpr.Kind
import WatchExpr.Scalar
import WatchExpr.Literal
import WatchExpr.Token.Keyword
import WatchExpr.Token.Punctuator
import WatchExpr.Token.Basic
import WatchExpr.Token.Lexer
import WatchExpr.Token.Stream
import WatchExpr.Ty.Basic
import WatchExpr.Ty.Declarator
import WatchExpr.Ty.TypeId
import WatchExpr.Operator
import WatchExpr.Expr.Basic
import WatchExpr.Expr.Printer
import WatchExpr.Grammar.Error
import WatchExpr.Grammar.Outcome
import WatchExpr.Grammar.Names
import WatchExpr.Grammar.TypeIds
import WatchExpr.Grammar.Expressions
import WatchExpr.Grammar.Reading
import WatchExpr.Grammar.Speculation
import WatchExpr.Value.Pointer
import WatchExpr.Value.Basic
import WatchExpr.Value.Operations
import WatchExpr.Target.Basic
import WatchExpr.Eval.Error
import WatchExpr.Eval.Typing
import WatchExpr.Eval.Basic
import WatchExpr.Memory
import WatchExpr.Snapshot
import WatchExpr.Json.Basic
import WatchExpr.Json.Reader
import WatchExpr.Frame.Basic
import WatchExpr.Frame.Loading
import WatchExpr.Proofs.Failure
import WatchExpr.Proofs.Memory.Bytes
import WatchExpr.Proofs.Memory.ByteMap
import WatchExpr.Proofs.Subexpressions
import WatchExpr.Proofs.Reduction
import WatchExpr.Proofs.Binary.Exactness
import WatchExpr.Proofs.Binary.Widening
import WatchExpr.Proofs.Values.Ranges
import WatchExpr.Proofs.Values.ObjectBytes
import WatchExpr.Proofs.Typing.Types
import WatchExpr.Proofs.Typing.Operations
import WatchExpr.Proofs.Typing.Evaluation
import WatchExpr.Proofs.Evaluation.References
import WatchExpr.Proofs.Evaluation.MemoryDependence
import WatchExpr.Proofs.Evaluation.Results
import WatchExpr.Proofs.Evaluation.Overflows
import WatchExpr.Proofs.Evaluation.Reporting
import WatchExpr.Proofs.Frame.Loading
import WatchExpr.Proofs.Frame.InitialValues
import WatchExpr.Proofs.Lexing.Lexemes
import WatchExpr.Proofs.Lexing.Pieces
import WatchExpr.Proofs.Lexing.Constants
import WatchExpr.Proofs.Grammar.Outcome
import WatchExpr.Proofs.Grammar.Derivation
import WatchExpr.Proofs.Grammar.Equations
import WatchExpr.Proofs.Grammar.Levels
import WatchExpr.Proofs.Grammar.Runs
import WatchExpr.Proofs.Grammar.Names
import WatchExpr.Proofs.Grammar.Casts
import WatchExpr.Proofs.Grammar.Lookahead
import WatchExpr.Proofs.Grammar.Soundness
import WatchExpr.Proofs.Grammar.Completeness
import WatchExpr.Proofs.Grammar.Recognition
import WatchExpr.Proofs.Grammar.TemplateNames
import WatchExpr.Proofs.Printing.Printable
import WatchExpr.Proofs.Grammar.Consumption
import WatchExpr.Proofs.Grammar.TypeNames
import WatchExpr.Proofs.Lexing.Breaks
import WatchExpr.Proofs.Lexing.Decimals
import WatchExpr.Proofs.Printing.Types
import WatchExpr.Proofs.Printing.TypeIds
import WatchExpr.Proofs.Printing.Lexemes
import WatchExpr.Proofs.Printing.Groups
import WatchExpr.Proofs.Printing.Phrases
import WatchExpr.Proofs.Printing.RoundTrip
import WatchExpr.Proofs.Printing.GlobalNames
import WatchExpr.Proofs.Evaluation.Declarations
import WatchExpr.Proofs.Grammar.Speculation
import WatchExpr.Proofs.Frame.Types
import WatchExpr.Proofs.Printing.TypeTexts
import WatchExpr.Proofs.Printing.Declarators
import WatchExpr.Proofs.Frame.TypeTexts
import WatchExpr.Proofs.Lexing.Longest
import WatchExpr.Proofs.Lexing.Layout
import WatchExpr.Proofs.Grammar.Relocation
import WatchExpr.Proofs.Grammar.Layout
import WatchExpr.Proofs.Grammar.TypeIds
import WatchExpr.Proofs.Grammar.CastTypes
import WatchExpr.Proofs.Frame.TypedefNames
import WatchExpr.Proofs.Values.IntegerOperators
import WatchExpr.Proofs.Evaluation.Carried
import WatchExpr.Proofs.Evaluation.Lvalues
import WatchExpr.Proofs.Evaluation.Connectives
import WatchExpr.Proofs.Evaluation.UnselectedMembers
import WatchExpr.Proofs.Values.PointerArithmetic
import WatchExpr.Proofs.Lexing.IntegerConstants
import WatchExpr.Proofs.Evaluation.QualifiedPaths
import WatchExpr.Proofs.Evaluation.StaticQualifiers
import WatchExpr.Proofs.Lexing.Spacing
import WatchExpr.Proofs.Grammar.CanonicalNames
import WatchExpr.Proofs.Binary.Integers
import WatchExpr.Proofs.Values.Comparisons
import WatchExpr.Proofs.Values.CommonTypes
import WatchExpr.Proofs.Values.Casts
import WatchExpr.Proofs.Grammar.Leaves
import WatchExpr.Proofs.Printing.LeafTexts
import WatchExpr.Proofs.Printing.Parentheses
import WatchExpr.Proofs.Frame.Scoping
import WatchExpr.Proofs.Frame.RecordOrder
import WatchExpr.Proofs.Grammar.SpecifierOrder
import WatchExpr.Proofs.Grammar.FailurePlaces
import WatchExpr.Proofs.Evaluation.DecimalTexts
import WatchExpr.Proofs.Grammar.Progress
import WatchExpr.Proofs.Grammar.Routines
import WatchExpr.Proofs.Grammar.Calls
import WatchExpr.Proofs.Grammar.Termination
