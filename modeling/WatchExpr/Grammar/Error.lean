import WatchExpr.Literal
import WatchExpr.Token.Basic
import WatchExpr.Ty.TypeId

/-!
# Parse errors

Why a text is no expression or no type, and where.
-/

namespace WatchExpr

/-- Parts of the language that are recognised only to be rejected. -/
inductive UnsupportedFeature where
  | assignment | increment | call
deriving DecidableEq, Repr

/-- The name of the feature in diagnostics. -/
def UnsupportedFeature.name : UnsupportedFeature → String
  | .assignment => "assignment operators"
  | .increment => "increment and decrement operators"
  | .call => "function calls"

/-- Why a text cannot be read. -/
inductive ParseError.Cause where
  | expected (kind : TokenKind) (got : Token)
  | unexpected (got : Token)
  | expectedType (got : Token)
  | unbalancedTemplate (got : Token)
  | unsupported (feature : UnsupportedFeature)
  | arrayBound (spelling : String)
  | literal (failure : LiteralError)
  | type (failure : TypeError)
deriving DecidableEq, Repr

/-- A failure to read a text, and its place. -/
structure ParseError where
  cause : ParseError.Cause
  location : Location
deriving DecidableEq, Repr

namespace ParseError

/-- The code under which the failure is reported, if it is. -/
def code? (e : ParseError) : Option Code :=
  match e.cause with
  | .expected _ _ | .unexpected _ | .expectedType _ | .unbalancedTemplate _ | .arrayBound _ =>
    some .illFormed
  | .unsupported _ => some .unsupported
  | .literal f => f.code?
  | .type f => some f.code

/-- The text of the failure without its place. -/
def message (e : ParseError) : String :=
  match e.cause with
  | .expected kind got => "expected '" ++ kind.name ++ "', got: " ++ got.text
  | .unexpected got => "Unexpected token: " ++ got.text
  | .expectedType got => "expected a type, got: " ++ got.text
  | .unbalancedTemplate got => "unbalanced template argument list, got: " ++ got.text
  | .unsupported feature => feature.name ++ " are not supported"
  | .arrayBound s => "invalid array bound '" ++ s ++ "'"
  | .literal f => f.message
  | .type f => f.message

/-- The text of the failure behind its place. -/
def text (e : ParseError) : String :=
  e.location.text ++ ": " ++ e.message

/-- The failure as it is reported to a caller who knows no places, if it is. -/
def report? (e : ParseError) : Option Diagnostic :=
  e.code?.map fun code => ⟨code, e.text⟩

end ParseError

end WatchExpr
