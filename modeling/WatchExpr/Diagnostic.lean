/-!
# Diagnostics

What a caller is told when an expression cannot be read or evaluated: a code and a text.
-/

namespace WatchExpr

/-- The classes of failures; `ok` stands for none. -/
inductive Code where
  | ok | illFormed | invalidOperand | undeclared | unsupported | unknown
deriving DecidableEq, Repr

/-- The label of a code. -/
def Code.label : Code → String
  | .ok => "OK"
  | .illFormed => "INVALID_EXPRESSION_SYNTAX"
  | .invalidOperand => "INVALID_OPERAND_TYPE"
  | .undeclared => "UNDECLARED_IDENTIFIER"
  | .unsupported => "NOT_IMPLEMENTED"
  | .unknown => "UNKNOWN"

/-- A reported failure, or with code `ok` and no text the report of none. -/
structure Diagnostic where
  code : Code := .ok
  message : String := ""
deriving DecidableEq, Repr

/-- The report of no failure. -/
def Diagnostic.none : Diagnostic := {}

/-- Whether a failure is reported. -/
def Diagnostic.isError (d : Diagnostic) : Bool :=
  d.code ≠ .ok

end WatchExpr
