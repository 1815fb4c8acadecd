import WatchExpr.Grammar.Expressions
import WatchExpr.Token.Stream

/-!
# Reading expressions and types

Reading takes a stream to its end: behind the expression or the type only the end mark may stand.
The stream keeps its place when reading fails.
-/

namespace WatchExpr

namespace Grammar

/-- An expression with nothing behind it. -/
def wholeExpression (env : Env) (ts : List Token) : Outcome Expr :=
  (parse env .expression ts).val.andThen fun e rest =>
    (expect env.finish .eof rest).map fun _ => e

/-- A type with nothing behind it. -/
def wholeType (env : Env) (ts : List Token) : Outcome Ty :=
  (arrayType env ts).andThen fun t rest =>
    (expect env.finish .eof rest).map fun _ => t

end Grammar

namespace TokenStream

open Grammar

/-- Applies a rule to the tokens not yet consumed. -/
def readBy {α : Type} (rule : Env → List Token → Outcome α) (types : TypeNames)
    (s : TokenStream) : Except ParseError α × TokenStream :=
  let o := rule ⟨types, s.tokens.finish⟩ s.rest
  (o.toExcept, s.atRest o.rest)

/-- Reads an expression up to the end mark. -/
def readExpr (types : TypeNames) (s : TokenStream) : Except ParseError Expr × TokenStream :=
  s.readBy wholeExpression types

/-- Reads a type, possibly with array bounds, up to the end mark. -/
def readType (types : TypeNames) (s : TokenStream) : Except ParseError Ty × TokenStream :=
  s.readBy wholeType types

end TokenStream

/-- Reads the text of an expression. -/
def Expr.read (types : TypeNames) (text : String) : Except ParseError Expr :=
  ((TokenStream.ofText text).readExpr types).1

/-- Reads the text of a type. -/
def Ty.read (types : TypeNames) (text : String) : Except ParseError Ty :=
  ((TokenStream.ofText text).readType types).1

end WatchExpr
