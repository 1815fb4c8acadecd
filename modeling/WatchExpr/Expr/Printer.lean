import WatchExpr.Expr.Basic
import WatchExpr.Ty.Declarator

/-!
# Printer

The text of an expression. An operand stands in parentheses exactly where its own precedence would
otherwise make the text read as another tree.
-/

namespace WatchExpr

/-- Puts parentheses around a text. -/
def parenthesized (text : List Char) : List Char :=
  '(' :: (text ++ [')'])

/-- Puts parentheses around a text where they are needed. -/
def grouped (needed : Bool) (text : List Char) : List Char :=
  if needed then parenthesized text else text

/-- A unary operator in front of its operand. A space keeps two equal signs apart that would
otherwise be read as one. -/
def UnaryOp.inFrontOf (op : UnaryOp) (operand : List Char) : List Char :=
  match op with
  | .plus | .neg | .addressOf =>
    if op.chars.isPrefixOf operand then op.chars ++ ' ' :: operand else op.chars ++ operand
  | _ => op.chars ++ operand

namespace Expr

/-- Whether an expression is a numeric constant. -/
def isNumber : Expr → Bool
  | .number _ _ => true
  | _ => false

/-- The text of an expression. The base of a member access is grouped also when it is a numeric
constant, which would swallow the point. -/
def print : Expr → List Char
  | .poisoned d => "<error: ".toList ++ d.message.toList ++ ['>']
  | .truth b => (if b then "true" else "false").toList
  | .number _ spelling => spelling.toList
  | .name id => id.toList
  | .cast t e =>
    parenthesized (t.declarator []) ++ grouped (Precedence.unary < e.precedence) e.print
  | .member e access field =>
    grouped (Precedence.access < e.precedence || e.isNumber) e.print ++
      access.chars ++ field.toList
  | .binary .subscript e i =>
    grouped (Precedence.access < e.precedence) e.print ++ '[' :: (i.print ++ [']'])
  | .binary op e f =>
    grouped (op.precedence < e.precedence) e.print ++ ' ' :: (op.chars ++
      ' ' :: grouped (op.precedence ≤ f.precedence) f.print)
  | .unary op e => op.inFrontOf (grouped (Precedence.unary < e.precedence) e.print)
  | .conditional c e f =>
    grouped (Precedence.conditional ≤ c.precedence) c.print ++ " ? ".toList ++ e.print ++
      " : ".toList ++ grouped (Precedence.conditional < f.precedence) f.print

/-- The text of an expression. -/
def text (e : Expr) : String :=
  String.ofList e.print

end Expr

end WatchExpr
