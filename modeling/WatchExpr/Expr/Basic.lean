import WatchExpr.Diagnostic
import WatchExpr.Operator
import WatchExpr.Scalar
import WatchExpr.Ty.Basic

/-!
# Expressions

The syntax trees of the expression language.
-/

namespace WatchExpr

/-- How a member is reached: from an object or through a pointer. -/
inductive MemberAccess where
  | dot | arrow
deriving DecidableEq, Repr

/-- The characters of a member access. -/
def MemberAccess.chars : MemberAccess → List Char
  | .dot => ['.']
  | .arrow => ['-', '>']

/-- An expression. -/
inductive Expr where
  /-- A subtree that stands for a failure. -/
  | poisoned (failure : Diagnostic)
  | truth (value : Bool)
  /-- A numeric constant and its spelling. -/
  | number (value : Scalar) (spelling : String)
  | name (id : String)
  | cast (type : Ty) (operand : Expr)
  | member (base : Expr) (access : MemberAccess) (field : String)
  | binary (op : BinaryOp) (lhs rhs : Expr)
  | unary (op : UnaryOp) (operand : Expr)
  | conditional (condition whenTrue whenFalse : Expr)
deriving DecidableEq

namespace Expr

/-- Whether the whole expression stands for a failure. -/
def isPoisoned : Expr → Bool
  | .poisoned _ => true
  | _ => false

/-- How tightly an expression holds together. -/
def precedence : Expr → Precedence
  | .poisoned _ | .truth _ | .number _ _ | .name _ => .primary
  | .member _ _ _ => .access
  | .binary op _ _ => op.precedence
  | .unary _ _ | .cast _ _ => .unary
  | .conditional _ _ _ => .conditional

/-- The expression that the decimal text of an integer reads as: a constant, negated if need be. A
magnitude past the greatest `int` is a `long`. -/
def ofInt (n : Int) : Expr :=
  let kind : IntegralKind := if IntegralKind.greatest .int < n.natAbs then .long else .int
  let constant := number (.ofInt (.integral kind) n.natAbs) (String.ofList (Text.decimal n.natAbs))
  if n < 0 then .unary .neg constant else constant

/-- Whether two trees are the same, the values of constants compared as numbers. -/
def agrees : Expr → Expr → Bool
  | .poisoned d, .poisoned e => d = e
  | .truth b, .truth c => b = c
  | .number v s, .number w t => v.agrees w && s = t
  | .name m, .name n => m = n
  | .cast t e, .cast u f => t = u && e.agrees f
  | .member e a m, .member f b n => e.agrees f && a = b && m = n
  | .binary o e f, .binary p g h => o = p && e.agrees g && f.agrees h
  | .unary o e, .unary p f => o = p && e.agrees f
  | .conditional c e f, .conditional d g h => c.agrees d && e.agrees g && f.agrees h
  | _, _ => false

end Expr

end WatchExpr
