/-!
# Operators

The unary and binary operators and how tightly they bind.
-/

namespace WatchExpr

/-- The unary operators. -/
inductive UnaryOp where
  | plus | neg | logicalNot | bitNot | deref | addressOf
deriving DecidableEq, Repr

/-- The characters of a unary operator. -/
def UnaryOp.chars : UnaryOp → List Char
  | .plus => ['+']
  | .neg => ['-']
  | .logicalNot => ['!']
  | .bitNot => ['~']
  | .deref => ['*']
  | .addressOf => ['&']

/-- The operators that compute in the common type of two arithmetic operands. -/
inductive ArithOp where
  | add | sub | mul | div | rem | bitAnd | bitXor | bitOr
deriving DecidableEq, Repr

/-- The shifts. -/
inductive ShiftOp where
  | left | right
deriving DecidableEq, Repr

/-- The comparisons. -/
inductive Comparison where
  | lt | le | gt | ge | eq | ne
deriving DecidableEq, Repr

/-- The logical connectives. -/
inductive Connective where
  | and | or
deriving DecidableEq, Repr

/-- The binary operators. -/
inductive BinaryOp where
  | arith (op : ArithOp)
  | shift (op : ShiftOp)
  | compare (op : Comparison)
  | logical (op : Connective)
  | subscript
deriving DecidableEq, Repr

/-- How tightly an expression holds together: the lower the number, the tighter. -/
abbrev Precedence := Nat

namespace Precedence

/-- Literals and names. -/
def primary : Precedence := 0

/-- Member accesses and subscripts. -/
def access : Precedence := 2

/-- Unary operators and casts. -/
def unary : Precedence := 3

/-- The loosest binary operator. -/
def loosestBinary : Precedence := 15

/-- Conditional expressions. -/
def conditional : Precedence := 16

end Precedence

namespace BinaryOp

/-- The characters of a binary operator. -/
def chars : BinaryOp → List Char
  | .arith .add => ['+']
  | .arith .sub => ['-']
  | .arith .mul => ['*']
  | .arith .div => ['/']
  | .arith .rem => ['%']
  | .arith .bitAnd => ['&']
  | .arith .bitXor => ['^']
  | .arith .bitOr => ['|']
  | .shift .left => ['<', '<']
  | .shift .right => ['>', '>']
  | .compare .lt => ['<']
  | .compare .le => ['<', '=']
  | .compare .gt => ['>']
  | .compare .ge => ['>', '=']
  | .compare .eq => ['=', '=']
  | .compare .ne => ['!', '=']
  | .logical .and => ['&', '&']
  | .logical .or => ['|', '|']
  | .subscript => ['[', ']']

/-- How tightly a binary operator binds. -/
def precedence : BinaryOp → Precedence
  | .subscript => .access
  | .arith .mul | .arith .div | .arith .rem => 5
  | .arith .add | .arith .sub => 6
  | .shift _ => 7
  | .compare .lt | .compare .le | .compare .gt | .compare .ge => 9
  | .compare .eq | .compare .ne => 10
  | .arith .bitAnd => 11
  | .arith .bitXor => 12
  | .arith .bitOr => 13
  | .logical .and => 14
  | .logical .or => .loosestBinary

end BinaryOp

end WatchExpr
