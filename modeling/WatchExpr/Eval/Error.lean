import WatchExpr.Diagnostic
import WatchExpr.Operator
import WatchExpr.Text.Numeral
import WatchExpr.Ty.Declarator

/-!
# Evaluation errors

Why an expression has no value. All reasons but one are reported as failures.
-/

namespace WatchExpr

/-- Why an expression has no value. Where a type is optional it is that of a value, and a value that
is itself invalid has none. -/
inductive EvalError where
  | poisoned (failure : Diagnostic)
  | undeclared (name : String)
  | noMember (member record : String)
  | unreadable (address : UInt64)
  | loadOfVoid
  | indirectionOfVoid (type : Ty)
  | indirection (type : Option Ty)
  | addressOfValue (type : Option Ty)
  | notARecord (type : Option Ty)
  | notAPointer (type : Option Ty)
  | subscriptIndex
  | subscriptBase (type : Option Ty)
  | subscriptOfVoid
  | incompletePointee (type : Ty)
  | incompatiblePointers (lhs rhs : Ty)
  | distinctPointers (lhs rhs : Ty)
  | notBoolean (type : Option Ty)
  | invalidValue
  | unaryOnValue (op : UnaryOp)
  | subscriptOnValue
  | unaryOperand (op : UnaryOp) (type : Option Ty)
  | binaryOperands (op : BinaryOp) (lhs rhs : Option Ty)
  | divisionByZero
  /-- A distance in elements that no 64-bit number is. It is not reported: evaluating stops
  altogether. -/
  | distanceOverflow
  | shiftCount (count : Int) (kind : IntegralKind)
  | castToReference (target : Ty)
  | castOperand (source : Option Ty) (target : Ty)
deriving DecidableEq

/-- The text of the type of a value. -/
def Ty.textOrInvalid : Option Ty → String
  | some t => t.text
  | none => "<invalid>"

namespace EvalError

open Ty (textOrInvalid)

/-- The code under which the failure is reported, if it is. -/
def code? : EvalError → Option Code
  | .poisoned d => some d.code
  | .undeclared _ | .noMember _ _ => some .undeclared
  | .unreadable _ | .invalidValue | .divisionByZero | .shiftCount _ _ => some .unknown
  | .unaryOnValue _ | .subscriptOnValue | .castToReference _ => some .unsupported
  | .loadOfVoid | .indirectionOfVoid _ | .indirection _ | .addressOfValue _ | .notARecord _
  | .notAPointer _ | .subscriptIndex | .subscriptBase _ | .subscriptOfVoid | .incompletePointee _
  | .incompatiblePointers _ _ | .distinctPointers _ _ | .notBoolean _ | .unaryOperand _ _
  | .binaryOperands _ _ _ | .castOperand _ _ => some .invalidOperand
  | .distanceOverflow => none

/-- The text of the failure; there is none where none is reported. -/
def message : EvalError → String
  | .poisoned d => d.message
  | .undeclared n => "use of undeclared identifier '" ++ n ++ "'"
  | .noMember m r => "no member named '" ++ m ++ "' in '" ++ r ++ "'"
  | .unreadable a =>
    "cannot read memory at 0x" ++ String.ofList (Text.hexadecimal a.toNat)
  | .loadOfVoid => "cannot load a value of type 'void'"
  | .indirectionOfVoid t => "indirection not permitted on operand of type '" ++ t.text ++ "'"
  | .indirection t =>
    "indirection requires pointer operand ('" ++ textOrInvalid t ++ "' invalid)"
  | .addressOfValue t =>
    "cannot take the address of an rvalue of type '" ++ textOrInvalid t ++ "'"
  | .notARecord t =>
    "member reference base type '" ++ textOrInvalid t ++ "' is not a structure or union"
  | .notAPointer t => "member reference type '" ++ textOrInvalid t ++ "' is not a pointer"
  | .subscriptIndex => "array subscript is not an integer"
  | .subscriptBase t =>
    "subscripted value is not an array or pointer ('" ++ textOrInvalid t ++ "')"
  | .subscriptOfVoid => "subscript of pointer to incomplete type 'void'"
  | .incompletePointee t => "arithmetic on a pointer to an incomplete type '" ++ t.text ++ "'"
  | .incompatiblePointers t u =>
    "'" ++ t.text ++ "' and '" ++ u.text ++ "' are not pointers to compatible types"
  | .distinctPointers t u =>
    "comparison of distinct pointer types ('" ++ t.text ++ "' and '" ++ u.text ++ "')"
  | .notBoolean t =>
    "value of type '" ++ textOrInvalid t ++ "' is not contextually convertible to 'bool'"
  | .invalidValue => "use of an invalid value"
  | .unaryOnValue op => "unary '" ++ String.ofList op.chars ++ "' on an rvalue"
  | .subscriptOnValue => "subscript of an rvalue"
  | .unaryOperand op t =>
    "invalid argument type '" ++ textOrInvalid t ++ "' to unary expression '" ++
      String.ofList op.chars ++ "'"
  | .binaryOperands op t u =>
    "invalid operands to binary expression ('" ++ textOrInvalid t ++ "' and '" ++
      textOrInvalid u ++ "') for '" ++ String.ofList op.chars ++ "'"
  | .divisionByZero => "division by zero"
  | .distanceOverflow => ""
  | .shiftCount n k =>
    "shift count " ++ String.ofList (Text.signedDecimal n) ++ " is out of range for '" ++
      k.name ++ "'"
  | .castToReference t => "casts to reference type '" ++ t.text ++ "' are not supported"
  | .castOperand s t => "cannot cast from type '" ++ textOrInvalid s ++ "' to '" ++ t.text ++ "'"

/-- The failure as it is reported, if it is. -/
def report? (e : EvalError) : Option Diagnostic :=
  e.code?.map fun code => ⟨code, e.message⟩

end EvalError

end WatchExpr
