import WatchExpr.Value.Basic

/-!
# Operations on values

What the operators do to operands that have been read. Operators that need memory are no operations
on values. Two arithmetic operands meet in their common type, and pointer arithmetic counts in
elements.
-/

namespace WatchExpr

/-! ## Arithmetic operators -/

namespace ArithOp

/-- A bitwise operation on integers in two's complement. -/
def bitwise (f : BitVec 64 → BitVec 64 → BitVec 64) (m n : Int) : Int :=
  (f (.ofInt 64 m) (.ofInt 64 n)).toInt

/-- Whether the operator divides by its right operand. -/
def divides : ArithOp → Bool
  | .div | .rem => true
  | _ => false

/-- The operator on integers. Quotients are rounded toward zero. -/
def onInt : ArithOp → Int → Int → Int
  | .add, m, n => m + n
  | .sub, m, n => m - n
  | .mul, m, n => m * n
  | .div, m, n => m.tdiv n
  | .rem, m, n => m.tmod n
  | .bitAnd, m, n => bitwise (· &&& ·) m n
  | .bitXor, m, n => bitwise (· ^^^ ·) m n
  | .bitOr, m, n => bitwise (· ||| ·) m n

/-- The operator on floating-point numbers, if it is one on them. -/
def onBinary? : ArithOp → Option (Binary64 → Binary64 → Binary64)
  | .add => some .add
  | .sub => some .sub
  | .mul => some .mul
  | .div => some .div
  | _ => none

end ArithOp

/-- Whether a comparison holds of operands in a given order; operands that are not ordered are only
unequal. -/
def Comparison.holds : Comparison → Option Ordering → Bool
  | .lt, o => o = some .lt
  | .le, o => o = some .lt || o = some .eq
  | .gt, o => o = some .gt
  | .ge, o => o = some .gt || o = some .eq
  | .eq, o => o = some .eq
  | .ne, o => o ≠ some .eq

namespace Scalar

/-- The common type of two values. -/
def commonKind (a b : Scalar) : ArithmeticKind :=
  a.kind.common b.kind

/-- An arithmetic operator, applied in the common type. -/
def arith (op : ArithOp) (a b : Scalar) : Except EvalError Scalar :=
  match a.commonKind b with
  | .floating k =>
    match op.onBinary? with
    | some f => .ok (ofBinary (.floating k) (f a.toBinary b.toBinary))
    | none =>
      .error (.binaryOperands (.arith op) (some (.arithmetic a.kind)) (some (.arithmetic b.kind)))
  | .integral k =>
    let m := (a.convert (.integral k)).toInt
    let n := (b.convert (.integral k)).toInt
    if op.divides ∧ n = 0 then .error .divisionByZero
    else .ok (ofInt (.integral k) (op.onInt m n))

/-- A shift of an integral value. The result has the promoted type of the left operand, and the
count must be less than the width of that type. -/
def shift (op : ShiftOp) (k : IntegralKind) (n : Int) (count : Int) : Except EvalError Scalar :=
  let k := k.promote
  let n := k.wrap n
  if count < 0 ∨ k.width ≤ count then .error (.shiftCount count k)
  else
    .ok (ofInt (.integral k) (match op with
      | .left => n * 2 ^ count.toNat
      | .right => n / 2 ^ count.toNat))

/-- The order of two values in their common type. -/
def order (a b : Scalar) : Option Ordering :=
  match a.commonKind b with
  | .floating _ => a.toBinary.compare? b.toBinary
  | .integral k =>
    some (compare (a.convert (.integral k)).toInt (b.convert (.integral k)).toInt)

end Scalar

namespace Value

/-- The truth of a value. -/
def toBool : Value → Except EvalError Bool
  | .scalar s => .ok s.toBool
  | .pointer p => .ok p.toBool
  | .aggregate t _ => .error (.notBoolean (some t))
  | .invalid => .error .invalidValue

/-- A unary operator. -/
def unary (op : UnaryOp) (v : Value) : Except EvalError Value :=
  match op, v with
  | .logicalNot, v => do return ofBool (!(← v.toBool))
  | .plus, .scalar s => .ok (.scalar (s.convert s.kind.promote))
  | .plus, .pointer p => .ok (.pointer p)
  | .neg, .scalar (.floating k x) =>
    .ok (.scalar (.ofBinary (.floating k) (Scalar.floating k x).toBinary.neg))
  | .neg, .scalar (.integral k n) =>
    .ok (.scalar (.ofInt (.integral k.promote) (-k.promote.wrap n)))
  | .bitNot, .scalar (.integral k n) =>
    .ok (.scalar (.ofInt (.integral k.promote) (-k.promote.wrap n - 1)))
  | .deref, _ | .addressOf, _ => .error (.unaryOnValue op)
  | _, v => .error (.unaryOperand op v.type?)

/-- The order of two values. Pointers to the same type are ordered by address, as are any pointers
one of which is to `void`; an integer beside a pointer is taken as an address. -/
def order (op : Comparison) (v w : Value) : Except EvalError (Option Ordering) :=
  match v, w with
  | .scalar a, .scalar b => .ok (a.order b)
  | .pointer p, .pointer q =>
    if p.pointee.unqualified = q.pointee.unqualified || p.isToVoid || q.isToVoid then
      .ok (some (compare p.address.toNat q.address.toNat))
    else .error (.distinctPointers p.type q.type)
  | .pointer p, .scalar (.integral k n) =>
    .ok (some (compare p.address.toNat (Scalar.integral k n).toWord.toNat))
  | .scalar (.integral k n), .pointer p =>
    .ok (some (compare (Scalar.integral k n).toWord.toNat p.address.toNat))
  | _, _ => .error (.binaryOperands (.compare op) v.type? w.type?)

/-- An arithmetic operator. -/
def arith (op : ArithOp) (v w : Value) : Except EvalError Value :=
  match op, v, w with
  | .add, .pointer p, .scalar (.integral _ n) => do return .pointer (← p.advance n)
  | .add, .scalar (.integral _ n), .pointer p => do return .pointer (← p.advance n)
  | .sub, .pointer p, .scalar (.integral _ n) => do return .pointer (← p.advance (-n))
  | .sub, .pointer p, .pointer q => do
    return .scalar (.ofInt (.integral .long) (← p.difference q))
  | op, .scalar a, .scalar b => do return .scalar (← a.arith op b)
  | op, v, w => .error (.binaryOperands (.arith op) v.type? w.type?)

/-- A shift. -/
def shift (op : ShiftOp) (v w : Value) : Except EvalError Value :=
  match v, w with
  | .scalar (.integral k n), .scalar (.integral _ count) => do
    return .scalar (← Scalar.shift op k n count)
  | _, _ => .error (.binaryOperands (.shift op) v.type? w.type?)

/-- A logical connective. The right operand is looked at only if the left one leaves the result
open. -/
def logical (op : Connective) (v w : Value) : Except EvalError Value := do
  match op, ← v.toBool with
  | .and, true | .or, false => return ofBool (← w.toBool)
  | .and, false => return ofBool false
  | .or, true => return ofBool true

/-- A binary operator. -/
def binary (op : BinaryOp) (v w : Value) : Except EvalError Value :=
  if v.isValid && w.isValid then
    match op with
    | .arith op => v.arith op w
    | .shift op => v.shift op w
    | .compare op => do return ofBool (op.holds (← v.order op w))
    | .logical op => v.logical op w
    | .subscript => .error .subscriptOnValue
  else .error .invalidValue

/-- Converts a value to a type as a cast does. -/
def cast (v : Value) (target : Ty) : Except EvalError Value :=
  match target, v with
  | .reference _ _, _ => .error (.castToReference target)
  | .scalar (.arithmetic k) _, .scalar s => .ok (.scalar (s.convert k))
  | .scalar (.arithmetic (.integral k)) _, .pointer p =>
    .ok (.scalar (.ofInt (.integral k) p.address.toNat))
  | .pointer t _, .pointer p => .ok (.pointer (p.cast t))
  | .pointer t _, .scalar (.integral k n) =>
    .ok (.pointer ⟨(Scalar.integral k n).toWord, t⟩)
  | _, _ => .error (.castOperand v.type? target)

/-- The selected branch of a conditional, converted to the common type of both branches. -/
def inCommonWith (v : Value) (other : Ty) : Value :=
  match v, other with
  | .scalar s, .scalar (.arithmetic k) _ =>
    if k = s.kind then v else .scalar (s.convert (s.kind.common k))
  | _, _ => v

end Value

/-- The type of the result of a binary operator, from the types of its operands alone. -/
def BinaryOp.resultType (op : BinaryOp) (t u : Ty) : Except EvalError Ty :=
  match op, t, u with
  | .compare _, _, _ | .logical _, _, _ => .ok .bool
  | .shift _, .scalar (.arithmetic a) _, .scalar (.arithmetic _) _ => .ok (.arithmetic a.promote)
  | _, .scalar (.arithmetic a) _, .scalar (.arithmetic b) _ => .ok (.arithmetic (a.common b))
  | .arith .add, .pointer _ _, .scalar _ _ | .arith .sub, .pointer _ _, .scalar _ _ =>
    .ok t.unqualified
  | .arith .add, .scalar _ _, .pointer _ _ => .ok u.unqualified
  | .arith .sub, .pointer _ _, .pointer _ _ => .ok (.arithmetic (.integral .long))
  | _, _, _ => .error (.binaryOperands op (some t) (some u))

end WatchExpr
