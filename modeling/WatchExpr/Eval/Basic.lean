import WatchExpr.Eval.Typing
import WatchExpr.Grammar.Reading

/-!
# Evaluation

An expression reduces to an object in memory or to a value. Objects are read only where their value
is asked for; that is also how an address is taken without reading what lies there.
-/

namespace WatchExpr

/-- An object: where it lies and what it is. -/
structure Place where
  type : Ty
  address : UInt64
deriving DecidableEq

/-- What an expression reduces to. -/
inductive Operand where
  | object (place : Place)
  | value (v : Value)
deriving DecidableEq

namespace Target

variable (target : Target)

/-- Reads a number of bytes. -/
def read (address : UInt64) (size : Nat) : Except EvalError (List UInt8) :=
  match (target.read? address size).filter (·.length = size) with
  | some bytes => .ok bytes
  | none => .error (.unreadable address)

/-- Reads an address. -/
def readAddress (address : UInt64) : Except EvalError UInt64 := do
  return Bytes.toAddress (← target.read address 8)

/-- The value of the object of a given type at an address. A reference has the value of what it
refers to; a record or an array is not read. -/
def load : Ty → UInt64 → Except EvalError Value
  | .scalar .void _, _ => .error .loadOfVoid
  | .scalar (.arithmetic k) _, a => do return .scalar (.ofBytes k (← target.read a k.size))
  | .pointer t _, a => do return .pointer ⟨← target.readAddress a, t⟩
  | .reference t _, a => do load t (← target.readAddress a)
  | t, a => .ok (.aggregate t a)

/-- The object that a place designates: a reference designates what it refers to. -/
def follow (place : Place) : Except EvalError Place :=
  match place.type with
  | .reference t _ => do return ⟨t, ← target.readAddress place.address⟩
  | _ => .ok place

/-- The object at a place, as an operand. -/
def object (type : Ty) (address : UInt64) : Except EvalError Operand := do
  return .object (← target.follow ⟨type, address⟩)

/-- The value of an operand. -/
def valueOf : Operand → Except EvalError Value
  | .object p => target.load p.type p.address
  | .value v => .ok v

/-- The value of an operand, an array being taken as a pointer. -/
def decayedValueOf (o : Operand) : Except EvalError Value := do
  return (← target.valueOf o).decayed

/-- A member of the record at an address. Members take on the qualifiers of the record, unless they
are references. -/
def memberOf (record : Ty) (address : UInt64) (name : String) : Except EvalError Operand := do
  let f ← target.member record name
  target.object (if f.type.isReference then f.type else f.type.qualified record.cv)
    (address + f.offset)

/-- The element that a subscript selects. Pointer and index may stand on either side. -/
def elementOf (base index : Value) : Except EvalError Operand :=
  match base, index with
  | .pointer p, .scalar (.integral _ n) | .scalar (.integral _ n), .pointer p =>
    if p.isToVoid then .error .subscriptOfVoid
    else do
      let q ← p.advance n
      target.object q.pointee q.address
  | .pointer _, _ | _, .pointer _ => .error .subscriptIndex
  | _, _ => .error (.subscriptBase base.type?)

/-- The object that a value points to. -/
def pointeeOf : Value → Except EvalError Operand
  | .pointer p =>
    if p.isToVoid then .error (.indirectionOfVoid p.type) else target.object p.pointee p.address
  | v => .error (.indirection v.type?)

end Target

/-- The address of an operand. -/
def Operand.addressOf : Operand → Except EvalError Operand
  | .object p => .ok (.value (.pointer ⟨p.address, p.type⟩))
  | .value v => .error (.addressOfValue v.type?)

namespace Expr

/-- The value of a conditional, from that of its selected branch. The names in the other branch must
be declared, but nothing else is asked of it: only if it has a type does it take part in the type of
the result. -/
def besides (target : Target) (other : Expr) (v : Value) : Except EvalError Value := do
  other.checkNames target
  match other.staticType target with
  | .ok t => return v.inCommonWith t.decayed
  | .error e => if e.code? = some .undeclared then throw e else return v

/-- Reduces an expression. Both operands of a binary operator are evaluated, the left one first. -/
def reduce (target : Target) : Expr → Except EvalError Operand
  | .poisoned d => .error (.poisoned d)
  | .truth b => .ok (.value (.ofBool b))
  | .number v _ => .ok (.value (.scalar v))
  | .name id => do
    let v ← target.lookup id
    target.object v.type v.address
  | .member e .dot field => do
    match ← target.valueOf (← e.reduce target) with
    | .aggregate t a => target.memberOf t a field
    | v => .error (.notARecord v.type?)
  | .member e .arrow field => do
    match ← target.decayedValueOf (← e.reduce target) with
    | .pointer p => target.memberOf p.pointee p.address field
    | v => .error (.notAPointer v.type?)
  | .binary .subscript e f => do
    let base ← target.decayedValueOf (← e.reduce target)
    let index ← target.decayedValueOf (← f.reduce target)
    target.elementOf base index
  | .binary op e f => do
    let v ← target.decayedValueOf (← e.reduce target)
    let w ← target.decayedValueOf (← f.reduce target)
    return .value (← v.binary op w)
  | .unary .deref e => do
    target.pointeeOf (← target.decayedValueOf (← e.reduce target))
  | .unary .addressOf e => do
    (← e.reduce target).addressOf
  | .unary op e => do
    return .value (← (← target.decayedValueOf (← e.reduce target)).unary op)
  | .cast t e => do
    return .value (← (← target.decayedValueOf (← e.reduce target)).cast t)
  | .conditional c e f => do
    if ← (← target.decayedValueOf (← c.reduce target)).toBool then
      return .value (← f.besides target (← target.decayedValueOf (← e.reduce target)))
    else
      return .value (← e.besides target (← target.decayedValueOf (← f.reduce target)))

/-- The value of an expression. -/
def eval (target : Target) (e : Expr) : Except EvalError Value := do
  target.valueOf (← e.reduce target)

/-- Evaluates an expression for a caller who keeps a report. Afterwards it is the report of no
failure, beside a value, or that of the failure, beside no value. What is not reported as a failure
stops the caller too. -/
def evalReporting (target : Target) (e : Expr) : StateT Diagnostic Option Value :=
  match e.eval target with
  | .ok v => do
    set Diagnostic.none
    return v
  | .error failure => do
    set (← failure.report?)
    return .invalid

end Expr

/-- Reads and evaluates the text of an expression; there is no outcome if reading or evaluating it
stops. -/
def evaluate (target : Target) (text : String) : Option (Except Diagnostic Value) :=
  match Expr.read target.types text with
  | .error e => e.report?.map .error
  | .ok e =>
    match e.eval target with
    | .error failure => failure.report?.map .error
    | .ok v => some (.ok v)

end WatchExpr
