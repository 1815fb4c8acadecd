import WatchExpr.Expr.Basic
import WatchExpr.Target.Basic
import WatchExpr.Value.Operations

/-!
# Static types

The type of an expression, found without reading memory, and the names in it.
-/

namespace WatchExpr

namespace Target

/-- The variable that a name stands for. -/
def lookup (target : Target) (name : String) : Except EvalError Variable :=
  match target.variableNamed? name with
  | some v => .ok v
  | none => .error (.undeclared name)

/-- The member of a record type with a given name. -/
def member (target : Target) (record : Ty) (name : String) : Except EvalError Field :=
  match record with
  | .tagged r _ =>
    match target.field? r name with
    | some f => .ok f
    | none => .error (.noMember name r.name)
  | t => .error (.notARecord (some t))

end Target

namespace Ty

/-- The type of the record that a member access reaches. -/
def accessed : MemberAccess → Ty → Except EvalError Ty
  | .dot, t => .ok t
  | .arrow, .pointer t _ | .arrow, .array t _ _ => .ok t
  | .arrow, t => .error (.notAPointer (some t.unqualified))

/-- The type of the elements that a subscript selects from. -/
def subscripted : Ty → Ty → Except EvalError Ty
  | .pointer t _, _ | _, .pointer t _ => .ok t
  | t, _ => .error (.subscriptBase (some t.unqualified))

/-- The type of the result of a unary operator. -/
def underUnary (op : UnaryOp) (t : Ty) : Except EvalError Ty :=
  match op, t with
  | .addressOf, t => .ok t.pointerTo
  | .deref, t =>
    match t.decayed with
    | .pointer u _ => .ok u
    | u => .error (.indirection (some u.unqualified))
  | .logicalNot, _ => .ok .bool
  | _, .scalar k _ => .ok (.scalar k.promote .none)
  | _, t => .ok t.unqualified

/-- The type of a conditional, from the types of its branches. -/
def joined : Ty → Ty → Ty
  | .scalar a p, .scalar b _ => if a = b then .scalar a p else .scalar (a.common b) .none
  | t, _ => t

end Ty

namespace Expr

/-- Asks the target for every name in an expression. -/
def checkNames (target : Target) : Expr → Except EvalError Unit
  | .poisoned d => .error (.poisoned d)
  | .truth _ | .number _ _ => .ok ()
  | .name id => (target.lookup id).map fun _ => ()
  | .cast _ e | .unary _ e | .member e _ _ => e.checkNames target
  | .binary _ e f => do
    e.checkNames target
    f.checkNames target
  | .conditional c e f => do
    c.checkNames target
    e.checkNames target
    f.checkNames target

/-- The type of an expression. -/
def staticType (target : Target) : Expr → Except EvalError Ty
  | .poisoned d => .error (.poisoned d)
  | .truth _ => .ok .bool
  | .number v _ => .ok (.arithmetic v.kind)
  | .name id => do return (← target.lookup id).type.dereferenced
  | .cast t e => do
    let _ ← e.staticType target
    return t.unqualified.dereferenced
  | .member e access field => do
    let record ← (← e.staticType target).dereferenced.accessed access
    return (← target.member record field).type.dereferenced
  | .binary .subscript e f => do
    let t ← e.staticType target
    let u ← f.staticType target
    return (← t.decayed.subscripted u.decayed).dereferenced
  | .binary op e f => do
    let t ← e.staticType target
    let u ← f.staticType target
    return (← op.resultType t.decayed u.decayed).dereferenced
  | .unary op e => do
    let t ← e.staticType target
    return (← t.dereferenced.underUnary op).dereferenced
  | .conditional c e f => do
    let _ ← c.staticType target
    let t ← e.staticType target
    let u ← f.staticType target
    return (t.decayed.joined u.decayed).dereferenced

end Expr

end WatchExpr
