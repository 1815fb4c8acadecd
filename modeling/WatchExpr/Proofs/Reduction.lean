import WatchExpr.Eval.Basic
import WatchExpr.Proofs.Memory.Bytes
import Mathlib.Tactic.Common

/-!
# Reduction by operands

What an expression reduces to, told from the values of its operands, and what reading yields, told
from the bytes in memory.
-/

namespace WatchExpr

namespace Target

variable {target : Target}

theorem lookup_eq_ok {name : String} {v : Variable} (h : target.variableNamed? name = some v) :
    target.lookup name = .ok v := by
  rw [lookup, h]

theorem read_eq_ok {a : UInt64} {size : Nat} {bytes : List UInt8}
    (h : target.read? a size = some bytes) (hlen : bytes.length = size) :
    target.read a size = .ok bytes := by
  simp only [read, h, Option.filter, hlen, decide_true, ↓reduceIte]

theorem readAddress_eq_ok {a address : UInt64}
    (h : target.read? a 8 = some (Bytes.ofAddress address)) :
    target.readAddress a = .ok address := by
  rw [readAddress, read_eq_ok h (Bytes.length_ofNat 8 _)]
  exact congrArg Except.ok (Bytes.toAddress_ofAddress address)

theorem object_of_isReference_eq_false {t : Ty} {a : UInt64} (h : t.isReference = false) :
    target.object t a = .ok (.object ⟨t, a⟩) := by
  cases t with
  | reference t q => cases h
  | _ => rfl

theorem object_reference {t : Ty} {q : Qualifiers} {a address : UInt64}
    (h : target.read? a 8 = some (Bytes.ofAddress address)) :
    target.object (.reference t q) a = .ok (.object ⟨t, address⟩) := by
  simp only [object, follow, readAddress_eq_ok h]
  rfl

end Target

namespace Expr

/-- The value that an expression has as an operand. -/
def operandValue (target : Target) (e : Expr) : Except EvalError Value := do
  target.decayedValueOf (← e.reduce target)

theorem operandValue_eq_eval (target : Target) (e : Expr) :
    e.operandValue target = (do return (← e.eval target).decayed) := by
  simp only [operandValue, eval, bind_assoc]
  rfl

theorem operandValue_of_eval {target : Target} {e : Expr} {v : Value}
    (h : e.eval target = .ok v) : e.operandValue target = .ok v.decayed := by
  rw [operandValue_eq_eval, h]
  rfl

variable (target : Target)

theorem eval_name {id : String} {v : Variable} (h : target.variableNamed? id = some v)
    (ht : v.type.isReference = false) :
    (name id).eval target = target.load v.type v.address := by
  rw [eval, reduce, Target.lookup_eq_ok h]
  exact congrArg (· >>= target.valueOf) (Target.object_of_isReference_eq_false ht)

theorem reduce_dot (e : Expr) (field : String) :
    (member e .dot field).reduce target = (do
      match ← e.eval target with
      | .aggregate t a => target.memberOf t a field
      | v => .error (.notARecord v.type?)) := by
  rw [reduce, eval]
  cases e.reduce target with
  | error _ => rfl
  | ok _ => rfl

theorem reduce_arrow (e : Expr) (field : String) :
    (member e .arrow field).reduce target = (do
      match ← e.operandValue target with
      | .pointer p => target.memberOf p.pointee p.address field
      | v => .error (.notAPointer v.type?)) := by
  rw [reduce, operandValue]
  cases e.reduce target with
  | error _ => rfl
  | ok _ => rfl

theorem reduce_subscript (e f : Expr) :
    (binary .subscript e f).reduce target = (do
      let v ← e.operandValue target
      let w ← f.operandValue target
      target.elementOf v w) := by
  simp only [operandValue, bind_assoc]
  rfl

theorem reduce_binary {op : BinaryOp} (h : op ≠ .subscript) (e f : Expr) :
    (binary op e f).reduce target = (do
      let v ← e.operandValue target
      let w ← f.operandValue target
      return .value (← v.binary op w)) := by
  cases op with
  | subscript => exact absurd rfl h
  | _ =>
      simp only [operandValue, bind_assoc]
      rfl

theorem reduce_deref (e : Expr) :
    (unary .deref e).reduce target = (do target.pointeeOf (← e.operandValue target)) := by
  simp only [operandValue, bind_assoc]
  rfl

theorem reduce_unary {op : UnaryOp} (hd : op ≠ .deref) (ha : op ≠ .addressOf) (e : Expr) :
    (unary op e).reduce target = (do
      return .value (← (← e.operandValue target).unary op)) := by
  cases op with
  | deref => exact absurd rfl hd
  | addressOf => exact absurd rfl ha
  | _ =>
      simp only [operandValue, bind_assoc]
      rfl

theorem reduce_cast (t : Ty) (e : Expr) :
    (cast t e).reduce target = (do
      return .value (← (← e.operandValue target).cast t)) := by
  simp only [operandValue, bind_assoc]
  rfl

theorem reduce_conditional (c e f : Expr) :
    (conditional c e f).reduce target = (do
      if ← (← c.operandValue target).toBool then
        return .value (← f.besides target (← e.operandValue target))
      else
        return .value (← e.besides target (← f.operandValue target))) := by
  simp only [operandValue, bind_assoc]
  rfl

/-- The value of a conditional, from those of its condition and its branches. -/
theorem eval_conditional_eq_bind (c e f : Expr) :
    (conditional c e f).eval target = (do
      if ← (← c.operandValue target).toBool then
        f.besides target (← e.operandValue target)
      else
        e.besides target (← f.operandValue target)) := by
  have hvalue (x : Except EvalError Value) (g : Value → Except EvalError Value) :
      (do return Operand.value (← g (← x))) >>= target.valueOf = x >>= g := by
    rw [bind_assoc]
    refine bind_congr fun w => ?_
    cases g w <;> rfl
  rw [eval, reduce_conditional, bind_assoc]
  refine bind_congr fun v => ?_
  rw [bind_assoc]
  refine bind_congr fun b => ?_
  cases b with
  | true => exact hvalue _ _
  | false => exact hvalue _ _

/-! ## Static types by operands -/

theorem staticType_binary {op : BinaryOp} (h : op ≠ .subscript) (e f : Expr) :
    (binary op e f).staticType target = (do
      let t ← e.staticType target
      let u ← f.staticType target
      return (← op.resultType t.decayed u.decayed).dereferenced) := by
  cases op with
  | subscript => exact absurd rfl h
  | _ => rfl

end Expr

end WatchExpr
