import WatchExpr.Scalar
import WatchExpr.Value.Pointer

/-!
# Values

What expressions evaluate to.
-/

namespace WatchExpr

/-- A value. An aggregate is an object that stays in memory: a record or an array. -/
inductive Value where
  /-- Stands for no value beside a reported failure. -/
  | invalid
  | scalar (s : Scalar)
  | pointer (p : Pointer)
  | aggregate (type : Ty) (address : UInt64)
deriving DecidableEq

namespace Value

/-- A truth value. -/
def ofBool (b : Bool) : Value := .scalar (.ofBool b)

/-- Whether this is a value at all. -/
def isValid : Value → Bool
  | .invalid => false
  | _ => true

/-- The type of a value. -/
def type? : Value → Option Ty
  | .invalid => none
  | .scalar s => some (.arithmetic s.kind)
  | .pointer p => some p.type
  | .aggregate t _ => some t

/-- The name of the type of a value. -/
def typeText (v : Value) : String := Ty.textOrInvalid v.type?

/-- The scalar that a value is. -/
def scalar? : Value → Option Scalar
  | .scalar s => some s
  | _ => none

/-- The pointer that a value is. -/
def pointer? : Value → Option Pointer
  | .pointer p => some p
  | _ => none

/-- The text of a value. -/
def print : Value → List Char
  | .invalid => "<invalid>".toList
  | .scalar s => s.text
  | .pointer p => p.text
  | .aggregate t a =>
    "\x7b".toList ++ t.declarator [] ++ " @ 0x".toList ++ Text.hexadecimal a.toNat ++
      "\x7d".toList

/-- The text of a value. -/
def text (v : Value) : String := String.ofList v.print

/-- An array read as an operand is a pointer to its first element. -/
def decayed : Value → Value
  | .aggregate (.array e _ _) a => .pointer ⟨a, e⟩
  | v => v

end Value

end WatchExpr
