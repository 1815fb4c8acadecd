import WatchExpr.Ty.TypeId

/-!
# Targets

What the reader and the evaluator ask of the inspected program.
-/

namespace WatchExpr

/-- A variable that an expression may name. -/
structure Variable where
  name : String
  type : Ty
  address : UInt64
deriving DecidableEq

/-- A member of a record. -/
structure Field where
  name : String
  type : Ty
  /-- Bytes from the start of the record. -/
  offset : UInt64
deriving DecidableEq

/-- An inspected program. -/
structure Target where
  /-- The variable that a possibly qualified name stands for. -/
  variableNamed? : String → Option Variable
  /-- The type that a possibly qualified name stands for. -/
  types : TypeNames
  /-- The member of a record with a given name. -/
  field? : TaggedType → String → Option Field
  /-- The bytes from an address on, if all of them can be read. -/
  read? : UInt64 → Nat → Option (List UInt8)

end WatchExpr
