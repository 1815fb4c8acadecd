import WatchExpr.Kind

/-!
# Types

The types of the inspected program. Qualifiers are recorded at every level.
-/

namespace WatchExpr

/-- The qualifiers of one level of a type. -/
structure Qualifiers where
  isConst : Bool := false
  isVolatile : Bool := false
deriving DecidableEq, Repr

namespace Qualifiers

/-- No qualifiers. -/
def none : Qualifiers := {}

/-- The qualifiers of either side. -/
def union (p q : Qualifiers) : Qualifiers :=
  ⟨p.isConst || q.isConst, p.isVolatile || q.isVolatile⟩

/-- The words of the qualifiers. -/
def words (q : Qualifiers) : List String :=
  (if q.isConst then ["const"] else []) ++ (if q.isVolatile then ["volatile"] else [])

end Qualifiers

/-- A struct, class or union: its name and its size in bytes. -/
structure TaggedType where
  name : String
  size : UInt64
deriving DecidableEq, Repr

/-- A type with the qualifiers of each of its levels. -/
inductive Ty where
  | scalar (kind : ScalarKind) (cv : Qualifiers)
  | tagged (record : TaggedType) (cv : Qualifiers)
  | pointer (pointee : Ty) (cv : Qualifiers)
  | reference (referent : Ty) (cv : Qualifiers)
  | array (element : Ty) (length : UInt64) (cv : Qualifiers)
deriving DecidableEq, Repr

namespace Ty

/-- The type `bool`. -/
def bool : Ty := .scalar (.arithmetic (.integral .bool)) .none

/-- An arithmetic type without qualifiers. -/
def arithmetic (k : ArithmeticKind) : Ty := .scalar (.arithmetic k) .none

/-- The unqualified pointer to a type. -/
def pointerTo (t : Ty) : Ty := .pointer t .none

/-- The outermost qualifiers. -/
def cv : Ty → Qualifiers
  | .scalar _ q | .tagged _ q | .pointer _ q | .reference _ q | .array _ _ q => q

/-- The type with its outermost qualifiers replaced. -/
def withCv : Ty → Qualifiers → Ty
  | .scalar k _, q => .scalar k q
  | .tagged r _, q => .tagged r q
  | .pointer t _, q => .pointer t q
  | .reference t _, q => .reference t q
  | .array t n _, q => .array t n q

/-- The type without its outermost qualifiers. -/
def unqualified (t : Ty) : Ty := t.withCv .none

/-- The type with further outermost qualifiers. -/
def qualified (t : Ty) (q : Qualifiers) : Ty := t.withCv (t.cv.union q)

/-- Whether the type is `void`. -/
def isVoid : Ty → Bool
  | .scalar .void _ => true
  | _ => false

/-- Whether the type is a reference. -/
def isReference : Ty → Bool
  | .reference _ _ => true
  | _ => false

/-- Size in bytes. `void` has none, nor has an array whose size is no 64-bit number. -/
def size? : Ty → Option UInt64
  | .scalar k _ => k.size?.map UInt64.ofNat
  | .tagged r _ => some r.size
  | .pointer _ _ | .reference _ _ => some 8
  | .array t n _ =>
    t.size?.bind fun s => if s.toNat * n.toNat < UInt64.size then some (s * n) else none

/-- The type of the object that a reference refers to; other types stay. -/
def dereferenced : Ty → Ty
  | .reference t _ => t
  | t => t

/-- The type of a value read as an operand: references are followed, and an array becomes a pointer
to its first element. -/
def decayed (t : Ty) : Ty :=
  match t.dereferenced with
  | .array e _ _ => e.pointerTo
  | u => u

end Ty

end WatchExpr
