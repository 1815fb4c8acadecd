import WatchExpr.Eval.Error

/-!
# Pointers

An address together with the type of what lies there. Arithmetic counts in elements of that type and
is modulo `2 ^ 64`.
-/

namespace WatchExpr

/-- A pointer. -/
structure Pointer where
  address : UInt64
  pointee : Ty
deriving DecidableEq

/-- The 64-bit number that is congruent to an integer. -/
def wordOfInt (n : Int) : UInt64 :=
  ⟨BitVec.ofInt 64 n⟩

/-- A 64-bit number read in two's complement. -/
def signedOfWord (w : UInt64) : Int :=
  w.toBitVec.toInt

namespace Pointer

/-- The type of the pointer itself. -/
def type (p : Pointer) : Ty := p.pointee.pointerTo

/-- Whether nothing is known of what lies at the address. -/
def isToVoid (p : Pointer) : Bool := p.pointee.isVoid

/-- Whether the pointer is not null. -/
def toBool (p : Pointer) : Bool := p.address ≠ 0

/-- The size of an element, if elements have one to count in. -/
def elementSize (p : Pointer) : Except EvalError UInt64 :=
  match p.pointee.size? with
  | some size => if size = 0 then .error (.incompletePointee p.pointee) else .ok size
  | none => .error (.incompletePointee p.pointee)

/-- The pointer to the element at a given distance. -/
def advance (p : Pointer) (n : Int) : Except EvalError Pointer := do
  let size ← p.elementSize
  return { p with address := p.address + wordOfInt n * size }

/-- The number of elements from one pointer to another, rounded toward zero. The distance in bytes
and the size are both taken in two's complement, and so is their quotient, which overflows if it is
`2 ^ 63`. -/
def difference (p q : Pointer) : Except EvalError Int := do
  if p.pointee.unqualified ≠ q.pointee.unqualified then
    throw (.incompatiblePointers p.type q.type)
  let size ← p.elementSize
  let bytes := p.address - q.address
  if bytes.toBitVec.sdivOverflow size.toBitVec then
    throw .distanceOverflow
  return (signedOfWord bytes).tdiv (signedOfWord size)

/-- The same address with another type. -/
def cast (p : Pointer) (pointee : Ty) : Pointer :=
  { p with pointee }

/-- The address in sixteen hexadecimal digits. -/
def text (p : Pointer) : List Char :=
  '0' :: 'x' :: Text.padZeros 16 (Text.hexadecimal p.address.toNat)

end Pointer

end WatchExpr
