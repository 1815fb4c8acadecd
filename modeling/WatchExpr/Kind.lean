import WatchExpr.Power

/-!
# Scalar kinds

The primitive types of the LP64 data model, with `char` signed, and the conversions between the
arithmetic ones.
-/

namespace WatchExpr

/-- The integral types, `bool` among them. -/
inductive IntegralKind where
  | bool
  | char | signedChar | unsignedChar
  | short | unsignedShort
  | int | unsignedInt
  | long | unsignedLong
  | longLong | unsignedLongLong
deriving DecidableEq, Repr

namespace IntegralKind

/-- The name of the type. -/
def name : IntegralKind → String
  | .bool => "bool"
  | .char => "char"
  | .signedChar => "signed char"
  | .unsignedChar => "unsigned char"
  | .short => "short"
  | .unsignedShort => "unsigned short"
  | .int => "int"
  | .unsignedInt => "unsigned int"
  | .long => "long"
  | .unsignedLong => "unsigned long"
  | .longLong => "long long"
  | .unsignedLongLong => "unsigned long long"

/-- Size in bytes. -/
def size : IntegralKind → Nat
  | .bool | .char | .signedChar | .unsignedChar => 1
  | .short | .unsignedShort => 2
  | .int | .unsignedInt => 4
  | .long | .unsignedLong | .longLong | .unsignedLongLong => 8

/-- Size in bits. -/
def width (k : IntegralKind) : Nat := 8 * k.size

/-- Whether the type has negative values. -/
def isSigned : IntegralKind → Bool
  | .char | .signedChar | .short | .int | .long | .longLong => true
  | .bool | .unsignedChar | .unsignedShort | .unsignedInt | .unsignedLong | .unsignedLongLong =>
    false

/-- Conversion rank. -/
def rank : IntegralKind → Nat
  | .bool => 1
  | .char | .signedChar | .unsignedChar => 2
  | .short | .unsignedShort => 3
  | .int | .unsignedInt => 4
  | .long | .unsignedLong => 5
  | .longLong | .unsignedLongLong => 6

/-- Integral promotion: every type of lower rank than `int` becomes `int`. -/
def promote (k : IntegralKind) : IntegralKind :=
  if k.rank < rank .int then .int else k

/-- The unsigned type of the same rank. -/
def toUnsigned : IntegralKind → IntegralKind
  | .char | .signedChar => .unsignedChar
  | .short => .unsignedShort
  | .int => .unsignedInt
  | .long => .unsignedLong
  | .longLong => .unsignedLongLong
  | k => k

/-- The type in which two promoted operands of different signedness meet. -/
def mixedCommon (signed unsigned : IntegralKind) : IntegralKind :=
  if signed.rank ≤ unsigned.rank then unsigned
  else if unsigned.width < signed.width then signed
  else signed.toUnsigned

/-- The type in which two integral operands meet. -/
def common (a b : IntegralKind) : IntegralKind :=
  let a := a.promote
  let b := b.promote
  if a.isSigned = b.isSigned then if b.rank ≤ a.rank then a else b
  else if a.isSigned then mixedCommon a b
  else mixedCommon b a

/-- The least value of the type. -/
def least (k : IntegralKind) : Int :=
  if k.isSigned then -(2 ^ (k.width - 1)) else 0

/-- The greatest value of the type. -/
def greatest (k : IntegralKind) : Int :=
  if k = .bool then 1
  else if k.isSigned then 2 ^ (k.width - 1) - 1
  else 2 ^ k.width - 1

/-- Converts an integer to the type: `bool` asks whether it is nonzero, every other type takes the
value in its range that is congruent modulo `2 ^ width`. -/
def wrap (k : IntegralKind) (n : Int) : Int :=
  if k = .bool then if n = 0 then 0 else 1
  else if k.isSigned then n.bmod (2 ^ k.width)
  else n % 2 ^ k.width

end IntegralKind

/-- The floating-point types. -/
inductive FloatingKind where
  | float | double
deriving DecidableEq, Repr

/-- The name of the type. -/
def FloatingKind.name : FloatingKind → String
  | .float => "float"
  | .double => "double"

/-- Size in bytes. -/
def FloatingKind.size : FloatingKind → Nat
  | .float => 4
  | .double => 8

/-- The types that have values one can compute with. -/
inductive ArithmeticKind where
  | integral (kind : IntegralKind)
  | floating (kind : FloatingKind)
deriving DecidableEq, Repr

namespace ArithmeticKind

/-- The name of the type. -/
def name : ArithmeticKind → String
  | .integral k => k.name
  | .floating k => k.name

/-- Size in bytes. -/
def size : ArithmeticKind → Nat
  | .integral k => k.size
  | .floating k => k.size

/-- Whether the type is an integral one. -/
def isIntegral : ArithmeticKind → Bool
  | .integral _ => true
  | .floating _ => false

/-- Whether the type has negative values. -/
def isSigned : ArithmeticKind → Bool
  | .integral k => k.isSigned
  | .floating _ => true

/-- Integral promotion; floating types stay. -/
def promote : ArithmeticKind → ArithmeticKind
  | .integral k => .integral k.promote
  | .floating k => .floating k

/-- The unsigned type of the same rank; floating types stay. -/
def toUnsigned : ArithmeticKind → ArithmeticKind
  | .integral k => .integral k.toUnsigned
  | .floating k => .floating k

/-- The usual arithmetic conversions: the type in which two operands meet. -/
def common : ArithmeticKind → ArithmeticKind → ArithmeticKind
  | .integral a, .integral b => .integral (a.common b)
  | .floating a, .integral _ => .floating a
  | .integral _, .floating b => .floating b
  | .floating .float, .floating .float => .floating .float
  | .floating _, .floating _ => .floating .double

end ArithmeticKind

/-- The primitive types: the arithmetic ones and `void`. -/
inductive ScalarKind where
  | void
  | arithmetic (kind : ArithmeticKind)
deriving DecidableEq, Repr

instance : Coe IntegralKind ArithmeticKind := ⟨.integral⟩
instance : Coe FloatingKind ArithmeticKind := ⟨.floating⟩
instance : Coe ArithmeticKind ScalarKind := ⟨.arithmetic⟩

namespace ScalarKind

/-- The name of the type. -/
def name : ScalarKind → String
  | .void => "void"
  | .arithmetic k => k.name

/-- Size in bytes; `void` has none. -/
def size? : ScalarKind → Option Nat
  | .void => none
  | .arithmetic k => some k.size

/-- Size in bits, taken as zero for `void`. -/
def width (k : ScalarKind) : Nat :=
  8 * k.size?.getD 0

/-- Whether the type is an integral one. -/
def isIntegral : ScalarKind → Bool
  | .arithmetic k => k.isIntegral
  | .void => false

/-- Whether the type is a floating-point one. -/
def isFloating : ScalarKind → Bool
  | .arithmetic k => !k.isIntegral
  | .void => false

/-- Whether the type has negative values. -/
def isSigned : ScalarKind → Bool
  | .arithmetic k => k.isSigned
  | .void => false

/-- Integral promotion; `void` stays. -/
def promote : ScalarKind → ScalarKind
  | .arithmetic k => .arithmetic k.promote
  | .void => .void

/-- The unsigned type of the same rank; `void` stays. -/
def toUnsigned : ScalarKind → ScalarKind
  | .arithmetic k => .arithmetic k.toUnsigned
  | .void => .void

/-- The usual arithmetic conversions; `void` leaves the other type promoted. -/
def common : ScalarKind → ScalarKind → ScalarKind
  | .arithmetic a, .arithmetic b => .arithmetic (a.common b)
  | .void, b => b.promote
  | a, .void => a.promote

end ScalarKind

end WatchExpr
