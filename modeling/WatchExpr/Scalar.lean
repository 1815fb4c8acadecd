import WatchExpr.Binary.Decimal
import WatchExpr.Bytes
import WatchExpr.Kind

/-!
# Scalars

Values of the arithmetic types, their conversions, their bytes and their text.
-/

namespace WatchExpr

open Text

/-- The interchange format of a floating type. -/
def FloatingKind.format : FloatingKind → BinaryFormat
  | .float => .single
  | .double => .double

/-- A value of an arithmetic type. An integral value is kept in the range of its type. -/
inductive Scalar where
  | integral (kind : IntegralKind) (value : Int)
  | floating (kind : FloatingKind) (value : BinaryFloat kind.format)
deriving DecidableEq

namespace Scalar

/-- The type of the value. -/
def kind : Scalar → ArithmeticKind
  | .integral k _ => .integral k
  | .floating k _ => .floating k

/-- Converts an integer to a type. -/
def ofInt : ArithmeticKind → Int → Scalar
  | .integral k, n => .integral k (k.wrap n)
  | .floating k, n => .floating k (.ofInt n)

/-- Converts a binary64 number to a type. An integral type takes the integer part, limited to 128
bits, and `bool` asks whether the number is nonzero. -/
def ofBinary : ArithmeticKind → Binary64 → Scalar
  | .integral .bool, x => .integral .bool (if x.isZero then 0 else 1)
  | .integral k, x => .integral k (k.wrap (x.truncate 128))
  | .floating k, x => .floating k x.convert

/-- A truth value. -/
def ofBool (b : Bool) : Scalar :=
  .integral .bool (if b then 1 else 0)

/-- The integer part of the value. -/
def toInt : Scalar → Int
  | .integral _ n => n
  | .floating _ x => (x.convert : Binary64).truncate 128

/-- The integer part of the value modulo `2 ^ 64`. -/
def toWord (s : Scalar) : UInt64 :=
  ⟨BitVec.ofInt 64 s.toInt⟩

/-- The value as a binary64 number. -/
def toBinary : Scalar → Binary64
  | .integral _ n => .ofInt n
  | .floating _ x => x.convert

/-- Whether the value is zero. -/
def isZero : Scalar → Bool
  | .integral _ n => n = 0
  | .floating _ x => x.isZero

/-- The truth of the value. -/
def toBool (s : Scalar) : Bool := !s.isZero

/-- Converts the value to another type. -/
def convert (s : Scalar) (target : ArithmeticKind) : Scalar :=
  match s with
  | .integral _ n => ofInt target n
  | .floating _ _ => ofBinary target s.toBinary

/-- The bytes of the value. -/
def toBytes : Scalar → List UInt8
  | .integral k n => Bytes.ofNat k.size (n % 2 ^ k.width).toNat
  | .floating k x => Bytes.ofNat k.size x.bits.toNat

/-- The value with given bytes; bytes past the size of the type are not looked at. -/
def ofBytes (kind : ArithmeticKind) (bytes : List UInt8) : Scalar :=
  match kind with
  | .integral k => ofInt (.integral k) (Bytes.toNat (bytes.take k.size))
  | .floating k =>
    let raw : BinaryFloat k.format := ⟨BitVec.ofNat _ (Bytes.toNat (bytes.take k.size))⟩
    ofBinary (.floating k) raw.convert

/-- The value with given bytes, if there are enough of them. -/
def ofBytes? (kind : ScalarKind) (bytes : List UInt8) : Option Scalar :=
  match kind with
  | .void => none
  | .arithmetic k => if k.size ≤ bytes.length then some (ofBytes k bytes) else none

/-- The text of the value. A character type shows its number and, if it is printable ASCII, the
character. -/
def text : Scalar → List Char
  | .integral .bool n => if n = 0 then "false".toList else "true".toList
  | .integral k n =>
    let digits := signedDecimal n
    if k.size = 1 ∧ 32 ≤ n ∧ n ≤ 126 then digits ++ [' ', '\'', Char.ofNat n.toNat, '\'']
    else digits
  | .floating _ x => x.text

/-- Whether two values have the same type and are numerically equal: the zeros are equal, and NaN
equals nothing. -/
def agrees : Scalar → Scalar → Bool
  | .integral j m, .integral k n => j = k && m = n
  | .floating .float x, .floating .float y => x.numericallyEqual y
  | .floating .double x, .floating .double y => x.numericallyEqual y
  | _, _ => false

end Scalar

end WatchExpr
