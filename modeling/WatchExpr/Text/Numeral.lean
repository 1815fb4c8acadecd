/-!
# Numerals

Digits in a base of at most sixteen: reading the value of a run of digits and writing a number.
-/

namespace WatchExpr.Text

/-- The value of an ASCII digit, the letters of either case standing for ten to fifteen. -/
def digitValue (c : Char) : Nat :=
  if c.isDigit then c.toNat - '0'.toNat
  else if 'a' ≤ c ∧ c ≤ 'f' then c.toNat - 'a'.toNat + 10
  else if 'A' ≤ c ∧ c ≤ 'F' then c.toNat - 'A'.toNat + 10
  else 16

/-- Whether a character is a digit in the given base. -/
def isDigitIn (radix : Nat) (c : Char) : Bool :=
  digitValue c < radix

/-- The number that a run of digits denotes, most significant digit first. -/
def numeralValue (radix : Nat) (digits : List Char) : Nat :=
  digits.foldl (fun n c => n * radix + digitValue c) 0

/-- The decimal digits of a natural number. -/
def decimal (n : Nat) : List Char :=
  Nat.toDigits 10 n

/-- The decimal digits of an integer, a minus sign in front of a negative one. -/
def signedDecimal (n : Int) : List Char :=
  if n < 0 then '-' :: decimal n.natAbs else decimal n.natAbs

/-- The lower-case hexadecimal digits of a natural number. -/
def hexadecimal (n : Nat) : List Char :=
  Nat.toDigits 16 n

/-- Pads a numeral with zeros on the left up to a width. -/
def padZeros (width : Nat) (digits : List Char) : List Char :=
  List.replicate (width - digits.length) '0' ++ digits

end WatchExpr.Text
