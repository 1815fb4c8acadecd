import WatchExpr.Power

/-!
# Binary floating-point data

A datum of an IEEE 754 interchange format is its bit pattern. It is read as a sign, a significand
and a power of two, and an exact ratio is rounded to the nearest datum, ties to the even one.
-/

namespace WatchExpr

/-- An interchange format: the widths of the exponent field and of the fraction field. -/
structure BinaryFormat where
  exponentBits : Nat
  fractionBits : Nat
deriving DecidableEq

namespace BinaryFormat

/-- binary32 -/
def single : BinaryFormat := ⟨8, 23⟩

/-- binary64 -/
def double : BinaryFormat := ⟨11, 52⟩

variable (fmt : BinaryFormat)

/-- Number of bits of a datum: sign, exponent and fraction. -/
def width : Nat := fmt.exponentBits + fmt.fractionBits + 1

/-- The exponent field of the infinities and of NaN. -/
def topExponent : Nat := 2 ^ fmt.exponentBits - 1

/-- Power of two that the last bit of a subnormal number stands for. -/
def leastScale : Int := 2 - 2 ^ (fmt.exponentBits - 1) - fmt.fractionBits

/-- Pattern of positive infinity; larger magnitudes are NaN. -/
def infinityBits : Nat := fmt.topExponent * 2 ^ fmt.fractionBits

/-- The fraction bit that tells a quiet NaN from a signaling one. -/
def quietBit : Nat := 2 ^ (fmt.fractionBits - 1)

end BinaryFormat

/-- A floating-point datum of a format. -/
structure BinaryFloat (fmt : BinaryFormat) where
  bits : BitVec fmt.width
deriving DecidableEq

/-- A binary32 datum. -/
abbrev Binary32 := BinaryFloat .single

/-- A binary64 datum. -/
abbrev Binary64 := BinaryFloat .double

/-- What a datum denotes; a finite one denotes `± significand * 2 ^ scale`. -/
inductive BinaryValue where
  | nan
  | infinite (negative : Bool)
  | finite (negative : Bool) (significand : Nat) (scale : Int)
deriving DecidableEq

/-- A quotient rounded to the nearest integer, ties to the even one. -/
def roundRatio (num den : Nat) : Nat :=
  let q := num / den
  let r := num % den
  if den < 2 * r ∨ (2 * r = den ∧ q % 2 = 1) then q + 1 else q

/-- The greatest `k` with `2 ^ k ≤ num / den`, for positive numbers. -/
def floorLog2Ratio (num den : Nat) : Int :=
  let k : Int := (Nat.log2 num : Int) - Nat.log2 den
  if den * 2 ^ k.toNat ≤ num * 2 ^ (-k).toNat then k else k - 1

namespace BinaryFloat

variable {fmt : BinaryFormat}

/-- The datum with a given sign and a given pattern below the sign bit. -/
def ofMagnitude (negative : Bool) (magnitude : Nat) : BinaryFloat fmt :=
  ⟨BitVec.ofNat _ ((if negative then 2 ^ (fmt.width - 1) else 0) + magnitude)⟩

/-- The sign bit. -/
def negative (x : BinaryFloat fmt) : Bool :=
  2 ^ (fmt.width - 1) ≤ x.bits.toNat

/-- The pattern below the sign bit. -/
def magnitude (x : BinaryFloat fmt) : Nat :=
  x.bits.toNat % 2 ^ (fmt.width - 1)

/-- What the datum denotes. -/
def value (x : BinaryFloat fmt) : BinaryValue :=
  let fraction := x.magnitude % 2 ^ fmt.fractionBits
  let exponent := x.magnitude / 2 ^ fmt.fractionBits
  if fmt.infinityBits < x.magnitude then .nan
  else if x.magnitude = fmt.infinityBits then .infinite x.negative
  else if exponent = 0 then .finite x.negative fraction fmt.leastScale
  else .finite x.negative (2 ^ fmt.fractionBits + fraction) (fmt.leastScale + exponent - 1)

/-- Whether the datum is not a number. -/
def isNaN (x : BinaryFloat fmt) : Bool :=
  fmt.infinityBits < x.magnitude

/-- Whether the datum is one of the two zeros. -/
def isZero (x : BinaryFloat fmt) : Bool :=
  x.magnitude = 0

/-- A NaN with no payload. -/
def nan : BinaryFloat fmt :=
  ofMagnitude false (fmt.infinityBits + fmt.quietBit)

/-- An infinity. -/
def infinity (negative : Bool) : BinaryFloat fmt :=
  ofMagnitude negative fmt.infinityBits

/-- The datum nearest to `± num / den`, ties to the even one; a ratio past the largest finite
number becomes an infinity. The pattern below the sign bit grows with the number it denotes, so
that a significand carried past its width moves on to the next exponent. -/
def ofRatio (negative : Bool) (num den : Nat) : BinaryFloat fmt :=
  if num = 0 then ofMagnitude negative 0
  else
    let scale := max fmt.leastScale (floorLog2Ratio num den - fmt.fractionBits)
    let q := roundRatio (num * 2 ^ (-scale).toNat) (den * 2 ^ scale.toNat)
    let magnitude := (scale - fmt.leastScale).toNat * 2 ^ fmt.fractionBits + q
    ofMagnitude negative (min magnitude fmt.infinityBits)

/-- The datum nearest to `± significand * 2 ^ scale`. -/
def ofScaled (negative : Bool) (significand : Nat) (scale : Int) : BinaryFloat fmt :=
  ofRatio negative (significand * 2 ^ scale.toNat) (2 ^ (-scale).toNat)

/-- The datum nearest to an integer. -/
def ofInt (n : Int) : BinaryFloat fmt :=
  ofRatio (n < 0) n.natAbs 1

end BinaryFloat

end WatchExpr
