import WatchExpr.Binary.Arithmetic
import WatchExpr.Text.Numeral

/-!
# Decimal text of floating-point data

Reading rounds the denoted number once. Writing takes the fewest digits that read back as the
datum; of two such numerals the nearer one, and on an exact tie the greater one.
-/

namespace WatchExpr

open Text

/-- The number `digits * 10 ^ exponent`. -/
structure Decimal where
  digits : Nat
  exponent : Int
deriving DecidableEq

namespace Decimal

/-- Moves the trailing zeros of the digits into the exponent. -/
def strip (d : Decimal) : Decimal :=
  go (decimal d.digits).length d
where
  go : Nat → Decimal → Decimal
    | 0, d => d
    | n + 1, d =>
      if d.digits ≠ 0 ∧ d.digits % 10 = 0 then go n ⟨d.digits / 10, d.exponent + 1⟩ else d

/-- Compares the number with `n * 2 ^ scale`. -/
def compareScaled (d : Decimal) (n : Nat) (scale : Int) : Ordering :=
  compare (d.digits * 10 ^ d.exponent.toNat * 2 ^ (-scale).toNat)
    (n * 2 ^ scale.toNat * 10 ^ (-d.exponent).toNat)

/-- Power of ten of the leading digit. -/
def leadingExponent (d : Decimal) : Int :=
  (decimal d.digits).length + d.exponent - 1

/-- The number with all its digits in place and no exponent; a fraction only where there is one. -/
def positional (d : Decimal) : List Char :=
  let ds := decimal d.digits
  let places := (-d.exponent).toNat
  if places = 0 then ds ++ List.replicate d.exponent.toNat '0'
  else
    let padded := padZeros (places + 1) ds
    padded.take (padded.length - places) ++ '.' :: padded.drop (padded.length - places)

/-- The number with one digit before the point and a power of ten. -/
def scientific (d : Decimal) : List Char :=
  let tail := match decimal d.digits with
    | lead :: [] => [lead]
    | lead :: more => lead :: '.' :: more
    | [] => []
  tail ++ 'e' :: signedDecimal d.leadingExponent

/-- The number with at least one decimal place; very large and very small numbers have a power of
ten instead. -/
def general (d : Decimal) : List Char :=
  if d.digits = 0 then ['0', '.', '0']
  else if d.leadingExponent < -4 ∨ 16 ≤ d.leadingExponent then d.scientific
  else if 0 ≤ d.exponent then d.positional ++ ['.', '0']
  else d.positional

/-- The datum nearest to the number, with the given sign. Numbers far outside the range of every
format are told by their leading digit, so that no large power of ten is formed for them. -/
def toBinary {fmt : BinaryFormat} (negative : Bool) (d : Decimal) : BinaryFloat fmt :=
  if d.digits = 0 then .ofMagnitude negative 0
  else if 400 < d.leadingExponent then .infinity negative
  else if d.leadingExponent < -400 then .ofMagnitude negative 0
  else .ofRatio negative (d.digits * 10 ^ d.exponent.toNat) (10 ^ (-d.exponent).toNat)

end Decimal

namespace BinaryFloat

variable {fmt : BinaryFormat}

/-- Whether a decimal lies among the numbers that round to `m * 2 ^ q`: up to half way to the
neighbours, the ends included when `m` is even. The lower neighbour of a power of two is only half
as far away. -/
def readsBack (fmt : BinaryFormat) (m : Nat) (q : Int) (d : Decimal) : Bool :=
  let narrow := m = 2 ^ fmt.fractionBits ∧ fmt.leastScale < q
  let low := d.compareScaled (if narrow then 4 * m - 1 else 4 * m - 2) (q - 2)
  let high := d.compareScaled (4 * m + 2) (q - 2)
  let ends := m % 2 = 0
  (low = .gt || (ends && low = .eq)) && (high = .lt || (ends && high = .eq))

/-- The least `k` with `m * 2 ^ q < 10 ^ k`. A hundred binary places are about thirty decimal ones,
which gives a first guess; it is corrected by comparison. -/
def decimalScale (m : Nat) (q : Int) : Int :=
  let guess := ((Nat.log2 m : Int) + q) * 1233 / 4096 - 1
  ((List.range 5).map fun (i : Nat) => guess + i).find?
    (fun k => Decimal.compareScaled ⟨1, k⟩ m q = .gt) |>.getD (guess + 5)

/-- The decimal of `n` digits nearest to `m * 2 ^ q`, if one reads back. -/
def candidate? (fmt : BinaryFormat) (m : Nat) (q : Int) (k : Int) (n : Nat) : Option Decimal :=
  let exponent := k - n
  let below := (m * 2 ^ q.toNat * 10 ^ (-exponent).toNat) / (2 ^ (-q).toNat * 10 ^ exponent.toNat)
  let low : Decimal := ⟨below, exponent⟩
  let high : Decimal := ⟨below + 1, exponent⟩
  match readsBack fmt m q low, readsBack fmt m q high with
  | false, false => none
  | true, false => some low
  | false, true => some high
  | true, true =>
    -- the middle of the two candidates against the number itself
    if Decimal.compareScaled ⟨2 * below + 1, exponent⟩ m (q + 1) = .gt then some low else some high

/-- The exact value of `m * 2 ^ q`. -/
def exactDecimal (m : Nat) (q : Int) : Decimal :=
  if 0 ≤ q then ⟨m * 2 ^ q.toNat, 0⟩ else ⟨m * 5 ^ (-q).toNat, q⟩

/-- The shortest decimal that reads back as the nonzero number `m * 2 ^ q`. -/
def shortest (fmt : BinaryFormat) (m : Nat) (q : Int) : Decimal :=
  let k := decimalScale m q
  let found := (List.range 17).findSome? fun i => candidate? fmt m q k (i + 1)
  (found.getD (exactDecimal m q)).strip

/-- The text of a datum, its finite numbers laid out by `layout`. -/
def textBy (layout : Decimal → List Char) (x : BinaryFloat fmt) : List Char :=
  match x.value with
  | .nan => ['N', 'a', 'N']
  | .infinite s => if s then ['-', 'i', 'n', 'f'] else ['i', 'n', 'f']
  | .finite s m q =>
    let digits := layout (if m = 0 then ⟨0, 0⟩ else shortest fmt m q)
    if s then '-' :: digits else digits

/-- The text of a datum: never an exponent, and no fraction for a whole number. -/
def text (x : BinaryFloat fmt) : List Char :=
  x.textBy Decimal.positional

end BinaryFloat

end WatchExpr
