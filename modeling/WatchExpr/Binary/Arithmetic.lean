import WatchExpr.Binary.Basic

/-!
# Floating-point arithmetic

Each operation is the exact one followed by a single rounding.
-/

namespace WatchExpr.BinaryFloat

variable {fmt : BinaryFormat}

/-- The datum with the opposite sign. -/
def neg (x : BinaryFloat fmt) : BinaryFloat fmt :=
  ofMagnitude (!x.negative) x.magnitude

/-- A sum. An exact zero is negative only when both operands are. -/
def add (x y : BinaryFloat fmt) : BinaryFloat fmt :=
  match x.value, y.value with
  | .nan, _ | _, .nan => nan
  | .infinite s, .infinite t => if s = t then infinity s else nan
  | .infinite s, .finite .. => infinity s
  | .finite .., .infinite t => infinity t
  | .finite s m p, .finite t n q =>
    let scale := min p q
    let left : Int := (if s then -1 else 1) * (m * 2 ^ (p - scale).toNat : Nat)
    let right : Int := (if t then -1 else 1) * (n * 2 ^ (q - scale).toNat : Nat)
    let sum := left + right
    ofScaled (if sum = 0 then s && t else sum < 0) sum.natAbs scale

/-- A difference. -/
def sub (x y : BinaryFloat fmt) : BinaryFloat fmt :=
  x.add y.neg

/-- A product. -/
def mul (x y : BinaryFloat fmt) : BinaryFloat fmt :=
  match x.value, y.value with
  | .nan, _ | _, .nan => nan
  | .infinite s, .infinite t => infinity (s != t)
  | .infinite s, .finite t n _ => if n = 0 then nan else infinity (s != t)
  | .finite s m _, .infinite t => if m = 0 then nan else infinity (s != t)
  | .finite s m p, .finite t n q => ofScaled (s != t) (m * n) (p + q)

/-- A quotient. A nonzero number over zero is infinite. -/
def div (x y : BinaryFloat fmt) : BinaryFloat fmt :=
  match x.value, y.value with
  | .nan, _ | _, .nan => nan
  | .infinite _, .infinite _ => nan
  | .infinite s, .finite t _ _ => infinity (s != t)
  | .finite s _ _, .infinite t => ofMagnitude (s != t) 0
  | .finite s m p, .finite t n q =>
    if n = 0 then if m = 0 then nan else infinity (s != t)
    else ofRatio (s != t) (m * 2 ^ (p - q).toNat) (n * 2 ^ (q - p).toNat)

/-- Place of a datum in the order of the numbers, the two zeros sharing one. -/
def orderKey (x : BinaryFloat fmt) : Int :=
  if x.negative then -x.magnitude else x.magnitude

/-- Compares two numbers; NaN is not ordered. -/
def compare? (x y : BinaryFloat fmt) : Option Ordering :=
  if x.isNaN || y.isNaN then none else some (compare x.orderKey y.orderKey)

/-- Numerical equality: the zeros are equal and NaN equals nothing. -/
def numericallyEqual (x y : BinaryFloat fmt) : Bool :=
  x.compare? y == some .eq

/-- The number in another format, rounded if need be. A NaN becomes quiet and keeps its sign and
the leading bits of its payload. In its own format a datum stays as it is. -/
def convert {dst : BinaryFormat} (x : BinaryFloat fmt) : BinaryFloat dst :=
  if h : fmt = dst then h ▸ x
  else match x.value with
    | .nan =>
      let payload := x.magnitude % 2 ^ fmt.fractionBits
      let moved := payload * 2 ^ dst.fractionBits / 2 ^ fmt.fractionBits
      ofMagnitude x.negative
        (dst.infinityBits + (if moved / dst.quietBit = 1 then moved else moved + dst.quietBit))
    | .infinite s => infinity s
    | .finite s m p => ofScaled s m p

/-- The integer part, limited to the integers of `bits` bits in two's complement; NaN gives zero. -/
def truncate (bits : Nat) (x : BinaryFloat fmt) : Int :=
  let least : Int := -(2 ^ (bits - 1))
  let greatest : Int := 2 ^ (bits - 1) - 1
  match x.value with
  | .nan => 0
  | .infinite s => if s then least else greatest
  | .finite s m p =>
    let whole : Nat := m * 2 ^ p.toNat / 2 ^ (-p).toNat
    max least (min greatest (if s then -whole else whole))

end WatchExpr.BinaryFloat
