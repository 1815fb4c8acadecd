/-!
# Object bytes

Object representations are little-endian.
-/

namespace WatchExpr.Bytes

/-- The low `width` bytes of a number, the lowest first. -/
def ofNat : (width : Nat) → Nat → List UInt8
  | 0, _ => []
  | width + 1, n => UInt8.ofNat n :: ofNat width (n / 256)

/-- The number with given bytes, the lowest first. -/
def toNat : List UInt8 → Nat
  | [] => 0
  | b :: bs => b.toNat + 256 * toNat bs

@[simp] theorem length_ofNat (width n : Nat) : (ofNat width n).length = width := by
  induction width generalizing n with
  | zero => rfl
  | succ width ih => simp [ofNat, ih]

/-- The bytes of an address. -/
def ofAddress (a : UInt64) : List UInt8 :=
  ofNat 8 a.toNat

/-- The address with given bytes. -/
def toAddress (bs : List UInt8) : UInt64 :=
  UInt64.ofNat (toNat bs)

end WatchExpr.Bytes
