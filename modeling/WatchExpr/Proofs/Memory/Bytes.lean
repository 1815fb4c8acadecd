import WatchExpr.Bytes
import WatchExpr.Power
import Mathlib.Tactic.Common

/-!
# Object bytes read back

The bytes of a number give back what fits into them, and the number of some bytes gives back the
bytes.
-/

namespace WatchExpr.Bytes

theorem toNat_ofNat (width n : Nat) : toNat (ofNat width n) = n % 256 ^ width := by
  induction width generalizing n with
  | zero => simp [ofNat, toNat, Nat.mod_one]
  | succ width ih =>
      have hlow : (UInt8.ofNat n).toNat = n % 256 := UInt8.toNat_ofNat'
      rw [ofNat, toNat, ih, hlow, Nat.pow_succ', Nat.mod_mul]

theorem toNat_ofNat_of_lt {width n : Nat} (h : n < 256 ^ width) : toNat (ofNat width n) = n := by
  rw [toNat_ofNat, Nat.mod_eq_of_lt h]

theorem toNat_lt (bs : List UInt8) : toNat bs < 256 ^ bs.length := by
  induction bs with
  | nil => exact Nat.one_pos
  | cons b bs ih =>
      have hb : b.toNat < 256 := b.toNat_lt
      rw [toNat, List.length_cons, Nat.pow_succ']
      omega

theorem ofNat_toNat (bs : List UInt8) : ofNat bs.length (toNat bs) = bs := by
  induction bs with
  | nil => rfl
  | cons b bs ih =>
      have hb : b.toNat < 256 := b.toNat_lt
      have hlow : UInt8.ofNat (b.toNat + 256 * toNat bs) = b := by
        rw [← UInt8.toNat_inj, UInt8.toNat_ofNat']
        omega
      have hrest : (b.toNat + 256 * toNat bs) / 256 = toNat bs := by omega
      rw [toNat, List.length_cons, ofNat, hlow, hrest, ih]

theorem toAddress_ofAddress (a : UInt64) : toAddress (ofAddress a) = a := by
  rw [toAddress, ofAddress, toNat_ofNat_of_lt a.toNat_lt, UInt64.ofNat_toNat]

end WatchExpr.Bytes
