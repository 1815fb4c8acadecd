import WatchExpr.Proofs.Values.Ranges
import WatchExpr.Value.Operations
import Mathlib.Algebra.Order.Ring.Int
import Mathlib.Data.Int.Bitwise
import Mathlib.Data.Int.ModEq

/-!
# Residues

Every integral type but `bool` has one number in each residue class modulo `2 ^ width`, which is the
one that conversion finds. Bitwise operations on numbers of 64 bits are those on all bits of the
integers, and 128 bits leave room for the results.
-/

namespace WatchExpr

namespace IntegralKind

variable {k : IntegralKind} {m n r : Int}

theorem promote_ne_bool (k : IntegralKind) : k.promote ≠ .bool := by
  cases k <;> decide

theorem common_ne_bool (j k : IntegralKind) : j.common k ≠ .bool := by
  cases j <;> cases k <;> decide

theorem width_le (k : IntegralKind) : k.width ≤ 64 := by
  cases k <;> decide

/-- The type in which two operands meet is the one in which it meets either of them. -/
theorem common_common_right (j k : IntegralKind) : (j.common k).common k = j.common k := by
  cases j <;> cases k <;> rfl

theorem common_common_self (j k : IntegralKind) :
    (j.common k).common (j.common k) = j.common k := by
  cases j <;> cases k <;> rfl

theorem wrap_modEq (hbool : k ≠ .bool) (n : Int) : k.wrap n ≡ n [ZMOD 2 ^ k.width] := by
  cases hs : k.isSigned with
  | true =>
      have hcast : (2 : Int) ^ k.width = (2 ^ k.width : Nat) := by push_cast; rfl
      rw [wrap_of_isSigned hs, hcast]
      exact Int.bmod_emod
  | false =>
      rw [wrap_of_not_isSigned hs hbool]
      exact Int.emod_emod_of_dvd n (Int.dvd_refl _)

theorem wrap_congr (hbool : k ≠ .bool) (h : m ≡ n [ZMOD 2 ^ k.width]) : k.wrap m = k.wrap n := by
  rw [← wrap_emod hbool m, h, wrap_emod hbool n]

/-- A number of the type is the conversion of all numbers congruent to it. -/
theorem wrap_eq_of_modEq (hbool : k ≠ .bool) (hr : k.Contains r)
    (h : r ≡ n [ZMOD 2 ^ k.width]) : k.wrap n = r := by
  rw [← wrap_congr hbool h, wrap_eq_of_contains hr]

/-- Conversion yields the only number of the type that is congruent to the integer. -/
theorem contains_modEq_iff (hbool : k ≠ .bool) :
    k.Contains r ∧ r ≡ n [ZMOD 2 ^ k.width] ↔ r = k.wrap n := by
  constructor
  · rintro ⟨hr, h⟩
    exact (wrap_eq_of_modEq hbool hr h).symm
  · rintro rfl
    exact ⟨k.contains_wrap n, wrap_modEq hbool n⟩

theorem wrap_wrap (hbool : k ≠ .bool) (n : Int) : k.wrap (k.wrap n) = k.wrap n :=
  wrap_congr hbool (wrap_modEq hbool n)

/-- What is congruent modulo a higher power of two converts alike. -/
theorem wrap_bmod {w : Nat} (hbool : k ≠ .bool) (hw : 64 ≤ w) (n : Int) :
    k.wrap (n.bmod (2 ^ w)) = k.wrap n := by
  refine wrap_congr hbool (Int.ModEq.of_dvd ?_ (Int.bmod_emod (x := n) (m := 2 ^ w)))
  push_cast
  exact pow_dvd_pow 2 (k.width_le.trans hw)

end IntegralKind

/-! ## Numbers of so many bits -/

/-- Whether an integer is one in two's complement of a number of bits and a sign. -/
def FitsIn (bits : Nat) (n : Int) : Prop :=
  -(2 ^ bits) ≤ n ∧ n < 2 ^ bits

namespace FitsIn

variable {p q : Nat} {m n : Int}

theorem mono (h : FitsIn p n) (hpq : p ≤ q) : FitsIn q n := by
  have hpow : (2 : Int) ^ p ≤ 2 ^ q := pow_le_pow_right₀ (by decide) hpq
  exact ⟨(neg_le_neg hpow).trans h.1, h.2.trans_le hpow⟩

theorem ofNat_iff {n : Nat} : FitsIn p (n : Int) ↔ n < 2 ^ p := by
  have hpos : (0 : Int) < 2 ^ p := Int.pow_pos (by decide)
  simp only [FitsIn]
  constructor
  · intro h
    exact_mod_cast h.2
  · intro h
    exact ⟨by omega, by exact_mod_cast h⟩

theorem negSucc_iff {n : Nat} : FitsIn p (.negSucc n) ↔ n < 2 ^ p := by
  have hpos : (0 : Int) < 2 ^ p := Int.pow_pos (by decide)
  have hcast : (2 : Int) ^ p = (2 ^ p : Nat) := by push_cast; rfl
  simp only [FitsIn, hcast] at hpos ⊢
  omega

theorem natBitwise {x y : Nat} (f : Bool → Bool → Bool) (hx : x < 2 ^ p) (hy : y < 2 ^ p) :
    FitsIn p (Int.natBitwise f x y) := by
  unfold Int.natBitwise
  cases f false false with
  | true => exact negSucc_iff.2 (Nat.bitwise_lt_two_pow hx hy)
  | false => exact ofNat_iff.2 (Nat.bitwise_lt_two_pow hx hy)

/-- A bitwise operation needs no more bits than its operands. -/
theorem bitwise (f : Bool → Bool → Bool) (hm : FitsIn p m) (hn : FitsIn p n) :
    FitsIn p (Int.bitwise f m n) := by
  cases m with
  | ofNat x =>
      cases n with
      | ofNat y => exact natBitwise f (ofNat_iff.1 hm) (ofNat_iff.1 hn)
      | negSucc y => exact natBitwise (fun a b => f a !b) (ofNat_iff.1 hm) (negSucc_iff.1 hn)
  | negSucc x =>
      cases n with
      | ofNat y => exact natBitwise (fun a b => f (!a) b) (negSucc_iff.1 hm) (ofNat_iff.1 hn)
      | negSucc y => exact natBitwise (fun a b => f (!a) !b) (negSucc_iff.1 hm) (negSucc_iff.1 hn)

end FitsIn

/-- The numbers of every type fit in 64 bits and a sign. -/
theorem IntegralKind.Contains.fitsIn {k : IntegralKind} {n : Int} (h : k.Contains n) :
    FitsIn 64 n := by
  have hleast : -(2 ^ 64) ≤ k.least := by cases k <;> decide
  have hgreatest : k.greatest < 2 ^ 64 := by cases k <;> decide
  exact ⟨hleast.trans h.1, h.2.trans_lt hgreatest⟩

/-! ## Bits -/

theorem lnot_eq (n : Int) : n.lnot = -n - 1 := by
  cases n with
  | ofNat n => simp only [Int.lnot, Int.ofNat_eq_natCast]; omega
  | negSucc n => simp only [Int.lnot]; omega

theorem getLsbD_ofInt (w : Nat) (n : Int) (i : Nat) :
    (BitVec.ofInt w n).getLsbD i = (decide (i < w) && n.testBit i) := by
  cases n with
  | ofNat n => simp [Int.testBit, BitVec.getLsbD_ofNat]
  | negSucc n =>
      rw [BitVec.ofInt_negSucc_eq_not_ofNat, BitVec.getLsbD_not, BitVec.getLsbD_ofNat]
      by_cases h : i < w <;> simp [h, Int.testBit]

/-- A bitwise operation on words is the one on the bits of the integers, of which the low 64 are
kept. -/
theorem ArithOp.bitwise_eq {f : BitVec 64 → BitVec 64 → BitVec 64} {g : Bool → Bool → Bool}
    (hf : ∀ x y i, i < 64 → (f x y).getLsbD i = g (x.getLsbD i) (y.getLsbD i)) (m n : Int) :
    bitwise f m n = (Int.bitwise g m n).bmod (2 ^ 64) := by
  have hbits : f (.ofInt 64 m) (.ofInt 64 n) = .ofInt 64 (Int.bitwise g m n) := by
    refine BitVec.eq_of_getLsbD_eq fun i hi => ?_
    simp only [hf _ _ i hi, getLsbD_ofInt, Int.testBit_bitwise, hi, decide_true, Bool.true_and]
  rw [bitwise, hbits, BitVec.toInt_ofInt]

end WatchExpr
