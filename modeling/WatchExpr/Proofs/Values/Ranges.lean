import WatchExpr.Proofs.Failure
import WatchExpr.Scalar
import Mathlib.Tactic.Common

/-!
# Scalars in range

Every conversion to an integral type yields a number that the type has, and leaves such a number as
it is.
-/

namespace WatchExpr

namespace IntegralKind

/-- The numbers that a type has. -/
def Contains (k : IntegralKind) (n : Int) : Prop :=
  k.least ≤ n ∧ n ≤ k.greatest

instance (k : IntegralKind) (n : Int) : Decidable (k.Contains n) :=
  inferInstanceAs (Decidable (_ ∧ _))

variable {k : IntegralKind} {n : Int}

theorem contains_bool : IntegralKind.bool.Contains n ↔ n = 0 ∨ n = 1 := by
  simp only [Contains, least, greatest, isSigned, Bool.false_eq_true, ↓reduceIte]
  omega

theorem contains_iff_of_isSigned (h : k.isSigned = true) :
    k.Contains n ↔ -(2 ^ (k.width - 1)) ≤ n ∧ n < 2 ^ (k.width - 1) := by
  have hbool : k ≠ .bool := by
    rintro rfl
    cases h
  simp only [Contains, least, greatest, h, hbool, ↓reduceIte]
  omega

theorem contains_iff_of_not_isSigned (h : k.isSigned = false) (hbool : k ≠ .bool) :
    k.Contains n ↔ 0 ≤ n ∧ n < 2 ^ k.width := by
  simp only [Contains, least, greatest, h, hbool, Bool.false_eq_true, ↓reduceIte]
  omega

/-- The width of a type is at least one bit. -/
theorem two_pow_width (k : IntegralKind) : (2 : Int) ^ k.width = 2 * 2 ^ (k.width - 1) := by
  cases k <;> rfl

theorem wrap_of_isSigned (h : k.isSigned = true) (n : Int) :
    k.wrap n = n.bmod (2 ^ k.width) := by
  have hbool : k ≠ .bool := by
    rintro rfl
    cases h
  simp only [wrap, hbool, h, ↓reduceIte]

theorem wrap_of_not_isSigned (h : k.isSigned = false) (hbool : k ≠ .bool) (n : Int) :
    k.wrap n = n % 2 ^ k.width := by
  simp only [wrap, hbool, h, Bool.false_eq_true, ↓reduceIte]

theorem contains_wrap (k : IntegralKind) (n : Int) : k.Contains (k.wrap n) := by
  by_cases hbool : k = .bool
  · subst hbool
    simp only [contains_bool, wrap, ↓reduceIte]
    split
    · exact .inl rfl
    · exact .inr rfl
  · cases hs : k.isSigned with
    | true =>
        rw [contains_iff_of_isSigned hs, wrap_of_isSigned hs]
        have hpos : 0 < 2 ^ k.width := Nat.two_pow_pos _
        have hlow := Int.le_bmod (x := n) hpos
        have hhigh := Int.bmod_lt (x := n) hpos
        have htwo := two_pow_width k
        push_cast at hlow hhigh
        omega
    | false =>
        rw [contains_iff_of_not_isSigned hs hbool, wrap_of_not_isSigned hs hbool]
        have hpos : (0 : Int) < 2 ^ k.width := Int.pow_pos (by decide)
        exact ⟨Int.emod_nonneg _ (Int.ne_of_gt hpos), Int.emod_lt_of_pos _ hpos⟩

/-- A number that the type has is its own conversion. -/
theorem wrap_eq_of_contains (h : k.Contains n) : k.wrap n = n := by
  by_cases hbool : k = .bool
  · subst hbool
    obtain rfl | rfl := contains_bool.1 h <;> rfl
  · cases hs : k.isSigned with
    | true =>
        rw [contains_iff_of_isSigned hs] at h
        have hcast : (2 : Int) ^ k.width = (2 ^ k.width : Nat) := by push_cast; rfl
        have htwo := two_pow_width k
        rw [wrap_of_isSigned hs]
        exact Int.bmod_eq_of_le (by omega) (by omega)
    | false =>
        rw [contains_iff_of_not_isSigned hs hbool] at h
        rw [wrap_of_not_isSigned hs hbool, Int.emod_eq_of_lt h.1 h.2]

theorem wrap_emod (hbool : k ≠ .bool) (n : Int) : k.wrap (n % 2 ^ k.width) = k.wrap n := by
  cases hs : k.isSigned with
  | true =>
      have hcast : (2 : Int) ^ k.width = (2 ^ k.width : Nat) := by push_cast; rfl
      rw [wrap_of_isSigned hs, wrap_of_isSigned hs, hcast, Int.emod_bmod]
  | false =>
      rw [wrap_of_not_isSigned hs hbool, wrap_of_not_isSigned hs hbool, Int.emod_emod]

/-- A number that the type has is found again from its residue. -/
theorem wrap_emod_of_contains (h : k.Contains n) : k.wrap (n % 2 ^ k.width) = n := by
  by_cases hbool : k = .bool
  · subst hbool
    obtain rfl | rfl := contains_bool.1 h <;> rfl
  · rw [wrap_emod hbool, wrap_eq_of_contains h]

end IntegralKind

namespace Scalar

/-- A scalar is kept in range: an integral one is a number that its type has. -/
def InRange : Scalar → Prop
  | .integral k n => k.Contains n
  | .floating _ _ => True

instance : DecidablePred InRange
  | .integral k n => inferInstanceAs (Decidable (k.Contains n))
  | .floating _ _ => .isTrue trivial

/-- The value is not a number. -/
def IsNaN : Scalar → Prop
  | .integral _ _ => False
  | .floating _ x => x.isNaN = true

theorem inRange_ofInt (k : ArithmeticKind) (n : Int) : (ofInt k n).InRange := by
  cases k with
  | integral k => exact k.contains_wrap n
  | floating k => trivial

theorem inRange_ofBool (b : Bool) : (ofBool b).InRange := by
  cases b <;> decide

theorem inRange_ofBinary (k : ArithmeticKind) (x : Binary64) : (ofBinary k x).InRange := by
  cases k with
  | integral k =>
      cases k with
      | bool =>
          simp only [ofBinary, InRange, IntegralKind.contains_bool]
          split
          · exact .inl rfl
          · exact .inr rfl
      | _ => exact IntegralKind.contains_wrap _ _
  | floating k => trivial

theorem inRange_convert (s : Scalar) (k : ArithmeticKind) : (s.convert k).InRange := by
  cases s with
  | integral j n => exact inRange_ofInt k n
  | floating j x => exact inRange_ofBinary k _

theorem inRange_ofBytes (k : ArithmeticKind) (bytes : List UInt8) : (ofBytes k bytes).InRange := by
  cases k with
  | integral k => exact inRange_ofInt (.integral k) _
  | floating k => trivial

end Scalar

end WatchExpr
