import WatchExpr.Proofs.Evaluation.Codes
import WatchExpr.Proofs.Values.Residues

/-!
# Integer operators

The operators on integral scalars are modular arithmetic. An operation has an exact result on
integers, unless it divides by zero or shifts too far, and what it yields is the number of the
result type that is congruent to that.
-/

namespace WatchExpr

/-- The exact result of an arithmetic operator. A quotient is truncated toward zero, a remainder is
what is left of the dividend then, and bitwise operators act on all bits in two's complement. -/
def ArithOp.exact : ArithOp → Int → Int → Int
  | .add, m, n => m + n
  | .sub, m, n => m - n
  | .mul, m, n => m * n
  | .div, m, n => m.tdiv n
  | .rem, m, n => m - m.tdiv n * n
  | .bitAnd, m, n => m.land n
  | .bitXor, m, n => m.xor n
  | .bitOr, m, n => m.lor n

/-- The exact result of a shift. A shift to the right is rounded toward minus infinity. -/
def ShiftOp.exact : ShiftOp → Int → Nat → Int
  | .left, n, count => n * 2 ^ count
  | .right, n, count => n.fdiv (2 ^ count)

/-! ## Exact results in 128 bits -/

namespace ArithOp

/-- The operator on words of 64 bits is exact modulo `2 ^ 64`. -/
theorem onInt_modEq (op : ArithOp) (m n : Int) : op.onInt m n ≡ op.exact m n [ZMOD 2 ^ 64] := by
  have hbits (x : Int) : x.bmod (2 ^ 64) ≡ x [ZMOD 2 ^ 64] := Int.bmod_emod
  cases op with
  | add => exact Int.ModEq.refl _
  | sub => exact Int.ModEq.refl _
  | mul => exact Int.ModEq.refl _
  | div => exact Int.ModEq.refl _
  | rem =>
      have hrem := Int.tdiv_mul_add_tmod m n
      simp only [onInt, exact, show m.tmod n = m - m.tdiv n * n by omega]
      exact Int.ModEq.refl _
  | bitAnd =>
      rw [onInt, bitwise_eq (g := and) (by simp), Int.bitwise_and]
      exact hbits _
  | bitXor =>
      rw [onInt, bitwise_eq (g := xor) (by simp), Int.bitwise_xor]
      exact hbits _
  | bitOr =>
      rw [onInt, bitwise_eq (g := or) (by simp), Int.bitwise_or]
      exact hbits _

/-- Only a product may need more than 128 bits. -/
theorem fitsIn_exact {op : ArithOp} {m n : Int} (hop : op ≠ .mul) (hm : FitsIn 64 m)
    (hn : FitsIn 64 n) : FitsIn 127 (op.exact m n) := by
  have hquotient := Int.natAbs_tdiv_le_natAbs m n
  have hremainder : (m.tmod n).natAbs ≤ m.natAbs := by
    rw [Int.natAbs_tmod]
    exact Nat.mod_le _ _
  have hrem := Int.tdiv_mul_add_tmod m n
  cases op with
  | mul => exact absurd rfl hop
  | bitAnd =>
      rw [exact, ← Int.bitwise_and]
      exact (hm.bitwise and hn).mono (by decide)
  | bitXor =>
      rw [exact, ← Int.bitwise_xor]
      exact (hm.bitwise xor hn).mono (by decide)
  | bitOr =>
      rw [exact, ← Int.bitwise_or]
      exact (hm.bitwise or hn).mono (by decide)
  | _ =>
      simp only [FitsIn, exact] at *
      omega

end ArithOp

theorem ShiftOp.fitsIn_exact (op : ShiftOp) {n : Int} {count : Nat} (hn : FitsIn 64 n)
    (hcount : count < 64) : FitsIn 127 (op.exact n count) := by
  have hpos : (0 : Int) < 2 ^ count := Int.pow_pos (by decide)
  cases op with
  | left =>
      have hpow : (2 : Int) ^ count ≤ 2 ^ 63 := pow_le_pow_right₀ (by decide) (by omega)
      have hlow : -(2 ^ 64) * 2 ^ count ≤ n * 2 ^ count :=
        Int.mul_le_mul_of_nonneg_right hn.1 hpos.le
      have hhigh : n * 2 ^ count < 2 ^ 64 * 2 ^ count := Int.mul_lt_mul_of_pos_right hn.2 hpos
      simp only [FitsIn, exact]
      omega
  | right =>
      have hquotient := Int.natAbs_ediv_le_natAbs n (2 ^ count)
      simp only [FitsIn, exact, Int.fdiv_eq_ediv_of_nonneg n hpos.le] at *
      omega

/-! ## What operations yield -/

/-- What an operation does that has an exact result unless it is undefined. If it is undefined it
fails under the code `unknown`, and otherwise it yields the only number of a type that is congruent
to the exact result. That fits in 128 bits, or it is cut to 128 bits without effect. -/
structure ComputesModulo (k : IntegralKind) (undefined cut : Prop) (exact : Int)
    (x : Except EvalError Value) : Prop where
  fails : undefined → FailsWith .unknown x
  yields : ¬undefined → ∃ r, x = .ok (.scalar (.integral k r)) ∧
    (∀ r', k.Contains r' ∧ r' ≡ exact [ZMOD 2 ^ k.width] ↔ r' = r) ∧
    k.wrap (exact.bmod (2 ^ 128)) = r
  fits : ¬undefined → cut ∨ FitsIn 127 exact

theorem ComputesModulo.of_eq {k : IntegralKind} {undefined cut : Prop} {exact : Int}
    {x : Except EvalError Value} (hk : k ≠ .bool)
    (hfails : undefined → FailsWith .unknown x)
    (hyields : ¬undefined → x = .ok (.scalar (.integral k (k.wrap exact))))
    (hfits : ¬undefined → cut ∨ FitsIn 127 exact) : ComputesModulo k undefined cut exact x where
  fails := hfails
  yields h := ⟨_, hyields h, fun _ => IntegralKind.contains_modEq_iff hk,
    IntegralKind.wrap_bmod hk (by decide) exact⟩
  fits := hfits

namespace Value

variable (j k : IntegralKind) (a b : Int)

/-- Integral operands meet in their common type. -/
theorem binary_arith_integral (op : ArithOp) :
    binary (.arith op) (.scalar (.integral j a)) (.scalar (.integral k b)) =
      if op.divides ∧ (j.common k).wrap b = 0 then .error .divisionByZero
      else .ok (.scalar (.integral (j.common k)
        ((j.common k).wrap (op.exact ((j.common k).wrap a) ((j.common k).wrap b))))) := by
  have hexact : (j.common k).wrap (op.onInt ((j.common k).wrap a) ((j.common k).wrap b)) =
      (j.common k).wrap (op.exact ((j.common k).wrap a) ((j.common k).wrap b)) := by
    refine IntegralKind.wrap_congr (IntegralKind.common_ne_bool j k) ?_
    exact (op.onInt_modEq _ _).of_dvd (pow_dvd_pow 2 (IntegralKind.width_le _))
  have harith : (Scalar.integral j a).arith op (.integral k b) =
      if op.divides ∧ (j.common k).wrap b = 0 then .error .divisionByZero
      else .ok (.integral (j.common k)
        ((j.common k).wrap (op.onInt ((j.common k).wrap a) ((j.common k).wrap b)))) := rfl
  have hbinary : binary (.arith op) (.scalar (.integral j a)) (.scalar (.integral k b)) =
      (do return .scalar (← (Scalar.integral j a).arith op (.integral k b))) := by
    cases op <;> rfl
  rw [hbinary, harith, hexact]
  split <;> rfl

/-- An integral left operand of a shift is promoted; the count is taken as it is. -/
theorem binary_shift_integral (op : ShiftOp) :
    binary (.shift op) (.scalar (.integral j a)) (.scalar (.integral k b)) =
      if b < 0 ∨ j.promote.width ≤ b then .error (.shiftCount b j.promote)
      else .ok (.scalar (.integral j.promote
        (j.promote.wrap (op.exact (j.promote.wrap a) b.toNat)))) := by
  have hpos : (0 : Int) < 2 ^ b.toNat := Int.pow_pos (by decide)
  have hshift : Scalar.shift op j a b =
      if b < 0 ∨ j.promote.width ≤ b then .error (.shiftCount b j.promote)
      else .ok (.integral j.promote (j.promote.wrap (op.exact (j.promote.wrap a) b.toNat))) := by
    cases op with
    | left => rfl
    | right =>
        rw [ShiftOp.exact, Int.fdiv_eq_ediv_of_nonneg _ hpos.le]
        rfl
  have hbinary : binary (.shift op) (.scalar (.integral j a)) (.scalar (.integral k b)) =
      (do return .scalar (← Scalar.shift op j a b)) := rfl
  rw [hbinary, hshift]
  split <;> rfl

theorem computesModulo_arith (op : ArithOp) :
    ComputesModulo (j.common k) (op.divides = true ∧ (j.common k).wrap b = 0) (op = .mul)
      (op.exact ((j.common k).wrap a) ((j.common k).wrap b))
      (binary (.arith op) (.scalar (.integral j a)) (.scalar (.integral k b))) := by
  rw [binary_arith_integral]
  refine .of_eq (IntegralKind.common_ne_bool j k) (fun h => ?_) (fun h => ?_) fun _ => ?_
  · exact ⟨_, if_pos h, rfl⟩
  · exact if_neg h
  · by_cases hop : op = .mul
    · exact .inl hop
    · exact .inr (ArithOp.fitsIn_exact hop (IntegralKind.contains_wrap _ a).fitsIn
        (IntegralKind.contains_wrap _ b).fitsIn)

theorem computesModulo_shift (op : ShiftOp) :
    ComputesModulo j.promote (b < 0 ∨ j.promote.width ≤ b) False
      (op.exact (j.promote.wrap a) b.toNat)
      (binary (.shift op) (.scalar (.integral j a)) (.scalar (.integral k b))) := by
  rw [binary_shift_integral]
  refine .of_eq (IntegralKind.promote_ne_bool j) (fun h => ?_) (fun h => ?_) fun h => .inr ?_
  · exact ⟨_, if_pos h, rfl⟩
  · exact if_neg h
  · have hwidth := j.promote.width_le
    exact op.fitsIn_exact (IntegralKind.contains_wrap _ a).fitsIn (by omega)

/-- A unary operator is always defined. The operand is promoted first. -/
theorem computesModulo_unary {op : UnaryOp} {f : Int → Int}
    (hop : unary op (.scalar (.integral j a)) =
      .ok (.scalar (.integral j.promote (j.promote.wrap (f (j.promote.wrap a))))))
    (hf : ∀ n, FitsIn 64 n → FitsIn 127 (f n)) :
    ComputesModulo j.promote False False (f (j.promote.wrap a))
      (unary op (.scalar (.integral j a))) :=
  .of_eq (IntegralKind.promote_ne_bool j) False.elim (fun _ => hop)
    fun _ => .inr (hf _ (IntegralKind.contains_wrap _ a).fitsIn)

/-- A quotient times the divisor, with the remainder added, is the dividend again. -/
theorem quotient_remainder (hb : (j.common k).wrap b ≠ 0) :
    ∃ q r p, binary (.arith .div) (.scalar (.integral j a)) (.scalar (.integral k b)) = .ok q ∧
      binary (.arith .rem) (.scalar (.integral j a)) (.scalar (.integral k b)) = .ok r ∧
      binary (.arith .mul) q (.scalar (.integral k b)) = .ok p ∧
      binary (.arith .add) p r =
        .ok (.scalar (.integral (j.common k) ((j.common k).wrap a))) := by
  have hbool := IntegralKind.common_ne_bool j k
  have hdefined (op : ArithOp) : ¬(op.divides = true ∧ (j.common k).wrap b = 0) := fun h => hb h.2
  refine ⟨_, _, _, (binary_arith_integral j k a b .div).trans (if_neg (hdefined _)),
    (binary_arith_integral j k a b .rem).trans (if_neg (hdefined _)),
    (binary_arith_integral _ k _ b .mul).trans (if_neg (by simp [ArithOp.divides])), ?_⟩
  rw [binary_arith_integral, if_neg (by simp [ArithOp.divides])]
  simp only [IntegralKind.common_common_right, IntegralKind.common_common_self,
    IntegralKind.wrap_wrap hbool, ArithOp.exact]
  set c := j.common k
  set m := c.wrap a
  set n := c.wrap b
  have hproduct : c.wrap (c.wrap (m.tdiv n) * n) ≡ m.tdiv n * n [ZMOD 2 ^ c.width] :=
    (IntegralKind.wrap_modEq hbool _).trans ((IntegralKind.wrap_modEq hbool _).mul_right n)
  have hsum : c.wrap (c.wrap (m.tdiv n) * n) + c.wrap (m - m.tdiv n * n) ≡
      m.tdiv n * n + (m - m.tdiv n * n) [ZMOD 2 ^ c.width] :=
    hproduct.add (IntegralKind.wrap_modEq hbool _)
  rw [IntegralKind.wrap_congr hbool hsum, add_sub_cancel, IntegralKind.wrap_wrap hbool]

end Value

/-- The operators on integral scalars are exact modular arithmetic. Two operands meet in their
common type, the left operand of a shift and the operand of a unary operator are promoted, and the
result is the number of that type which is congruent to the exact one. Only a division by zero and a
shift count outside the width fail. -/
theorem integer_operators_exact (j k : IntegralKind) (a b : Int) :
    let c := j.common k
    let v : Value := .scalar (.integral j a)
    let w : Value := .scalar (.integral k b)
    (∀ op : ArithOp, ComputesModulo c (op.divides = true ∧ c.wrap b = 0) (op = .mul)
        (op.exact (c.wrap a) (c.wrap b)) (v.binary (.arith op) w)) ∧
      (∀ op : ShiftOp, ComputesModulo j.promote (b < 0 ∨ j.promote.width ≤ b) False
        (op.exact (j.promote.wrap a) b.toNat) (v.binary (.shift op) w)) ∧
      ComputesModulo j.promote False False (j.promote.wrap a) (v.unary .plus) ∧
      ComputesModulo j.promote False False (-j.promote.wrap a) (v.unary .neg) ∧
      ComputesModulo j.promote False False (j.promote.wrap a).lnot (v.unary .bitNot) ∧
      (c.wrap b ≠ 0 → ∃ q r p, v.binary (.arith .div) w = .ok q ∧
        v.binary (.arith .rem) w = .ok r ∧ q.binary (.arith .mul) w = .ok p ∧
        p.binary (.arith .add) r = .ok (.scalar (.integral c (c.wrap a)))) := by
  intro c v w
  have hplus : v.unary .plus =
      .ok (.scalar (.integral j.promote (j.promote.wrap (j.promote.wrap a)))) := by
    rw [IntegralKind.wrap_wrap (IntegralKind.promote_ne_bool j)]
    rfl
  have hnot : v.unary .bitNot =
      .ok (.scalar (.integral j.promote (j.promote.wrap (j.promote.wrap a).lnot))) := by
    rw [lnot_eq]
    rfl
  refine ⟨Value.computesModulo_arith j k a b, Value.computesModulo_shift j k a b,
    Value.computesModulo_unary j a (f := id) hplus fun n hn => hn.mono (by decide),
    Value.computesModulo_unary j a (f := Neg.neg) rfl fun n hn => ?_,
    Value.computesModulo_unary j a hnot fun n hn => ?_, Value.quotient_remainder j k a b⟩
  · simp only [FitsIn] at hn ⊢
    omega
  · rw [lnot_eq]
    simp only [FitsIn] at hn ⊢
    omega

end WatchExpr
