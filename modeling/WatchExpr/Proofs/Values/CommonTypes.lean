import WatchExpr.Proofs.Binary.Integers
import WatchExpr.Proofs.Values.Comparisons
import WatchExpr.Proofs.Values.ObjectBytes

/-!
# Common types

Two scalars meet in their common type. Where this is an integral type or `double`, an operator does
the same to them as to the converted operands. Where it is `float`, the operator computes in double
precision with the operands as they are and only rounds its result, which makes a difference for an
integer that rounding to single precision changes.
-/

namespace WatchExpr

/-- The operators whose operands meet in a common type: arithmetic, bitwise operators and
comparisons. -/
def BinaryOp.MeetsOperands : BinaryOp → Prop
  | .arith _ | .compare _ => True
  | _ => False

theorem ArithmeticKind.common_common_self (j k : ArithmeticKind) :
    (j.common k).common (j.common k) = j.common k := by
  cases j with
  | integral j =>
      cases k with
      | integral k => exact congrArg _ (IntegralKind.common_common_self j k)
      | floating k => cases k <;> rfl
  | floating j =>
      cases k with
      | integral k => cases j <;> rfl
      | floating k => cases j <;> cases k <;> rfl

namespace BinaryFloat

/-- A datum has one place in the order of the numbers, which only the zeros share. -/
theorem eq_of_compare?_eq {fmt : BinaryFormat} {x y : BinaryFloat fmt}
    (hsign : x.negative = y.negative) (h : x.compare? y = some .eq) : x = y := by
  have hkey : x.orderKey = y.orderKey := by
    rw [compare?] at h
    split at h
    · cases h
    · exact Int.compare_eq_eq.1 (Option.some.inj h)
  have hmagnitude : x.magnitude = y.magnitude := by
    simp only [orderKey, hsign] at hkey
    split at hkey <;> omega
  rw [← x.ofMagnitude_eta, hsign, hmagnitude, y.ofMagnitude_eta]

end BinaryFloat

namespace Scalar

variable {a b a' b' : Scalar} {k : FloatingKind}

/-- The binary64 number of the scalar is that of its conversion to `float`. -/
def RoundsAlike (s : Scalar) : Prop :=
  (s.convert (.floating .float)).toBinary = s.toBinary

instance : DecidablePred RoundsAlike := fun _ => inferInstanceAs (Decidable (_ = _))

/-- Every operator that has its operands meet does the same to two scalars as to the scalars that
they are converted to in their common type. -/
def ConvertsFirst (a b : Scalar) : Prop :=
  ∀ op : BinaryOp, op.MeetsOperands →
    SameUpToMessage ((Value.scalar a).binary op (.scalar b))
      ((Value.scalar (a.convert (a.commonKind b))).binary op
        (.scalar (b.convert (a.commonKind b))))

theorem binary_arith (op : ArithOp) (a b : Scalar) :
    (Value.scalar a).binary (.arith op) (.scalar b) = (do return .scalar (← a.arith op b)) := by
  cases op <;> cases a <;> cases b <;> rfl

theorem binary_compare (op : Comparison) (a b : Scalar) :
    (Value.scalar a).binary (.compare op) (.scalar b) = .ok (.ofBool (op.holds (a.order b))) := rfl

theorem convertsFirst_of_same
    (harith : ∀ op, SameUpToMessage (a.arith op b)
      ((a.convert (a.commonKind b)).arith op (b.convert (a.commonKind b))))
    (horder : a.order b = (a.convert (a.commonKind b)).order (b.convert (a.commonKind b))) :
    a.ConvertsFirst b := by
  intro op hop
  cases op with
  | arith op =>
      rw [binary_arith, binary_arith]
      exact (harith op).bind fun _ _ => .refl _
  | compare op =>
      rw [binary_compare, binary_compare, horder]
      exact .refl _
  | _ => exact hop.elim

theorem commonKind_converted (a b : Scalar) :
    (a.convert (a.commonKind b)).commonKind (b.convert (a.commonKind b)) = a.commonKind b := by
  rw [commonKind, kind_convert, kind_convert]
  exact ArithmeticKind.common_common_self a.kind b.kind

/-! ## Integral common types -/

/-- The operands are converted twice then, the second time to the type that they have. -/
theorem convertsFirst_of_integral {k : IntegralKind} (hk : a.commonKind b = .integral k) :
    a.ConvertsFirst b := by
  obtain ⟨i, m, j, n, rfl, rfl, hcommon⟩ := integral_of_commonKind a b hk
  have hbool : k ≠ .bool := hcommon ▸ IntegralKind.common_ne_bool i j
  have hk' : (integral k (k.wrap m)).commonKind (integral k (k.wrap n)) = .integral k := by
    rw [← hk]
    exact hk ▸ commonKind_converted (.integral i m) (.integral j n)
  refine convertsFirst_of_same (fun op => ?_) ?_
  · simp only [arith, hk, hk', convert, ofInt, toInt, IntegralKind.wrap_wrap hbool]
    exact .refl _
  · simp only [order, hk, hk', convert, ofInt, toInt, IntegralKind.wrap_wrap hbool]

/-! ## Floating common types -/

/-- In a floating type an operator looks at the numbers of its operands in double precision only. -/
theorem arith_of_toBinary (hk : a.commonKind b = .floating k) (hk' : a'.commonKind b' = .floating k)
    (ha : a.toBinary = a'.toBinary) (hb : b.toBinary = b'.toBinary) (op : ArithOp) :
    SameUpToMessage (a.arith op b) (a'.arith op b') := by
  simp only [arith, hk, hk', ha, hb]
  cases op.onBinary? with
  | none => exact .error rfl
  | some f => exact .refl _

/-- In whatever floating types operands meet, they have the order of their numbers in double
precision. -/
theorem order_of_toBinary {j k : FloatingKind} (hk : a.commonKind b = .floating j)
    (hk' : a'.commonKind b' = .floating k)
    (ha : a.toBinary = a'.toBinary) (hb : b.toBinary = b'.toBinary) :
    a.order b = a'.order b' := by
  simp only [order, hk, hk', ha, hb]

theorem convertsFirst_of_toBinary (hk : a.commonKind b = .floating k)
    (ha : (a.convert (.floating k)).toBinary = a.toBinary)
    (hb : (b.convert (.floating k)).toBinary = b.toBinary) : a.ConvertsFirst b := by
  have hk' := commonKind_converted a b
  refine convertsFirst_of_same ?_ ?_
  · rw [hk] at hk' ⊢
    exact arith_of_toBinary hk hk' ha.symm hb.symm
  · rw [hk] at hk' ⊢
    exact order_of_toBinary hk hk' ha.symm hb.symm

theorem toBinary_convert_double (s : Scalar) :
    (s.convert (.floating .double)).toBinary = s.toBinary := by
  cases s with
  | integral i n => rfl
  | floating j x => rfl

theorem commonKind_double (a b : Scalar) :
    (a.convert (.floating .double)).commonKind (b.convert (.floating .double)) =
      .floating .double := by
  rw [commonKind, kind_convert, kind_convert]
  rfl

theorem roundsAlike_single {x : Binary32} (h : ¬x.IsSignaling) : (floating .float x).RoundsAlike :=
  congrArg (fun y : Binary32 => (y.convert : Binary64)) (BinaryFloat.convert_widened h)

theorem roundsAlike_of_kind (ha : a.Storable) (hk : a.kind = .floating .float) :
    a.RoundsAlike := by
  cases a with
  | integral i n => cases hk
  | floating j x =>
      cases hk
      exact roundsAlike_single ha

theorem roundsAlike_of_natAbs_lt {i : IntegralKind} {n : Int} (h : n.natAbs < 2 ^ 24) :
    (integral i n).RoundsAlike := by
  by_cases hn : n = 0
  · subst hn
    rfl
  · obtain ⟨x, hx⟩ := BinaryFloat.exists_denotes_single h
    have hsingle : BinaryFloat.ofInt n = x := hx.eq_ofInt hn
    have hdouble : BinaryFloat.ofInt n = (x.convert : Binary64) := hx.widened.eq_ofInt hn
    exact (congrArg BinaryFloat.convert hsingle).trans hdouble.symm

/-- If the operator `==` converts its operands first, then they are equal just if the converted ones
are. -/
theorem ConvertsFirst.order_eq_iff (h : a.ConvertsFirst b) : a.order b = some .eq ↔
    (a.convert (a.commonKind b)).order (b.convert (a.commonKind b)) = some .eq := by
  have hsame := h (.compare .eq) trivial
  rw [binary_compare, binary_compare] at hsame
  have hholds := Value.ofBool_injective (Except.ok.inj hsame)
  simpa only [Comparison.holds, decide_eq_decide] using hholds

/-- An integer is equal to the single-precision number nearest to it only if it is rounded alike. -/
theorem roundsAlike_of_order_eq {i : IntegralKind} {n : Int}
    (h : (integral i n).order (.floating .float (.ofInt n)) = some .eq) :
    (integral i n).RoundsAlike := by
  have hsign : (BinaryFloat.ofInt n : Binary64).negative =
      ((BinaryFloat.ofInt n : Binary32).convert : Binary64).negative := by
    rw [BinaryFloat.negative_widened (BinaryFloat.isNaN_ofInt n), BinaryFloat.negative_ofInt,
      BinaryFloat.negative_ofInt]
  exact (BinaryFloat.eq_of_compare?_eq hsign h).symm

/-- Converted to `float`, an integer and the number nearest to it are the same. -/
theorem order_converted_nearest (i : IntegralKind) (n : Int) :
    ((integral i n).convert (.floating .float)).order
      ((floating .float (.ofInt n)).convert (.floating .float)) = some .eq := by
  have hsame : (floating .float (.ofInt n)).convert (.floating .float) =
      .floating .float (.ofInt n) :=
    congrArg (floating .float) (BinaryFloat.convert_widened (BinaryFloat.not_isSignaling_ofInt n))
  rw [hsame]
  exact order_self _ (Bool.eq_false_iff.1 (BinaryFloat.isNaN_ofInt n))

/-- Scalars that are rounded alike wherever they meet in `float` may be converted first. -/
theorem convertsFirst_of_roundsAlike
    (h : a.commonKind b = .floating .float → a.RoundsAlike ∧ b.RoundsAlike) :
    a.ConvertsFirst b := by
  cases hk : a.commonKind b with
  | integral k => exact convertsFirst_of_integral hk
  | floating k =>
      cases k with
      | float => exact convertsFirst_of_toBinary hk (h hk).1 (h hk).2
      | double =>
          exact convertsFirst_of_toBinary hk a.toBinary_convert_double b.toBinary_convert_double

theorem commonKind_single_iff {x : Binary32} :
    a.commonKind (.floating .float x) = .floating .float ↔ a.kind ≠ .floating .double := by
  cases a with
  | integral i n => simp [commonKind, kind, ArithmeticKind.common]
  | floating j y => cases j <;> simp [commonKind, kind, ArithmeticKind.common]

/-- Beside some number of type `float`, on either side of it, only a scalar that is rounded alike may
be converted first: beside the nearest one. -/
theorem exists_revealing (ha : a.Storable) (hdouble : a.kind ≠ .floating .double) :
    ∃ x : Binary32, ¬x.IsSignaling ∧ (a.ConvertsFirst (.floating .float x) → a.RoundsAlike) ∧
      ((floating .float x).ConvertsFirst a → a.RoundsAlike) := by
  cases a with
  | integral i n =>
      have hswap {s t : Scalar} : s.order t = some .eq → t.order s = some .eq := by
        intro h
        rw [order_swap s t, h]
        rfl
      have hconverted := order_converted_nearest i n
      refine ⟨.ofInt n, BinaryFloat.not_isSignaling_ofInt n, fun h => ?_, fun h => ?_⟩
      · exact roundsAlike_of_order_eq (h.order_eq_iff.2 hconverted)
      · exact roundsAlike_of_order_eq (hswap (h.order_eq_iff.2 (hswap hconverted)))
  | floating j x =>
      cases j with
      | float =>
          have hround : (floating .float x).RoundsAlike := roundsAlike_single ha
          exact ⟨x, ha, fun _ => hround, fun _ => hround⟩
      | double => exact absurd rfl hdouble

theorem convertsFirst_single_iff (ha : a.Storable) :
    (∀ x : Binary32, ¬x.IsSignaling → a.ConvertsFirst (.floating .float x)) ↔
      a.kind = .floating .double ∨ a.RoundsAlike := by
  constructor
  · intro h
    refine or_iff_not_imp_left.2 fun hdouble => ?_
    obtain ⟨x, hx, hleft, -⟩ := exists_revealing ha hdouble
    exact hleft (h x hx)
  · intro h x hx
    refine convertsFirst_of_roundsAlike fun hk => ⟨?_, roundsAlike_single hx⟩
    exact h.resolve_left (commonKind_single_iff.1 hk)

theorem single_convertsFirst_iff (ha : a.Storable) :
    (∀ x : Binary32, ¬x.IsSignaling → (floating .float x).ConvertsFirst a) ↔
      a.kind = .floating .double ∨ a.RoundsAlike := by
  constructor
  · intro h
    refine or_iff_not_imp_left.2 fun hdouble => ?_
    obtain ⟨x, hx, -, hright⟩ := exists_revealing ha hdouble
    exact hright (h x hx)
  · intro h x hx
    refine convertsFirst_of_roundsAlike fun hk => ⟨roundsAlike_single hx, ?_⟩
    rw [commonKind_comm] at hk
    exact h.resolve_left (commonKind_single_iff.1 hk)

/-- In a floating type an operator computes in double precision, and the common type is that of the
result only. -/
theorem binary_arith_in_double (hk : a.commonKind b = .floating k) (op : ArithOp) :
    SameUpToMessage ((Value.scalar a).binary (.arith op) (.scalar b))
      (do (← (Value.scalar (a.convert (.floating .double))).binary (.arith op)
        (.scalar (b.convert (.floating .double)))).cast (.scalar k .none)) := by
  rw [binary_arith, binary_arith]
  simp only [arith, hk, commonKind_double, toBinary_convert_double]
  cases op.onBinary? with
  | none => exact .error rfl
  | some f => exact .refl _

theorem binary_compare_in_double (hk : a.commonKind b = .floating k) (op : Comparison) :
    (Value.scalar a).binary (.compare op) (.scalar b) =
      (Value.scalar (a.convert (.floating .double))).binary (.compare op)
        (.scalar (b.convert (.floating .double))) := by
  rw [binary_compare, binary_compare, order_of_toBinary hk (commonKind_double a b)
    a.toBinary_convert_double.symm b.toBinary_convert_double.symm]

/-- When a scalar and another operand may be converted to their common type before the operator is
applied. They always may unless this is `float`, and then if each of them is rounded to the same
number in single and in double precision, as numbers of type `float` and integers of 24 bits are.
Beside all numbers of type `float`, on either side of them, this is also necessary. In a floating type
the operator computes in double precision, and the common type is that of its result only. -/
theorem operands_converted_first_iff (a : Scalar) (ha : a.Storable) :
    (∀ b : Scalar, (a.commonKind b = .floating .float → a.RoundsAlike ∧ b.RoundsAlike) →
      a.ConvertsFirst b) ∧
    ((∀ x : Binary32, ¬x.IsSignaling → a.ConvertsFirst (.floating .float x)) ↔
      a.kind = .floating .double ∨ a.RoundsAlike) ∧
    ((∀ x : Binary32, ¬x.IsSignaling → (floating .float x).ConvertsFirst a) ↔
      a.kind = .floating .double ∨ a.RoundsAlike) ∧
    (a.kind = .floating .float → a.RoundsAlike) ∧
    (∀ (i : IntegralKind) (n : Int), a = .integral i n → n.natAbs < 2 ^ 24 → a.RoundsAlike) ∧
    (∀ (b : Scalar) (k : FloatingKind), a.commonKind b = .floating k →
      (∀ op, SameUpToMessage ((Value.scalar a).binary (.arith op) (.scalar b))
        (do (← (Value.scalar (a.convert (.floating .double))).binary (.arith op)
          (.scalar (b.convert (.floating .double)))).cast (.scalar k .none))) ∧
      ∀ op, (Value.scalar a).binary (.compare op) (.scalar b) =
        (Value.scalar (a.convert (.floating .double))).binary (.compare op)
          (.scalar (b.convert (.floating .double)))) := by
  refine ⟨fun b => convertsFirst_of_roundsAlike, convertsFirst_single_iff ha,
    single_convertsFirst_iff ha, roundsAlike_of_kind ha, ?_,
    fun b k hk => ⟨binary_arith_in_double hk, binary_compare_in_double hk⟩⟩
  rintro i n rfl h
  exact roundsAlike_of_natAbs_lt h

/-- `int` and `unsigned int` meet in an integral type. Neither precision has a number for
`2 ^ 60 + 1`, and both round it to `2 ^ 60`. Beside 3 the number `0.1f` is compared in double
precision. -/
theorem operands_converted_first_iff_wide :
    ConvertsFirst (.integral .int (-1)) (.integral .unsignedInt 1) ∧
      (integral .long (2 ^ 60 + 1)).RoundsAlike ∧
      ConvertsFirst (.integral .long (2 ^ 60 + 1)) (.floating .float ⟨0x3dcccccd⟩) ∧
      ConvertsFirst (.floating .float ⟨0x3dcccccd⟩) (.integral .int 3) ∧
      (Value.scalar (.integral .int 3)).binary (.compare .lt)
          (.scalar (.floating .float ⟨0x3dcccccd⟩)) =
        (Value.scalar (.floating .double (.ofInt 3))).binary (.compare .lt)
          (.scalar (.floating .double ⟨0x3fb99999a0000000⟩)) := by
  have hrange {i : IntegralKind} {n : Int} (h : i.Contains n) : (integral i n).Storable := h
  have htenth : ¬BinaryFloat.IsSignaling (⟨0x3dcccccd⟩ : Binary32) := by
    intro h
    exact absurd h.isNaN (by decide)
  have hround : (integral .long (2 ^ 60 + 1)).RoundsAlike := by decide +kernel
  have hwide : (Scalar.floating .float ⟨0x3dcccccd⟩).convert (.floating .double) =
      .floating .double ⟨0x3fb99999a0000000⟩ := by
    decide +kernel
  obtain ⟨hminus, -⟩ := operands_converted_first_iff (.integral .int (-1)) (hrange (by decide))
  obtain ⟨-, hlong, -⟩ := operands_converted_first_iff (.integral .long (2 ^ 60 + 1))
    (hrange (by decide))
  obtain ⟨-, -, hthree, -, hsmall, hdouble⟩ := operands_converted_first_iff (.integral .int 3)
    (hrange (by decide))
  refine ⟨hminus _ (fun h => by cases h), hround, hlong.2 (.inr hround) _ htenth,
    hthree.2 (.inr (hsmall .int 3 rfl (by decide))) _ htenth, ?_⟩
  rw [← hwide]
  exact (hdouble _ .float rfl).2 .lt

/-- 16777217 is no single-precision number and is rounded to 16777216. With `1.0f` added it becomes
16777218, while the sum of the converted operands is 16777216. -/
theorem operands_not_converted_first :
    let a : Scalar := .integral .int 16777217
    let b : Scalar := .floating .float ⟨0x3f800000⟩
    let K := a.commonKind b
    a.Storable ∧ b.Storable ∧ K = .floating .float ∧
      (Value.scalar a).binary (.arith .add) (.scalar b) =
        .ok (.scalar (.floating .float ⟨0x4b800001⟩)) ∧
      (Value.scalar (a.convert K)).binary (.arith .add) (.scalar (b.convert K)) =
        .ok (.scalar (.floating .float ⟨0x4b800000⟩)) ∧
      ¬a.ConvertsFirst b := by
  intro a b K
  have hinteger : a.Storable := by
    show IntegralKind.int.Contains 16777217
    decide
  have hsingle : b.Storable := by
    intro h
    exact absurd h.isNaN (by decide)
  have hsum : (Value.scalar a).binary (.arith .add) (.scalar b) =
      .ok (.scalar (.floating .float ⟨0x4b800001⟩)) := by
    rw [binary_arith]
    exact congrArg (fun s => Except.ok (Value.scalar s)) (by decide +kernel :
      ofBinary (.floating .float) (a.toBinary.add b.toBinary) = .floating .float ⟨0x4b800001⟩)
  have hconverted : (Value.scalar (a.convert K)).binary (.arith .add) (.scalar (b.convert K)) =
      .ok (.scalar (.floating .float ⟨0x4b800000⟩)) := by
    rw [binary_arith]
    exact congrArg (fun s => Except.ok (Value.scalar s)) (by decide +kernel :
      ofBinary (.floating .float) ((a.convert K).toBinary.add (b.convert K).toBinary) =
        .floating .float ⟨0x4b800000⟩)
  refine ⟨hinteger, hsingle, rfl, hsum, hconverted, fun h => ?_⟩
  have hsame := h (.arith .add) trivial
  rw [hsum, hconverted] at hsame
  cases hsame

end Scalar

end WatchExpr
