import WatchExpr.Proofs.Failure
import WatchExpr.Proofs.Typing.Types
import WatchExpr.Eval.Typing

/-!
# Types of the results of operations

An operation on operands of given static types, if it yields a value, yields one of the type that the
static rules assign to its result.
-/

namespace WatchExpr

/-! ## Kinds of scalars -/

namespace Scalar

@[simp] theorem kind_ofInt (k : ArithmeticKind) (n : Int) : (ofInt k n).kind = k := by
  cases k <;> rfl

@[simp] theorem kind_ofBinary (k : ArithmeticKind) (x : Binary64) : (ofBinary k x).kind = k := by
  cases k with
  | integral k => cases k <;> rfl
  | floating k => rfl

@[simp] theorem kind_convert (s : Scalar) (k : ArithmeticKind) : (s.convert k).kind = k := by
  cases s with
  | integral j n => exact kind_ofInt k n
  | floating j x => exact kind_ofBinary k _

@[simp] theorem kind_ofBytes (k : ArithmeticKind) (bytes : List UInt8) :
    (ofBytes k bytes).kind = k := by
  cases k with
  | integral k => simp only [ofBytes, kind_ofInt]
  | floating k => simp only [ofBytes, kind_ofBinary]

/-- An arithmetic operator yields a value of the common type. -/
theorem kind_arith {op : ArithOp} {a b s : Scalar} (h : a.arith op b = .ok s) :
    s.kind = a.kind.common b.kind := by
  unfold arith at h
  split at h
  · rename_i k hk
    split at h
    · cases h
      exact (kind_ofBinary _ _).trans hk.symm
    · cases h
  · rename_i k hk
    dsimp only at h
    split at h
    · cases h
    · cases h
      exact (kind_ofInt _ _).trans hk.symm

/-- A shift yields a value of the promoted type of its left operand. -/
theorem kind_shift {op : ShiftOp} {k : IntegralKind} {n count : Int} {s : Scalar}
    (h : shift op k n count = .ok s) : s.kind = .integral k.promote := by
  simp only [shift] at h
  split at h
  · cases h
  · cases h
    simp

end Scalar

theorem IntegralKind.common_comm (a b : IntegralKind) : a.common b = b.common a := by
  cases a <;> cases b <;> rfl

theorem ArithmeticKind.common_comm (a b : ArithmeticKind) : a.common b = b.common a := by
  cases a with
  | integral a =>
      cases b with
      | integral b => exact congrArg _ (IntegralKind.common_comm a b)
      | floating b => rfl
  | floating a =>
      cases b with
      | integral b => rfl
      | floating b => cases a <;> cases b <;> rfl

/-! ## What operations can yield -/

namespace Pointer

theorem pointee_advance {p q : Pointer} {n : Int} (h : p.advance n = .ok q) :
    q.pointee = p.pointee := by
  obtain ⟨size, -, hq⟩ := bind_eq_ok_iff.1 h
  cases hq
  rfl

end Pointer

namespace Value

/-- All that an arithmetic operator can do: arithmetic on scalars, moving a pointer, or the distance
of two pointers. -/
theorem arith_cases {op : ArithOp} {v w x : Value} (h : v.arith op w = .ok x) :
    (∃ a b s, v = .scalar a ∧ w = .scalar b ∧ a.arith op b = .ok s ∧ x = .scalar s) ∨
    (∃ p k n q, op = .add ∧ v = .pointer p ∧ w = .scalar (.integral k n) ∧
      p.advance n = .ok q ∧ x = .pointer q) ∨
    (∃ p k n q, op = .add ∧ v = .scalar (.integral k n) ∧ w = .pointer p ∧
      p.advance n = .ok q ∧ x = .pointer q) ∨
    (∃ p k n q, op = .sub ∧ v = .pointer p ∧ w = .scalar (.integral k n) ∧
      p.advance (-n) = .ok q ∧ x = .pointer q) ∨
    (∃ p q n, op = .sub ∧ v = .pointer p ∧ w = .pointer q ∧ p.difference q = .ok n ∧
      x = .scalar (.ofInt (.integral .long) n)) := by
  unfold arith at h
  split at h
  · obtain ⟨q, hq, hx⟩ := bind_eq_ok_iff.1 h
    cases hx
    exact .inr (.inl ⟨_, _, _, q, rfl, rfl, rfl, hq, rfl⟩)
  · obtain ⟨q, hq, hx⟩ := bind_eq_ok_iff.1 h
    cases hx
    exact .inr (.inr (.inl ⟨_, _, _, q, rfl, rfl, rfl, hq, rfl⟩))
  · obtain ⟨q, hq, hx⟩ := bind_eq_ok_iff.1 h
    cases hx
    exact .inr (.inr (.inr (.inl ⟨_, _, _, q, rfl, rfl, rfl, hq, rfl⟩)))
  · obtain ⟨n, hn, hx⟩ := bind_eq_ok_iff.1 h
    cases hx
    exact .inr (.inr (.inr (.inr ⟨_, _, n, rfl, rfl, rfl, hn, rfl⟩)))
  · obtain ⟨s, hs, hx⟩ := bind_eq_ok_iff.1 h
    cases hx
    exact .inl ⟨_, _, s, rfl, rfl, hs, rfl⟩
  · cases h

/-- A shift takes two integral operands. -/
theorem shift_cases {op : ShiftOp} {v w x : Value} (h : v.shift op w = .ok x) :
    ∃ j m k n s, v = .scalar (.integral j m) ∧ w = .scalar (.integral k n) ∧
      Scalar.shift op j m n = .ok s ∧ x = .scalar s := by
  unfold shift at h
  split at h
  · obtain ⟨s, hs, hx⟩ := bind_eq_ok_iff.1 h
    cases hx
    exact ⟨_, _, _, _, s, rfl, rfl, hs, rfl⟩
  · cases h

/-- A logical connective yields a truth value. -/
theorem logical_cases {op : Connective} {v w x : Value} (h : v.logical op w = .ok x) :
    ∃ b, x = ofBool b := by
  obtain ⟨a, -, h⟩ := bind_eq_ok_iff.1 h
  split at h
  · obtain ⟨b, -, hx⟩ := bind_eq_ok_iff.1 h
    cases hx
    exact ⟨b, rfl⟩
  · obtain ⟨b, -, hx⟩ := bind_eq_ok_iff.1 h
    cases hx
    exact ⟨b, rfl⟩
  · cases h
    exact ⟨false, rfl⟩
  · cases h
    exact ⟨true, rfl⟩

end Value

/-! ## Values of a static type -/

/-- A value, read as an operand, of an expression of a static type: a scalar of that very type, a
pointer where the type is a pointer or an array of what is pointed to, or a record left in memory. -/
inductive ReadsAs : Ty → Value → Prop where
  | scalar {k : ArithmeticKind} {q : Qualifiers} {s : Scalar} (h : s.kind = k) :
      ReadsAs (.scalar (.arithmetic k) q) (.scalar s)
  | pointer {t : Ty} {q : Qualifiers} {p : Pointer} (hp : p.pointee.ReferencesFlat)
      (h : t.erased = p.pointee.erased) : ReadsAs (.pointer t q) (.pointer p)
  | array {t : Ty} {n : UInt64} {q : Qualifiers} {p : Pointer} (hp : p.pointee.ReferencesFlat)
      (h : t.erased = p.pointee.erased) : ReadsAs (.array t n q) (.pointer p)
  | record {r : TaggedType} {q q' : Qualifiers} {a : UInt64} :
      ReadsAs (.tagged r q) (.aggregate (.tagged r q') a)

namespace ReadsAs

variable {t u : Ty} {v w x : Value}

theorem isObject (h : ReadsAs t v) : t.IsObject := by
  cases h with
  | scalar _ => exact ⟨rfl, trivial⟩
  | pointer hp h => exact ⟨rfl, (Ty.referencesFlat_congr h).2 hp⟩
  | array hp h => exact ⟨rfl, (Ty.referencesFlat_congr h).2 hp⟩
  | record => exact ⟨rfl, trivial⟩

theorem isValid (h : ReadsAs t v) : v.isValid = true := by
  cases h <;> rfl

/-- Reading an array makes a pointer of it, so that the decayed type will do as well. -/
theorem decayed (h : ReadsAs t v) : ReadsAs t.decayed v := by
  cases h with
  | scalar h => exact .scalar h
  | pointer hp h => exact .pointer hp h
  | array hp h => exact .pointer hp h
  | record => exact .record

theorem congr (he : t.erased = u.erased) (h : ReadsAs t v) : ReadsAs u v := by
  cases h with
  | scalar h =>
      cases u <;> simp only [Ty.erased, reduceCtorEq, Ty.scalar.injEq] at he
      obtain ⟨rfl, -⟩ := he
      exact .scalar h
  | pointer hp h =>
      cases u <;> simp only [Ty.erased, reduceCtorEq, Ty.pointer.injEq] at he
      exact .pointer hp (he.1.symm.trans h)
  | array hp h =>
      cases u <;> simp only [Ty.erased, reduceCtorEq, Ty.array.injEq] at he
      exact .array hp (he.1.symm.trans h)
  | record =>
      cases u <;> simp only [Ty.erased, reduceCtorEq, Ty.tagged.injEq] at he
      obtain ⟨rfl, -⟩ := he
      exact .record

/-- The type of the value is the static one, decayed, up to qualifiers. -/
theorem type? (h : ReadsAs t v) : ∃ u, v.type? = some u ∧ t.decayed.erased = u.erased := by
  cases h with
  | scalar h =>
      subst h
      exact ⟨_, rfl, rfl⟩
  | pointer hp h => exact ⟨_, rfl, congrArg (Ty.pointer · .none) h⟩
  | array hp h => exact ⟨_, rfl, congrArg (Ty.pointer · .none) h⟩
  | record => exact ⟨_, rfl, rfl⟩

theorem ofBool (b : Bool) : ReadsAs .bool (.ofBool b) := .scalar rfl

/-! ### Results of operations -/

theorem unary {op : UnaryOp} (hv : ReadsAs t v) (h : v.unary op = .ok x) :
    ∃ r, t.underUnary op = .ok r ∧ ReadsAs r x := by
  unfold Value.unary at h
  split at h
  · obtain ⟨b, -, hx⟩ := bind_eq_ok_iff.1 h
    cases hx
    exact ⟨_, rfl, .ofBool _⟩
  · cases h
    cases hv with
    | scalar h =>
        subst h
        exact ⟨_, rfl, .scalar (Scalar.kind_convert ..)⟩
  · cases h
    cases hv with
    | pointer hp h => exact ⟨_, rfl, .pointer hp h⟩
    | array hp h => exact ⟨_, rfl, .array hp h⟩
  · cases h
    cases hv with
    | scalar h =>
        subst h
        exact ⟨_, rfl, .scalar (Scalar.kind_ofBinary ..)⟩
  · cases h
    cases hv with
    | scalar h =>
        subst h
        exact ⟨_, rfl, .scalar (Scalar.kind_ofInt ..)⟩
  · cases h
    cases hv with
    | scalar h =>
        subst h
        exact ⟨_, rfl, .scalar (Scalar.kind_ofInt ..)⟩
  · cases h
  · cases h
  · cases h

theorem advance {p q : Pointer} {n : Int} {c : Qualifiers} (hv : ReadsAs t (.pointer p))
    (h : p.advance n = .ok q) : ReadsAs (t.decayed.withCv c) (.pointer q) := by
  have hq := Pointer.pointee_advance h
  cases hv with
  | pointer hp h => exact .pointer (hq ▸ hp) (hq ▸ h)
  | array hp h => exact .pointer (hq ▸ hp) (hq ▸ h)

theorem arith {op : ArithOp} (hv : ReadsAs t v) (hw : ReadsAs u w) (h : v.arith op w = .ok x) :
    ∃ r, BinaryOp.resultType (.arith op) t.decayed u.decayed = .ok r ∧ ReadsAs r x := by
  obtain ⟨a, b, s, rfl, rfl, hs, rfl⟩ | ⟨p, k, n, q, rfl, rfl, rfl, hq, rfl⟩ |
    ⟨p, k, n, q, rfl, rfl, rfl, hq, rfl⟩ | ⟨p, k, n, q, rfl, rfl, rfl, hq, rfl⟩ |
    ⟨p, q, n, rfl, rfl, rfl, hn, rfl⟩ := Value.arith_cases h
  · have hkind := Scalar.kind_arith hs
    cases hv with
    | scalar ha =>
        cases hw with
        | scalar hb =>
            subst ha hb
            exact ⟨_, by cases op <;> rfl, .scalar hkind⟩
  · have hr := advance (c := .none) hv hq
    cases hw with
    | scalar hb => cases hv <;> exact ⟨_, rfl, hr⟩
  · have hr := advance (c := .none) hw hq
    cases hv with
    | scalar ha => cases hw <;> exact ⟨_, rfl, hr⟩
  · have hr := advance (c := .none) hv hq
    cases hw with
    | scalar hb => cases hv <;> exact ⟨_, rfl, hr⟩
  · have hr : ReadsAs (.arithmetic (.integral .long)) (.scalar (.ofInt (.integral .long) n)) :=
      .scalar (Scalar.kind_ofInt ..)
    cases hv <;> cases hw <;> exact ⟨_, rfl, hr⟩

theorem shift {op : ShiftOp} (hv : ReadsAs t v) (hw : ReadsAs u w) (h : v.shift op w = .ok x) :
    ∃ r, BinaryOp.resultType (.shift op) t.decayed u.decayed = .ok r ∧ ReadsAs r x := by
  obtain ⟨j, m, k, n, s, rfl, rfl, hs, rfl⟩ := Value.shift_cases h
  cases hv with
  | scalar ha =>
      cases hw with
      | scalar hb =>
          subst ha hb
          exact ⟨_, rfl, .scalar (Scalar.kind_shift hs)⟩

/-- A binary operator yields a value of the type assigned to its result. -/
theorem binary {op : BinaryOp} (hv : ReadsAs t v) (hw : ReadsAs u w)
    (h : v.binary op w = .ok x) :
    ∃ r, op.resultType t.decayed u.decayed = .ok r ∧ ReadsAs r x := by
  simp only [Value.binary, hv.isValid, hw.isValid, Bool.and_self, ↓reduceIte] at h
  cases op with
  | arith op => exact arith hv hw h
  | shift op => exact shift hv hw h
  | compare op =>
      obtain ⟨o, -, hx⟩ := bind_eq_ok_iff.1 h
      cases hx
      exact ⟨_, rfl, .ofBool _⟩
  | logical op =>
      obtain ⟨b, rfl⟩ := Value.logical_cases h
      exact ⟨_, rfl, .ofBool b⟩
  | subscript => cases h

/-- A cast yields a value of its type, which is then no reference. -/
theorem cast {target : Ty} (ht : target.ReferencesFlat) (h : v.cast target = .ok x) :
    ReadsAs target x := by
  unfold Value.cast at h
  split at h
  · cases h
  · cases h
    exact .scalar (Scalar.kind_convert ..)
  · cases h
    exact .scalar (Scalar.kind_ofInt ..)
  · cases h
    exact .pointer ht rfl
  · cases h
    exact .pointer ht rfl
  · cases h

end ReadsAs

/-! ## Conditionals -/

namespace Ty

/-- What the branches of a conditional must be, as operands, for it to have one type: two arithmetic
types, or the same type up to qualifiers. -/
def Joinable (t u : Ty) : Prop :=
  (∃ j p k q, t = .scalar (.arithmetic j) p ∧ u = .scalar (.arithmetic k) q) ∨
    t.erased = u.erased

theorem Joinable.symm {t u : Ty} (h : t.Joinable u) : u.Joinable t := by
  obtain ⟨j, p, k, q, ht, hu⟩ | h := h
  · exact .inl ⟨k, q, j, p, hu, ht⟩
  · exact .inr h.symm

theorem joined_of_erased_eq {t u : Ty} (h : t.erased = u.erased) : t.joined u = t := by
  cases t with
  | scalar j p =>
      cases u with
      | scalar k q =>
          obtain ⟨rfl, -⟩ := Ty.scalar.inj h
          simp [joined]
      | _ => cases h
  | _ => rfl

/-- The order of the branches does not matter for the type of a conditional. -/
theorem Joinable.erased_joined_comm {t u : Ty} (h : t.Joinable u) :
    (t.joined u).erased = (u.joined t).erased := by
  obtain ⟨j, p, k, q, rfl, rfl⟩ | h := h
  · by_cases hjk : j = k
    · subst hjk
      simp [joined, erased]
    · simp [joined, erased, hjk, Ne.symm hjk, ScalarKind.common, ArithmeticKind.common_comm j k]
  · rw [joined_of_erased_eq h, joined_of_erased_eq h.symm, h]

end Ty

/-- The value of the selected branch, converted, has the type of the conditional. -/
theorem ReadsAs.inCommonWith {t u : Ty} {v : Value} (hv : ReadsAs t v) (h : t.Joinable u) :
    ReadsAs (t.joined u) (v.inCommonWith u) := by
  obtain ⟨j, p, k, q, rfl, rfl⟩ | h := h
  · cases hv with
    | scalar hj =>
        rename_i s
        by_cases hk : k = s.kind
        · have hjk : j = k := hj.symm.trans hk.symm
          simpa [Ty.joined, Value.inCommonWith, hk, hjk] using ReadsAs.scalar hk.symm
        · have hjk : j ≠ k := fun hjk => hk (hjk ▸ hj.symm)
          simpa [Ty.joined, Value.inCommonWith, hk, hjk, ScalarKind.common] using
            ReadsAs.scalar (by simp [hj])
  · rw [Ty.joined_of_erased_eq h]
    cases hv with
    | scalar hj =>
        subst hj
        cases u <;> simp only [Ty.erased, reduceCtorEq, Ty.scalar.injEq] at h
        obtain ⟨rfl, -⟩ := h
        simpa [Value.inCommonWith] using ReadsAs.scalar rfl
    | pointer hp he => exact .pointer hp he
    | array hp he => exact .array hp he
    | record => exact .record

end WatchExpr
