import WatchExpr.Proofs.Binary.Widening
import WatchExpr.Proofs.Evaluation.Codes
import WatchExpr.Proofs.Typing.Operations
import WatchExpr.Proofs.Values.Ranges

/-!
# Comparisons

The six comparisons of two values all ask for one order. Whether there is one depends on the forms
of the values alone, it is reversed when the operands are exchanged, and only a NaN leaves it open.
-/

namespace WatchExpr

namespace Comparison

/-- The comparison that says the same of exchanged operands. -/
def converse : Comparison → Comparison
  | .lt => .gt
  | .le => .ge
  | .gt => .lt
  | .ge => .le
  | .eq => .eq
  | .ne => .ne

theorem holds_swap (op : Comparison) (o : Option Ordering) :
    op.converse.holds (o.map .swap) = op.holds o := by
  cases o with
  | none => cases op <;> rfl
  | some o => cases op <;> cases o <;> rfl

/-- One comparison of less, equal and greater holds, unless there is no order. -/
theorem existsUnique_holds_iff {o : Option Ordering} :
    (∃! op : Comparison, (op = .lt ∨ op = .eq ∨ op = .gt) ∧ op.holds o = true) ↔ o ≠ none := by
  constructor
  · rintro ⟨op, ⟨hop, hholds⟩, -⟩ rfl
    obtain rfl | rfl | rfl := hop <;> cases hholds
  · intro h
    obtain ⟨o, rfl⟩ := Option.ne_none_iff_exists'.1 h
    cases o with
    | lt => exact ⟨.lt, by decide, by rintro op ⟨rfl | rfl | rfl, h⟩ <;> first | rfl | cases h⟩
    | eq => exact ⟨.eq, by decide, by rintro op ⟨rfl | rfl | rfl, h⟩ <;> first | rfl | cases h⟩
    | gt => exact ⟨.gt, by decide, by rintro op ⟨rfl | rfl | rfl, h⟩ <;> first | rfl | cases h⟩

end Comparison

/-! ## The order of floating-point data -/

namespace BinaryFloat

variable {fmt : BinaryFormat} {x y : BinaryFloat fmt}

theorem compare?_swap (x y : BinaryFloat fmt) : y.compare? x = (x.compare? y).map .swap := by
  simp only [compare?, Bool.or_comm y.isNaN]
  split
  · rfl
  · rw [Option.map_some, Int.compare_swap]

theorem compare?_eq_none_iff : x.compare? y = none ↔ x.isNaN = true ∨ y.isNaN = true := by
  rw [compare?, ← Bool.or_eq_true]
  split <;> simp [*]

theorem compare?_self (h : x.isNaN = false) : x.compare? x = some .eq := by
  simp [compare?, h]

end BinaryFloat

/-! ## The order of scalars -/

namespace Scalar

variable (a b : Scalar)

theorem isNaN_toBinary_iff : a.toBinary.isNaN = true ↔ a.IsNaN := by
  cases a with
  | integral k n => simp [toBinary, IsNaN, BinaryFloat.ofInt, BinaryFloat.isNaN_ofRatio]
  | floating k x =>
      cases k with
      | float => exact iff_of_eq (congrArg (· = true) (BinaryFloat.isNaN_widened x))
      | double => rfl

theorem commonKind_comm : b.commonKind a = a.commonKind b :=
  ArithmeticKind.common_comm b.kind a.kind

theorem order_swap : b.order a = (a.order b).map .swap := by
  simp only [order, commonKind_comm a b]
  split
  · exact BinaryFloat.compare?_swap a.toBinary b.toBinary
  · rw [Option.map_some, Int.compare_swap]

/-- A common type that is integral is that of two integral values. -/
theorem integral_of_commonKind {k : IntegralKind} (h : a.commonKind b = .integral k) :
    ∃ i m j n, a = .integral i m ∧ b = .integral j n ∧ i.common j = k := by
  cases a with
  | integral i m =>
      cases b with
      | integral j n => exact ⟨i, m, j, n, rfl, rfl, ArithmeticKind.integral.inj h⟩
      | floating j y => cases h
  | floating i x =>
      cases b with
      | integral j n => cases h
      | floating j y => cases i <;> cases j <;> cases h

theorem order_eq_none_iff : a.order b = none ↔ a.IsNaN ∨ b.IsNaN := by
  rw [order]
  split
  · rw [BinaryFloat.compare?_eq_none_iff, isNaN_toBinary_iff, isNaN_toBinary_iff]
  · obtain ⟨i, m, j, n, rfl, rfl, -⟩ := integral_of_commonKind a b ‹_›
    simp [IsNaN]

theorem order_self (h : ¬a.IsNaN) : a.order a = some .eq := by
  rw [order]
  split
  · refine BinaryFloat.compare?_self ?_
    rwa [← isNaN_toBinary_iff, Bool.not_eq_true] at h
  · rw [Option.some_inj, Int.compare_eq_eq]

end Scalar

/-! ## Values that can be compared -/

namespace Value

variable {v w : Value}

theorem ofBool_injective {b c : Bool} (h : ofBool b = ofBool c) : b = c := by
  cases b <;> cases c <;> first | rfl | cases h

/-- The value is a scalar that is not a number. -/
def IsNaN : Value → Prop
  | .scalar s => s.IsNaN
  | _ => False

/-- The pairs of values that have comparisons: two scalars, two pointers to the same type or one of
them to `void`, and a pointer beside an integer. -/
inductive Comparable : Value → Value → Prop where
  | scalars (a b : Scalar) : Comparable (.scalar a) (.scalar b)
  | pointers {p q : Pointer}
      (h : p.pointee.unqualified = q.pointee.unqualified ∨ p.isToVoid = true ∨ q.isToVoid = true) :
      Comparable (.pointer p) (.pointer q)
  | address (p : Pointer) (k : IntegralKind) (n : Int) :
      Comparable (.pointer p) (.scalar (.integral k n))
  | integer (p : Pointer) (k : IntegralKind) (n : Int) :
      Comparable (.scalar (.integral k n)) (.pointer p)

theorem order_pointers (op : Comparison) {p q : Pointer}
    (h : p.pointee.unqualified = q.pointee.unqualified ∨ p.isToVoid = true ∨ q.isToVoid = true) :
    (pointer p).order op (.pointer q) = .ok (some (compare p.address.toNat q.address.toNat)) := by
  rw [order]
  exact if_pos (by simpa [or_assoc] using h)

namespace Comparable

theorem symm (h : Comparable v w) : Comparable w v := by
  cases h with
  | scalars a b => exact .scalars b a
  | pointers h => exact .pointers (h.imp Eq.symm Or.symm)
  | address p k n => exact .integer p k n
  | integer p k n => exact .address p k n

theorem self (h : Comparable v w) : Comparable v v := by
  cases h with
  | scalars a b => exact .scalars a a
  | pointers h => exact .pointers (.inl rfl)
  | address p k n => exact .pointers (.inl rfl)
  | integer p k n => exact .scalars _ _

/-- Comparable values have one order for all comparisons, and the reverse one when they are
exchanged. -/
theorem exists_order (h : Comparable v w) : ∃ o, (∀ op, v.order op w = .ok o) ∧
    (∀ op, w.order op v = .ok (o.map .swap)) ∧ (o = none ↔ v.IsNaN ∨ w.IsNaN) := by
  cases h with
  | scalars a b =>
      refine ⟨a.order b, fun _ => rfl, fun _ => ?_, ?_⟩
      · exact congrArg Except.ok (Scalar.order_swap a b)
      · exact Scalar.order_eq_none_iff a b
  | pointers h =>
      refine ⟨_, fun op => order_pointers op h, fun op => ?_, ?_⟩
      · rw [order_pointers op (h.imp Eq.symm Or.symm), Option.map_some, Nat.compare_swap]
      · simp [IsNaN]
  | address p k n =>
      refine ⟨_, fun _ => rfl, fun _ => ?_, ?_⟩
      · rw [Option.map_some, Nat.compare_swap]
        rfl
      · simp [IsNaN, Scalar.IsNaN]
  | integer p k n =>
      refine ⟨_, fun _ => rfl, fun _ => ?_, ?_⟩
      · rw [Option.map_some, Nat.compare_swap]
        rfl
      · simp [IsNaN, Scalar.IsNaN]

end Comparable

theorem order_failsWith (op : Comparison) (h : ¬Comparable v w) :
    FailsWith .invalidOperand (v.order op w) := by
  unfold order
  split
  · exact (h (.scalars _ _)).elim
  · split
    · rename_i hcompatible
      exact (h (.pointers (by simpa [or_assoc] using hcompatible))).elim
    · exact FailsWith.error_iff.2 rfl
  · exact (h (.address ..)).elim
  · exact (h (.integer ..)).elim
  · exact FailsWith.error_iff.2 rfl

/-- A value compared with itself is equal unless it is a NaN. -/
theorem Comparable.order_self (h : Comparable v v) (hnan : ¬v.IsNaN) (op : Comparison) :
    v.order op v = .ok (some .eq) := by
  cases h with
  | scalars a => exact congrArg Except.ok (a.order_self hnan)
  | pointers h => rw [order_pointers op h, Nat.compare_eq_eq.2 rfl]

theorem binary_compare (op : Comparison) (hv : v.isValid = true) (hw : w.isValid = true) :
    v.binary (.compare op) w = (do return ofBool (op.holds (← v.order op w))) := by
  simp only [binary, hv, hw, Bool.and_self, ↓reduceIte]

end Value

/-- The six comparisons of two values are coherent. If the values can be compared, all comparisons
have a truth value in either order of the operands: each says the same as its converse on exchanged
operands, `!=` is opposite to `==`, `<=` says `<` or `==`, and just one of `<`, `==` and `>` holds
unless an operand is a NaN. A value that is no NaN equals itself. If the values cannot be compared,
every comparison fails under the same code. -/
theorem comparisons_coherent {v w : Value} (hv : v.isValid = true) (hw : w.isValid = true) :
    (v.Comparable w → ∃ forth back : Comparison → Bool,
      (∀ op, v.binary (.compare op) w = .ok (.ofBool (forth op)) ∧
        w.binary (.compare op) v = .ok (.ofBool (back op))) ∧
      (∀ op, forth op = back op.converse) ∧
      forth .ne = !forth .eq ∧
      forth .le = (forth .lt || forth .eq) ∧
      ((∃! op : Comparison, (op = .lt ∨ op = .eq ∨ op = .gt) ∧ forth op = true) ↔
        ¬v.IsNaN ∧ ¬w.IsNaN) ∧
      (¬v.IsNaN → v.binary (.compare .eq) v = .ok (.ofBool true))) ∧
    (¬v.Comparable w → ∀ op,
      FailsWith .invalidOperand (v.binary (.compare op) w) ∧
        FailsWith .invalidOperand (w.binary (.compare op) v)) := by
  constructor
  · intro h
    obtain ⟨o, hforth, hback, hnone⟩ := h.exists_order
    refine ⟨(·.holds o), (·.holds (o.map .swap)), fun op => ⟨?_, ?_⟩, fun op => ?_, ?_, ?_, ?_,
      fun hnan => ?_⟩
    · rw [Value.binary_compare op hv hw, hforth]
      rfl
    · rw [Value.binary_compare op hw hv, hback]
      rfl
    · exact (Comparison.holds_swap op o).symm
    · exact decide_not
    · rfl
    · rw [Comparison.existsUnique_holds_iff, ne_eq, hnone, not_or]
    · rw [Value.binary_compare .eq hv hv, h.self.order_self hnan]
      rfl
  · intro h op
    rw [Value.binary_compare op hv hw, Value.binary_compare op hw hv]
    exact ⟨FailsWith.bind_iff.2 (.inl (Value.order_failsWith op h)),
      FailsWith.bind_iff.2 (.inl (Value.order_failsWith op fun h' => h h'.symm))⟩

/-- The integer -1 and the pointer to the last address are equal, either way round, and no other
order of them holds. -/
theorem comparisons_coherent_last_address :
    let v : Value := .pointer ⟨0xffffffffffffffff, .bool⟩
    let w : Value := .scalar (.integral .int (-1))
    v.isValid = true ∧ w.isValid = true ∧ v.Comparable w ∧
      ∃ forth back : Comparison → Bool,
        (∀ op, v.binary (.compare op) w = .ok (.ofBool (forth op)) ∧
          w.binary (.compare op) v = .ok (.ofBool (back op))) ∧
        back .eq = true ∧ forth .lt = false ∧ forth .gt = false := by
  intro v w
  have hcomparable : v.Comparable w := .address ..
  obtain ⟨forth, back, hvalue, hconverse, -, -, hone, -⟩ :=
    (comparisons_coherent (v := v) (w := w) rfl rfl).1 hcomparable
  have hequal : forth .eq = true := by
    have htrue : v.binary (.compare .eq) w = .ok (.ofBool true) := rfl
    have hsame := (hvalue .eq).1.symm.trans htrue
    exact Value.ofBool_injective (Except.ok.inj hsame)
  obtain ⟨op, -, hunique⟩ := hone.2 ⟨id, id⟩
  have honly {other : Comparison} (hother : other = .lt ∨ other = .gt) : forth other = false := by
    rw [← Bool.not_eq_true]
    intro hholds
    have hop := hunique other ⟨by grind, hholds⟩
    have heq := hunique .eq ⟨.inr (.inl rfl), hequal⟩
    obtain rfl | rfl := hother <;> cases hop.trans heq.symm
  exact ⟨rfl, rfl, hcomparable, forth, back, hvalue, (hconverse .eq).symm.trans hequal,
    honly (.inl rfl), honly (.inr rfl)⟩

end WatchExpr
