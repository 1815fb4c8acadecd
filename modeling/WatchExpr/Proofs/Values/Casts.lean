import WatchExpr.Proofs.Binary.Integers
import WatchExpr.Proofs.Typing.Operations
import WatchExpr.Proofs.Values.PointerArithmetic

/-!
# Casts

A cast between integral types keeps the residue, so that casts to types which are wide enough may be
left out. A number that the target has stays the same, `bool` asks for the truth, and 64 bits hold
all of a pointer.
-/

namespace WatchExpr

/-! ## Conversions of integers -/

namespace IntegralKind

variable {j k : IntegralKind} {n : Int}

theorem wrap_modEq_of_width_le (hj : j ≠ .bool) (h : k.width ≤ j.width) (n : Int) :
    j.wrap n ≡ n [ZMOD 2 ^ k.width] :=
  (wrap_modEq hj n).of_dvd (pow_dvd_pow 2 h)

/-- An address is found again from the number of 64 bits that it is converted to. -/
theorem wordOfInt_wrap (h : k.width = 64) (a : UInt64) : wordOfInt (k.wrap a.toNat) = a := by
  have hbool : k ≠ .bool := by
    rintro rfl
    cases h
  have hwrap : k.wrap a.toNat ≡ a.toNat [ZMOD 2 ^ 64] := h ▸ wrap_modEq hbool a.toNat
  have hlt (w : UInt64) : (w.toNat : Int) < 2 ^ 64 := by exact_mod_cast w.toNat_lt
  have hword := (toNat_wordOfInt_modEq _).trans hwrap
  rw [Int.ModEq, Int.emod_eq_of_lt (Int.natCast_nonneg _) (hlt _),
    Int.emod_eq_of_lt (Int.natCast_nonneg _) (hlt _)] at hword
  exact UInt64.toNat_inj.1 (by exact_mod_cast hword)

end IntegralKind

/-! ## Numbers that stay the same -/

namespace Scalar

variable {s : Scalar} {k : ArithmeticKind} {n : Int}

/-- The value of the scalar is an integer. -/
def Denotes : Scalar → Int → Prop
  | .integral _ m, n => m = n
  | .floating _ x, n => x.Denotes n

theorem Denotes.toBinary {j : FloatingKind} {x : BinaryFloat j.format}
    (h : (floating j x).Denotes n) : (floating j x).toBinary.Denotes n := by
  cases j with
  | float => exact BinaryFloat.Denotes.widened h
  | double => exact h

theorem ofBinary_integral {k : IntegralKind} (h : k ≠ .bool) (x : Binary64) :
    ofBinary (.integral k) x = .integral k (k.wrap (x.truncate 128)) := by
  cases k with
  | bool => exact absurd rfl h
  | _ => rfl

end Scalar

/-- The type has a scalar whose value is an integer. -/
def ArithmeticKind.Has (k : ArithmeticKind) (n : Int) : Prop :=
  ∃ s : Scalar, s.kind = k ∧ s.InRange ∧ s.Denotes n

namespace ArithmeticKind.Has

variable {n : Int}

theorem integral_iff {k : IntegralKind} : Has (.integral k) n ↔ k.Contains n := by
  constructor
  · rintro ⟨s, hkind, hrange, hdenotes⟩
    cases s with
    | integral j m =>
        cases hkind
        cases hdenotes
        exact hrange
    | floating j x => cases hkind
  · exact fun h => ⟨.integral k n, rfl, h, rfl⟩

theorem exists_datum {k : FloatingKind} (h : Has (.floating k) n) :
    ∃ x : BinaryFloat k.format, x.Denotes n := by
  obtain ⟨s, hkind, -, hdenotes⟩ := h
  cases s with
  | integral j m => cases hkind
  | floating j x =>
      cases hkind
      exact ⟨x, hdenotes⟩

end ArithmeticKind.Has

namespace Scalar

variable {s : Scalar} {k : ArithmeticKind} {n : Int}

theorem denotes_ofInt (h : k.Has n) : (ofInt k n).Denotes n := by
  cases k with
  | integral k => exact IntegralKind.wrap_eq_of_contains (ArithmeticKind.Has.integral_iff.1 h)
  | floating k =>
      obtain ⟨y, hy⟩ := h.exists_datum
      exact BinaryFloat.denotes_ofInt hy

theorem denotes_ofBinary {x : Binary64} (hx : x.Denotes n) (h : k.Has n) :
    (ofBinary k x).Denotes n := by
  cases k with
  | integral k =>
      have hcontains := ArithmeticKind.Has.integral_iff.1 h
      by_cases hbool : k = .bool
      · subst hbool
        have hzero : x.isZero = decide (n = 0) := by
          rw [Bool.eq_iff_iff, hx.isZero_iff, decide_eq_true_iff]
        rw [ofBinary, hzero]
        obtain rfl | rfl := IntegralKind.contains_bool.1 hcontains <;> rfl
      · rw [ofBinary_integral hbool, hx.truncate (hcontains.fitsIn.mono (by decide))]
        exact IntegralKind.wrap_eq_of_contains hcontains
  | floating k =>
      obtain ⟨y, hy⟩ := h.exists_datum
      exact hx.convert hy

/-- A conversion keeps a value that the type has. -/
theorem denotes_convert (hs : s.Denotes n) (h : k.Has n) : (s.convert k).Denotes n := by
  cases s with
  | integral j m =>
      cases hs
      exact denotes_ofInt h
  | floating j x => exact denotes_ofBinary hs.toBinary h

theorem isZero_toBinary {k : FloatingKind} (x : BinaryFloat k.format) :
    (floating k x).toBinary.isZero = x.isZero := by
  cases k with
  | float => exact BinaryFloat.isZero_widened x
  | double => rfl

/-- Conversion to `bool` asks for the truth. -/
theorem convert_bool (s : Scalar) : s.convert (.integral .bool) = .ofBool s.toBool := by
  cases s with
  | integral k n =>
      by_cases hn : n = 0 <;>
        simp [convert, ofInt, IntegralKind.wrap, ofBool, toBool, isZero, hn]
  | floating k x =>
      rw [convert, ofBinary, isZero_toBinary, ofBool, toBool, isZero]
      cases x.isZero <;> rfl

end Scalar

/-! ## Casts of values -/

namespace Value

/-- Casts to some types, one after the other. -/
def casts (v : Value) (targets : List Ty) : Except EvalError Value :=
  targets.foldlM cast v

end Value

/-- An integral type, but not `bool`, that has at least so many bits. -/
def Ty.KeepsBits (t : Ty) (width : Nat) : Prop :=
  ∃ (k : IntegralKind) (q : Qualifiers), t = .scalar k q ∧ k ≠ .bool ∧ width ≤ k.width

namespace Value

variable {k : IntegralKind} {q : Qualifiers}

/-- After casts to types of enough bits the residue is that of the beginning. -/
theorem casts_modEq {targets : List Ty} (h : ∀ t ∈ targets, t.KeepsBits k.width) (j : IntegralKind)
    (n : Int) : ∃ i m, casts (.scalar (.integral j n)) targets = .ok (.scalar (.integral i m)) ∧
      m ≡ n [ZMOD 2 ^ k.width] := by
  induction targets generalizing j n with
  | nil => exact ⟨j, n, rfl, Int.ModEq.refl n⟩
  | cons t targets ih =>
      obtain ⟨i, q, rfl, hi, hwidth⟩ := h t List.mem_cons_self
      obtain ⟨i', m, hcasts, hm⟩ := ih (fun t ht => h t (List.mem_cons_of_mem _ ht)) i (i.wrap n)
      exact ⟨i', m, hcasts, hm.trans (IntegralKind.wrap_modEq_of_width_le hi hwidth n)⟩

theorem casts_append (v : Value) (targets : List Ty) (t : Ty) :
    v.casts (targets ++ [t]) = (do (← v.casts targets).cast t) := by
  simp only [casts, List.foldlM_append, List.foldlM_cons, List.foldlM_nil, bind_pure]

theorem casts_eq_cast (hk : k ≠ .bool) {targets : List Ty}
    (h : ∀ t ∈ targets, t.KeepsBits k.width) (j : IntegralKind) (n : Int) (q : Qualifiers) :
    casts (.scalar (.integral j n)) (targets ++ [.scalar k q]) =
      cast (.scalar (.integral j n)) (.scalar k q) := by
  obtain ⟨i, m, hcasts, hm⟩ := casts_modEq h j n
  rw [casts_append, hcasts]
  exact congrArg (fun r => Except.ok (Value.scalar (.integral k r))) (IntegralKind.wrap_congr hk hm)

theorem cast_scalar_bool (s : Scalar) (q : Qualifiers) :
    cast (.scalar s) (.scalar IntegralKind.bool q) = .ok (.ofBool s.toBool) :=
  congrArg (fun s => Except.ok (Value.scalar s)) s.convert_bool

theorem cast_pointer_bool (p : Pointer) (q : Qualifiers) :
    cast (.pointer p) (.scalar IntegralKind.bool q) = .ok (.ofBool p.toBool) := by
  have hzero : p.address.toNat = 0 ↔ p.address = 0 := by
    rw [← UInt64.toNat_inj, UInt64.toNat_zero]
  by_cases h : p.address = 0 <;>
    simp [cast, Scalar.ofInt, IntegralKind.wrap, Pointer.toBool, ofBool, Scalar.ofBool, hzero, h]

/-- The number of 64 bits that a pointer is cast to has the address in it. -/
theorem cast_pointer_cast (hk : k.width = 64) (p : Pointer) (q : Qualifiers) :
    cast (.scalar (.integral k (k.wrap p.address.toNat))) (.pointer p.pointee q) =
      .ok (.pointer p) := by
  have haddress : (Scalar.integral k (k.wrap p.address.toNat)).toWord = p.address :=
    IntegralKind.wordOfInt_wrap hk p.address
  rw [cast, haddress]

theorem address_eq_of_cast_eq (hk : k.width = 64) {p p' : Pointer}
    (h : cast (.pointer p) (.scalar k q) = cast (.pointer p') (.scalar k q)) :
    p.address = p'.address := by
  have hwrap : k.wrap p.address.toNat = k.wrap p'.address.toNat := by
    simpa [cast, Scalar.ofInt] using h
  rw [← IntegralKind.wordOfInt_wrap hk p.address, hwrap, IntegralKind.wordOfInt_wrap hk]

end Value

/-- Casts compose and keep what the target can hold. After casts to integral types but `bool`, none
of them narrower than the last one, the result is that of the last one alone: the only number of the
type that is congruent to the value. An integer that the target has stays the same, also to and from
floating types. A cast to `bool` asks for the truth. A pointer cast to an integral type of 64 bits
is found again by a cast to its own type, and pointers that are cast to the same number have the
same address. -/
theorem casts_exact :
    (∀ (j : IntegralKind) (n : Int) (targets : List Ty) (k : IntegralKind) (q : Qualifiers),
      k ≠ .bool → (∀ t ∈ targets, t.KeepsBits k.width) →
      ∃ r, k.Contains r ∧ r ≡ n [ZMOD 2 ^ k.width] ∧
        (Value.scalar (.integral j n)).cast (.scalar k q) = .ok (.scalar (.integral k r)) ∧
        (Value.scalar (.integral j n)).casts (targets ++ [.scalar k q]) =
          .ok (.scalar (.integral k r))) ∧
    (∀ (s : Scalar) (n : Int) (k : ArithmeticKind) (q : Qualifiers), s.Denotes n → k.Has n →
      ∃ t : Scalar, (Value.scalar s).cast (.scalar k q) = .ok (.scalar t) ∧ t.kind = k ∧
        t.InRange ∧ t.Denotes n) ∧
    (∀ (s : Scalar) (q : Qualifiers),
      (Value.scalar s).cast (.scalar IntegralKind.bool q) = .ok (.ofBool s.toBool)) ∧
    (∀ (p : Pointer) (q : Qualifiers),
      (Value.pointer p).cast (.scalar IntegralKind.bool q) = .ok (.ofBool p.toBool)) ∧
    (∀ (k : IntegralKind) (q : Qualifiers), k.width = 64 →
      (∀ p : Pointer, ∃ s, (Value.pointer p).cast (.scalar k q) = .ok (.scalar s) ∧
        (Value.scalar s).cast p.type = .ok (.pointer p)) ∧
      ∀ p p' : Pointer,
        (Value.pointer p).cast (.scalar k q) = (Value.pointer p').cast (.scalar k q) →
          p.address = p'.address) := by
  refine ⟨fun j n targets k q hk h => ?_, fun s n k q hs h => ?_, Value.cast_scalar_bool,
    Value.cast_pointer_bool, fun k q hk => ⟨fun p => ?_, fun p p' => ?_⟩⟩
  · exact ⟨k.wrap n, k.contains_wrap n, IntegralKind.wrap_modEq hk n, rfl,
      Value.casts_eq_cast hk h j n q⟩
  · exact ⟨s.convert k, rfl, Scalar.kind_convert s k, s.inRange_convert k,
      Scalar.denotes_convert hs h⟩
  · exact ⟨_, rfl, Value.cast_pointer_cast hk p .none⟩
  · exact Value.address_eq_of_cast_eq hk

/-- The short -2 is cast to `unsigned int` over two wider types as it is at once, 16777215 is kept
by `float`, and the last address by `long`. -/
theorem casts_exact_narrowing :
    let v : Value := .scalar (.integral .short (-2))
    let wide : List Ty :=
      [.scalar IntegralKind.unsignedLong ⟨true, false⟩, .scalar IntegralKind.longLong .none]
    let p : Pointer := ⟨0xffffffffffffffff, .scalar .void .none⟩
    (∃ r, v.cast (.scalar IntegralKind.unsignedInt .none) =
        .ok (.scalar (.integral .unsignedInt r)) ∧
      v.casts (wide ++ [.scalar IntegralKind.unsignedInt .none]) =
        .ok (.scalar (.integral .unsignedInt r))) ∧
    (∃ t, (Value.scalar (.integral .int 16777215)).cast (.scalar FloatingKind.float .none) =
      .ok (.scalar t) ∧ t.Denotes 16777215) ∧
    ∃ s, (Value.pointer p).cast (.scalar IntegralKind.long .none) = .ok (.scalar s) ∧
      (Value.scalar s).cast p.type = .ok (.pointer p) := by
  intro v wide p
  obtain ⟨hchain, hkeep, -, -, hpointer⟩ := casts_exact
  have hwide : ∀ t ∈ wide, t.KeepsBits IntegralKind.unsignedInt.width := by
    intro t ht
    simp only [wide, List.mem_cons, List.not_mem_nil, or_false] at ht
    obtain rfl | rfl := ht <;> exact ⟨_, _, rfl, by decide, by decide⟩
  obtain ⟨r, -, -, hcast, hcasts⟩ := hchain .short (-2) wide .unsignedInt .none (by decide) hwide
  obtain ⟨x, hx⟩ := BinaryFloat.exists_denotes_single (n := 16777215) (by decide)
  obtain ⟨t, ht, -, -, hdenotes⟩ := hkeep (.integral .int 16777215) 16777215 (.floating .float)
    .none rfl ⟨.floating .float x, rfl, trivial, hx⟩
  exact ⟨⟨r, hcast, hcasts⟩, ⟨t, ht, hdenotes⟩, (hpointer .long .none rfl).1 p⟩

end WatchExpr
