import WatchExpr.Proofs.Evaluation.Codes
import WatchExpr.Value.Operations
import Mathlib.Data.Int.ModEq

/-!
# Pointer arithmetic

A pointer moves by whole elements, modulo `2 ^ 64`, and the distance of two pointers is counted in
elements. Moves compose as their distances in bytes do, so a move back undoes a move. Where elements
have no size or size zero there is nothing to count in, and every such operation fails.
-/

namespace WatchExpr

/-! ## Types without a size -/

/-- Types without a size: `void`, arrays of such types, and arrays whose size is no 64-bit number.
-/
inductive Ty.Unsized : Ty → Prop where
  | void {q : Qualifiers} : Unsized (.scalar .void q)
  | element {t : Ty} {n : UInt64} {q : Qualifiers} (h : Unsized t) : Unsized (.array t n q)
  | overflow {t : Ty} {n s : UInt64} {q : Qualifiers} (hs : t.size? = some s)
      (h : 2 ^ 64 ≤ s.toNat * n.toNat) : Unsized (.array t n q)

theorem Ty.Unsized.size?_eq_none {t : Ty} (h : t.Unsized) : t.size? = none := by
  induction h with
  | void => rfl
  | element h ih => rw [size?, ih, Option.bind_none]
  | overflow hs h =>
      rw [size?, hs]
      exact if_neg (Nat.not_lt.2 h)

/-- These are all the types without a size. -/
theorem Ty.size?_eq_none_iff {t : Ty} : t.size? = none ↔ t.Unsized := by
  refine ⟨fun h => ?_, Unsized.size?_eq_none⟩
  induction t with
  | scalar k q =>
      cases k with
      | void => exact .void
      | arithmetic k => cases h
  | tagged r q => cases h
  | pointer t q ih => cases h
  | reference t q ih => cases h
  | array t n q ih =>
      rw [size?] at h
      cases hs : t.size? with
      | none => exact .element (ih hs)
      | some s =>
          rw [hs, Option.bind_some, ite_eq_right_iff] at h
          exact .overflow hs (Nat.not_lt.1 fun hlt => nomatch h hlt)

/-! ## Words -/

theorem toNat_wordOfInt_modEq (n : Int) : ((wordOfInt n).toNat : Int) ≡ n [ZMOD 2 ^ 64] := by
  have htoNat : (wordOfInt n).toNat = (n % 2 ^ 64).toNat := BitVec.toNat_ofInt n
  rw [htoNat, Int.toNat_of_nonneg (Int.emod_nonneg n (by decide))]
  exact Int.mod_modEq n _

theorem toNat_add_modEq (v w : UInt64) : ((v + w).toNat : Int) ≡ v.toNat + w.toNat [ZMOD 2 ^ 64] := by
  rw [UInt64.toNat_add]
  push_cast
  exact Int.mod_modEq _ _

theorem toNat_mul_modEq (v w : UInt64) : ((v * w).toNat : Int) ≡ v.toNat * w.toNat [ZMOD 2 ^ 64] := by
  rw [UInt64.toNat_mul]
  push_cast
  exact Int.mod_modEq _ _

/-- A number of 64 bits and a sign is the word congruent to it, read in two's complement. -/
theorem signedOfWord_eq {w : UInt64} {n : Int} (h : (w.toNat : Int) ≡ n [ZMOD 2 ^ 64])
    (hlow : -(2 ^ 63) ≤ n) (hhigh : n < 2 ^ 63) : signedOfWord w = n := by
  have hword : signedOfWord w = (w.toNat : Int).bmod (2 ^ 64) := BitVec.toInt_eq_toNat_bmod _
  have hcongr : (w.toNat : Int).bmod (2 ^ 64) = n.bmod (2 ^ 64) := by
    rw [← Int.emod_bmod, ← Int.emod_bmod n]
    exact congrArg (Int.bmod · (2 ^ 64)) h
  rw [hword, hcongr]
  exact Int.bmod_eq_of_le (by omega) (by omega)

namespace Pointer

variable {p q r : Pointer} {b c n : Int} {size : UInt64}

/-! ## Moves -/

/-- The second pointer is the first one moved by a number of bytes, modulo `2 ^ 64`. -/
structure MovesTo (p : Pointer) (bytes : Int) (q : Pointer) : Prop where
  pointee : q.pointee = p.pointee
  address : (q.address.toNat : Int) = (p.address.toNat + bytes) % 2 ^ 64

namespace MovesTo

theorem of_modEq (hpointee : q.pointee = p.pointee)
    (h : (q.address.toNat : Int) ≡ p.address.toNat + b [ZMOD 2 ^ 64]) : p.MovesTo b q where
  pointee := hpointee
  address := by
    have hlt : (q.address.toNat : Int) < 2 ^ 64 := by exact_mod_cast q.address.toNat_lt
    rw [← h, Int.emod_eq_of_lt (Int.natCast_nonneg _) hlt]

theorem modEq (h : p.MovesTo b q) : (q.address.toNat : Int) ≡ p.address.toNat + b [ZMOD 2 ^ 64] := by
  rw [h.address]
  exact Int.mod_modEq _ _

theorem trans (h : p.MovesTo b q) (h' : q.MovesTo c r) : p.MovesTo (b + c) r := by
  refine .of_modEq (h'.pointee.trans h.pointee) ?_
  calc (r.address.toNat : Int)
      ≡ q.address.toNat + c [ZMOD 2 ^ 64] := h'.modEq
    _ ≡ p.address.toNat + b + c [ZMOD 2 ^ 64] := h.modEq.add_right c
    _ = p.address.toNat + (b + c) := add_assoc _ _ _

/-- Only one pointer is that far away. -/
theorem unique (hq : p.MovesTo b q) (hr : p.MovesTo b r) : q = r := by
  obtain ⟨a, t⟩ := q
  obtain ⟨a', t'⟩ := r
  have hpointee : t = t' := hq.pointee.trans hr.pointee.symm
  have haddress : a.toNat = a'.toNat := by exact_mod_cast hq.address.trans hr.address.symm
  rw [hpointee, UInt64.toNat_inj.1 haddress]

theorem refl (p : Pointer) : p.MovesTo 0 p :=
  .of_modEq rfl (by rw [add_zero])

/-- The distance in bytes, if it is a number of 64 bits and a sign, is found again. -/
theorem signedOfWord_sub (h : p.MovesTo b q) (hlow : -(2 ^ 63) ≤ b) (hhigh : b < 2 ^ 63) :
    signedOfWord (q.address - p.address) = b := by
  refine signedOfWord_eq ?_ hlow hhigh
  have hsum : ((q.address - p.address).toNat : Int) + p.address.toNat ≡
      b + p.address.toNat [ZMOD 2 ^ 64] := by
    calc ((q.address - p.address).toNat : Int) + p.address.toNat
        ≡ (q.address - p.address + p.address).toNat [ZMOD 2 ^ 64] := (toNat_add_modEq _ _).symm
      _ = q.address.toNat := by rw [UInt64.sub_add_cancel]
      _ ≡ p.address.toNat + b [ZMOD 2 ^ 64] := h.modEq
      _ = b + p.address.toNat := add_comm _ _
  exact Int.ModEq.add_right_cancel' _ hsum

end MovesTo

/-! ## Elements -/

theorem elementSize_eq_ok (hsize : p.pointee.size? = some size) (hpos : 0 < size.toNat) :
    p.elementSize = .ok size := by
  have hne : size ≠ 0 := by
    rintro rfl
    cases hpos
  simp only [elementSize, hsize, hne, ↓reduceIte]

/-- Elements without a size, or of size zero, cannot be counted in. -/
theorem elementSize_failsWith (h : p.pointee.Unsized ∨ p.pointee.size? = some 0) :
    FailsWith .invalidOperand p.elementSize := by
  obtain h | h := h
  · rw [elementSize, Ty.size?_eq_none_iff.2 h]
    exact ⟨_, rfl, rfl⟩
  · rw [elementSize, h]
    exact ⟨_, rfl, rfl⟩

theorem exists_advance (hsize : p.pointee.size? = some size) (hpos : 0 < size.toNat) (n : Int) :
    ∃ q, p.advance n = .ok q ∧ p.MovesTo (n * size.toNat) q := by
  refine ⟨{ p with address := p.address + wordOfInt n * size }, ?_, .of_modEq rfl ?_⟩
  · rw [advance, elementSize_eq_ok hsize hpos]
    rfl
  · calc ((p.address + wordOfInt n * size).toNat : Int)
        ≡ p.address.toNat + (wordOfInt n * size).toNat [ZMOD 2 ^ 64] := toNat_add_modEq _ _
      _ ≡ p.address.toNat + (wordOfInt n).toNat * size.toNat [ZMOD 2 ^ 64] :=
          (toNat_mul_modEq _ _).add_left _
      _ ≡ p.address.toNat + n * size.toNat [ZMOD 2 ^ 64] :=
          ((toNat_wordOfInt_modEq n).mul_right _).add_left _

/-- Moving back by as many elements leads to where the move began. -/
theorem advance_neg (hsize : p.pointee.size? = some size) (hpos : 0 < size.toNat)
    (h : p.MovesTo (n * size.toNat) q) : q.advance (-n) = .ok p := by
  obtain ⟨r, hr, hback⟩ := exists_advance (h.pointee ▸ hsize) hpos (-n)
  have hround := h.trans hback
  rw [neg_mul, add_neg_cancel] at hround
  rw [hr, hround.unique (.refl p)]

/-- The quotient of two numbers in two's complement is out of range only for the least one and `-1`. -/
theorem sdivOverflow_iff {bytes size : UInt64} :
    bytes.toBitVec.sdivOverflow size.toBitVec = true ↔
      bytes = 0x8000000000000000 ∧ size = 0xFFFFFFFFFFFFFFFF := by
  have hbytes : bytes.toBitVec = BitVec.intMin 64 ↔ bytes = 0x8000000000000000 := UInt64.toBitVec_inj
  have hsize : size.toBitVec = BitVec.allOnes 64 ↔ size = 0xFFFFFFFFFFFFFFFF := UInt64.toBitVec_inj
  simp only [BitVec.sdivOverflow_eq, hbytes, hsize, Nat.zero_lt_succ, decide_true, Bool.true_and,
    Bool.and_eq_true, decide_eq_true_eq]

/-- The number of elements between two pointers, if the number of bytes has 63 bits and a sign. -/
theorem difference_eq_ok (hsize : p.pointee.size? = some size) (hpos : 0 < size.toNat)
    (hlt : size.toNat < 2 ^ 63) (h : p.MovesTo (n * size.toNat) q)
    (hlow : -(2 ^ 63) ≤ n * size.toNat) (hhigh : n * size.toNat < 2 ^ 63) :
    q.difference p = .ok n := by
  have hsigned : signedOfWord size = size.toNat :=
    signedOfWord_eq (Int.ModEq.refl _) (by omega) (by exact_mod_cast hlt)
  have hne : (size.toNat : Int) ≠ 0 := by exact_mod_cast hpos.ne'
  have hquotient : (n * size.toNat).tdiv size.toNat = n := Int.mul_tdiv_cancel n hne
  have hfits : ¬(q.address - p.address).toBitVec.sdivOverflow size.toBitVec := fun hoverflow => by
    obtain ⟨-, rfl⟩ := sdivOverflow_iff.1 hoverflow
    exact absurd hlt (by decide)
  rw [difference, if_neg (by simp [h.pointee]), elementSize_eq_ok (h.pointee ▸ hsize) hpos]
  dsimp only [bind, Except.bind]
  rw [if_neg hfits, h.signedOfWord_sub hlow hhigh, hsigned, hquotient]
  rfl

theorem advance_failsWith (h : p.pointee.Unsized ∨ p.pointee.size? = some 0) (n : Int) :
    FailsWith .invalidOperand (p.advance n) :=
  FailsWith.bind_iff.2 (.inl (elementSize_failsWith h))

theorem difference_failsWith (h : p.pointee.Unsized ∨ p.pointee.size? = some 0) :
    FailsWith .invalidOperand (p.difference p) := by
  rw [difference, if_neg (by simp)]
  exact FailsWith.bind_iff.2 (.inl (elementSize_failsWith h))

end Pointer

/-- If so many bytes are in the range of `long`, so is the number of elements. -/
theorem IntegralKind.wrap_long_of_mul {n : Int} {size : Nat} (hpos : 0 < size)
    (hlow : -(2 ^ 63) ≤ n * size) (hhigh : n * size < 2 ^ 63) : wrap .long n = n := by
  have hone : (1 : Int) ≤ size := by exact_mod_cast hpos
  have hbounds : -(2 ^ 63) ≤ n ∧ n < 2 ^ 63 := by
    obtain hn | hn := Int.le_total 0 n
    · have hle : n * 1 ≤ n * size := Int.mul_le_mul_of_nonneg_left hone hn
      omega
    · have hle : n * size ≤ n * 1 := Int.mul_le_mul_of_nonpos_left hn hone
      omega
  have hwrap : wrap .long n = n.bmod (2 ^ 64) := rfl
  rw [hwrap]
  exact Int.bmod_eq_of_le (by omega) (by omega)

/-! ## Operators -/

namespace Value

variable {p q : Pointer} {k : IntegralKind} {n : Int}

theorem binary_pointer_add :
    (pointer p).binary (.arith .add) (.scalar (.integral k n)) =
      (do return .pointer (← p.advance n)) := rfl

theorem binary_add_pointer :
    (scalar (.integral k n)).binary (.arith .add) (.pointer p) =
      (do return .pointer (← p.advance n)) := rfl

theorem binary_pointer_sub :
    (pointer p).binary (.arith .sub) (.scalar (.integral k n)) =
      (do return .pointer (← p.advance (-n))) := rfl

theorem binary_pointer_difference :
    (pointer q).binary (.arith .sub) (.pointer p) =
      (do return .scalar (.ofInt (.integral .long) (← q.difference p))) := rfl

end Value

/-- Adding an integer to a pointer, on either side, and subtracting it are exact modulo `2 ^ 64` in
the bytes of so many elements. Subtraction undoes addition, and gives back the integer as a `long`
if the bytes are in its range. A pointer to elements without a size or of size zero supports none of
this. -/
theorem pointer_arithmetic_exact (p : Pointer) (k : IntegralKind) (n : Int) :
    let i : Value := .scalar (.integral k n)
    (∀ size : UInt64, p.pointee.size? = some size → 0 < size.toNat → size.toNat < 2 ^ 63 →
      ∃ q r : Pointer, p.MovesTo (n * size.toNat) q ∧ p.MovesTo (-(n * size.toNat)) r ∧
        (Value.pointer p).binary (.arith .add) i = .ok (.pointer q) ∧
        i.binary (.arith .add) (.pointer p) = .ok (.pointer q) ∧
        (Value.pointer p).binary (.arith .sub) i = .ok (.pointer r) ∧
        (Value.pointer q).binary (.arith .sub) i = .ok (.pointer p) ∧
        (-(2 ^ 63) ≤ n * size.toNat → n * size.toNat < 2 ^ 63 →
          (Value.pointer q).binary (.arith .sub) (.pointer p) =
            .ok (.scalar (.integral .long n)))) ∧
    (p.pointee.Unsized ∨ p.pointee.size? = some 0 →
      FailsWith .invalidOperand ((Value.pointer p).binary (.arith .add) i) ∧
        FailsWith .invalidOperand (i.binary (.arith .add) (.pointer p)) ∧
        FailsWith .invalidOperand ((Value.pointer p).binary (.arith .sub) i) ∧
        FailsWith .invalidOperand ((Value.pointer p).binary (.arith .sub) (.pointer p))) := by
  intro i
  constructor
  · intro size hsize hpos hlt
    obtain ⟨q, hq, hforth⟩ := Pointer.exists_advance hsize hpos n
    obtain ⟨r, hr, hback⟩ := Pointer.exists_advance hsize hpos (-n)
    rw [neg_mul] at hback
    have hundo : q.advance (-n) = .ok p := Pointer.advance_neg hsize hpos hforth
    refine ⟨q, r, hforth, hback, ?_, ?_, ?_, ?_, fun hlow hhigh => ?_⟩
    · rw [Value.binary_pointer_add, hq]
      rfl
    · rw [Value.binary_add_pointer, hq]
      rfl
    · rw [Value.binary_pointer_sub, hr]
      rfl
    · rw [Value.binary_pointer_sub, hundo]
      rfl
    · have hcount := Pointer.difference_eq_ok hsize hpos hlt hforth hlow hhigh
      have hlong := IntegralKind.wrap_long_of_mul hpos hlow hhigh
      rw [Value.binary_pointer_difference, hcount]
      exact congrArg (fun m => Except.ok (Value.scalar (.integral .long m))) hlong
  · intro h
    rw [Value.binary_pointer_add, Value.binary_add_pointer, Value.binary_pointer_sub,
      Value.binary_pointer_difference]
    have hadd := Pointer.advance_failsWith h n
    have hsub := Pointer.advance_failsWith h (-n)
    have hdifference := Pointer.difference_failsWith h
    exact ⟨FailsWith.bind_iff.2 (.inl hadd), FailsWith.bind_iff.2 (.inl hadd),
      FailsWith.bind_iff.2 (.inl hsub), FailsWith.bind_iff.2 (.inl hdifference)⟩

/-- The greatest `unsigned long` moves a pointer to a record back by one. -/
theorem pointer_arithmetic_exact_wraps :
    let p : Pointer := ⟨0x10, .tagged ⟨"Vec", 24⟩ .none⟩
    let i : Value := .scalar (.integral .unsignedLong 18446744073709551615)
    (∃ q : Pointer, (Value.pointer p).binary (.arith .add) i = .ok (.pointer q) ∧
        q.address.toNat = 2 ^ 64 - 8 ∧
        (Value.pointer q).binary (.arith .sub) i = .ok (.pointer p)) ∧
      FailsWith .invalidOperand
        ((Value.pointer (p.cast (.array .bool 0 .none))).binary (.arith .add) i) := by
  intro p i
  obtain ⟨q, r, hforth, -, hadd, -, -, hsub, -⟩ :=
    (pointer_arithmetic_exact p .unsignedLong 18446744073709551615).1 24 rfl (by decide) (by decide)
  have hfails := (pointer_arithmetic_exact (p.cast (.array .bool 0 .none)) .unsignedLong
    18446744073709551615).2 (.inr (by decide))
  have hstart : p.address.toNat = 16 := rfl
  have hsize : (24 : UInt64).toNat = 24 := rfl
  have haddress := hforth.address
  rw [hstart, hsize] at haddress
  exact ⟨⟨q, hadd, by omega, hsub⟩, hfails.1⟩

end WatchExpr
