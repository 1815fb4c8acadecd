import WatchExpr.Proofs.Binary.Widening
import WatchExpr.Proofs.Memory.Bytes
import WatchExpr.Proofs.Typing.Operations
import WatchExpr.Proofs.Values.Residues

/-!
# The bytes of scalars

Scalars are found again from their bytes: integral ones that are in range, and floating-point ones
that are no signaling NaN. Bytes are found again from their scalar if they represent a value of the
type: `bool` has two such patterns, a floating type those of no NaN, and the other types have all.
-/

namespace WatchExpr

theorem IntegralKind.two_pow_width_eq (k : IntegralKind) : 2 ^ k.width = 256 ^ k.size := by
  cases k <;> rfl

namespace Scalar

/-- Whether the value is told by its bytes. A binary32 number is widened when it is read, which
makes a signaling NaN quiet. -/
def Storable : Scalar → Prop
  | .integral k n => k.Contains n
  | .floating .float x => ¬BinaryFloat.IsSignaling x
  | .floating .double _ => True

theorem length_toBytes (s : Scalar) : s.toBytes.length = s.kind.size := by
  cases s with
  | integral k n => exact Bytes.length_ofNat _ _
  | floating k x => exact Bytes.length_ofNat _ _

theorem ofBytes_toBytes_integral {k : IntegralKind} {n : Int} (h : k.Contains n) :
    ofBytes (.integral k) (integral k n).toBytes = .integral k n := by
  have hpos : (0 : Int) < 2 ^ k.width := Int.pow_pos (by decide)
  have hlow := Int.emod_nonneg n (Int.ne_of_gt hpos)
  have hfits : (n % 2 ^ k.width).toNat < 256 ^ k.size := by
    rw [← k.two_pow_width_eq, Int.toNat_lt hlow]
    push_cast
    exact Int.emod_lt_of_pos n hpos
  simp only [ofBytes, toBytes]
  rw [List.take_of_length_le (Bytes.length_ofNat _ _).le, Bytes.toNat_ofNat_of_lt hfits,
    Int.toNat_of_nonneg hlow, ofInt, IntegralKind.wrap_emod_of_contains h]

/-- The pattern of a floating-point number is read back as it is. -/
theorem ofNat_toNat_bits {k : FloatingKind} (x : BinaryFloat k.format) :
    (⟨BitVec.ofNat _ (Bytes.toNat ((floating k x).toBytes.take k.size))⟩ :
      BinaryFloat k.format) = x := by
  have hfits : x.bits.toNat < 256 ^ k.size := by
    cases k with
    | float => exact x.bits.isLt
    | double => exact x.bits.isLt
  rw [toBytes, List.take_of_length_le (Bytes.length_ofNat _ _).le, Bytes.toNat_ofNat_of_lt hfits,
    BitVec.ofNat_toNat, BitVec.setWidth_eq]

theorem ofBytes_toBytes {s : Scalar} (h : s.Storable) : ofBytes s.kind s.toBytes = s := by
  cases s with
  | integral k n => exact ofBytes_toBytes_integral h
  | floating k x =>
      simp only [ofBytes, kind, ofNat_toNat_bits]
      cases k with
      | float => exact congrArg (floating .float) (BinaryFloat.convert_widened h)
      | double => rfl

theorem storable_ofInt (k : ArithmeticKind) (n : Int) : (ofInt k n).Storable := by
  cases k with
  | integral k => exact k.contains_wrap n
  | floating k =>
      cases k with
      | float => exact BinaryFloat.not_isSignaling_ofRatio _ _ _
      | double => trivial

theorem storable_ofBinary (k : ArithmeticKind) (x : Binary64) : (ofBinary k x).Storable := by
  cases k with
  | integral k =>
      have h := inRange_ofBinary (.integral k) x
      cases k <;> exact h
  | floating k =>
      cases k with
      | float => exact BinaryFloat.not_isSignaling_convert x
      | double => trivial

theorem storable_of_inRange {s : Scalar} (h : s.InRange) (hnan : ¬s.IsNaN) : s.Storable := by
  cases s with
  | integral k n => exact h
  | floating k x =>
      cases k with
      | float => exact fun hx => hnan hx.isNaN
      | double => trivial

end Scalar

/-! ## Bytes that represent a value -/

/-- The datum whose pattern some bytes are. -/
def FloatingKind.datum (k : FloatingKind) (bytes : List UInt8) : BinaryFloat k.format :=
  ⟨BitVec.ofNat _ (Bytes.toNat bytes)⟩

/-- Bytes are the object representation of a value of a type. A truth value has one of two patterns,
and that of a NaN is not counted. -/
def ArithmeticKind.Represents (k : ArithmeticKind) (bytes : List UInt8) : Prop :=
  bytes.length = k.size ∧ match k with
    | .integral .bool => bytes = [0] ∨ bytes = [1]
    | .integral _ => True
    | .floating k => (k.datum bytes).isNaN = false

namespace Scalar

variable {k : ArithmeticKind} {bytes : List UInt8}

/-- Bytes past the size of the type are not looked at. -/
theorem ofBytes_append (h : bytes.length = k.size) (rest : List UInt8) :
    ofBytes k (bytes ++ rest) = ofBytes k bytes := by
  have htake : (bytes ++ rest).take k.size = bytes.take k.size :=
    List.take_append_of_le_length h.ge
  cases k with
  | integral k => exact congrArg (fun bs => ofInt (.integral k) (Bytes.toNat bs)) htake
  | floating k =>
      exact congrArg (fun bs => ofBinary (.floating k) (k.datum bs).convert) htake

theorem ofBytes?_eq_some (h : k.size ≤ bytes.length) : ofBytes? k bytes = some (ofBytes k bytes) :=
  if_pos h

theorem ofBytes?_eq_none_iff {kind : ScalarKind} : ofBytes? kind bytes = none ↔
    kind = .void ∨ ∃ size, kind.size? = some size ∧ bytes.length < size := by
  cases kind with
  | void => simp [ofBytes?]
  | arithmetic k => simp [ofBytes?, ScalarKind.size?]

theorem toBytes_ofBytes_integral {k : IntegralKind} (hbool : k ≠ .bool)
    (h : bytes.length = k.size) : (ofBytes (.integral k) bytes).toBytes = bytes := by
  have hlt : (Bytes.toNat bytes : Int) < 2 ^ k.width := by
    have hlt := Bytes.toNat_lt bytes
    rw [h, ← k.two_pow_width_eq] at hlt
    exact_mod_cast hlt
  have hwrap : k.wrap (Bytes.toNat bytes) % 2 ^ k.width = Bytes.toNat bytes := by
    have hcongr := IntegralKind.wrap_modEq hbool (Bytes.toNat bytes)
    exact Int.ModEq.eq hcongr |>.trans (Int.emod_eq_of_lt (Int.natCast_nonneg _) hlt)
  simp only [ofBytes, ofInt, toBytes]
  rw [List.take_of_length_le h.le, hwrap, Int.toNat_natCast, ← h, Bytes.ofNat_toNat]

theorem toBytes_ofBytes_floating {k : FloatingKind} (h : bytes.length = k.size)
    (hnan : (k.datum bytes).isNaN = false) : (ofBytes (.floating k) bytes).toBytes = bytes := by
  have hsame : (((k.datum bytes).convert : Binary64).convert : BinaryFloat k.format) =
      k.datum bytes := by
    cases k with
    | float =>
        refine BinaryFloat.convert_widened fun hx => ?_
        exact Bool.false_ne_true (hnan.symm.trans hx.isNaN)
    | double => rfl
  have hpattern : (k.datum bytes).bits.toNat = Bytes.toNat bytes := by
    have hlt := Bytes.toNat_lt bytes
    rw [h] at hlt
    rw [FloatingKind.datum, BitVec.toNat_ofNat]
    cases k with
    | float => exact Nat.mod_eq_of_lt hlt
    | double => exact Nat.mod_eq_of_lt hlt
  have hread : ofBytes (.floating k) bytes = .floating k (k.datum bytes) := by
    rw [ofBytes, List.take_of_length_le h.le]
    exact congrArg (floating k) hsame
  rw [hread, toBytes, hpattern, ← h, Bytes.ofNat_toNat]

theorem toBytes_ofBytes (h : k.Represents bytes) : (ofBytes k bytes).toBytes = bytes := by
  obtain ⟨hlength, h⟩ := h
  cases k with
  | integral k =>
      by_cases hbool : k = .bool
      · subst hbool
        obtain rfl | rfl := h <;> rfl
      · exact toBytes_ofBytes_integral hbool hlength
  | floating k => exact toBytes_ofBytes_floating hlength h

/-- Object bytes and scalars are inverse encodings. A scalar in range that is no NaN has as many
bytes as its type and is read back from them, whatever follows. Bytes that represent a value of a
type are those of the scalar that is read from them. Nothing is read only for `void` and from too
few bytes. -/
theorem object_bytes_inverse :
    (∀ s : Scalar, s.InRange → ¬s.IsNaN → s.toBytes.length = s.kind.size ∧
      ∀ rest, ofBytes? s.kind (s.toBytes ++ rest) = some s) ∧
    (∀ (k : ArithmeticKind) (bytes : List UInt8), k.Represents bytes →
      ∃ s, ofBytes? k bytes = some s ∧ s.kind = k ∧ s.InRange ∧ s.toBytes = bytes) ∧
    (∀ (kind : ScalarKind) (bytes : List UInt8), ofBytes? kind bytes = none ↔
      kind = .void ∨ ∃ size, kind.size? = some size ∧ bytes.length < size) := by
  refine ⟨fun s hrange hnan => ⟨s.length_toBytes, fun rest => ?_⟩, fun k bytes h => ?_,
    fun _ _ => ofBytes?_eq_none_iff⟩
  · rw [ofBytes?_eq_some (by simp [s.length_toBytes]), ofBytes_append s.length_toBytes,
      ofBytes_toBytes (storable_of_inRange hrange hnan)]
  · exact ⟨ofBytes k bytes, ofBytes?_eq_some h.1.ge, kind_ofBytes k bytes, inRange_ofBytes k bytes,
      toBytes_ofBytes h⟩

/-- The short -2 is read from its two bytes with a third one behind them, the single-precision
number -0 from its four, and `void` from none. -/
theorem object_bytes_inverse_short :
    InRange (.integral .short (-2)) ∧ ¬IsNaN (.integral .short (-2)) ∧
      ofBytes? (.arithmetic (.integral .short)) [0xfe, 0xff, 7] = some (.integral .short (-2)) ∧
      ArithmeticKind.Represents (.floating .float) [0, 0, 0, 0x80] ∧
      (∃ s, ofBytes? (.arithmetic (.floating .float)) [0, 0, 0, 0x80] = some s ∧
        s.toBytes = [0, 0, 0, 0x80]) ∧
      ofBytes? .void [7] = none := by
  obtain ⟨hscalar, hbytes, hnone⟩ := object_bytes_inverse
  have hrange : InRange (.integral .short (-2)) := by decide
  have hrepresents : ArithmeticKind.Represents (.floating .float) [0, 0, 0, 0x80] := ⟨rfl, rfl⟩
  obtain ⟨s, hread, -, -, hs⟩ := hbytes _ _ hrepresents
  exact ⟨hrange, id, (hscalar (.integral .short (-2)) hrange id).2 [7], hrepresents, ⟨s, hread, hs⟩,
    (hnone .void [7]).2 (.inl rfl)⟩

end Scalar

end WatchExpr
