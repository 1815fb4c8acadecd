import WatchExpr.Proofs.Binary.Widening
import WatchExpr.Proofs.Values.Residues

/-!
# Integers among floating-point data

An integer that a format has a datum for is converted to such a datum, stays the same in another
format that has one, and is found again by truncation. binary32 has one for every integer of 24
bits.
-/

namespace WatchExpr.BinaryFloat

variable {fmt dst : BinaryFormat} {s : Bool} {n : Int} {num den : Nat}

/-- The datum is a number, and this number is an integer. Both zeros denote 0. -/
def Denotes (x : BinaryFloat fmt) (n : Int) : Prop :=
  ∃ s m p, x.value = .finite s m p ∧ n.natAbs * 2 ^ (-p).toNat = m * 2 ^ p.toNat ∧
    (n ≠ 0 → s = decide (n < 0))

theorem value_ofMagnitude_zero (s : Bool) (hpos : 0 < fmt.infinityBits) :
    (ofMagnitude s 0 : BinaryFloat fmt).value = .finite s 0 fmt.leastScale := by
  have hroom : 0 < 2 ^ (fmt.width - 1) := Nat.two_pow_pos _
  have hmagnitude : (ofMagnitude s 0 : BinaryFloat fmt).magnitude = 0 :=
    magnitude_ofMagnitude s hroom
  exact value_eq_finite_iff.2 ⟨negative_ofMagnitude s hroom, hmagnitude.trans_lt hpos,
    ⟨le_refl _, Nat.two_pow_pos _, .inl rfl⟩, by simp [hmagnitude]⟩

/-- A ratio that is an integer of the format is rounded to one of its data. -/
theorem denotes_ofRatio {y : BinaryFloat fmt} (hy : y.Denotes n) (hd : 0 < den)
    (h : num = n.natAbs * den) (hs : n ≠ 0 → s = decide (n < 0)) :
    (ofRatio s num den : BinaryFloat fmt).Denotes n := by
  obtain ⟨t, m, p, hvalue, hm, ht⟩ := hy
  by_cases hn : n = 0
  · subst hn
    have hfinite := (value_eq_finite_iff.1 hvalue).2.1
    have hzero : (ofRatio s num den : BinaryFloat fmt) = ofMagnitude s 0 := by
      rw [ofRatio, if_pos (by simp [h])]
    rw [hzero]
    exact ⟨s, 0, _, value_ofMagnitude_zero s (by omega), by simp, fun h => absurd rfl h⟩
  · obtain rfl : s = t := (hs hn).trans (ht hn).symm
    have hexact : ofRatio s num den = y := by
      refine ofRatio_of_exact hvalue hd ?_
      rw [h, Nat.mul_right_comm, hm, Nat.mul_right_comm, Nat.mul_assoc]
    exact ⟨s, m, p, hexact ▸ hvalue, hm, hs⟩

theorem negative_ofInt (n : Int) : (ofInt n : BinaryFloat fmt).negative = decide (n < 0) :=
  negative_ofRatio _ _ _

theorem isNaN_ofInt (n : Int) : (ofInt n : BinaryFloat fmt).isNaN = false :=
  isNaN_ofRatio _ _ _

theorem not_isSignaling_ofInt (n : Int) : ¬(ofInt n : BinaryFloat fmt).IsSignaling :=
  not_isSignaling_ofRatio _ _ _

theorem denotes_ofInt {y : BinaryFloat fmt} (hy : y.Denotes n) :
    (ofInt n : BinaryFloat fmt).Denotes n :=
  denotes_ofRatio hy Nat.one_pos (Nat.mul_one _).symm fun _ => rfl

theorem Denotes.eq_ofInt {y : BinaryFloat fmt} (hy : y.Denotes n) (hn : n ≠ 0) : ofInt n = y := by
  obtain ⟨s, m, p, hvalue, hm, hs⟩ := hy
  obtain rfl := hs hn
  exact ofRatio_of_exact hvalue Nat.one_pos (by rw [Nat.one_mul, hm])

theorem Denotes.convert {x : BinaryFloat fmt} {y : BinaryFloat dst} (hx : x.Denotes n)
    (hy : y.Denotes n) : (x.convert : BinaryFloat dst).Denotes n := by
  by_cases hne : fmt = dst
  · subst hne
    simpa only [BinaryFloat.convert, ↓reduceDIte] using hx
  · obtain ⟨s, m, p, hvalue, hm, hs⟩ := hx
    simp only [BinaryFloat.convert, hne, ↓reduceDIte, hvalue, ofScaled]
    exact denotes_ofRatio hy (Nat.two_pow_pos _) hm.symm hs

theorem Denotes.widened {x : Binary32} (hx : x.Denotes n) : (x.convert : Binary64).Denotes n := by
  obtain ⟨s, m, p, hvalue, hm, hs⟩ := hx
  obtain ⟨y, k, q, hy, heq⟩ := exists_double_of_finite hvalue
  have hwide : (x.convert : Binary64) = y := convert_of_finite narrower.symm hvalue hy heq
  refine ⟨s, k, q, hwide ▸ hy, ?_, hs⟩
  refine Nat.eq_of_mul_eq_mul_right (Nat.two_pow_pos (-p).toNat) ?_
  rw [Nat.mul_right_comm, hm, heq]

theorem Denotes.isZero_iff {x : BinaryFloat fmt} (hx : x.Denotes n) : x.isZero = true ↔ n = 0 := by
  obtain ⟨s, m, p, hvalue, hm, -⟩ := hx
  rw [isZero_iff_of_finite hvalue]
  have hpow (k : Nat) : 2 ^ k ≠ 0 := (Nat.two_pow_pos k).ne'
  constructor
  · rintro rfl
    simpa using hm
  · rintro rfl
    simpa using hm.symm

theorem Denotes.truncate {x : BinaryFloat fmt} (hx : x.Denotes n) (hn : FitsIn 127 n) :
    x.truncate 128 = n := by
  obtain ⟨s, m, p, hvalue, hm, hs⟩ := hx
  have hwhole : m * 2 ^ p.toNat / 2 ^ (-p).toNat = n.natAbs := by
    rw [← hm, Nat.mul_div_cancel _ (Nat.two_pow_pos _)]
  have hsigned : (if s then -(n.natAbs : Int) else n.natAbs) = n := by
    by_cases hn : n = 0
    · simp [hn]
    · rw [hs hn]
      simp only [decide_eq_true_eq]
      omega
  simp only [BinaryFloat.truncate, hvalue, hwhole, hsigned]
  simp only [FitsIn] at hn
  omega

/-- Every integer of 24 bits and a sign is a single-precision number. -/
theorem exists_denotes_single (h : n.natAbs < 2 ^ 24) : ∃ x : Binary32, x.Denotes n := by
  by_cases hn : n = 0
  · exact ⟨ofMagnitude false 0, _, _, _, value_ofMagnitude_zero false (by decide), by simp [hn],
      fun h => absurd hn h⟩
  · have habs : n.natAbs ≠ 0 := Int.natAbs_ne_zero.2 hn
    have hlog : n.natAbs.log2 < 24 := (Nat.log2_lt habs).2 h
    obtain ⟨j, hj⟩ : ∃ j, n.natAbs.log2 + j = 23 := ⟨23 - n.natAbs.log2, by omega⟩
    obtain ⟨hlow, hhigh⟩ := mul_two_pow_bounds habs hj
    have hcanonical : BinaryFormat.single.Canonical (n.natAbs * 2 ^ j) (-j) :=
      ⟨by simp only [BinaryFormat.leastScale, BinaryFormat.single]; omega, hhigh, .inr hlow⟩
    obtain ⟨x, hx⟩ := exists_value_eq_finite (decide (n < 0)) hcanonical (by
      simp only [BinaryFormat.infinityBits, BinaryFormat.topExponent, BinaryFormat.single,
        BinaryFormat.leastScale]
      omega)
    refine ⟨x, _, _, _, hx, ?_, fun _ => rfl⟩
    rw [Int.neg_neg, Int.toNat_natCast]
    simp

end WatchExpr.BinaryFloat
