import WatchExpr.Binary.Basic
import Mathlib.Algebra.Order.Field.Power
import Mathlib.Data.Rat.Cast.Order
import Mathlib.Tactic.Linarith
import Mathlib.Tactic.Ring

/-!
# Exact rounding

A ratio that is the number of some datum is rounded to that datum.
-/

namespace WatchExpr

/-! ## The leading power of two of a ratio -/

theorem two_pow_toNat (k : Int) : (2 : ℚ) ^ k.toNat = 2 ^ k * 2 ^ (-k).toNat := by
  rw [← zpow_natCast, ← zpow_natCast, ← zpow_add₀ two_ne_zero]
  congr 1
  omega

theorem two_zpow_mul_le_iff (num den : Nat) (k : Int) :
    (2 : ℚ) ^ k * den ≤ num ↔ den * 2 ^ k.toNat ≤ num * 2 ^ (-k).toNat := by
  have hpos : (0 : ℚ) < 2 ^ (-k).toNat := by positivity
  rw [← mul_le_mul_iff_left₀ hpos, ← Nat.cast_le (α := ℚ)]
  push_cast
  rw [two_pow_toNat k]
  ring_nf

variable {num den : Nat}

theorem two_zpow_log2_le (hn : 0 < num) : (2 : ℚ) ^ (num.log2 : Int) ≤ num := by
  exact_mod_cast Nat.log2_self_le hn.ne'

theorem lt_two_zpow_log2_succ (num : Nat) : (num : ℚ) < 2 ^ ((num.log2 : Int) + 1) := by
  exact_mod_cast (Nat.lt_log2_self : num < 2 ^ (num.log2 + 1))

theorem floorLog2Ratio_bounds (hn : 0 < num) (hd : 0 < den) :
    (2 : ℚ) ^ floorLog2Ratio num den * den ≤ num ∧
      (num : ℚ) < 2 ^ (floorLog2Ratio num den + 1) * den := by
  -- The difference of the logarithms is the one of the ratio, or one more than it.
  have habove : (num : ℚ) < 2 ^ ((num.log2 : Int) - den.log2 + 1) * den := by
    calc (num : ℚ) < 2 ^ ((num.log2 : Int) + 1) := lt_two_zpow_log2_succ num
      _ = 2 ^ ((num.log2 : Int) - den.log2 + 1) * 2 ^ (den.log2 : Int) := by
        rw [← zpow_add₀ two_ne_zero]
        congr 1
        omega
      _ ≤ 2 ^ ((num.log2 : Int) - den.log2 + 1) * den :=
        mul_le_mul_of_nonneg_left (two_zpow_log2_le hd) (by positivity)
  have hbelow : (2 : ℚ) ^ ((num.log2 : Int) - den.log2 - 1) * den ≤ num := by
    calc (2 : ℚ) ^ ((num.log2 : Int) - den.log2 - 1) * den
        ≤ 2 ^ ((num.log2 : Int) - den.log2 - 1) * 2 ^ ((den.log2 : Int) + 1) :=
        mul_le_mul_of_nonneg_left (lt_two_zpow_log2_succ den).le (by positivity)
      _ = 2 ^ (num.log2 : Int) := by
        rw [← zpow_add₀ two_ne_zero]
        congr 1
        omega
      _ ≤ num := two_zpow_log2_le hn
  simp only [floorLog2Ratio, ← two_zpow_mul_le_iff]
  split
  · exact ⟨‹_›, habove⟩
  · rw [Int.sub_add_cancel]
    exact ⟨hbelow, not_le.1 ‹_›⟩

theorem floorLog2Ratio_eq (hn : 0 < num) (hd : 0 < den) {k : Int} (hlow : (2 : ℚ) ^ k * den ≤ num)
    (hhigh : (num : ℚ) < 2 ^ (k + 1) * den) : floorLog2Ratio num den = k := by
  have hpos : (0 : ℚ) < den := by exact_mod_cast hd
  obtain ⟨hl, hh⟩ := floorLog2Ratio_bounds hn hd
  have hle : floorLog2Ratio num den < k + 1 :=
    (zpow_lt_zpow_iff_right₀ one_lt_two).1 (lt_of_mul_lt_mul_right (hl.trans_lt hhigh) hpos.le)
  have hge : k < floorLog2Ratio num den + 1 :=
    (zpow_lt_zpow_iff_right₀ one_lt_two).1 (lt_of_mul_lt_mul_right (hlow.trans_lt hh) hpos.le)
  omega

/-- The ratio `m * 2 ^ p` has the leading power of two of `m`, moved by `p`. -/
theorem floorLog2Ratio_of_exact {m : Nat} {p : Int} (hm : 0 < m) (hd : 0 < den)
    (h : num * 2 ^ (-p).toNat = m * (den * 2 ^ p.toNat)) :
    floorLog2Ratio num den = m.log2 + p := by
  have hnum : (num : ℚ) = m * 2 ^ p * den := by
    have hpos : (2 : ℚ) ^ (-p).toNat ≠ 0 := by positivity
    have hcast : (num : ℚ) * 2 ^ (-p).toNat = m * (den * 2 ^ p.toNat) := by exact_mod_cast h
    rw [two_pow_toNat p] at hcast
    refine mul_right_cancel₀ hpos (hcast.trans ?_)
    ring
  have hscale : (0 : ℚ) < 2 ^ p * den := by positivity
  have hn : 0 < num := by
    have : (0 : ℚ) < num := by
      rw [hnum]
      positivity
    exact_mod_cast this
  have hsplit (k : Int) : (2 : ℚ) ^ (k + p) * den = 2 ^ k * (2 ^ p * den) := by
    rw [zpow_add₀ two_ne_zero, mul_assoc]
  refine floorLog2Ratio_eq hn hd ?_ ?_
  · rw [hsplit, hnum, mul_assoc]
    exact mul_le_mul_of_nonneg_right (two_zpow_log2_le hm) hscale.le
  · rw [add_right_comm, hsplit, hnum, mul_assoc]
    exact mul_lt_mul_of_pos_right (lt_two_zpow_log2_succ m) hscale

theorem roundRatio_mul (m : Nat) {d : Nat} (hd : 0 < d) : roundRatio (m * d) d = m := by
  have hne : ¬d < 0 ∧ 0 ≠ d := ⟨Nat.not_lt_zero d, hd.ne⟩
  simp [roundRatio, Nat.mul_div_cancel m hd, hne]

/-! ## Patterns and what they denote -/

namespace BinaryFormat

variable {fmt : BinaryFormat}

/-- Whether a significand and a power of two are those of a datum: the significand fits, and it
fills its width unless the power is the least one. -/
def Canonical (fmt : BinaryFormat) (m : Nat) (p : Int) : Prop :=
  fmt.leastScale ≤ p ∧ m < 2 ^ (fmt.fractionBits + 1) ∧
    (p = fmt.leastScale ∨ 2 ^ fmt.fractionBits ≤ m)

theorem topExponent_succ (fmt : BinaryFormat) : fmt.topExponent + 1 = 2 ^ fmt.exponentBits :=
  Nat.sub_add_cancel (Nat.two_pow_pos _)

theorem two_pow_pred_width (fmt : BinaryFormat) :
    2 ^ (fmt.width - 1) = (fmt.topExponent + 1) * 2 ^ fmt.fractionBits := by
  rw [topExponent_succ, ← Nat.pow_add]
  rfl

/-- Below the sign bit there is room for infinity and every payload of a NaN. -/
theorem infinityBits_add_lt {n : Nat} (h : n < 2 ^ fmt.fractionBits) :
    fmt.infinityBits + n < 2 ^ (fmt.width - 1) := by
  rw [two_pow_pred_width, Nat.succ_mul]
  exact Nat.add_lt_add_left h _

theorem infinityBits_lt (fmt : BinaryFormat) : fmt.infinityBits < 2 ^ (fmt.width - 1) :=
  infinityBits_add_lt (Nat.two_pow_pos _)

end BinaryFormat

namespace BinaryFloat

variable {fmt : BinaryFormat} {s : Bool} {m n : Nat} {p : Int}

theorem toNat_ofMagnitude (s : Bool) (h : n < 2 ^ (fmt.width - 1)) :
    (ofMagnitude s n : BinaryFloat fmt).bits.toNat =
      (if s then 2 ^ (fmt.width - 1) else 0) + n := by
  have hwidth : 2 ^ fmt.width = 2 * 2 ^ (fmt.width - 1) := by
    rw [← Nat.pow_succ']
    rfl
  rw [ofMagnitude, BitVec.toNat_ofNat]
  refine Nat.mod_eq_of_lt ?_
  split <;> omega

theorem negative_ofMagnitude (s : Bool) (h : n < 2 ^ (fmt.width - 1)) :
    (ofMagnitude s n : BinaryFloat fmt).negative = s := by
  rw [negative, toNat_ofMagnitude s h]
  cases s with
  | true => simp
  | false => simpa using h

theorem magnitude_ofMagnitude (s : Bool) (h : n < 2 ^ (fmt.width - 1)) :
    (ofMagnitude s n : BinaryFloat fmt).magnitude = n := by
  rw [magnitude, toNat_ofMagnitude s h]
  cases s with
  | true => simp [Nat.mod_eq_of_lt h]
  | false => simp [Nat.mod_eq_of_lt h]

theorem magnitude_lt (x : BinaryFloat fmt) : x.magnitude < 2 ^ (fmt.width - 1) :=
  Nat.mod_lt _ (Nat.two_pow_pos _)

theorem ofMagnitude_eta (x : BinaryFloat fmt) : ofMagnitude x.negative x.magnitude = x := by
  have hbits : (ofMagnitude x.negative x.magnitude : BinaryFloat fmt).bits.toNat =
      x.bits.toNat := by
    have hlt : x.bits.toNat < 2 * 2 ^ (fmt.width - 1) := by
      rw [← Nat.pow_succ']
      exact x.bits.isLt
    rw [toNat_ofMagnitude _ x.magnitude_lt, magnitude, negative]
    by_cases h : 2 ^ (fmt.width - 1) ≤ x.bits.toNat
    · rw [Nat.mod_eq_sub_mod h, Nat.mod_eq_of_lt (by omega)]
      simp [h]
    · rw [Nat.mod_eq_of_lt (by omega)]
      simp [h]
  exact congrArg BinaryFloat.mk (BitVec.eq_of_toNat_eq hbits)

/-- A finite datum and what it denotes tell the same. -/
theorem value_eq_finite_iff {x : BinaryFloat fmt} :
    x.value = .finite s m p ↔ x.negative = s ∧ x.magnitude < fmt.infinityBits ∧
      fmt.Canonical m p ∧ x.magnitude = (p - fmt.leastScale).toNat * 2 ^ fmt.fractionBits + m := by
  have hpos : 0 < 2 ^ fmt.fractionBits := Nat.two_pow_pos _
  have hfraction := Nat.mod_lt x.magnitude hpos
  have hsplit := Nat.div_add_mod' x.magnitude (2 ^ fmt.fractionBits)
  have htwo : 2 ^ (fmt.fractionBits + 1) = 2 * 2 ^ fmt.fractionBits := Nat.pow_succ'
  constructor
  · intro h
    simp only [value] at h
    split at h
    · cases h
    · split at h
      · cases h
      · have hfinite : x.magnitude < fmt.infinityBits := by omega
        split at h
        · rename_i hexponent
          cases h
          rw [hexponent, Nat.zero_mul, Nat.zero_add] at hsplit
          exact ⟨rfl, hfinite, ⟨le_refl _, by omega, .inl rfl⟩, by simp [hsplit]⟩
        · rename_i hexponent
          obtain ⟨e, he⟩ := Nat.exists_eq_succ_of_ne_zero hexponent
          rw [he] at h hsplit
          cases h
          refine ⟨rfl, hfinite, ⟨by omega, by omega, .inr (by omega)⟩, ?_⟩
          have hscale :
              (fmt.leastScale + ((e + 1 : Nat) : Int) - 1 - fmt.leastScale).toNat = e := by
            omega
          rw [Nat.succ_mul] at hsplit
          rw [hscale]
          omega
  · rintro ⟨rfl, hfinite, ⟨hleast, hfits, hfull⟩, hmagnitude⟩
    have hnan : ¬fmt.infinityBits < x.magnitude := by omega
    have hinf : x.magnitude ≠ fmt.infinityBits := by omega
    simp only [value, hnan, hinf, ↓reduceIte]
    by_cases hm : 2 ^ fmt.fractionBits ≤ m
    · obtain ⟨r, rfl⟩ := Nat.exists_eq_add_of_le hm
      have hr : r < 2 ^ fmt.fractionBits := by omega
      have hmag : x.magnitude = r + ((p - fmt.leastScale).toNat + 1) * 2 ^ fmt.fractionBits := by
        rw [hmagnitude, Nat.add_mul]
        omega
      rw [hmag, Nat.add_mul_div_right _ _ hpos, Nat.add_mul_mod_self_right, Nat.div_eq_of_lt hr,
        Nat.mod_eq_of_lt hr, Nat.zero_add, if_neg (Nat.succ_ne_zero _)]
      congr 1
      omega
    · obtain rfl : p = fmt.leastScale := hfull.resolve_right hm
      have hmag : x.magnitude = m := by simpa using hmagnitude
      have hlt : m < 2 ^ fmt.fractionBits := by omega
      rw [hmag, Nat.div_eq_of_lt hlt, Nat.mod_eq_of_lt hlt, if_pos rfl]

/-- Every finite pattern is that of a datum. -/
theorem exists_value_eq_finite (s : Bool) (h : fmt.Canonical m p)
    (hfinite : (p - fmt.leastScale).toNat * 2 ^ fmt.fractionBits + m < fmt.infinityBits) :
    ∃ x : BinaryFloat fmt, x.value = .finite s m p := by
  have hlt := hfinite.trans fmt.infinityBits_lt
  have hmagnitude : (ofMagnitude s _ : BinaryFloat fmt).magnitude = _ := magnitude_ofMagnitude s hlt
  exact ⟨ofMagnitude s _, value_eq_finite_iff.2
    ⟨negative_ofMagnitude s hlt, hmagnitude.trans_lt hfinite, h, hmagnitude⟩⟩

/-- A number is moved so that it fills a width. -/
theorem mul_two_pow_bounds {j w : Nat} (hm : m ≠ 0) (hj : m.log2 + j = w) :
    2 ^ w ≤ m * 2 ^ j ∧ m * 2 ^ j < 2 ^ (w + 1) := by
  constructor
  · rw [← hj, Nat.pow_add]
    exact Nat.mul_le_mul_right _ (Nat.log2_self_le hm)
  · have hsplit : 2 ^ (w + 1) = 2 ^ (m.log2 + 1) * 2 ^ j := by
      rw [← Nat.pow_add, ← hj]
      congr 1
      omega
    rw [hsplit]
    exact Nat.mul_lt_mul_of_pos_right Nat.lt_log2_self (Nat.two_pow_pos _)

/-- A ratio that is the number of a datum is rounded to that datum. -/
theorem ofRatio_of_exact {x : BinaryFloat fmt} (hx : x.value = .finite s m p) (hd : 0 < den)
    (h : num * 2 ^ (-p).toNat = m * (den * 2 ^ p.toNat)) : ofRatio s num den = x := by
  obtain ⟨rfl, hfinite, ⟨hleast, hfits, hfull⟩, hmagnitude⟩ := value_eq_finite_iff.1 hx
  have hpos : 0 < den * 2 ^ p.toNat := Nat.mul_pos hd (Nat.two_pow_pos _)
  rw [ofRatio]
  split
  · rename_i hzero
    obtain rfl : m = 0 := by
      rw [hzero, Nat.zero_mul] at h
      exact (Nat.mul_eq_zero.1 h.symm).resolve_right hpos.ne'
    obtain rfl : p = fmt.leastScale :=
      hfull.resolve_right (Nat.not_le.2 (Nat.two_pow_pos _))
    have hmag : x.magnitude = 0 := by simpa using hmagnitude
    rw [← hmag, ofMagnitude_eta]
  · rename_i hnum
    have hm : m ≠ 0 := by
      rintro rfl
      rw [Nat.zero_mul] at h
      exact hnum ((Nat.mul_eq_zero.1 h).resolve_right (Nat.two_pow_pos _).ne')
    have hlog := floorLog2Ratio_of_exact (Nat.pos_of_ne_zero hm) hd h
    have hscale : max fmt.leastScale (floorLog2Ratio num den - fmt.fractionBits) = p := by
      have hle : m.log2 < fmt.fractionBits + 1 := (Nat.log2_lt hm).2 hfits
      rw [hlog]
      obtain rfl | hge := hfull
      · omega
      · have : fmt.fractionBits ≤ m.log2 := (Nat.le_log2 hm).2 hge
        omega
    simp only [hscale, h, roundRatio_mul m hpos, ← hmagnitude, Nat.min_eq_left hfinite.le,
      ofMagnitude_eta]

end BinaryFloat

end WatchExpr
