import WatchExpr.Binary.Arithmetic
import WatchExpr.Proofs.Binary.Exactness

/-!
# Widening

Every binary32 datum that is no signaling NaN is found again after it has been widened to binary64,
and widening keeps what a datum denotes.
-/

namespace WatchExpr.BinaryFloat

variable {fmt dst : BinaryFormat} {s : Bool}

/-! ## Data that are not finite -/

theorem value_eq_nan_iff {x : BinaryFloat fmt} :
    x.value = .nan ↔ fmt.infinityBits < x.magnitude := by
  simp only [value]
  split
  · simp [*]
  · split
    · simp [*]
    · split <;> simp [*]

theorem value_eq_infinite_iff {x : BinaryFloat fmt} :
    x.value = .infinite s ↔ x.magnitude = fmt.infinityBits ∧ x.negative = s := by
  simp only [value]
  split
  · simp only [reduceCtorEq, false_iff]
    omega
  · split
    · simp [*]
    · split <;> simp [*]

theorem infinity_eq_of_value {x : BinaryFloat fmt} (h : x.value = .infinite s) :
    infinity s = x := by
  obtain ⟨hmagnitude, rfl⟩ := value_eq_infinite_iff.1 h
  rw [infinity, ← hmagnitude, ofMagnitude_eta]

theorem value_infinity (s : Bool) : (infinity s : BinaryFloat fmt).value = .infinite s :=
  value_eq_infinite_iff.2
    ⟨magnitude_ofMagnitude s fmt.infinityBits_lt, negative_ofMagnitude s fmt.infinityBits_lt⟩

theorem isNaN_iff {x : BinaryFloat fmt} : x.isNaN = true ↔ x.value = .nan := by
  rw [value_eq_nan_iff, isNaN, decide_eq_true_iff]

theorem isZero_eq_false_of_nan {x : BinaryFloat fmt} (hx : x.value = .nan) : x.isZero = false := by
  have hmagnitude := value_eq_nan_iff.1 hx
  rw [isZero, decide_eq_false_iff_not]
  omega

theorem isZero_eq_false_of_infinite (hpos : 0 < fmt.infinityBits) {x : BinaryFloat fmt}
    (hx : x.value = .infinite s) : x.isZero = false := by
  have hmagnitude := (value_eq_infinite_iff.1 hx).1
  rw [isZero, decide_eq_false_iff_not]
  omega

theorem isZero_iff_of_finite {x : BinaryFloat fmt} {m : Nat} {p : Int}
    (hx : x.value = .finite s m p) : x.isZero = true ↔ m = 0 := by
  obtain ⟨-, -, ⟨-, -, hfull⟩, hmagnitude⟩ := value_eq_finite_iff.1 hx
  rw [isZero, decide_eq_true_iff, hmagnitude]
  constructor
  · exact fun h => (Nat.add_eq_zero_iff.1 h).2
  · rintro rfl
    obtain rfl := hfull.resolve_right (Nat.not_le.2 (Nat.two_pow_pos _))
    simp

/-- A NaN whose payload does not begin with the bit of the quiet ones. -/
def IsSignaling (x : BinaryFloat fmt) : Prop :=
  x.value = .nan ∧ x.magnitude % 2 ^ fmt.fractionBits < fmt.quietBit

theorem exists_ofRatio_eq (fmt : BinaryFormat) (s : Bool) (num den : Nat) :
    ∃ n, n < 2 ^ (fmt.width - 1) ∧ n ≤ fmt.infinityBits ∧
      (ofRatio s num den : BinaryFloat fmt) = ofMagnitude s n := by
  have hroom {n : Nat} (h : n ≤ fmt.infinityBits) : n < 2 ^ (fmt.width - 1) :=
    h.trans_lt fmt.infinityBits_lt
  rw [ofRatio]
  split
  · exact ⟨0, hroom (Nat.zero_le _), Nat.zero_le _, rfl⟩
  · exact ⟨_, hroom (Nat.min_le_right _ _), Nat.min_le_right _ _, rfl⟩

theorem negative_ofRatio (s : Bool) (num den : Nat) :
    (ofRatio s num den : BinaryFloat fmt).negative = s := by
  obtain ⟨n, hroom, -, heq⟩ := exists_ofRatio_eq fmt s num den
  rw [heq, negative_ofMagnitude s hroom]

/-- Rounding a ratio yields a number or an infinity. -/
theorem isNaN_ofRatio (s : Bool) (num den : Nat) :
    (ofRatio s num den : BinaryFloat fmt).isNaN = false := by
  obtain ⟨n, hroom, hle, heq⟩ := exists_ofRatio_eq fmt s num den
  rw [heq, isNaN, magnitude_ofMagnitude s hroom, decide_eq_false_iff_not]
  omega

theorem IsSignaling.isNaN {x : BinaryFloat fmt} (h : x.IsSignaling) : x.isNaN = true :=
  isNaN_iff.2 h.1

theorem not_isSignaling_ofRatio (s : Bool) (num den : Nat) :
    ¬(ofRatio s num den : BinaryFloat fmt).IsSignaling := by
  intro h
  have hnan := h.isNaN
  rw [isNaN_ofRatio] at hnan
  cases hnan

/-! ## NaN -/

theorem infinityBits_add_mod {n : Nat} (h : n < 2 ^ fmt.fractionBits) :
    (fmt.infinityBits + n) % 2 ^ fmt.fractionBits = n := by
  rw [BinaryFormat.infinityBits, Nat.mul_add_mod_self_right, Nat.mod_eq_of_lt h]

theorem magnitude_of_nan {x : BinaryFloat fmt} (h : x.value = .nan) :
    x.magnitude = fmt.infinityBits + x.magnitude % 2 ^ fmt.fractionBits := by
  have hhigh : x.magnitude < (fmt.topExponent + 1) * 2 ^ fmt.fractionBits := by
    rw [← fmt.two_pow_pred_width]
    exact x.magnitude_lt
  have hexponent : x.magnitude / 2 ^ fmt.fractionBits = fmt.topExponent :=
    Nat.div_eq_of_lt_le (value_eq_nan_iff.1 h).le hhigh
  rw [BinaryFormat.infinityBits, ← hexponent, Nat.div_add_mod']

/-- Another format keeps the leading bits of the payload of a NaN, and makes it quiet. -/
theorem convert_of_nan (hne : fmt ≠ dst) {x : BinaryFloat fmt} (hx : x.value = .nan) :
    (x.convert : BinaryFloat dst) =
      let moved := x.magnitude % 2 ^ fmt.fractionBits * 2 ^ dst.fractionBits / 2 ^ fmt.fractionBits
      ofMagnitude x.negative
        (dst.infinityBits + (if moved / dst.quietBit = 1 then moved else moved + dst.quietBit)) := by
  simp only [convert, hne, ↓reduceDIte, hx]

theorem narrower : BinaryFormat.double ≠ BinaryFormat.single := by decide

theorem narrowed_payload {payload : Nat} (h : payload < 2 ^ 52) :
    let moved := payload * 2 ^ 23 / 2 ^ 52
    let r := if moved / 2 ^ 22 = 1 then moved else moved + 2 ^ 22
    2 ^ 22 ≤ r ∧ r < 2 ^ 23 ∧ (2 ^ 51 ≤ payload → r = payload / 2 ^ 29) := by
  intro moved r
  simp only [r, moved]
  split <;> omega

theorem widened_payload {payload : Nat} (h : payload < 2 ^ 23) (hquiet : 2 ^ 22 ≤ payload) :
    let moved := payload * 2 ^ 52 / 2 ^ 23
    (if moved / 2 ^ 51 = 1 then moved else moved + 2 ^ 51) = payload * 2 ^ 29 := by
  intro moved
  simp only [moved]
  split <;> omega

/-- The payload of a narrowed NaN: it is that of a quiet NaN. -/
theorem narrowed_nan {x : Binary64} (hx : x.value = .nan) : ∃ r,
    (x.convert : Binary32) = ofMagnitude x.negative (BinaryFormat.single.infinityBits + r) ∧
      2 ^ 22 ≤ r ∧ r < 2 ^ 23 ∧
      (2 ^ 51 ≤ x.magnitude % 2 ^ 52 → r = x.magnitude % 2 ^ 52 / 2 ^ 29) := by
  have hlt : x.magnitude % 2 ^ 52 < 2 ^ 52 := Nat.mod_lt _ (Nat.two_pow_pos _)
  exact ⟨_, convert_of_nan narrower hx, narrowed_payload hlt⟩

/-- Narrowing yields no signaling NaN. -/
theorem not_isSignaling_convert (x : Binary64) : ¬(x.convert : Binary32).IsSignaling := by
  cases hx : x.value with
  | nan =>
      rintro ⟨-, hquiet⟩
      obtain ⟨r, hr, hlow, hhigh, -⟩ := narrowed_nan hx
      rw [hr, magnitude_ofMagnitude _ (BinaryFormat.infinityBits_add_lt hhigh),
        @infinityBits_add_mod .single _ hhigh] at hquiet
      exact absurd hquiet (Nat.not_lt.2 hlow)
  | infinite s =>
      rintro ⟨hnan, -⟩
      simp only [convert, narrower, ↓reduceDIte, hx, value_infinity, reduceCtorEq] at hnan
  | finite s m p =>
      simp only [convert, narrower, ↓reduceDIte, hx, ofScaled]
      exact not_isSignaling_ofRatio _ _ _

/-! ## Finite data -/

/-- Two data of different formats that denote the same number are converted to each other. -/
theorem convert_of_finite (hne : fmt ≠ dst) {x : BinaryFloat fmt} {y : BinaryFloat dst} {m n : Nat}
    {p q : Int} (hx : x.value = .finite s m p) (hy : y.value = .finite s n q)
    (h : m * 2 ^ p.toNat * 2 ^ (-q).toNat = n * 2 ^ q.toNat * 2 ^ (-p).toNat) : x.convert = y := by
  simp only [convert, hne, ↓reduceDIte, hx, ofScaled]
  refine ofRatio_of_exact hy (Nat.two_pow_pos _) (h.trans ?_)
  rw [Nat.mul_assoc, Nat.mul_comm (2 ^ q.toNat)]

/-- A finite binary32 datum has its number in binary64 as well: the significand is moved to the
greater width. -/
theorem exists_double_of_finite {x : Binary32} {m : Nat} {p : Int}
    (hx : x.value = .finite s m p) : ∃ (y : Binary64) (n : Nat) (q : Int),
      y.value = .finite s n q ∧
        m * 2 ^ p.toNat * 2 ^ (-q).toNat = n * 2 ^ q.toNat * 2 ^ (-p).toNat := by
  obtain ⟨rfl, hfinite, ⟨hleast, hfits, -⟩, hmagnitude⟩ := value_eq_finite_iff.1 hx
  have hle : p ≤ 105 := by
    simp only [BinaryFormat.infinityBits, BinaryFormat.topExponent, BinaryFormat.single,
      BinaryFormat.leastScale] at hfinite hmagnitude
    omega
  have hpattern {n : Nat} {q : Int} (hcanonical : BinaryFormat.double.Canonical n q)
      (hq : q ≤ 105) : ∃ y : Binary64, y.value = .finite x.negative n q := by
    obtain ⟨hlow, hhigh, -⟩ := id hcanonical
    refine exists_value_eq_finite x.negative hcanonical ?_
    simp only [BinaryFormat.infinityBits, BinaryFormat.topExponent, BinaryFormat.double,
      BinaryFormat.leastScale] at hhigh ⊢
    omega
  by_cases hm : m = 0
  · obtain ⟨y, hy⟩ := hpattern (n := 0) (q := BinaryFormat.double.leastScale)
      ⟨le_refl _, by decide, .inl rfl⟩ (by decide)
    exact ⟨y, _, _, hy, by simp [hm]⟩
  · have hlog : m.log2 < 24 := (Nat.log2_lt hm).2 hfits
    obtain ⟨j, hj⟩ : ∃ j, m.log2 + j = 52 := ⟨52 - m.log2, by omega⟩
    obtain ⟨hlow, hhigh⟩ := mul_two_pow_bounds hm hj
    have hleast' : BinaryFormat.double.leastScale ≤ p - j := by
      simp only [BinaryFormat.leastScale, BinaryFormat.single, BinaryFormat.double] at hleast ⊢
      omega
    obtain ⟨y, hy⟩ := hpattern ⟨hleast', hhigh, .inr hlow⟩ (by omega)
    refine ⟨y, _, _, hy, ?_⟩
    simp only [Nat.mul_assoc, ← Nat.pow_add]
    congr 2
    omega

/-- A quiet NaN keeps its payload when it is widened. -/
theorem widened_nan {x : Binary32} (hx : x.value = .nan) (h : 2 ^ 22 ≤ x.magnitude % 2 ^ 23) :
    (x.convert : Binary64) = ofMagnitude x.negative
      (BinaryFormat.double.infinityBits + x.magnitude % 2 ^ 23 * 2 ^ 29) := by
  have hlt : x.magnitude % 2 ^ 23 < 2 ^ 23 := Nat.mod_lt _ (Nat.two_pow_pos _)
  exact (convert_of_nan narrower.symm hx).trans
    (congrArg (fun r => ofMagnitude x.negative (BinaryFormat.double.infinityBits + r))
      (widened_payload hlt h))

theorem widened_payload_bounds {payload : Nat} (h : payload < 2 ^ 23) :
    let moved := payload * 2 ^ 52 / 2 ^ 23
    let r := if moved / 2 ^ 51 = 1 then moved else moved + 2 ^ 51
    0 < r ∧ r < 2 ^ 52 := by
  intro moved r
  simp only [r, moved]
  split <;> omega

theorem value_widened_nan {x : Binary32} (hx : x.value = .nan) :
    (x.convert : Binary64).value = .nan := by
  have hlt : x.magnitude % 2 ^ 23 < 2 ^ 23 := Nat.mod_lt _ (Nat.two_pow_pos _)
  obtain ⟨hpos, hroom⟩ := widened_payload_bounds hlt
  rw [convert_of_nan narrower.symm hx, value_eq_nan_iff,
    magnitude_ofMagnitude _ (BinaryFormat.infinityBits_add_lt hroom)]
  exact Nat.lt_add_of_pos_right hpos

/-- What a datum denotes stays when it is widened: a NaN, an infinity, or a number. -/
theorem widened_cases (x : Binary32) :
    (x.value = .nan ∧ (x.convert : Binary64).value = .nan) ∨
    (∃ s, x.value = .infinite s ∧ (x.convert : Binary64).value = .infinite s) ∨
    ∃ s m p n q, x.value = .finite s m p ∧ (x.convert : Binary64).value = .finite s n q ∧
      m * 2 ^ p.toNat * 2 ^ (-q).toNat = n * 2 ^ q.toNat * 2 ^ (-p).toNat := by
  cases hx : x.value with
  | nan => exact .inl ⟨rfl, value_widened_nan hx⟩
  | infinite s =>
      have hwide : (x.convert : Binary64) = infinity s := by
        simp only [convert, narrower.symm, ↓reduceDIte, hx]
      exact .inr (.inl ⟨s, rfl, hwide ▸ value_infinity s⟩)
  | finite s m p =>
      obtain ⟨y, n, q, hy, heq⟩ := exists_double_of_finite hx
      have hwide : (x.convert : Binary64) = y := convert_of_finite narrower.symm hx hy heq
      exact .inr (.inr ⟨s, m, p, n, q, rfl, hwide ▸ hy, heq⟩)

theorem isNaN_widened (x : Binary32) : (x.convert : Binary64).isNaN = x.isNaN := by
  rw [Bool.eq_iff_iff, isNaN_iff, isNaN_iff]
  obtain ⟨hx, hy⟩ | ⟨s, hx, hy⟩ | ⟨s, m, p, n, q, hx, hy, -⟩ := widened_cases x <;> simp [hx, hy]

theorem negative_widened {x : Binary32} (hx : x.isNaN = false) :
    (x.convert : Binary64).negative = x.negative := by
  obtain ⟨hnan, -⟩ | ⟨s, hx, hy⟩ | ⟨s, m, p, n, q, hx, hy, -⟩ := widened_cases x
  · rw [isNaN_iff.2 hnan] at hx
    cases hx
  · rw [(value_eq_infinite_iff.1 hx).2, (value_eq_infinite_iff.1 hy).2]
  · rw [(value_eq_finite_iff.1 hx).1, (value_eq_finite_iff.1 hy).1]

theorem isZero_widened (x : Binary32) : (x.convert : Binary64).isZero = x.isZero := by
  obtain ⟨hx, hy⟩ | ⟨s, hx, hy⟩ | ⟨s, m, p, n, q, hx, hy, heq⟩ := widened_cases x
  · rw [isZero_eq_false_of_nan hx, isZero_eq_false_of_nan hy]
  · rw [isZero_eq_false_of_infinite (by decide) hx, isZero_eq_false_of_infinite (by decide) hy]
  · have hzero : n = 0 ↔ m = 0 := by
      constructor
      · rintro rfl
        simpa using heq
      · rintro rfl
        simpa using heq.symm
    rw [Bool.eq_iff_iff, isZero_iff_of_finite hx, isZero_iff_of_finite hy, hzero]

/-- Widening loses nothing, and narrowing finds the datum again. -/
theorem convert_widened {x : Binary32} (h : ¬x.IsSignaling) :
    ((x.convert : Binary64).convert : Binary32) = x := by
  cases hx : x.value with
  | nan =>
      have hquiet : 2 ^ 22 ≤ x.magnitude % 2 ^ 23 := by
        by_contra hlt
        exact h ⟨hx, Nat.not_le.1 hlt⟩
      have hlt : x.magnitude % 2 ^ 23 < 2 ^ 23 := Nat.mod_lt _ (Nat.two_pow_pos _)
      have hpayload : x.magnitude % 2 ^ 23 * 2 ^ 29 < 2 ^ BinaryFormat.double.fractionBits := by
        simp only [BinaryFormat.double]
        omega
      rw [widened_nan hx hquiet]
      have hnan : (ofMagnitude x.negative
          (BinaryFormat.double.infinityBits + x.magnitude % 2 ^ 23 * 2 ^ 29) : Binary64).value =
          .nan := by
        rw [value_eq_nan_iff, magnitude_ofMagnitude _ (BinaryFormat.infinityBits_add_lt hpayload)]
        omega
      obtain ⟨r, hr, -, -, hsame⟩ := narrowed_nan hnan
      have hmod : (BinaryFormat.double.infinityBits + x.magnitude % 2 ^ 23 * 2 ^ 29) % 2 ^ 52 =
          x.magnitude % 2 ^ 23 * 2 ^ 29 := @infinityBits_add_mod .double _ hpayload
      rw [magnitude_ofMagnitude _ (BinaryFormat.infinityBits_add_lt hpayload), hmod] at hsame
      have hpayload' : r = x.magnitude % 2 ^ 23 := by
        rw [hsame (by omega)]
        omega
      rw [hr, negative_ofMagnitude _ (BinaryFormat.infinityBits_add_lt hpayload), hpayload']
      exact (congrArg (ofMagnitude x.negative) (magnitude_of_nan hx).symm).trans x.ofMagnitude_eta
  | infinite s =>
      have hwide : (x.convert : Binary64) = infinity s := by
        simp only [convert, narrower.symm, ↓reduceDIte, hx]
      have hback : ((infinity s : Binary64).convert : Binary32) = infinity s := by
        simp only [convert, narrower, ↓reduceDIte, value_infinity]
      rw [hwide, hback, infinity_eq_of_value hx]
  | finite s m p =>
      obtain ⟨y, n, q, hy, heq⟩ := exists_double_of_finite hx
      rw [convert_of_finite narrower.symm hx hy heq, convert_of_finite narrower hy hx heq.symm]

end WatchExpr.BinaryFloat
