import WatchExpr.Eval.Basic
import WatchExpr.Proofs.Grammar.Recognition
import WatchExpr.Proofs.Lexing.Decimals
import WatchExpr.Proofs.Printing.Phrases
import Mathlib.Algebra.Order.Ring.Int

/-!
# Decimal texts of integers

The decimal text of an integer is read as a constant, negated if need be. The type of the constant
grows with the magnitude, and as long as the negated magnitude is in its range the value is the integer.
-/

namespace WatchExpr

open Text

/-! ## The type of a constant without suffix -/

namespace Literal

variable {n : Nat}

/-- The type of a decimal constant without suffix. -/
def decimalKind (n : Nat) : IntegralKind :=
  kindFor ⟨false, 0⟩ true n

theorem decimalKind_cases (n : Nat) :
    n < 2 ^ 31 ∧ decimalKind n = .int ∨ 2 ^ 31 ≤ n ∧ n < 2 ^ 63 ∧ decimalKind n = .long ∨
      2 ^ 63 ≤ n ∧ decimalKind n = .unsignedLongLong := by
  have hcandidates : candidates ⟨false, 0⟩ true = [.int, .long, .longLong] := by decide
  have hint : IntegralKind.greatest .int = 2 ^ 31 - 1 := by decide
  have hlong : IntegralKind.greatest .long = 2 ^ 63 - 1 := by decide
  have hlongLong : IntegralKind.greatest .longLong = 2 ^ 63 - 1 := by decide
  simp only [decimalKind, kindFor, hcandidates, List.find?_cons, hint, hlong, hlongLong]
  by_cases hn : n < 2 ^ 31
  · exact .inl ⟨hn, by rw [decide_eq_true (by omega)]; rfl⟩
  · by_cases hn' : n < 2 ^ 63
    · refine .inr (.inl ⟨by omega, hn', ?_⟩)
      rw [decide_eq_false (by omega), decide_eq_true (by omega)]
      rfl
    · refine .inr (.inr ⟨by omega, ?_⟩)
      rw [decide_eq_false (by omega), decide_eq_false (by omega)]
      rfl

theorem promote_decimalKind (n : Nat) : (decimalKind n).promote = decimalKind n := by
  rcases decimalKind_cases n with ⟨-, h⟩ | ⟨-, -, h⟩ | ⟨-, h⟩ <;> rw [h] <;> rfl

/-- The negated magnitude is in the range of every signed type that the magnitude is in. -/
theorem decimalKind_contains_neg (hn : n < 2 ^ 63) : (decimalKind n).Contains (-n) := by
  rcases decimalKind_cases n with ⟨hlt, h⟩ | ⟨-, hlt, h⟩ | ⟨hle, -⟩
  · rw [h, IntegralKind.contains_iff_of_isSigned rfl]
    simp only [IntegralKind.width, IntegralKind.size]
    omega
  · rw [h, IntegralKind.contains_iff_of_isSigned rfl]
    simp only [IntegralKind.width, IntegralKind.size]
    omega
  · omega

end Literal

/-! ## The expression -/

namespace Expr

open Grammar

variable {types : TypeNames} {e : Expr} {m : Nat}

/-- The constant that the decimal digits of a number are. -/
def digits (m : Nat) : Expr :=
  number (.ofInt (.integral (Literal.decimalKind m)) m) (String.ofList (decimal m))

/-- The expression that the decimal text of an integer is. -/
def signedDigits (n : Int) : Expr :=
  if n < 0 then .unary .neg (digits n.natAbs) else digits n.natAbs

theorem print_digits (m : Nat) : (digits m).print = decimal m :=
  String.toList_ofList

/-- The decimal text of an integer, a minus sign in front of its magnitude if it is negative. -/
theorem toString_eq_signedDecimal (n : Int) : toString n = String.ofList (signedDecimal n) := by
  cases n with
  | ofNat m => rfl
  | negSucc m =>
      have hneg : signedDecimal (.negSucc m) = "-".toList ++ decimal (m + 1) :=
        if_pos (Int.negSucc_lt_zero m)
      rw [hneg, String.ofList_append, String.ofList_toList]
      rfl

/-- No digit is taken for a second minus sign. -/
theorem inFrontOf_decimal (m : Nat) : UnaryOp.neg.inFrontOf (decimal m) = '-' :: decimal m := by
  have hhead : ['-'].isPrefixOf (decimal m) = false := by
    cases hm : decimal m with
    | nil => rfl
    | cons c cs =>
        have hc : c.isDigit := isDigit_of_mem_decimal (n := m) (by rw [hm]; simp)
        have hne : c ≠ '-' := by
          rintro rfl
          cases hc
        simp [List.isPrefixOf, hne.symm]
  rw [UnaryOp.inFrontOf, show UnaryOp.neg.chars = ['-'] from rfl, hhead]
  rfl

theorem text_signedDigits (n : Int) : (signedDigits n).text = toString n := by
  rw [toString_eq_signedDecimal, signedDigits, signedDecimal, text]
  split
  · rw [print_unary, ← inFrontOf_decimal, ← print_digits]
    rfl
  · rw [print_digits]

/-! ## Reading -/

theorem read_spelling_digits (hm : m < UInt64.size) :
    Literal.read (String.ofList (decimal m)) =
      .ok (.ofInt (.integral (Literal.decimalKind m)) m) :=
  Literal.read_decimal hm

theorem lexemes_spelling_digits (m : Nat) :
    Tokens.lexemes (String.ofList (decimal m)).toList =
      [⟨.number, (String.ofList (decimal m)).toList⟩] := by
  have hlexemes : Tokens.lexemes (decimal m ++ []) = ⟨.number, decimal m⟩ :: Tokens.lexemes [] :=
    Tokens.lexemes_decimal m fun d hd => by cases hd
  rwa [List.append_nil, Tokens.lexemes_nil, ← String.toList_ofList (l := decimal m)] at hlexemes

/-- The text of an integer is cut into the sign and the digits. -/
theorem signedDigits_isCut {n : Int} (hn : n.natAbs < UInt64.size) : (signedDigits n).IsCut := by
  have hblank := noBlank_head (read_spelling_digits hn)
  have hlexemes := lexemes_spelling_digits n.natAbs
  have hdigits : (digits n.natAbs).IsCut := number_isCut hlexemes hblank
  unfold signedDigits
  split
  · exact unary_isCut .neg (startsOperand_of_number hlexemes hblank) hdigits
  · exact hdigits

theorem signedDigits_isPhrase {n : Int} (hn : n.natAbs < UInt64.size) :
    IsPhrase false types (signedDigits n) := by
  have hdigits : IsPhrase false types (digits n.natAbs) := number_isPhrase (read_spelling_digits hn)
  unfold signedDigits
  split
  · exact unary_isPhrase .neg hdigits
  · exact hdigits

theorem read_signedDigits {n : Int} (hn : n.natAbs < UInt64.size) :
    read types (toString n) = .ok (signedDigits n) := by
  have hsigned : IsPhrase false types (signedDigits n) := signedDigits_isPhrase hn
  have hphrase := hsigned _ (signedDigits_isCut hn).lex_text
  rw [← text_signedDigits]
  exact read_eq_ok_iff.2
    ⟨[], wholeExpression_complete (printed_told _) hphrase.angles hphrase.derives.toExpression⟩

/-- A magnitude that only a `long` can hold is that of an `int` if it is negated. -/
theorem signedDigits_eq_ofInt {n : Int} (hn : n.natAbs ≤ 2 ^ 31) : signedDigits n = ofInt n := by
  have hint : IntegralKind.greatest .int = 2 ^ 31 - 1 := by decide
  have hkind : Literal.decimalKind n.natAbs =
      if IntegralKind.greatest .int < n.natAbs then .long else .int := by
    rw [hint]
    rcases Literal.decimalKind_cases n.natAbs with ⟨hlt, h⟩ | ⟨hle, -, h⟩ | ⟨hle, -⟩
    · rw [h, if_neg (by omega)]
    · rw [h, if_pos (by omega)]
    · omega
  rw [signedDigits, ofInt, digits, hkind]

/-! ## Evaluation -/

/-- The negation of a constant, which is of a promoted type. -/
theorem eval_neg_digits (target : Target) (hm : m < UInt64.size) :
    (unary .neg (digits m)).eval target =
      .ok (.scalar (.ofInt (.integral (Literal.decimalKind m)) (-m))) := by
  have hunary : (unary .neg (digits m)).eval target =
      .ok (.scalar (.ofInt (.integral (Literal.decimalKind m).promote)
        (-(Literal.decimalKind m).promote.wrap ((Literal.decimalKind m).wrap m)))) := rfl
  have hcontains : (Literal.decimalKind m).Contains m := Literal.contains_kindFor hm ⟨false, 0⟩ true
  have hwrap := IntegralKind.wrap_eq_of_contains hcontains
  rw [hunary, Literal.promote_decimalKind, hwrap, hwrap]

theorem eval_signedDigits (target : Target) {n : Int} (hn : n.natAbs < UInt64.size) :
    (signedDigits n).eval target =
      .ok (.scalar (.ofInt (.integral (Literal.decimalKind n.natAbs)) n)) := by
  unfold signedDigits
  split
  · rename_i hneg
    rw [eval_neg_digits target hn, Int.ofNat_natAbs_of_nonpos (Int.le_of_lt hneg), Int.neg_neg]
  · rename_i hnonneg
    have hdigits : (digits n.natAbs).eval target =
        .ok (.scalar (.ofInt (.integral (Literal.decimalKind n.natAbs)) n.natAbs)) := rfl
    rw [hdigits, Int.natAbs_of_nonneg (Int.not_lt.1 hnonneg)]

/-- The integer is in the range of the constant, unless its magnitude is too large to be negated. -/
theorem decimalKind_contains {n : Int} (hleast : -(2 ^ 63 - 1) ≤ n) (hgreatest : n ≤ 2 ^ 64 - 1) :
    (Literal.decimalKind n.natAbs).Contains n := by
  have hsize : UInt64.size = 2 ^ 64 := rfl
  by_cases hneg : n < 0
  · have hcontains := Literal.decimalKind_contains_neg (n := n.natAbs) (by omega)
    rwa [Int.ofNat_natAbs_of_nonpos (Int.le_of_lt hneg), Int.neg_neg] at hcontains
  · have hcontains := Literal.contains_kindFor (n := n.natAbs) (by omega) ⟨false, 0⟩ true
    rwa [Int.natAbs_of_nonneg (Int.not_lt.1 hneg)] at hcontains

/-- The decimal text of an integer denotes it: where the magnitude of the integer fits into 64 bits and
can be negated, evaluating the text yields an integral value that is the integer. The text of an `int`
is read as the constant of that `int`, which has the same text. -/
theorem decimal_text_denotes (target : Target) :
    (∀ n : Int, -(2 ^ 63 - 1) ≤ n → n ≤ 2 ^ 64 - 1 →
      ∃ k, k.Contains n ∧ evaluate target (toString n) = some (.ok (.scalar (.integral k n)))) ∧
    ∀ n : Int32, read target.types (toString n.toInt) = .ok (ofInt n.toInt) ∧
      (ofInt n.toInt).text = toString n.toInt := by
  have hsize : UInt64.size = 2 ^ 64 := rfl
  refine ⟨fun n hleast hgreatest => ?_, fun n => ?_⟩
  · have hn : n.natAbs < UInt64.size := by omega
    have hcontains := decimalKind_contains hleast hgreatest
    refine ⟨_, hcontains, ?_⟩
    rw [evaluate, read_signedDigits hn]
    dsimp only
    rw [eval_signedDigits target hn, Scalar.ofInt, IntegralKind.wrap_eq_of_contains hcontains]
  · have hleast := n.le_toInt
    have hgreatest := n.toInt_lt
    have hint := signedDigits_eq_ofInt (n := n.toInt) (by omega)
    rw [← hint]
    exact ⟨read_signedDigits (by omega), text_signedDigits _⟩

/-- The least number whose magnitude a signed type can hold. -/
theorem decimal_text_denotes_least :
    let target : Target := ⟨fun _ => none, fun _ => none, fun _ _ => none, fun _ _ => none⟩
    let n : Int := -9223372036854775807
    toString n = "-9223372036854775807" ∧ -(2 ^ 63 - 1) ≤ n ∧ n ≤ 2 ^ 64 - 1 ∧
      ∃ k, k.Contains n ∧ evaluate target "-9223372036854775807" =
        some (.ok (.scalar (.integral k n))) := by
  intro target n
  have htext : toString n = "-9223372036854775807" := by decide +kernel
  have hleast : -(2 ^ 63 - 1) ≤ n := by decide
  have hgreatest : n ≤ 2 ^ 64 - 1 := by decide
  have hvalue := (decimal_text_denotes target).1 n hleast hgreatest
  rw [htext] at hvalue
  exact ⟨htext, hleast, hgreatest, hvalue⟩

end Expr

end WatchExpr
