import WatchExpr.Grammar.TypeIds
import WatchExpr.Proofs.Lexing.Constants
import WatchExpr.Proofs.Values.Ranges
import Mathlib.Data.List.TakeWhile

/-!
# Decimal numbers

The decimal digits of a number are one lexeme, and as a constant they have its value.
-/

namespace WatchExpr

open Text

namespace Text

variable {c : Char} {n : Nat}

theorem isDigit_of_mem_decimal (h : c ∈ decimal n) : c.isDigit :=
  Nat.isDigit_of_mem_toDigits (by decide) (by decide) h

theorem decimal_ne_nil (n : Nat) : decimal n ≠ [] :=
  Nat.toDigits_ne_nil

/-- No number but zero has a leading zero. -/
theorem eq_zero_of_head?_decimal (h : (decimal n).head? = some '0') : n = 0 := by
  induction n using Nat.strongRecOn with
  | ind n ih =>
      by_cases hn : n < 10
      · have hsmall : ∀ n < 10, (decimal n).head? = some '0' → n = 0 := by decide
        exact hsmall n hn h
      · have hsplit : decimal n = decimal (n / 10) ++ [(n % 10).digitChar] :=
          Nat.toDigits_of_base_le (by decide) (Nat.not_lt.1 hn)
        have hhead := List.head?_eq_some_head (decimal_ne_nil (n / 10))
        rw [hsplit, List.head?_append, hhead, Option.some_or, ← hhead] at h
        have hzero := ih (n / 10) (Nat.div_lt_self (by omega) (by decide)) h
        omega

theorem digitValue_of_isDigit (h : c.isDigit) : digitValue c = c.toNat - '0'.toNat := by
  rw [digitValue, if_pos h]

theorem isDigitIn_ten_of_isDigit (h : c.isDigit) : isDigitIn 10 c := by
  have hrange : 48 ≤ c.toNat ∧ c.toNat ≤ 57 := Char.isDigit_iff_toNat.1 h
  have hzero : '0'.toNat = 48 := rfl
  rw [isDigitIn, digitValue_of_isDigit h, hzero]
  exact decide_eq_true (by omega)

theorem numeralValue_decimal (n : Nat) : numeralValue 10 (decimal n) = n := by
  have hfold {cs : List Char} (hcs : ∀ c ∈ cs, c.isDigit) (start : Nat) :
      cs.foldl (fun n c => n * 10 + digitValue c) start = Nat.ofDigitChars 10 cs start := by
    rw [Nat.ofDigitChars_eq_foldl]
    induction cs generalizing start with
    | nil => rfl
    | cons c cs ih =>
        obtain ⟨hc, hcs⟩ := List.forall_mem_cons.1 hcs
        rw [List.foldl_cons, List.foldl_cons, ih hcs, digitValue_of_isDigit hc, Nat.mul_comm]
  rw [numeralValue, hfold fun c hc => isDigit_of_mem_decimal hc]
  exact Nat.ofDigitChars_ten_toDigits

end Text

namespace Literal

variable {n : Nat}

theorem splitBase_decimal (n : Nat) : splitBase (decimal n) = (10, decimal n) := by
  have hzero : (decimal n).head? = some '0' → decimal n = ['0'] := fun h => by
    rw [eq_zero_of_head?_decimal h]
    rfl
  unfold splitBase
  split
  all_goals first | rfl | (rename_i h; cases h.symm.trans (hzero (by rw [h]; rfl)))

theorem contains_kindFor (hn : n < UInt64.size) (suffix : Suffix) (isDecimal : Bool) :
    (kindFor suffix isDecimal n).Contains n := by
  have hleast (k : IntegralKind) : k.least ≤ n := by
    have hk : k.least ≤ 0 := by cases k <;> decide
    omega
  refine ⟨hleast _, ?_⟩
  unfold kindFor
  cases hfind : (candidates suffix isDecimal).find? fun k => (n : Int) ≤ k.greatest with
  | none =>
      have hgreatest : IntegralKind.unsignedLongLong.greatest = 2 ^ 64 - 1 := by decide
      rw [Option.getD_none, hgreatest]
      have : UInt64.size = 2 ^ 64 := rfl
      omega
  | some k =>
      have hk := List.find?_some hfind
      exact of_decide_eq_true hk

theorem not_isLetter_of_isDigit {c : Char} (h : c.isDigit) :
    (decide (c = '.') || isLetter 'e' c) = false := by
  have hrange : 48 ≤ c.toNat ∧ c.toNat ≤ 57 := Char.isDigit_iff_toNat.1 h
  have hall : ∀ k < 58, 48 ≤ k →
      (decide (Char.ofNat k = '.') || isLetter 'e' (Char.ofNat k)) = false := by decide
  have hc := hall c.toNat (Nat.lt_succ_of_le hrange.2) hrange.1
  rwa [Char.ofNat_toNat] at hc

theorem readInteger_decimal (hn : n < UInt64.size) :
    readInteger (decimal n) = .ok (.ofInt (.integral (kindFor ⟨false, 0⟩ true n)) n) := by
  have hdigits : ∀ c ∈ decimal n, isDigitIn 10 c :=
    fun c hc => isDigitIn_ten_of_isDigit (isDigit_of_mem_decimal hc)
  have htake : (decimal n).takeWhile (isDigitIn 10) = decimal n :=
    List.takeWhile_eq_self_iff.2 hdigits
  have hdrop : (decimal n).dropWhile (isDigitIn 10) = [] := List.dropWhile_eq_nil_iff.2 hdigits
  have hsuffix : suffix? [] = some ⟨false, 0⟩ := rfl
  simp [readInteger, splitBase_decimal, htake, hdrop, numeralValue_decimal, hsuffix,
    decimal_ne_nil, Nat.not_le.2 hn]

/-- The decimal digits of a number are a constant of its value. -/
theorem read_decimal (hn : n < UInt64.size) :
    Literal.read (String.ofList (decimal n)) =
      .ok (.ofInt (.integral (kindFor ⟨false, 0⟩ true n)) n) := by
  have hfloating : (decimal n).any (fun c => c = '.' || isLetter 'e' c) = false :=
    List.any_eq_false.2 fun c hc =>
      Bool.eq_false_iff.1 (not_isLetter_of_isDigit (isDigit_of_mem_decimal hc))
  simp [Literal.read, splitBase_decimal, hfloating, readInteger_decimal hn]

end Literal

open Lexeme

namespace Grammar

/-- The decimal digits of a 64-bit number are an array bound of its value. -/
theorem boundOf?_decimal (n : UInt64) : boundOf? (String.ofList (decimal n.toNat)) = some n := by
  have hn : n.toNat < UInt64.size := n.toNat_lt
  have hwrap := IntegralKind.wrap_eq_of_contains (Literal.contains_kindFor hn ⟨false, 0⟩ true)
  rw [boundOf?, Literal.read_decimal hn, Scalar.ofInt, hwrap]
  refine congrArg some (UInt64.toBitVec_inj.1 ?_)
  exact (BitVec.ofInt_natCast 64 n.toNat).trans (BitVec.ofNat_toNat ..)

end Grammar

namespace Tokens

variable {rest : List Char}

theorem splitNumber_of_isDigit {cs : List Char} (hcs : ∀ d ∈ cs, d.isDigit) (previous : Char) :
    splitNumber previous cs = (cs, []) := by
  induction cs generalizing previous with
  | nil => rfl
  | cons c cs ih =>
      obtain ⟨hc, hcs⟩ := List.forall_mem_cons.1 hcs
      have hcontinues : continuesNumber previous c := by
        simp [continuesNumber, Char.isAlphanum, hc]
      rw [splitNumber, if_pos hcontinues, ih hcs]

theorem lexemes_decimal (n : Nat) (hrest : ∀ d ∈ rest.head?, EndsNumber d) :
    lexemes (decimal n ++ rest) = ⟨.number, decimal n⟩ :: lexemes rest := by
  cases hdecimal : decimal n with
  | nil => exact absurd hdecimal (decimal_ne_nil n)
  | cons c cs =>
      have hdigits : ∀ d ∈ c :: cs, d.isDigit := fun d hd =>
        isDigit_of_mem_decimal (hdecimal ▸ hd)
      obtain ⟨hc, hcs⟩ := List.forall_mem_cons.1 hdigits
      have hword : ¬startsWord c := fun hword => by simp [isDigit_of_startsWord hword] at hc
      have hnumber : startsNumber c (cs ++ rest) := by simp [startsNumber, hc]
      have hsplit : split c (cs ++ rest) = (⟨.number, c :: cs⟩, rest) := by
        rw [split, if_neg hword, if_pos hnumber,
          splitNumber_append_of_ends (splitNumber_of_isDigit hcs c) hrest]
      rw [List.cons_append, lexemes_piece (isBlank_of_isDigit hc), hsplit]

end Tokens

end WatchExpr
