import WatchExpr.Literal
import WatchExpr.Proofs.Lexing.Pieces

/-!
# Spellings of constants

The spelling of a constant that has a value contains no blank. If it is one lexeme, it therefore is
that lexeme itself.
-/

namespace WatchExpr

open Lexeme Text

/-- A text without blanks. -/
def NoBlank (cs : List Char) : Prop :=
  ∀ c ∈ cs, isBlank c = false

variable {c : Char} {cs ds : List Char}

theorem NoBlank.append (hc : NoBlank cs) (hd : NoBlank ds) : NoBlank (cs ++ ds) := by
  intro c h
  cases List.mem_append.1 h with
  | inl h => exact hc c h
  | inr h => exact hd c h

theorem noBlank_cons (hc : isBlank c = false) (h : NoBlank cs) : NoBlank (c :: cs) := by
  intro d hd
  cases hd with
  | head => exact hc
  | tail _ hd => exact h d hd

theorem noBlank_nil : NoBlank [] := by
  intro c hc
  cases hc

theorem isBlank_of_isDigit (h : c.isDigit) : isBlank c = false := by
  have hword : continuesWord c := by simp [continuesWord, Char.isAlphanum, h]
  exact isBlank_of_continuesWord hword

theorem isBlank_of_isDigitIn {radix : Nat} (hradix : radix ≤ 16) (h : isDigitIn radix c) :
    isBlank c = false := by
  simp only [isDigitIn, decide_eq_true_eq] at h
  unfold digitValue at h
  split at h
  · rename_i hc
    exact isBlank_of_isDigit hc
  · split at h
    · rename_i hc
      have hlo : 97 ≤ c.toNat := hc.1
      have hhi : c.toNat ≤ 102 := hc.2
      exact isBlank_of_visible (by omega) (by omega)
    · split at h
      · rename_i hc
        have hlo : 65 ≤ c.toNat := hc.1
        have hhi : c.toNat ≤ 70 := hc.2
        exact isBlank_of_visible (by omega) (by omega)
      · omega

/-- A run of characters of a kind that has no blank, and what follows it. -/
theorem noBlank_of_takeWhile {p : Char → Bool} (hp : ∀ c, p c → isBlank c = false)
    (h : NoBlank (cs.dropWhile p)) : NoBlank cs := by
  rw [← List.takeWhile_append_dropWhile (p := p) (l := cs)]
  exact NoBlank.append (fun c hc => hp c (List.all_eq_true.1 List.all_takeWhile c hc)) h

namespace Literal

/-! ## Integers -/

theorem splitUnsigned_noBlank (h : NoBlank (splitUnsigned cs).2) : NoBlank cs := by
  unfold splitUnsigned at h
  split at h
  · exact noBlank_cons (by decide) h
  · exact noBlank_cons (by decide) h
  · exact h

theorem splitLongs_noBlank (h : NoBlank (splitLongs cs).2) : NoBlank cs := by
  unfold splitLongs at h
  split at h
  · exact noBlank_cons (by decide) (noBlank_cons (by decide) h)
  · exact noBlank_cons (by decide) (noBlank_cons (by decide) h)
  · exact noBlank_cons (by decide) h
  · exact noBlank_cons (by decide) h
  · exact h

theorem suffix?_noBlank {suffix : Suffix} (h : suffix? cs = some suffix) : NoBlank cs := by
  apply splitUnsigned_noBlank
  apply splitLongs_noBlank
  cases hbefore : (splitUnsigned cs).1 with
  | true =>
      simp only [suffix?, hbefore, if_true, Option.ite_none_right_eq_some] at h
      rw [List.isEmpty_iff.1 h.1]
      exact noBlank_nil
  | false =>
      simp only [suffix?, hbefore, Bool.false_eq_true, if_false,
        Option.ite_none_right_eq_some] at h
      apply splitUnsigned_noBlank
      rw [List.isEmpty_iff.1 h.1]
      exact noBlank_nil

theorem splitBase_noBlank (h : NoBlank (splitBase cs).2) :
    NoBlank cs := by
  unfold splitBase at h
  split at h
  · exact noBlank_cons (by decide) (noBlank_cons (by decide) h)
  · exact noBlank_cons (by decide) (noBlank_cons (by decide) h)
  · exact noBlank_cons (by decide) (noBlank_cons (by decide) h)
  · exact noBlank_cons (by decide) (noBlank_cons (by decide) h)
  · exact h
  · exact h

theorem splitBase_le (cs : List Char) : (splitBase cs).1 ≤ 16 := by
  unfold splitBase
  split <;> simp

theorem readInteger_noBlank {v : Scalar} (h : readInteger cs = .ok v) : NoBlank cs := by
  apply splitBase_noBlank
  apply noBlank_of_takeWhile fun c hc => isBlank_of_isDigitIn (splitBase_le cs) hc
  unfold readInteger at h
  dsimp only at h
  split at h
  · cases h
  · cases h
  · rename_i hsuffix
    exact suffix?_noBlank hsuffix

/-! ## Floating-point numbers -/

theorem splitSign_noBlank (h : NoBlank (splitSign cs).2) : NoBlank cs := by
  unfold splitSign at h
  split at h
  · exact noBlank_cons (by decide) h
  · exact noBlank_cons (by decide) h
  · exact h

theorem exponent?_noBlank {n : Int} (h : exponent? cs = some n) : NoBlank cs := by
  cases cs with
  | nil => exact noBlank_nil
  | cons c cs =>
      simp only [exponent?] at h
      split at h
      · rename_i hc
        have hletter : isBlank c = false := by
          rcases hc with rfl | rfl <;> decide
        refine noBlank_cons hletter (splitSign_noBlank ?_)
        split at h
        · cases h
        · rename_i hdigits
          intro d hd
          have hall : (splitSign cs).2.all Char.isDigit := by
            simp only [Bool.or_eq_true, Bool.not_eq_true', not_or, Bool.not_eq_false] at hdigits
            exact hdigits.2
          exact isBlank_of_isDigit (List.all_eq_true.1 hall d hd)
      · cases h

theorem unsignedDecimal?_noBlank {d : Decimal} (h : unsignedDecimal? cs = some d) :
    NoBlank cs := by
  refine noBlank_of_takeWhile (fun c hc => isBlank_of_isDigit hc) ?_
  unfold unsignedDecimal? at h
  dsimp only at h
  split at h
  · rename_i more hmore
    simp only [Option.ite_none_left_eq_some, Option.map_eq_some_iff] at h
    obtain ⟨-, e, he, -⟩ := h
    rw [hmore]
    exact noBlank_cons (by decide)
      (noBlank_of_takeWhile (fun c hc => isBlank_of_isDigit hc) (exponent?_noBlank he))
  · simp only [Option.ite_none_left_eq_some, Option.map_eq_some_iff] at h
    obtain ⟨-, e, he, -⟩ := h
    exact exponent?_noBlank he

theorem splitFloatSuffix_noBlank (h : NoBlank (splitFloatSuffix cs).2) : NoBlank cs := by
  have hlast : ∀ c, isBlank c = false → cs.getLast? = some c → NoBlank cs.dropLast →
      NoBlank cs := by
    intro c hc hlast h
    obtain ⟨ds, rfl⟩ := List.getLast?_eq_some_iff.1 hlast
    rw [List.dropLast_concat] at h
    exact h.append (noBlank_cons hc noBlank_nil)
  unfold splitFloatSuffix at h
  split at h
  · exact hlast 'f' (by decide) ‹_› h
  · exact hlast 'F' (by decide) ‹_› h
  · exact hlast 'l' (by decide) ‹_› h
  · exact hlast 'L' (by decide) ‹_› h
  · exact h

theorem readFloating_noBlank {v : Scalar} (h : readFloating cs = .ok v) : NoBlank cs := by
  apply splitFloatSuffix_noBlank
  unfold readFloating at h
  dsimp only at h
  split at h
  · rename_i hbinary
    obtain ⟨d, hd, -⟩ := Option.map_eq_some_iff.1 hbinary
    exact splitSign_noBlank (unsignedDecimal?_noBlank hd)
  · cases h

/-- A constant that has a value contains no blank. -/
theorem read_noBlank {s : String} {v : Scalar} (h : read s = .ok v) : NoBlank s.toList := by
  unfold read at h
  dsimp only at h
  split at h
  · cases h
  · split at h
    · exact readFloating_noBlank h
    · exact readInteger_noBlank h

/-! ## Constants without a spelling -/

theorem readInteger_noSpelling (h : readInteger cs = .error .noSpelling) : cs = [] := by
  unfold readInteger at h
  dsimp only at h
  split at h
  · cases h
  · cases h
  · split at h
    · split at h
      · rfl
      · cases h
    · split at h <;> cases h

theorem readFloating_ne_noSpelling : readFloating cs ≠ .error .noSpelling := by
  unfold readFloating
  dsimp only
  split <;> nofun

/-- Reading stops exactly at a constant that is not spelled out. -/
theorem read_eq_noSpelling_iff {s : String} : read s = .error .noSpelling ↔ s = "" := by
  constructor
  · intro h
    unfold read at h
    dsimp only at h
    split at h
    · cases h
    · split at h
      · exact absurd h readFloating_ne_noSpelling
      · exact String.toList_eq_nil_iff.1 (readInteger_noSpelling h)
  · rintro rfl
    rfl

end Literal

theorem LiteralError.eq_noSpelling {e : LiteralError} (h : e.code? = none) : e = .noSpelling := by
  cases e with
  | noSpelling => rfl
  | _ => cases h

namespace Tokens

theorem lexemes_ne_nil (h : isBlank c = false) : lexemes (c :: cs) ≠ [] := by
  rw [lexemes_piece h]
  exact List.cons_ne_nil _ _

/-- A text without blanks that is one lexeme is that lexeme. -/
theorem chars_of_lexemes {l : Lexeme} (hblank : NoBlank cs) (h : lexemes cs = [l]) :
    l.chars = cs := by
  cases cs with
  | nil => simp at h
  | cons c cs =>
      rw [lexemes_piece (hblank c (by simp))] at h
      obtain ⟨hpiece, hrest⟩ := List.cons.inj h
      have happend := split_append c cs
      rw [hpiece] at happend
      cases hsplit : (split c cs).2 with
      | nil => rwa [hsplit, List.append_nil] at happend
      | cons d rest =>
          rw [hsplit] at happend hrest
          exact absurd hrest (lexemes_ne_nil (hblank d (happend ▸ by simp)))

/-- The only lexeme of a constant that has a value is its spelling. -/
theorem lexemes_constant {s : String} {v : Scalar} (hv : Literal.read s = .ok v) {t : Token}
    (hlex : (lex s).body = [t]) (ht : t.kind = .number) :
    lexemes s.toList = [⟨.number, s.toList⟩] := by
  have hsingle : lexemes s.toList = [t.lexeme] := congrArg (List.map Token.lexeme) hlex
  have hchars := chars_of_lexemes (Literal.read_noBlank hv) hsingle
  rw [hsingle, ← hchars, ← ht]
  rfl

end Tokens

end WatchExpr
