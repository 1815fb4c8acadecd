import WatchExpr.Proofs.Lexing.Pieces

/-!
# Breaks in a text

Between two characters that stand together in no lexeme a text may be cut: what stands behind the cut
changes nothing in front of it.
-/

namespace WatchExpr

open Lexeme

namespace Lexeme

/-- The second character goes on with nothing that the first one is in. -/
structure Breaks (c d : Char) : Prop where
  endsWord : continuesWord d = false
  endsNumber : EndsNumber d
  endsMark : ∀ p : Punctuator, ¬[c, d] <:+: p.chars

/-- The last character of the first text, if any, and the first one of the second are a break. -/
def BreaksBetween (cs rest : List Char) : Prop :=
  ∀ c ∈ cs.getLast?, ∀ d ∈ rest.head?, Breaks c d

variable {c d : Char} {cs rest : List Char}

theorem isDigit_eq_false_of_endsWord (h : continuesWord d = false) : d.isDigit = false := by
  simp only [continuesWord, Char.isAlphanum, Bool.or_eq_false_iff] at h
  exact h.1.2

theorem takeWhile_append_of_head? {p : Char → Bool} (h : ∀ d ∈ rest.head?, p d = false) :
    (cs ++ rest).takeWhile p = cs.takeWhile p := by
  rw [List.takeWhile_append]
  split
  · rename_i hall
    have hrest : rest.takeWhile p = [] := by
      cases rest with
      | nil => rfl
      | cons d rest => simp [h d rfl]
    rw [hrest, List.append_nil]
    exact ((List.takeWhile_prefix p).eq_of_length hall).symm
  · rfl

theorem dropWhile_append_of_head? {p : Char → Bool} (h : ∀ d ∈ rest.head?, p d = false) :
    (cs ++ rest).dropWhile p = cs.dropWhile p ++ rest := by
  rw [List.dropWhile_append]
  split
  · rename_i hnil
    rw [List.isEmpty_iff.1 hnil, List.nil_append]
    cases rest with
    | nil => rfl
    | cons d rest => simp [h d rfl]
  · rfl

theorem splitNumber_append_of_head? (h : ∀ d ∈ rest.head?, EndsNumber d) (previous : Char) :
    splitNumber previous (cs ++ rest) =
      ((splitNumber previous cs).1, (splitNumber previous cs).2 ++ rest) := by
  induction cs generalizing previous with
  | nil =>
      cases rest with
      | nil => rfl
      | cons d rest => simp [splitNumber, h d rfl previous]
  | cons c cs ih =>
      simp only [List.cons_append, splitNumber, ih]
      split <;> rfl

theorem startsNumber_append_of_head? (h : ∀ d ∈ rest.head?, d.isDigit = false) :
    startsNumber c (cs ++ rest) = startsNumber c cs := by
  cases cs with
  | nil =>
      cases rest with
      | nil => rfl
      | cons d rest => simp [startsNumber, h d rfl]
  | cons c cs => rfl

/-- A character that no longer piece has behind its first one is a break wherever it stands. -/
theorem breaks_of_first (hword : continuesWord d = false) (hnumber : d ∉ ['.', '+', '-'])
    (hmark : ∀ p ∈ Punctuator.all, d ∉ p.chars.tail) (c : Char) : Breaks c d where
  endsWord := hword
  endsNumber := fun previous => by
    simp only [continuesWord, Bool.or_eq_false_iff, decide_eq_false_iff_not] at hword
    simp only [List.mem_cons, List.not_mem_nil, or_false, not_or] at hnumber
    simp [continuesNumber, hword, hnumber]
  endsMark := by
    rintro p ⟨front, back, hp⟩
    refine hmark p (Punctuator.mem_all p) ?_
    rw [← hp]
    cases front <;> simp

theorem breaks_blank (h : Text.isBlank d) (c : Char) : Breaks c d := by
  refine breaks_of_first ?_ ?_ (fun p hp hd => ?_) c
  · by_contra hword
    have hvisible := visible_of_continuesWord (Bool.of_not_eq_false hword)
    rw [isBlank_of_visible hvisible.1 hvisible.2] at h
    cases h
  · intro hd
    have hall : ['.', '+', '-'].all fun d => !Text.isBlank d := by decide
    simpa [h] using List.all_eq_true.1 hall d hd
  · have hall : Punctuator.all.all fun p => p.chars.all fun d => !Text.isBlank d := by decide
    have hchars := List.all_eq_true.1 (List.all_eq_true.1 hall p hp) d (List.mem_of_mem_tail hd)
    simp [h] at hchars

theorem breaksBetween_cons (h : ∀ c, Breaks c d) (cs rest : List Char) : BreaksBetween cs (d :: rest) := by
  intro c _ e he
  cases he
  exact h c

/-- No punctuator reaches over a break. -/
theorem isPrefixOf_append_of_breaks (hcs : cs ≠ []) (h : BreaksBetween cs rest) (p : Punctuator) :
    p.chars.isPrefixOf (cs ++ rest) = p.chars.isPrefixOf cs := by
  rw [Bool.eq_iff_iff, List.isPrefixOf_iff_prefix, List.isPrefixOf_iff_prefix]
  refine ⟨fun hp => ?_, fun hp => hp.trans (List.prefix_append cs rest)⟩
  obtain hshort | ⟨more, hmore⟩ := List.prefix_or_prefix_of_prefix hp (List.prefix_append cs rest)
  · exact hshort
  · rw [← hmore, List.prefix_append_right_inj] at hp
    cases more with
    | nil => simp [← hmore]
    | cons d more =>
        obtain ⟨tail, rfl⟩ := hp
        have hlast := List.getLast?_eq_some_getLast hcs
        refine absurd ⟨cs.dropLast, more, ?_⟩ ((h _ hlast d rfl).endsMark p)
        rw [← hmore]
        conv_rhs => rw [← List.dropLast_concat_getLast hcs]
        simp

/-- A piece in front of a break ends there at the latest. -/
theorem split_append_of_breaks (h : BreaksBetween (c :: cs) rest) :
    split c (cs ++ rest) = ((split c cs).1, (split c cs).2 ++ rest) := by
  have hlast := List.getLast?_eq_some_getLast (List.cons_ne_nil c cs)
  have hword : ∀ d ∈ rest.head?, continuesWord d = false := fun d hd => (h _ hlast d hd).endsWord
  have hnumber : ∀ d ∈ rest.head?, EndsNumber d := fun d hd => (h _ hlast d hd).endsNumber
  unfold split
  rw [startsNumber_append_of_head? fun d hd => isDigit_eq_false_of_endsWord (hword d hd)]
  split
  · rw [takeWhile_append_of_head? hword, dropWhile_append_of_head? hword]
  · split
    · rw [splitNumber_append_of_head? hnumber]
    · have hlongest : Punctuator.longest? (c :: cs ++ rest) = Punctuator.longest? (c :: cs) :=
        congrArg (Punctuator.all.find? ·)
          (funext fun p => isPrefixOf_append_of_breaks (List.cons_ne_nil c cs) h p)
      rw [← List.cons_append, hlongest]
      split
      · rename_i p hp
        have hprefix : p.chars <+: c :: cs := by simpa using List.find?_some hp
        rw [List.drop_append_of_le_length hprefix.length_le]
      · rfl

end Lexeme

namespace Tokens

variable {cs rest : List Char}

/-- A text may be cut at a break. -/
theorem lexemes_append_of_breaks (h : BreaksBetween cs rest) :
    lexemes (cs ++ rest) = lexemes cs ++ lexemes rest := by
  induction hn : cs.length using Nat.strongRecOn generalizing cs with
  | ind n ih =>
      subst hn
      cases cs with
      | nil => simp
      | cons c cs =>
          have hsuffix {us : List Char} (hus : us <:+ c :: cs) : BreaksBetween us rest := by
            obtain ⟨before, hbefore⟩ := hus
            intro d hd
            exact h d (by rw [← hbefore, List.getLast?_append, Option.mem_def.1 hd]; rfl)
          cases hc : Text.isBlank c with
          | true =>
              rw [List.cons_append, lexemes_blank hc, lexemes_blank hc]
              exact ih _ (Nat.lt_succ_self _) (hsuffix (List.suffix_cons c cs)) rfl
          | false =>
              have hlt : (split c cs).2.length < (c :: cs).length :=
                Nat.lt_succ_of_le (split_rest_length_le c cs)
              rw [List.cons_append, lexemes_piece hc, lexemes_piece hc, split_append_of_breaks h,
                List.cons_append]
              exact congrArg _ (ih _ hlt (hsuffix ⟨_, split_append c cs⟩) rfl)

end Tokens

end WatchExpr
