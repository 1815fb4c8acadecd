import WatchExpr.Proofs.Lexing.Breaks
import WatchExpr.Proofs.Lexing.Longest
import Mathlib.Data.List.TakeWhile

/-!
# Spaced texts

Texts with one space between two words, one behind each comma, and no other blanks. Whatever longest
piece is cut off such a text, the rest is such a text again: pieces run together where nothing stands
between them, but none ends inside a word, and none reaches over a space.
-/

namespace WatchExpr

open Text

namespace Lexeme

variable {c d : Char} {cs p rest : List Char} {w : Bool} {l : Lexeme}

/-! ## Words and marks -/

/-- Lexemes that need a space between them to stay apart. -/
def isWord (l : Lexeme) : Bool :=
  l.kind = .identifier || l.kind = .number || (Keyword.ofSpelling? (String.ofList l.chars)).isSome

/-- The text of a word or a number. -/
def IsWordText (p : List Char) : Prop :=
  IsWord p ∨ IsNumber p

/-- A character that stands by itself or in a punctuator, but no comma. -/
structure IsMarkChar (c : Char) : Prop where
  isBlank : isBlank c = false
  continuesWord : continuesWord c = false
  ne_comma : c ≠ ','

theorem isWord_word (p : List Char) : (word p).isWord = true := by
  unfold isWord word wordKind
  dsimp only
  split
  · rename_i hk
    rw [hk]
    simp
  · simp

theorem wordKind_ne_punct (p : List Char) (q : Punctuator) : wordKind p ≠ .punct q := by
  unfold wordKind
  split <;> simp

theorem isWord_eq_false_of_head? (hkind : l.kind ≠ .identifier ∧ l.kind ≠ .number)
    (h : ∀ c ∈ l.chars.head?, startsWord c = false) : l.isWord = false := by
  have hnone : Keyword.ofSpelling? (String.ofList l.chars) = none := by
    cases hk : Keyword.ofSpelling? (String.ofList l.chars) with
    | none => rfl
    | some k =>
        obtain ⟨c, cs, hchars, hc, -⟩ := isWord_keyword k
        have hspelling := List.find?_some hk
        rw [eq_of_beq hspelling, String.toList_ofList] at hchars
        rw [h c (by rw [hchars]; rfl)] at hc
        cases hc
  simp [isWord, hkind, hnone]

theorem isWord_mark (q : Punctuator) : (mark q).isWord = false :=
  isWord_eq_false_of_head? ⟨nofun, nofun⟩ fun _ hc => (Punctuator.chars_head hc).1

instance : DecidablePred IsMarkChar := fun c =>
  decidable_of_iff (isBlank c = false ∧ continuesWord c = false ∧ c ≠ ',')
    ⟨fun ⟨hblank, hword, hcomma⟩ => ⟨hblank, hword, hcomma⟩, fun h => ⟨h.1, h.2, h.3⟩⟩

theorem isMarkChar_of_mem {q : Punctuator} (hq : q ≠ .comma) (hc : c ∈ q.chars) : IsMarkChar c := by
  have hall : ∀ q ∈ Punctuator.all, q ≠ .comma → q.chars.all (IsMarkChar ·) := by decide
  exact of_decide_eq_true (List.all_eq_true.1 (hall q (Punctuator.mem_all q) hq) c hc)

/-- Behind its first character no punctuator has one that starts a number. -/
theorem isMarkChar_of_mem_tail {q : Punctuator} (hc : c ∈ q.chars.tail) : IsMarkChar c ∧ c ≠ '.' := by
  have hall : ∀ q ∈ Punctuator.all, q.chars.tail.all fun c => IsMarkChar c ∧ c ≠ '.' := by decide
  exact of_decide_eq_true (List.all_eq_true.1 (hall q (Punctuator.mem_all q)) c hc)

theorem continuesNumber_of_continuesWord (h : continuesWord d) (c : Char) : continuesNumber c d := by
  simp only [continuesWord, Bool.or_eq_true, decide_eq_true_eq] at h
  rcases h with h | rfl
  · exact continuesNumber_iff.2 (.inl (.inl h))
  · exact continuesNumber_iff.2 (.inl (.inr (.inr rfl)))

theorem IsWordText.starts (h : IsWordText p) :
    ∃ c cs, p = c :: cs ∧ (continuesWord c = true ∨ c = '.') := by
  obtain ⟨c, cs, rfl, hc, -⟩ | h := h
  · exact ⟨c, cs, rfl, .inl (continuesWord_of_startsWord hc)⟩
  · obtain ⟨c, cs, rfl, hstart, -⟩ := h.chain
    simp only [startsNumber, Bool.or_eq_true, Bool.and_eq_true, decide_eq_true_eq] at hstart
    refine ⟨c, cs, rfl, hstart.imp (fun hc => ?_) And.left⟩
    simp [continuesWord, Char.isAlphanum, hc]

theorem IsWordText.exists_cons (h : IsWordText p) : ∃ c cs, p = c :: cs ∧ isBlank c = false := by
  obtain ⟨c, cs, rfl, hc | rfl⟩ := h.starts
  · exact ⟨c, cs, rfl, isBlank_of_continuesWord hc⟩
  · exact ⟨'.', cs, rfl, rfl⟩

/-- A number goes on over a whole word or number behind it. -/
theorem IsWordText.chain (h : IsWordText p) :
    ∃ c cs, p = c :: cs ∧ NumberChain (c :: cs) ∧ ∀ d, continuesNumber d c := by
  obtain ⟨c, cs, rfl, hc, hcs⟩ | h := h
  · refine ⟨c, cs, rfl, ?_, continuesNumber_of_continuesWord (continuesWord_of_startsWord hc)⟩
    clear hc
    induction cs generalizing c with
    | nil => exact List.isChain_singleton c
    | cons d ds ih =>
        obtain ⟨hd, hds⟩ := List.forall_mem_cons.1 hcs
        exact List.isChain_cons_cons.2 ⟨continuesNumber_of_continuesWord hd c, ih d hds⟩
  · obtain ⟨c, cs, rfl, hstart, hchain⟩ := h.chain
    refine ⟨c, cs, rfl, hchain, fun d => continuesNumber_iff.2 (.inl ?_)⟩
    simp only [startsNumber, Bool.or_eq_true, Bool.and_eq_true, decide_eq_true_eq] at hstart
    rcases hstart with hc | ⟨rfl, -⟩
    · simp [Char.isAlphanum, hc]
    · exact .inr (.inl rfl)

theorem splitNumber_append_of_chain (h : NumberChain (c :: cs)) (rest : List Char) :
    ∃ d, splitNumber c (cs ++ rest) = (cs ++ (splitNumber d rest).1, (splitNumber d rest).2) := by
  induction cs generalizing c with
  | nil => exact ⟨c, rfl⟩
  | cons e es ih =>
      obtain ⟨he, hes⟩ := List.isChain_cons_cons.1 h
      obtain ⟨d, hd⟩ := ih hes
      exact ⟨d, by rw [List.cons_append, splitNumber, if_pos he, hd]; rfl⟩

/-- A piece of a text is a word, a comma, or made of marks. -/
theorem IsLongest.cases {text : List Char} (h : IsLongest text l) :
    (IsWordText l.chars ∧ l.isWord = true ∧ l.kind ≠ .punct .comma) ∨ l = mark .comma ∨
      (l.chars ≠ [] ∧ (∀ c ∈ l.chars, IsMarkChar c) ∧ l.isWord = false ∧
        l.kind ≠ .punct .comma) := by
  have hword {p : List Char} (hp : IsWord p) : IsWordText (word p).chars ∧
      (word p).isWord = true ∧ (word p).kind ≠ .punct .comma :=
    ⟨.inl hp, isWord_word p, wordKind_ne_punct p .comma⟩
  cases h with
  | piece hl hstart hmax =>
      cases hl with
      | keyword k =>
          have hk := hword (isWord_keyword k)
          rw [word, wordKind_eq_keyword_iff.2 rfl] at hk
          exact .inl hk
      | identifier hw hk =>
          have hw := hword hw
          rw [word, wordKind_eq_identifier hk] at hw
          exact .inl hw
      | number hn => exact .inl ⟨.inr hn, rfl, by simp⟩
      | punct q =>
          by_cases hq : q = .comma
          · exact .inr (.inl (by rw [hq, mark]))
          · refine .inr (.inr ⟨q.chars_ne_nil, fun c hc => isMarkChar_of_mem hq hc, isWord_mark q, ?_⟩)
            simpa using hq
  | @unknown c cs hblank hnone =>
      have hstarts {m : Lexeme} (hm : m.IsPiece) : m.chars ≠ [c] := fun hchars =>
        hnone m hm (hchars ▸ List.cons_prefix_cons.2 ⟨rfl, List.nil_prefix⟩)
      have hstart : startsWord c = false := Bool.eq_false_iff.2 fun hc =>
        hstarts (isPiece_word ⟨c, [], rfl, hc, by simp⟩) rfl
      have hdigit : c.isDigit = false := Bool.eq_false_iff.2 fun hc =>
        hstarts (.number (.digit hc)) rfl
      have hcomma : c ≠ ',' := fun hc => hstarts (.punct .comma) (hc ▸ rfl)
      have hcontinues : continuesWord c = false := by
        simp only [startsWord, Bool.or_eq_false_iff] at hstart
        simp only [continuesWord, Char.isAlphanum, hstart, hdigit, Bool.or_self]
      refine .inr (.inr ⟨List.cons_ne_nil c [], ?_, ?_, by simp⟩)
      · exact List.forall_mem_singleton.2 ⟨hblank, hcontinues, hcomma⟩
      · exact isWord_eq_false_of_head? ⟨by simp, by simp⟩ fun d hd => Option.some.inj hd ▸ hstart

end Lexeme

open Lexeme

/-- A text with canonical spaces, behind a word or not. -/
inductive Spaced : Bool → List Char → Prop where
  | nil {w : Bool} : Spaced w []
  | word {p rest : List Char} (hp : IsWordText p) (h : Spaced true rest) : Spaced false (p ++ rest)
  | space {p rest : List Char} (hp : IsWordText p) (h : Spaced true rest) :
      Spaced true (' ' :: (p ++ rest))
  | comma {w : Bool} {rest : List Char} (h : Spaced false rest) : Spaced w (',' :: ' ' :: rest)
  | mark {w : Bool} {c : Char} {rest : List Char} (hc : IsMarkChar c) (h : Spaced false rest) :
      Spaced w (c :: rest)

namespace Spaced

variable {c : Char} {cs p rest : List Char} {w : Bool}

theorem of_isMarkChar (hne : cs ≠ []) (hcs : ∀ c ∈ cs, IsMarkChar c) (h : Spaced false rest) :
    Spaced w (cs ++ rest) := by
  induction cs generalizing w with
  | nil => exact absurd rfl hne
  | cons c cs ih =>
      obtain ⟨hc, hcs⟩ := List.forall_mem_cons.1 hcs
      apply Spaced.mark hc
      cases cs with
      | nil => exact h
      | cons d cs => exact ih (List.cons_ne_nil d cs) hcs

/-- What stands behind a word does not go on with it. -/
theorem head?_behind_word (h : Spaced true rest) : ∀ d ∈ rest.head?, continuesWord d = false := by
  intro d hd
  cases h with
  | nil => cases hd
  | space hp h =>
      cases hd
      rfl
  | comma h =>
      cases hd
      rfl
  | mark hc h =>
      cases hd
      exact hc.continuesWord

/-- A number that goes on in the text ends where words, commas or marks do. -/
theorem splitNumber (h : Spaced w cs) (previous : Char) :
    ∃ w', Spaced w' (Lexeme.splitNumber previous cs).2 := by
  induction h generalizing previous with
  | nil => exact ⟨true, .nil⟩
  | @word p rest hp h ih =>
      obtain ⟨c, cs, rfl, hchain, hc⟩ := hp.chain
      obtain ⟨d, hd⟩ := splitNumber_append_of_chain hchain rest
      rw [List.cons_append, Lexeme.splitNumber, if_pos (hc previous), hd]
      exact ih d
  | space hp h ih =>
      have hspace : continuesNumber previous ' ' = false := by simp [continuesNumber, Char.isAlphanum]
      rw [Lexeme.splitNumber, if_neg (by simp [hspace])]
      exact ⟨true, .space hp h⟩
  | comma h ih =>
      rw [Lexeme.splitNumber, if_neg (by simp [continuesNumber])]
      exact ⟨true, .comma h⟩
  | mark hc h ih =>
      rw [Lexeme.splitNumber]
      split
      · exact ih _
      · exact ⟨true, .mark hc h⟩

/-- Behind marks that start no number the text goes on as it did. -/
theorem of_marks {marks : List Char} (h : Spaced false (marks ++ rest))
    (hmarks : ∀ d ∈ marks, IsMarkChar d ∧ d ≠ '.') : Spaced false rest := by
  induction marks with
  | nil => exact h
  | cons d marks ih =>
      obtain ⟨⟨hd, hpoint⟩, hmarks⟩ := List.forall_mem_cons.1 hmarks
      apply ih _ hmarks
      generalize htext : d :: marks ++ rest = text at h
      cases h with
      | nil => cases htext
      | word hp h =>
          obtain ⟨c, cs, rfl, hstart⟩ := hp.starts
          obtain ⟨rfl, -⟩ := List.cons.inj htext
          obtain hword | hpoint' := hstart
          · exact absurd hword (by simp [hd.continuesWord])
          · exact absurd hpoint' hpoint
      | comma h => exact absurd (List.cons.inj htext).1 hd.ne_comma
      | mark hc h =>
          obtain ⟨-, rfl⟩ := List.cons.inj htext
          exact h

/-- Behind this piece, which is no comma, the text goes on with canonical spaces. -/
structure Leaves (l : Lexeme) (rest : List Char) : Prop where
  spaced : ∃ w, Spaced w rest ∧ (w = true → l.isWord = true)
  ne_comma : l.kind ≠ .punct .comma

/-- A word or a number is cut off as a word, together with the marks and words that it runs into. -/
theorem split_word (hp : IsWordText (c :: cs)) (h : Spaced true rest) :
    Leaves (split c (cs ++ rest)).1 (split c (cs ++ rest)).2 ∧
      (split c (cs ++ rest)).1.isWord = true := by
  obtain ⟨d, ds, hchars, hd, hds⟩ | hnumber := hp
  · obtain ⟨rfl, rfl⟩ := List.cons.inj hchars
    have hdrop : (cs ++ rest).dropWhile continuesWord = rest := by
      rw [dropWhile_append_of_head? h.head?_behind_word, List.dropWhile_eq_nil_iff.2 hds,
        List.nil_append]
    rw [split, if_pos hd]
    dsimp only
    rw [hdrop]
    exact ⟨⟨⟨true, h, fun _ => isWord_word _⟩, wordKind_ne_punct _ _⟩, isWord_word _⟩
  · obtain ⟨d, ds, hchars, hstart, hchain⟩ := hnumber.chain
    obtain ⟨rfl, rfl⟩ := List.cons.inj hchars
    have hword := startsWord_eq_false_of_startsNumber hstart
    obtain ⟨d, hd⟩ := splitNumber_append_of_chain hchain rest
    obtain ⟨w, hw⟩ := h.splitNumber d
    rw [split, if_neg (by simp [hword]), if_pos (Tokens.startsNumber_append hstart), hd]
    exact ⟨⟨⟨w, hw, fun _ => rfl⟩, by simp⟩, rfl⟩

/-- Where a mark stands, a punctuator is cut off, a number that starts with a point, or the mark. -/
theorem split_mark (hc : IsMarkChar c) (h : Spaced false rest) :
    Leaves (split c rest).1 (split c rest).2 := by
  have hword : startsWord c = false := by
    apply Bool.eq_false_iff.2
    intro hword
    exact Bool.false_ne_true (hc.continuesWord.symm.trans (continuesWord_of_startsWord hword))
  rw [split, if_neg (by simp [hword])]
  split
  · obtain ⟨w, hw⟩ := h.splitNumber c
    exact ⟨⟨w, hw, fun _ => rfl⟩, by simp⟩
  · split
    · rename_i q hq
      have hprefix : q.chars <+: c :: rest := by simpa using List.find?_some hq
      obtain ⟨d, marks, hchars⟩ := List.exists_cons_of_ne_nil q.chars_ne_nil
      rw [hchars] at hprefix ⊢
      obtain ⟨rfl, back, rfl⟩ := List.cons_prefix_cons.1 hprefix
      refine ⟨⟨false, ?_, Bool.noConfusion⟩, fun hcomma => ?_⟩
      · rw [← List.cons_append, List.drop_left]
        exact h.of_marks fun e he => isMarkChar_of_mem_tail (q := q) (by rwa [hchars])
      · cases hcomma
        exact hc.ne_comma (List.cons.inj hchars).1.symm
    · exact ⟨⟨false, h, Bool.noConfusion⟩, by simp⟩

end Spaced

end WatchExpr
