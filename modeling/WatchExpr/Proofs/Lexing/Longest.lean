import WatchExpr.Proofs.Lexing.Pieces
import Mathlib.Data.List.Chain

/-!
# Longest pieces

What a text is cut into, said by the characters of the pieces and not by the cutting. The piece that is
split off is the longest one that the text starts with, and it is split off again when it stands alone.
-/

namespace WatchExpr

open Text

namespace Lexeme

variable {c : Char} {cs ds text : List Char} {l m : Lexeme}

/-! ## Numbers -/

/-- A number as it is cut off a text: a digit, possibly behind a point, and on from there with letters,
digits, points, underscores, and signs right behind the letter of an exponent. -/
inductive IsNumber : List Char → Prop where
  | digit {d : Char} (hd : d.isDigit) : IsNumber [d]
  | point {d : Char} (hd : d.isDigit) : IsNumber ['.', d]
  | more {cs : List Char} {c : Char} (h : IsNumber cs) (hc : c.isAlphanum ∨ c = '.' ∨ c = '_') :
      IsNumber (cs ++ [c])
  | sign {cs : List Char} {e s : Char} (h : IsNumber (cs ++ [e])) (he : e ∈ ['e', 'E', 'p', 'P'])
      (hs : s = '+' ∨ s = '-') : IsNumber (cs ++ [e, s])

theorem continuesNumber_iff {e s : Char} :
    continuesNumber e s ↔ (s.isAlphanum ∨ s = '.' ∨ s = '_') ∨
      (e ∈ ['e', 'E', 'p', 'P'] ∧ (s = '+' ∨ s = '-')) := by
  simp [continuesNumber, or_assoc, and_comm]

/-- Each character goes on with the number that the one in front of it is in. -/
abbrev NumberChain (cs : List Char) : Prop :=
  cs.IsChain fun c d => continuesNumber c d

theorem NumberChain.concat (h : NumberChain cs) (hd : ∀ e ∈ cs.getLast?, continuesNumber e c) :
    NumberChain (cs ++ [c]) := by
  refine List.isChain_append.2 ⟨h, List.isChain_singleton c, fun e he d hd' => ?_⟩
  cases hd'
  exact hd e he

theorem IsNumber.chain (h : IsNumber text) :
    ∃ c cs, text = c :: cs ∧ startsNumber c cs ∧ NumberChain (c :: cs) := by
  induction h with
  | digit hd => exact ⟨_, [], rfl, by simp [startsNumber, hd], List.isChain_singleton _⟩
  | @point d hd =>
      refine ⟨'.', [d], rfl, by simp [startsNumber, hd], List.isChain_pair.2 ?_⟩
      simp [continuesNumber, Char.isAlphanum, hd]
  | more h hc ih =>
      obtain ⟨d, ds, rfl, hstart, hchain⟩ := ih
      exact ⟨d, _, rfl, Tokens.startsNumber_append hstart,
        hchain.concat fun e _ => continuesNumber_iff.2 (.inl hc)⟩
  | @sign cs e s h he hs ih =>
      obtain ⟨d, ds, heq, hstart, hchain⟩ := ih
      refine ⟨d, ds ++ [s], ?_, Tokens.startsNumber_append hstart, hchain.concat fun e' he' => ?_⟩
      · rw [← List.cons_append, ← heq, List.append_assoc]
        rfl
      · rw [← heq, List.getLast?_concat] at he'
        cases he'
        exact continuesNumber_iff.2 (.inr ⟨he, hs⟩)

theorem startsWord_eq_false_of_startsNumber (h : startsNumber c cs) : startsWord c = false := by
  apply Bool.eq_false_iff.2
  intro hword
  simp only [startsNumber, isDigit_of_startsWord hword, Bool.false_or, Bool.and_eq_true,
    decide_eq_true_eq] at h
  rw [h.1] at hword
  cases hword

theorem isNumber_of_chain (hstart : startsNumber c cs) (h : NumberChain (c :: cs)) :
    IsNumber (c :: cs) := by
  induction cs using List.reverseRecOn with
  | nil => exact .digit (by simpa [startsNumber] using hstart)
  | append_singleton ds d ih =>
      obtain ⟨hinit, -, hlast⟩ := List.isChain_append.1 (List.cons_append ▸ h)
      by_cases hds : startsNumber c ds
      · have hd := hlast _ (List.getLast?_eq_some_getLast (List.cons_ne_nil c ds)) d rfl
        have hnumber := ih hds hinit
        obtain hd | ⟨he, hs⟩ := continuesNumber_iff.1 hd
        · exact .more hnumber hd
        · have hconcat := List.dropLast_concat_getLast (List.cons_ne_nil c ds)
          have hsign := IsNumber.sign (hconcat.symm ▸ hnumber) he hs
          rwa [List.append_cons, hconcat] at hsign
      · -- Without its last character it is no number yet, so this is the digit behind the point.
        cases ds with
        | nil =>
            simp only [startsNumber, Bool.or_eq_true, Bool.and_eq_true, decide_eq_true_eq] at hds hstart
            obtain ⟨rfl, hd⟩ := hstart.resolve_left fun hc => hds (.inl hc)
            exact .point hd
        | cons e ds => exact absurd hstart hds

theorem splitNumber_chain (c : Char) (cs : List Char) : NumberChain (c :: (splitNumber c cs).1) := by
  induction cs generalizing c with
  | nil => exact List.isChain_singleton c
  | cons d ds ih =>
      simp only [splitNumber]
      split
      · rename_i hd
        exact List.isChain_cons_cons.2 ⟨hd, ih d⟩
      · exact List.isChain_singleton c

/-- No number goes further than the one that is split off. -/
theorem length_le_splitNumber (h : NumberChain (c :: ds)) (hds : ds <+: cs) :
    ds.length ≤ (splitNumber c cs).1.length := by
  induction cs generalizing c ds with
  | nil => simp [List.prefix_nil.1 hds]
  | cons d cs ih =>
      cases ds with
      | nil => simp
      | cons e ds =>
          obtain ⟨rfl, htail⟩ := List.cons_prefix_cons.1 hds
          obtain ⟨he, hchain⟩ := List.isChain_cons_cons.1 h
          simpa [splitNumber, he] using ih hchain htail

/-! ## Pieces -/

/-- The pieces of a text with more to them than a character by itself. -/
inductive IsPiece : Lexeme → Prop where
  | keyword (k : Keyword) : IsPiece ⟨.keyword k, k.spelling.toList⟩
  | identifier {w : List Char} (hw : IsWord w) (hk : ∀ k : Keyword, k.spelling.toList ≠ w) :
      IsPiece ⟨.identifier, w⟩
  | number {cs : List Char} (h : IsNumber cs) : IsPiece ⟨.number, cs⟩
  | punct (p : Punctuator) : IsPiece ⟨.punct p, p.chars⟩

/-- The longest piece that a text starts with, or else its first character, if that is no blank. -/
inductive IsLongest : List Char → Lexeme → Prop where
  | piece {text : List Char} {l : Lexeme} (hl : l.IsPiece) (hstart : l.chars <+: text)
      (hmax : ∀ m : Lexeme, m.IsPiece → m.chars <+: text → m.chars.length ≤ l.chars.length) :
      IsLongest text l
  | unknown {c : Char} {cs : List Char} (hblank : isBlank c = false)
      (hnone : ∀ m : Lexeme, m.IsPiece → ¬m.chars <+: c :: cs) :
      IsLongest (c :: cs) ⟨.unknown, [c]⟩

theorem isWord_keyword (k : Keyword) : IsWord k.spelling.toList := by
  have hall : ∀ k ∈ Keyword.all, IsWord k.spelling.toList := by decide
  exact hall k (Keyword.mem_all k)

theorem wordKind_eq_keyword_iff {k : Keyword} :
    wordKind cs = .keyword k ↔ k.spelling.toList = cs := by
  constructor
  · intro h
    unfold wordKind at h
    split at h
    · rename_i hk
      cases h
      have hspelling := List.find?_some hk
      rw [eq_of_beq hspelling, String.toList_ofList]
    · cases h
  · rintro rfl
    have hall : ∀ k ∈ Keyword.all, Keyword.ofSpelling? k.spelling = some k := by decide
    rw [wordKind, String.ofList_toList, hall k (Keyword.mem_all k)]

theorem wordKind_eq_identifier (hk : ∀ k : Keyword, k.spelling.toList ≠ cs) :
    wordKind cs = .identifier := by
  cases h : wordKind cs with
  | keyword k => exact absurd (wordKind_eq_keyword_iff.1 h) (hk k)
  | identifier => rfl
  | _ => unfold wordKind at h; split at h <;> cases h

/-- A word is a keyword or an identifier. -/
theorem isPiece_word (h : IsWord cs) : (word cs).IsPiece := by
  by_cases hk : ∃ k : Keyword, k.spelling.toList = cs
  · obtain ⟨k, rfl⟩ := hk
    rw [word, wordKind_eq_keyword_iff.2 rfl]
    exact .keyword k
  · have hk : ∀ k : Keyword, k.spelling.toList ≠ cs := fun k heq => hk ⟨k, heq⟩
    rw [word, wordKind_eq_identifier hk]
    exact .identifier h hk

/-- What a piece is can be told from its characters: from the first one, but for the point. -/
theorem IsPiece.cases_cons (hl : l.IsPiece) (hchars : l.chars = c :: cs) :
    (startsWord c ∧ (∀ d ∈ cs, continuesWord d) ∧ l = word (c :: cs)) ∨
      (startsWord c = false ∧ startsNumber c cs ∧ NumberChain (c :: cs) ∧ l = ⟨.number, c :: cs⟩) ∨
      ∃ p : Punctuator, p.chars = c :: cs ∧ l = mark p := by
  have hword {w : List Char} (hw : IsWord w) (hchars : w = c :: cs) :
      startsWord c ∧ ∀ d ∈ cs, continuesWord d := by
    obtain ⟨d, ds, rfl, hd, hds⟩ := hw
    cases hchars
    exact ⟨hd, hds⟩
  cases hl with
  | keyword k =>
      obtain ⟨hc, hcs⟩ := hword (isWord_keyword k) hchars
      refine .inl ⟨hc, hcs, ?_⟩
      rw [word, ← hchars, wordKind_eq_keyword_iff.2 rfl]
  | identifier hw hk =>
      obtain ⟨hc, hcs⟩ := hword hw hchars
      refine .inl ⟨hc, hcs, ?_⟩
      rw [word, ← hchars, wordKind_eq_identifier hk]
  | number h =>
      obtain ⟨d, ds, rfl, hstart, hchain⟩ := h.chain
      cases hchars
      exact .inr (.inl ⟨startsWord_eq_false_of_startsNumber hstart, hstart, hchain, rfl⟩)
  | punct p => exact .inr (.inr ⟨p, hchars, rfl⟩)

theorem IsPiece.chars_ne_nil (hl : l.IsPiece) : l.chars ≠ [] := by
  cases hl with
  | keyword k => obtain ⟨c, cs, h, -⟩ := isWord_keyword k; simp [h]
  | identifier hw hk => obtain ⟨c, cs, rfl, -⟩ := hw; simp
  | number h => obtain ⟨c, cs, rfl, -⟩ := h.chain; simp
  | punct p => exact p.chars_ne_nil

end Lexeme

namespace Punctuator

/-- A number in front of which a punctuator could be cut off starts with a point. -/
theorem eq_period_of_startsNumber {p : Punctuator} {c : Char} {cs ds : List Char}
    (hp : p.chars = c :: cs) (h : Lexeme.startsNumber c ds) :
    p = .period ∧ ds.head?.any Char.isDigit := by
  obtain ⟨-, -, hdigit, hpoint⟩ := chars_head (p := p) (c := c) (by rw [hp]; rfl)
  simp only [Lexeme.startsNumber, hdigit, Bool.false_or, Bool.and_eq_true, decide_eq_true_eq] at h
  exact ⟨hpoint h.1, h.2⟩

theorem chars_injective {p q : Punctuator} (h : p.chars = q.chars) : p = q := by
  have hself (p : Punctuator) : longest? p.chars = some p := by
    have hlongest : longest? (p.chars ++ []) = some p := longest?_append fun d hd => by cases hd
    rwa [List.append_nil] at hlongest
  exact Option.some.inj ((hself p).symm.trans (h ▸ hself q))

/-- The table of punctuators has longer ones in front. -/
theorem length_le_of_longest? {p q : Punctuator} {text : List Char} (hp : longest? text = some p)
    (hq : q.chars <+: text) : q.chars.length ≤ p.chars.length := by
  obtain ⟨-, before, after, hall, hbefore⟩ := List.find?_eq_some_iff_append.1 hp
  have hsorted : all.Pairwise fun p q => q.chars.length ≤ p.chars.length := by decide
  rw [hall] at hsorted
  have hafter := (List.pairwise_append.1 hsorted).2.1
  have hmem : q ∈ before ++ p :: after := hall ▸ mem_all q
  obtain hmem | hmem := List.mem_append.1 hmem
  · simpa [List.isPrefixOf_iff_prefix.2 hq] using hbefore q hmem
  · obtain rfl | hmem := List.mem_cons.1 hmem
    · exact Nat.le_refl _
    · exact List.rel_of_pairwise_cons hafter hmem

end Punctuator

namespace Lexeme

variable {c : Char} {cs text : List Char} {l m : Lexeme}

/-- A piece is told from the others by its characters. -/
theorem IsPiece.ext (hl : l.IsPiece) (hm : m.IsPiece) (h : l.chars = m.chars) : l = m := by
  obtain ⟨c, cs, hc⟩ := List.exists_cons_of_ne_nil hm.chars_ne_nil
  have hmark {p : Punctuator} (hp : p.chars = c :: cs) :
      startsWord c = false ∧ startsNumber c cs = false := by
    obtain ⟨hword, -⟩ := Punctuator.chars_head (p := p) (c := c) (by rw [hp]; rfl)
    refine ⟨hword, Bool.eq_false_iff.2 fun hnumber => ?_⟩
    obtain ⟨rfl, hdigit⟩ := Punctuator.eq_period_of_startsNumber hp hnumber
    cases hp
    cases hdigit
  obtain ⟨hcl, -, rfl⟩ | ⟨hcl, hstartl, -, rfl⟩ | ⟨p, hp, rfl⟩ := hl.cases_cons (h.trans hc) <;>
    obtain ⟨hcm, -, rfl⟩ | ⟨hcm, hstartm, -, rfl⟩ | ⟨q, hq, rfl⟩ := hm.cases_cons hc
  · rfl
  · simp [hcl] at hcm
  · simp [(hmark hq).1] at hcl
  · simp [hcl] at hcm
  · rfl
  · simp [(hmark hq).2] at hstartl
  · simp [(hmark hp).1] at hcm
  · simp [(hmark hp).2] at hstartm
  · rw [Punctuator.chars_injective h]

/-! ## Splitting -/

theorem split_word_isLongest (hc : startsWord c) :
    IsLongest (c :: cs) (word (c :: cs.takeWhile continuesWord)) := by
  have hword : IsWord (c :: cs.takeWhile continuesWord) :=
    ⟨c, _, rfl, hc, fun d hd => List.all_eq_true.1 List.all_takeWhile d hd⟩
  refine .piece (isPiece_word hword)
    (List.cons_prefix_cons.2 ⟨rfl, List.takeWhile_prefix _⟩) fun m hm hstart => ?_
  obtain ⟨d, ds, hchars⟩ := List.exists_cons_of_ne_nil hm.chars_ne_nil
  rw [hchars] at hstart ⊢
  obtain ⟨rfl, more, rfl⟩ := List.cons_prefix_cons.1 hstart
  obtain ⟨-, hds, -⟩ | ⟨hno, -⟩ | ⟨p, hp, -⟩ := hm.cases_cons hchars
  · simp [word, List.takeWhile_append_of_pos hds]
  · simp [hno] at hc
  · obtain ⟨hno, -⟩ := Punctuator.chars_head (p := p) (c := d) (by rw [hp]; rfl)
    simp [hno] at hc

theorem split_number_isLongest (hc : startsWord c = false) (hnumber : startsNumber c cs) :
    IsLongest (c :: cs) ⟨.number, c :: (splitNumber c cs).1⟩ := by
  have happend := splitNumber_append c cs
  have hstart : startsNumber c (splitNumber c cs).1 := by
    cases cs with
    | nil => exact hnumber
    | cons d cs =>
        simp only [startsNumber, Bool.or_eq_true, Bool.and_eq_true, List.head?_cons,
          Option.any_some] at hnumber
        obtain hdigit | ⟨hpoint, hdigit⟩ := hnumber
        · simp [startsNumber, hdigit]
        · have hd : continuesNumber c d := by simp [continuesNumber, Char.isAlphanum, hdigit]
          simp [startsNumber, splitNumber, hd, hpoint, hdigit]
  refine .piece (.number (isNumber_of_chain hstart (splitNumber_chain c cs)))
    (List.cons_prefix_cons.2 ⟨rfl, _, happend⟩) fun m hm hprefix => ?_
  obtain ⟨d, ds, hchars⟩ := List.exists_cons_of_ne_nil hm.chars_ne_nil
  rw [hchars] at hprefix ⊢
  obtain ⟨rfl, hds⟩ := List.cons_prefix_cons.1 hprefix
  obtain ⟨hword, -⟩ | ⟨-, -, hchain, -⟩ | ⟨p, hp, -⟩ := hm.cases_cons hchars
  · simp [hc] at hword
  · simpa using length_le_splitNumber hchain hds
  · obtain ⟨rfl, -⟩ := Punctuator.eq_period_of_startsNumber hp hnumber
    cases hp
    simp

/-- What starts neither a word nor a number can only be cut off as a punctuator. -/
theorem IsPiece.exists_punct (hm : m.IsPiece) (hstart : m.chars <+: c :: cs)
    (hc : startsWord c = false) (hnumber : startsNumber c cs = false) :
    ∃ p : Punctuator, m = mark p ∧ p.chars <+: c :: cs := by
  obtain ⟨d, ds, hchars⟩ := List.exists_cons_of_ne_nil hm.chars_ne_nil
  rw [hchars] at hstart
  obtain ⟨rfl, more, rfl⟩ := List.cons_prefix_cons.1 hstart
  obtain ⟨hword, -⟩ | ⟨-, hno, -⟩ | ⟨p, hp, rfl⟩ := hm.cases_cons hchars
  · simp [hc] at hword
  · simp [Tokens.startsNumber_append hno] at hnumber
  · exact ⟨p, rfl, hp ▸ hstart⟩

/-- The piece that is split off is the longest one. -/
theorem split_isLongest (hblank : isBlank c = false) (cs : List Char) :
    IsLongest (c :: cs) (split c cs).1 := by
  unfold split
  split
  · exact split_word_isLongest ‹_›
  · rename_i hc
    rw [Bool.not_eq_true] at hc
    split
    · exact split_number_isLongest hc ‹_›
    · rename_i hnumber
      rw [Bool.not_eq_true] at hnumber
      split
      · rename_i p hp
        have hstart : p.chars <+: c :: cs := by simpa using List.find?_some hp
        refine .piece (.punct p) hstart fun m hm hm' => ?_
        obtain ⟨q, rfl, hq⟩ := hm.exists_punct hm' hc hnumber
        exact Punctuator.length_le_of_longest? hp hq
      · rename_i hp
        refine .unknown hblank fun m hm hm' => ?_
        obtain ⟨q, -, hq⟩ := hm.exists_punct hm' hc hnumber
        exact List.find?_eq_none.1 hp q (Punctuator.mem_all q) (List.isPrefixOf_iff_prefix.2 hq)

theorem IsLongest.unique (hl : IsLongest text l) (hm : IsLongest text m) : l = m := by
  cases hl with
  | piece hl hlstart hlmax =>
      cases hm with
      | piece hm hmstart hmmax =>
          refine hl.ext hm ?_
          have hlength := Nat.le_antisymm (hmmax l hl hlstart) (hlmax m hm hmstart)
          exact (List.prefix_of_prefix_length_le hlstart hmstart hlength.le).eq_of_length hlength
      | unknown hblank hnone => exact absurd hlstart (hnone l hl)
  | unknown hblank hnone =>
      cases hm with
      | piece hm hmstart hmmax => exact absurd hmstart (hnone m hm)
      | unknown => rfl

/-- A longest piece is the longest one of its own characters too. -/
theorem IsLongest.alone (h : IsLongest text l) : IsLongest l.chars l := by
  cases h with
  | piece hl hstart hmax =>
      exact .piece hl List.prefix_rfl fun m _ hm => hm.length_le
  | @unknown c cs hblank hnone =>
      refine .unknown hblank fun m hm hstart => hnone m hm (hstart.trans ?_)
      exact List.cons_prefix_cons.2 ⟨rfl, List.nil_prefix⟩

theorem IsLongest.exists_cons (h : IsLongest text l) :
    ∃ c cs, l.chars = c :: cs ∧ isBlank c = false := by
  cases h with
  | unknown hblank => exact ⟨_, [], rfl, hblank⟩
  | piece hl hstart hmax =>
      obtain ⟨c, cs, hchars⟩ := List.exists_cons_of_ne_nil hl.chars_ne_nil
      refine ⟨c, cs, hchars, ?_⟩
      obtain ⟨hc, -⟩ | ⟨-, hnumber, -⟩ | ⟨p, hp, -⟩ := hl.cases_cons hchars
      · exact isBlank_of_startsWord hc
      · simp only [startsNumber, Bool.or_eq_true, Bool.and_eq_true, decide_eq_true_eq] at hnumber
        obtain hdigit | ⟨rfl, -⟩ := hnumber
        · have hrange := isDigit_iff_toNat.1 hdigit
          exact isBlank_of_visible (by omega) (by omega)
        · decide
      · exact (Punctuator.chars_head (p := p) (c := c) (by rw [hp]; rfl)).2.1

theorem IsLongest.eq_mark {p : Punctuator} (h : IsLongest text l) (hl : l.kind = .punct p) :
    l = mark p := by
  cases h with
  | unknown => cases hl
  | piece hpiece =>
      cases hpiece with
      | punct q =>
          cases hl
          rfl
      | _ => cases hl

/-- A piece of a text is one lexeme by itself. -/
theorem IsLongest.lexemes_eq (h : IsLongest text l) : Tokens.lexemes l.chars = [l] := by
  obtain ⟨c, cs, hchars, hblank⟩ := h.exists_cons
  have halone := h.alone
  rw [hchars] at halone
  have hsplit := (split_isLongest hblank cs).unique halone
  have happend := split_append c cs
  rw [hsplit, hchars] at happend
  rw [hchars, Tokens.lexemes_piece hblank, hsplit, List.append_right_eq_self.1 happend,
    Tokens.lexemes_nil]

end Lexeme

end WatchExpr
