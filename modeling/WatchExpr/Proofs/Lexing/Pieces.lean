import WatchExpr.Proofs.Lexing.Lexemes

/-!
# Pieces of a text

A word, a number or a punctuator at the start of a text is one lexeme if the character behind it does
not go on with it.
-/

namespace WatchExpr

namespace Lexeme

/-- A punctuator as a lexeme. -/
def mark (p : Punctuator) : Lexeme :=
  ⟨.punct p, p.chars⟩

/-- A word as a lexeme. -/
def word (w : List Char) : Lexeme :=
  ⟨wordKind w, w⟩

/-- Characters that a word consists of. -/
def IsWord (w : List Char) : Prop :=
  ∃ c cs, w = c :: cs ∧ startsWord c ∧ ∀ d ∈ cs, continuesWord d

/-- Characters that go on with no number. -/
def EndsNumber (d : Char) : Prop :=
  ∀ previous, continuesNumber previous d = false

end Lexeme

/-- Tokens whose first lexeme is a punctuator. -/
theorem exists_mark {p : Punctuator} {ls : List Lexeme} {ts : List Token}
    (h : ts.map Token.lexeme = Lexeme.mark p :: ls) :
    ∃ t us, ts = t :: us ∧ t.kind = .punct p ∧ us.map Token.lexeme = ls := by
  obtain ⟨t, us, rfl, ht, hus⟩ := List.map_eq_cons_iff.1 h
  exact ⟨t, us, rfl, congrArg Lexeme.kind ht, hus⟩

theorem exists_last_mark {p : Punctuator} {ts : List Token}
    (h : ts.map Token.lexeme = [Lexeme.mark p]) : ∃ t, ts = [t] ∧ t.kind = .punct p := by
  obtain ⟨t, us, rfl, ht, hus⟩ := exists_mark h
  obtain rfl := List.map_eq_nil_iff.1 hus
  exact ⟨t, rfl, ht⟩

/-- The characters that would go on with a punctuator to a longer one. -/
def Punctuator.extensions (p : Punctuator) : List Char :=
  all.filterMap fun q => if p.chars.isPrefixOf q.chars then q.chars[p.chars.length]? else none

open Lexeme Text

variable {c : Char} {cs rest : List Char}

/-! ## Characters -/

theorem isBlank_of_visible (hlo : 33 ≤ c.toNat) (hhi : c.toNat ≤ 126) : isBlank c = false := by
  simp only [isBlank, blankRanges, List.any_cons, List.any_nil, Bool.or_false,
    Bool.or_eq_false_iff, Bool.and_eq_false_iff, decide_eq_false_iff_not]
  omega

theorem isAlpha_iff_toNat :
    c.isAlpha ↔ 65 ≤ c.toNat ∧ c.toNat ≤ 90 ∨ 97 ≤ c.toNat ∧ c.toNat ≤ 122 := by
  have halpha : c.isAlpha = (decide ('A'.val ≤ c.val ∧ c.val ≤ 'Z'.val) ||
      (decide ('a'.val ≤ c.val) && decide (c.val ≤ 'z'.val))) := rfl
  rw [halpha, Bool.or_eq_true, Bool.and_eq_true, decide_eq_true_eq, decide_eq_true_eq,
    decide_eq_true_eq]
  exact Iff.rfl

theorem isDigit_iff_toNat : c.isDigit ↔ 48 ≤ c.toNat ∧ c.toNat ≤ 57 :=
  Char.isDigit_iff_toNat

theorem visible_of_continuesWord (h : continuesWord c) : 33 ≤ c.toNat ∧ c.toNat ≤ 126 := by
  simp only [continuesWord, Char.isAlphanum, Bool.or_eq_true, decide_eq_true_eq] at h
  rcases h with (h | h) | rfl
  · have := isAlpha_iff_toNat.1 h
    omega
  · have := isDigit_iff_toNat.1 h
    omega
  · decide

theorem isDigit_of_startsWord (h : startsWord c) : c.isDigit = false := by
  simp only [startsWord, Bool.or_eq_true, decide_eq_true_eq] at h
  rcases h with h | rfl
  · have halpha := isAlpha_iff_toNat.1 h
    refine Bool.eq_false_iff.2 fun hdigit => ?_
    have := isDigit_iff_toNat.1 hdigit
    omega
  · rfl

theorem continuesWord_of_startsWord (h : startsWord c) : continuesWord c := by
  simp only [startsWord, continuesWord, Char.isAlphanum, Bool.or_eq_true] at h ⊢
  cases h with
  | inl h => exact .inl (.inl h)
  | inr h => exact .inr h

theorem isBlank_of_continuesWord (h : continuesWord c) : isBlank c = false :=
  isBlank_of_visible (visible_of_continuesWord h).1 (visible_of_continuesWord h).2

theorem isBlank_of_startsWord (h : startsWord c) : isBlank c = false :=
  isBlank_of_continuesWord (continuesWord_of_startsWord h)

/-! ## Blanks and words -/

theorem isWord_iff {w : List Char} :
    (w.head?.any startsWord && w.all continuesWord) ↔ IsWord w := by
  cases w with
  | nil =>
      constructor
      · intro h
        cases h
      · rintro ⟨c, cs, h, -⟩
        cases h
  | cons c cs =>
      simp only [List.head?_cons, Option.any_some, List.all_cons, Bool.and_eq_true,
        List.all_eq_true]
      constructor
      · rintro ⟨hc, -, hcs⟩
        exact ⟨c, cs, rfl, hc, hcs⟩
      · rintro ⟨c, cs, h, hc, hcs⟩
        cases h
        exact ⟨hc, continuesWord_of_startsWord hc, hcs⟩

instance (w : List Char) : Decidable (IsWord w) :=
  decidable_of_iff _ isWord_iff

namespace Tokens

theorem lexemes_space : lexemes (' ' :: rest) = lexemes rest :=
  lexemes_blank (by decide) rest

theorem lexemes_word {w : List Char} (hw : IsWord w)
    (hrest : ∀ d ∈ rest.head?, continuesWord d = false) :
    lexemes (w ++ rest) = word w :: lexemes rest := by
  obtain ⟨c, cs, rfl, hc, hcs⟩ := hw
  have htake : (cs ++ rest).takeWhile continuesWord = cs := by
    rw [List.takeWhile_append_of_pos hcs]
    cases rest with
    | nil => simp
    | cons d rest => simp [hrest d rfl]
  have hdrop : (cs ++ rest).dropWhile continuesWord = rest := by
    rw [List.dropWhile_append_of_pos hcs]
    cases rest with
    | nil => rfl
    | cons d rest => simp [hrest d rfl]
  have hsplit : split c (cs ++ rest) = (word (c :: cs), rest) := by
    rw [split, if_pos hc, htake, hdrop]
    rfl
  rw [List.cons_append, lexemes_piece (isBlank_of_startsWord hc), hsplit]

/-! ## Numbers -/

theorem splitNumber_append_of_ends {previous : Char}
    (h : splitNumber previous cs = (cs, [])) (hrest : ∀ d ∈ rest.head?, EndsNumber d) :
    splitNumber previous (cs ++ rest) = (cs, rest) := by
  induction cs generalizing previous with
  | nil =>
      cases rest with
      | nil => rfl
      | cons d rest => simp [splitNumber, hrest d rfl previous]
  | cons c cs ih =>
      simp only [splitNumber] at h
      split at h
      · rename_i hc
        have hsplit : splitNumber c cs = (cs, []) := by
          obtain ⟨h₁, h₂⟩ := Prod.mk.inj h
          exact Prod.ext (List.cons.inj h₁).2 h₂
        simp only [List.cons_append, splitNumber, hc, if_true, ih hsplit]
      · cases h

/-- A text that is one lexeme is that lexeme. -/
theorem eq_split_of_lexemes {l : Lexeme} (hc : isBlank c = false) (hl : l.chars = c :: cs)
    (h : lexemes (c :: cs) = [l]) : split c cs = (l, []) := by
  rw [lexemes_piece hc] at h
  obtain ⟨hpiece, -⟩ := List.cons.inj h
  have happend := split_append c cs
  rw [hpiece, hl] at happend
  exact Prod.ext hpiece (List.append_right_eq_self.1 happend)

theorem startsNumber_of_split {l : Lexeme} (h : split c cs = (l, [])) (hl : l.kind = .number) :
    startsWord c = false ∧ startsNumber c cs ∧ splitNumber c cs = (cs, []) := by
  unfold split at h
  split at h
  · obtain ⟨rfl, -⟩ := Prod.mk.inj h
    unfold wordKind at hl
    split at hl <;> cases hl
  · rename_i hword
    split at h
    · rename_i hnumber
      obtain ⟨-, h₂⟩ := Prod.mk.inj h
      have happend := splitNumber_append c cs
      rw [h₂, List.append_nil] at happend
      exact ⟨by simpa using hword, hnumber, Prod.ext happend h₂⟩
    · split at h <;> obtain ⟨rfl, -⟩ := Prod.mk.inj h <;> cases hl

theorem startsNumber_append (h : startsNumber c cs) : startsNumber c (cs ++ rest) := by
  simp only [startsNumber, Bool.or_eq_true, Bool.and_eq_true] at h ⊢
  refine h.imp_right fun ⟨hpoint, hdigit⟩ => ⟨hpoint, ?_⟩
  cases cs with
  | nil => simp at hdigit
  | cons d cs => exact hdigit

theorem lexemes_number (hblank : ∀ d ∈ cs.head?, isBlank d = false)
    (hcs : lexemes cs = [⟨.number, cs⟩]) (hrest : ∀ d ∈ rest.head?, EndsNumber d) :
    lexemes (cs ++ rest) = ⟨.number, cs⟩ :: lexemes rest := by
  cases cs with
  | nil => simp at hcs
  | cons c cs =>
      have hc : isBlank c = false := hblank c rfl
      obtain ⟨hword, hnumber, hsplit⟩ := startsNumber_of_split (eq_split_of_lexemes hc rfl hcs) rfl
      have hpiece : split c (cs ++ rest) = (⟨.number, c :: cs⟩, rest) := by
        rw [split, if_neg (by simp [hword]), if_pos (startsNumber_append hnumber),
          splitNumber_append_of_ends hsplit hrest]
      rw [List.cons_append, lexemes_piece hc, hpiece]

end Tokens

/-! ## Punctuators -/

namespace Punctuator

variable {p q : Punctuator}

theorem mem_extensions {d : Char} (hp : p.chars <+: q.chars) (hd : q.chars[p.chars.length]? = some d) :
    d ∈ p.extensions := by
  refine List.mem_filterMap.2 ⟨q, mem_all q, ?_⟩
  rw [if_pos (List.isPrefixOf_iff_prefix.2 hp), hd]

/-- A character that goes on with no punctuator leaves the same ones at the start of a text. -/
theorem isPrefixOf_append (hrest : ∀ d ∈ rest.head?, d ∉ p.extensions) :
    q.chars.isPrefixOf (p.chars ++ rest) = q.chars.isPrefixOf p.chars := by
  rw [Bool.eq_iff_iff, List.isPrefixOf_iff_prefix, List.isPrefixOf_iff_prefix]
  refine ⟨fun h => ?_, fun h => h.trans (List.prefix_append _ _)⟩
  cases List.prefix_or_prefix_of_prefix h (List.prefix_append p.chars rest) with
  | inl h => exact h
  | inr hp =>
      obtain ⟨more, hmore⟩ := hp
      rw [← hmore, List.prefix_append_right_inj] at h
      cases more with
      | nil => simp [← hmore]
      | cons d more =>
          obtain ⟨tail, rfl⟩ := h
          refine absurd (mem_extensions ⟨d :: more, hmore⟩ ?_) (hrest d rfl)
          simp [← hmore]

theorem longest?_append (hrest : ∀ d ∈ rest.head?, d ∉ p.extensions) :
    longest? (p.chars ++ rest) = some p := by
  have hself : ∀ p ∈ all, longest? p.chars = some p := by decide
  rw [← hself p (mem_all p)]
  exact congrArg (all.find? ·) (funext fun q => isPrefixOf_append hrest)

/-- Punctuators start neither words nor numbers, except for the period. -/
theorem chars_head {c : Char} (hc : c ∈ p.chars.head?) :
    startsWord c = false ∧ isBlank c = false ∧ c.isDigit = false ∧ (c = '.' → p = .period) := by
  have hall : ∀ p ∈ all, p.chars.head?.all fun c => startsWord c = false ∧ isBlank c = false ∧
      c.isDigit = false ∧ (c = '.' → p = .period) := by
    decide
  have hp := hall p (mem_all p)
  rw [hc] at hp
  exact of_decide_eq_true hp

end Punctuator

namespace Tokens

theorem lexemes_mark {p : Punctuator} (hrest : ∀ d ∈ rest.head?, d ∉ p.extensions)
    (hperiod : p = .period → ∀ d ∈ rest.head?, d.isDigit = false) :
    lexemes (p.chars ++ rest) = mark p :: lexemes rest := by
  have hlongest := Punctuator.longest?_append hrest
  cases hp : p.chars with
  | nil => exact absurd hp p.chars_ne_nil
  | cons c cs =>
      obtain ⟨hword, hblank, hdigit, hpoint⟩ := Punctuator.chars_head (by rw [hp]; rfl)
      have hnumber : startsNumber c (cs ++ rest) = false := by
        simp only [startsNumber, hdigit, Bool.false_or, Bool.and_eq_false_iff]
        by_cases hc : c = '.'
        · obtain rfl := hpoint hc
          cases hp
          refine .inr ?_
          cases rest with
          | nil => rfl
          | cons d rest => exact hperiod rfl d rfl
        · exact .inl (by simpa using hc)
      have hpiece : split c (cs ++ rest) = (mark p, rest) := by
        rw [hp, List.cons_append] at hlongest
        rw [split, if_neg (by simp [hword]), if_neg (by simp [hnumber]), hlongest]
        simp [mark, hp]
      rw [List.cons_append, lexemes_piece hblank, hpiece]

/-- A punctuator that no character goes on with. -/
theorem lexemes_closed_mark {p : Punctuator} (hp : p.extensions = []) (hperiod : p ≠ .period) :
    lexemes (p.chars ++ rest) = mark p :: lexemes rest :=
  lexemes_mark (fun d _ => by simp [hp]) fun h => absurd h hperiod

theorem lexemes_lParen : lexemes ('(' :: rest) = mark .lParen :: lexemes rest :=
  lexemes_closed_mark (p := .lParen) (by decide) (by decide)

theorem lexemes_rParen : lexemes (')' :: rest) = mark .rParen :: lexemes rest :=
  lexemes_closed_mark (p := .rParen) (by decide) (by decide)

theorem lexemes_lSquare : lexemes ('[' :: rest) = mark .lSquare :: lexemes rest :=
  lexemes_closed_mark (p := .lSquare) (by decide) (by decide)

theorem lexemes_rSquare : lexemes (']' :: rest) = mark .rSquare :: lexemes rest :=
  lexemes_closed_mark (p := .rSquare) (by decide) (by decide)

theorem lexemes_colonColon : lexemes (':' :: ':' :: rest) = mark .colonColon :: lexemes rest :=
  lexemes_closed_mark (p := .colonColon) (by decide) (by decide)

end Tokens

end WatchExpr
