import WatchExpr.Proofs.Grammar.TypeIds
import WatchExpr.Proofs.Lexing.Layout
import WatchExpr.Proofs.Lexing.Spacing

/-!
# Canonical names

The canonical text of a name is that of its tokens one behind the other, with a space between two words
and behind a comma. Cut into tokens again, it may have other tokens, since some of them run together,
but its spaces stand where they belong. So if it is read as a name again, it is read as itself, unless a
space is missing between two words that touch.
-/

namespace WatchExpr

open Lexeme Text

namespace Token

/-- The second token starts where the first one ends. -/
def Touches (t u : Token) : Prop :=
  t.location.offset + t.spelling.utf8ByteSize = u.location.offset

/-- The token ends where this text does. -/
def EndsBehind (t : Token) (before : List Char) : Prop :=
  t.location.offset + t.spelling.utf8ByteSize = (Location.behind before).offset

/-- The tokens are not two words that touch. -/
def WordsApart (t u : Token) : Prop :=
  t.isWord = true → u.isWord = true → ¬t.Touches u

theorem isWord_lexeme (t : Token) : t.lexeme.isWord = t.isWord := by
  rw [Lexeme.isWord, lexeme, String.ofList_toList]
  rfl

end Token

namespace Grammar

variable {finish : EndMark} {ts us rest : List Token} {t p : Token} {w : Bool} {c : Char}
  {name text : String} {before cs : List Char}

theorem toList_templatePiece (w : Bool) (t : Token) :
    (templatePiece w t).toList = (if t.isWord && w then [' '] else []) ++ t.spelling.toList ++
      (if t.kind = .punct .comma then [' '] else []) := by
  rw [templatePiece, String.toList_append, String.toList_append]
  congr 2
  · split <;> rfl
  · split <;> rfl

/-! ## Spaces -/

/-- The canonical text of tokens of a text has canonical spaces. -/
theorem spaced_canonicalText (h : ∀ t ∈ ts, ∃ text, IsLongest text t.lexeme) :
    Spaced w (canonicalText w ts).toList := by
  induction ts generalizing w with
  | nil => exact .nil
  | cons t ts ih =>
      obtain ⟨⟨text, ht⟩, hts⟩ := List.forall_mem_cons.1 h
      have hrest := @ih t.isWord hts
      rw [canonicalText, String.toList_append, toList_templatePiece]
      obtain ⟨hp, hword, hkind⟩ | hcomma | ⟨hne, hmarks, hword, hkind⟩ := ht.cases
      · rw [Token.isWord_lexeme] at hword
        have hkind : t.kind ≠ .punct .comma := hkind
        rw [hword] at hrest
        cases w with
        | true => simpa [hword, hkind, Token.lexeme] using Spaced.space hp hrest
        | false => simpa [hword, hkind, Token.lexeme] using Spaced.word hp hrest
      · have hword : t.isWord = false := by
          rw [← Token.isWord_lexeme, hcomma]
          exact isWord_mark .comma
        have hkind : t.kind = .punct .comma := congrArg Lexeme.kind hcomma
        have hchars : t.spelling.toList = [','] := congrArg Lexeme.chars hcomma
        rw [hword] at hrest
        simpa [hword, hkind, hchars] using Spaced.comma hrest
      · rw [Token.isWord_lexeme] at hword
        have hkind : t.kind ≠ .punct .comma := hkind
        rw [hword] at hrest
        simpa [hword, hkind, Token.lexeme] using Spaced.of_isMarkChar hne hmarks hrest

/-- The canonical text of the tokens of a text behind a token is this text, unless two words touch. -/
def Reproduces (p : Token) (before cs : List Char) : Prop :=
  (canonicalText p.isWord (Tokens.lexFrom (.behind before) cs).body).toList = cs ↔
    (p :: (Tokens.lexFrom (.behind before) cs).body).IsChain Token.WordsApart

/-- The token cut off where a text stands. -/
def cutToken (before : List Char) (l : Lexeme) : Token :=
  ⟨l.kind, String.ofList l.chars, .behind before⟩

theorem lexFrom_cutToken (hblank : isBlank c = false) (before cs : List Char) :
    (Tokens.lexFrom (.behind before) (c :: cs)).body =
      cutToken before (split c cs).1 ::
        (Tokens.lexFrom (.behind (before ++ (split c cs).1.chars)) (split c cs).2).body := by
  rw [Tokens.lexFrom_piece hblank, Location.advance_behind]
  rfl

theorem isWord_cutToken (before : List Char) (l : Lexeme) : (cutToken before l).isWord = l.isWord := by
  rw [← Token.isWord_lexeme, Token.lexeme, cutToken, String.toList_ofList]

/-- A piece behind a space, or else not behind a word that it touches, is followed by its own text. -/
theorem canonicalText_cutToken {l : Lexeme} (hkind : l.kind ≠ .punct .comma) (w : Bool)
    (ts : List Token) :
    (canonicalText w (cutToken before l :: ts)).toList =
      (if l.isWord && w then [' '] else []) ++ (l.chars ++ (canonicalText l.isWord ts).toList) := by
  have hcomma : (cutToken before l).kind ≠ .punct .comma := hkind
  rw [canonicalText, String.toList_append, toList_templatePiece, if_neg hcomma, isWord_cutToken]
  simp [cutToken]

/-- A piece that stands right behind a token is reproduced as the text behind it is, but not if it is a
word that touches a word. -/
theorem reproduces_piece (hblank : isBlank c = false)
    (hkind : (split c cs).1.kind ≠ .punct .comma) (hend : p.isWord = true → p.EndsBehind before)
    (h : Reproduces (cutToken before (split c cs).1) (before ++ (split c cs).1.chars) (split c cs).2) :
    Reproduces p before (c :: cs) := by
  have happend := split_append c cs
  rw [Reproduces, lexFrom_cutToken hblank, canonicalText_cutToken hkind, List.isChain_cons_cons]
  rw [Reproduces, isWord_cutToken] at h
  generalize split c cs = piece at *
  by_cases hwords : piece.1.isWord = true ∧ p.isWord = true
  · rw [if_pos (by simp [hwords])]
    refine iff_of_false (fun heq => ?_) fun hapart => ?_
    · obtain ⟨rfl, -⟩ := List.cons.inj heq
      cases hblank
    · have hword : (cutToken before piece.1).isWord = true := (isWord_cutToken _ _).trans hwords.1
      exact hapart.1 hwords.2 hword (hend hwords.2)
  · have hapart : p.WordsApart (cutToken before piece.1) := fun hp ht =>
      absurd ⟨(isWord_cutToken before _).symm.trans ht, hp⟩ hwords
    rw [if_neg (by simpa using hwords), List.nil_append, ← happend, List.append_right_inj, h]
    exact (and_iff_right hapart).symm

/-- A word behind a space is reproduced behind a word. -/
theorem reproduces_space (hblank : isBlank c = false)
    (hkind : (split c cs).1.kind ≠ .punct .comma) (hword : (split c cs).1.isWord = true)
    (hp : p.isWord = true) (hend : p.EndsBehind before)
    (h : Reproduces (cutToken (before ++ [' ']) (split c cs).1)
      (before ++ [' '] ++ (split c cs).1.chars) (split c cs).2) :
    Reproduces p before (' ' :: c :: cs) := by
  have happend := split_append c cs
  have hspace : isBlank ' ' = true := by decide
  rw [Reproduces, Tokens.lexFrom_blank hspace, Location.step_behind, lexFrom_cutToken hblank,
    canonicalText_cutToken hkind, List.isChain_cons_cons]
  rw [Reproduces, isWord_cutToken] at h
  generalize split c cs = piece at *
  have hapart : p.WordsApart (cutToken (before ++ [' ']) piece.1) := by
    intro _ _ htouches
    have hplace : (Location.behind before).offset = (Location.behind (before ++ [' '])).offset :=
      hend.symm.trans htouches
    rw [Location.behind_append_offset] at hplace
    exact absurd (Nat.left_eq_add.1 hplace) (by decide)
  rw [if_pos (by simp [hword, hp]), List.singleton_append, List.cons_inj_right, ← happend,
    List.append_right_inj, h]
  exact (and_iff_right hapart).symm

/-- A comma is reproduced with the space behind it. -/
theorem reproduces_comma {rest : List Char}
    (h : Reproduces (cutToken before (mark .comma)) (before ++ [','] ++ [' ']) rest) :
    Reproduces p before (',' :: ' ' :: rest) := by
  have hsplit : split ',' (' ' :: rest) = (mark .comma, ' ' :: rest) := rfl
  have hlex : (Tokens.lexFrom (.behind before) (',' :: ' ' :: rest)).body =
      cutToken before (mark .comma) ::
        (Tokens.lexFrom (.behind (before ++ [','] ++ [' '])) rest).body := by
    rw [lexFrom_cutToken rfl, hsplit, Tokens.lexFrom_blank rfl, Location.step_behind]
    rfl
  have hword : (cutToken before (mark .comma)).isWord = false :=
    (isWord_cutToken _ _).trans (isWord_mark .comma)
  have htext (ts : List Token) :
      (canonicalText p.isWord (cutToken before (mark .comma) :: ts)).toList =
        ',' :: ' ' :: (canonicalText false ts).toList := by
    rw [canonicalText, String.toList_append, toList_templatePiece, hword, Bool.false_and,
      if_neg Bool.false_ne_true, cutToken, String.toList_ofList]
    rfl
  have hapart : p.WordsApart (cutToken before (mark .comma)) := fun _ ht =>
    absurd ht (by simp [hword])
  rw [Reproduces, hword] at h
  rw [Reproduces, hlex, htext, List.isChain_cons_cons, List.cons_inj_right, List.cons_inj_right, h]
  exact (and_iff_right hapart).symm

/-- Shorter texts with canonical spaces are reproduced. -/
def ReproducesBelow (n : Nat) : Prop :=
  ∀ w p before cs, cs.length < n → Spaced w cs → (w = true → p.isWord = true) →
    (p.isWord = true → p.EndsBehind before) → Reproduces p before cs

theorem endsBehind_cutToken (before : List Char) (l : Lexeme) :
    (cutToken before l).EndsBehind (before ++ l.chars) :=
  (Location.behind_append_offset _ _).symm

/-- Behind a piece the rest of the text is reproduced. -/
theorem ReproducesBelow.piece (ih : ReproducesBelow (c :: cs).length)
    (h : Spaced.Leaves (split c cs).1 (split c cs).2) :
    Reproduces (cutToken before (split c cs).1) (before ++ (split c cs).1.chars) (split c cs).2 := by
  obtain ⟨w, hspaced, hword⟩ := h.spaced
  have hlength := Nat.lt_succ_of_le (split_rest_length_le c cs)
  refine ih w _ _ _ hlength hspaced (fun hw => ?_) fun _ => endsBehind_cutToken before _
  exact (isWord_cutToken _ _).trans (hword hw)

theorem reproduces_of_spaced (h : Spaced w cs) (hw : w = true → p.isWord = true)
    (hend : p.isWord = true → p.EndsBehind before) : Reproduces p before cs := by
  induction hn : cs.length using Nat.strongRecOn generalizing w p before cs with
  | ind n ih =>
      have hbelow : ReproducesBelow cs.length := fun w p before cs hlt h hw hend =>
        ih _ (hn ▸ hlt) h hw hend rfl
      cases h with
      | nil =>
          rw [Reproduces, Tokens.lexFrom]
          exact iff_of_true rfl (List.isChain_singleton p)
      | comma h =>
          have hword : (cutToken before (mark .comma)).isWord = false :=
            (isWord_cutToken _ _).trans (isWord_mark .comma)
          refine reproduces_comma (hbelow false _ _ _ ?_ h Bool.noConfusion fun ht => ?_)
          · exact Nat.lt_succ_of_lt (Nat.lt_succ_self _)
          · cases hword.symm.trans ht
      | mark hc h =>
          have hleaves := h.split_mark hc
          exact reproduces_piece hc.isBlank hleaves.ne_comma hend (hbelow.piece hleaves)
      | word hp h =>
          obtain ⟨c, cs, rfl, hc⟩ := hp.exists_cons
          obtain ⟨hleaves, -⟩ := Spaced.split_word hp h
          exact reproduces_piece hc hleaves.ne_comma hend (hbelow.piece hleaves)
      | space hp h =>
          obtain ⟨c, cs, rfl, hc⟩ := hp.exists_cons
          obtain ⟨hleaves, hword⟩ := Spaced.split_word hp h
          have hbelow : ReproducesBelow (c :: (cs ++ _)).length := fun w p before us hlt =>
            hbelow w p before us (Nat.lt_succ_of_lt hlt)
          exact reproduces_space hc hleaves.ne_comma hword (hw rfl) (hend (hw rfl))
            (hbelow.piece hleaves)

/-! ## Names -/

theorem isWord_eq_false_of_punct {q : Punctuator} (ht : t.IsCut) (hk : t.kind = .punct q) :
    t.isWord = false := by
  have hlexeme : t.lexeme = mark q := by
    rw [Token.lexeme, ht.spelling_eq hk, hk]
    rfl
  rw [← Token.isWord_lexeme, hlexeme]
  exact isWord_mark q

theorem templatePiece_eq_spelling (hword : w = false ∨ t.isWord = false)
    (hk : t.kind ≠ .punct .comma) : templatePiece w t = t.spelling := by
  have hspace : ¬(t.isWord && w) = true := by
    obtain rfl | hword := hword
    · simp
    · simp [hword]
  rw [← String.toList_inj, toList_templatePiece, if_neg hspace, if_neg hk, List.nil_append,
    List.append_nil]

theorem templatePiece_punct {q : Punctuator} (ht : t.IsCut) (hk : t.kind = .punct q)
    (hq : q ≠ .comma) : templatePiece w t = String.ofList q.chars := by
  have hcomma : t.kind ≠ .punct .comma := by simpa [hk] using hq
  rw [templatePiece_eq_spelling (.inr (isWord_eq_false_of_punct ht hk)) hcomma, ← ht.spelling_eq hk,
    String.ofList_toList]

/-- Behind a token that is no word, the canonical text goes on as at its start. -/
theorem canonicalText_append (ht : t.isWord = false) :
    canonicalText w (us ++ t :: ts) = canonicalText w (us ++ [t]) ++ canonicalText false ts := by
  induction us generalizing w with
  | nil => simp [canonicalText, ht]
  | cons u us ih =>
      rw [List.cons_append, List.cons_append, canonicalText, canonicalText, ih, String.append_assoc]

/-- The text is the canonical one of the tokens in front of the others, the last of which is no word. -/
def TextOfFirst (w : Bool) (ts rest : List Token) (text : String) : Prop :=
  ∃ us t, ts = us ++ t :: rest ∧ t.isWord = false ∧ text = canonicalText w (us ++ [t])

theorem TextOfFirst.cons (h : TextOfFirst t.isWord ts rest text) :
    TextOfFirst w (t :: ts) rest (templatePiece w t ++ text) := by
  obtain ⟨us, u, rfl, hu, rfl⟩ := h
  exact ⟨t :: us, u, rfl, hu, rfl⟩

theorem templateArguments_canonical (hts : ∀ t ∈ ts, t.IsCut)
    (h : templateArguments finish ts = .ok text rest) : TextOfFirst w ts rest text := by
  obtain ⟨l, us, t, rfl, hless, hcloses, rfl⟩ := templateArguments_ends h
  obtain ⟨hcut, hus⟩ := List.forall_mem_cons.1 hts
  have ht : t.IsCut := hus t (by simp)
  have hmark : t.kind = .punct .greater ∨ t.kind = .punct .greaterGreater := by
    simpa [closesTemplate] using hcloses
  refine ⟨l :: us, t, rfl, ?_, ?_⟩
  · exact hmark.elim (isWord_eq_false_of_punct ht) (isWord_eq_false_of_punct ht)
  · rw [List.cons_append, canonicalText, templatePiece_punct hcut hless (by simp),
      isWord_eq_false_of_punct hcut hless]
    rfl

theorem canonicalText_scope (ht : t.IsCut) (hk : t.kind = .punct .colonColon) :
    canonicalText w [t] = "::" := by
  rw [canonicalText, canonicalText, String.append_empty, templatePiece_punct ht hk (by simp)]
  rfl

/-- A component of a name is the canonical text of its tokens. -/
theorem component?_canonical (hts : ∀ t ∈ ts, t.IsCut) (h : component? finish ts = some (text, rest)) :
    TextOfFirst false ts rest text := by
  obtain ⟨t, us, s, args, rfl, ht, hs, rfl, hargs⟩ := component?_cases h
  obtain ⟨-, hus⟩ := List.forall_mem_cons.1 hts
  have hcomma : t.kind ≠ .punct .comma := by simp [ht]
  rw [← templatePiece_eq_spelling (.inl rfl) hcomma, String.append_assoc]
  apply TextOfFirst.cons
  obtain hargs | ⟨rfl, rfl⟩ := hargs
  · obtain ⟨vs, v, rfl, hv, rfl⟩ := templateArguments_canonical (w := t.isWord) hus hargs
    have hcut : s.IsCut := hus s (by simp)
    refine ⟨vs ++ [v], s, by simp, isWord_eq_false_of_punct hcut hs, ?_⟩
    rw [← canonicalText_scope (w := false) hcut hs, ← canonicalText_append hv, List.append_assoc]
    rfl
  · obtain ⟨hcut, -⟩ := List.forall_mem_cons.1 hus
    refine ⟨[], s, rfl, isWord_eq_false_of_punct hcut hs, ?_⟩
    rw [String.empty_append, List.nil_append, canonicalText_scope hcut hs]

theorem nestedName_canonical (hts : ∀ t ∈ ts, t.IsCut)
    (h : expect finish .identifier (nestedName finish ts).2 = .ok t rest) :
    ∃ us, ts = us ++ rest ∧ (nestedName finish ts).1 ++ t.spelling = canonicalText false us := by
  induction hn : ts.length using Nat.strongRecOn generalizing ts with
  | ind n ih =>
      cases hc : component? finish ts with
      | none =>
          rw [nestedName_of_none hc] at h ⊢
          obtain ⟨rfl, ht⟩ := (expect_eq_ok_iff (by simp)).1 h
          have hcomma : t.kind ≠ .punct .comma := by simp [ht]
          refine ⟨[t], rfl, ?_⟩
          rw [canonicalText, canonicalText, templatePiece_eq_spelling (.inl rfl) hcomma,
            String.empty_append, String.append_empty]
      | some q =>
          obtain ⟨text, inner⟩ := q
          have hinner : ∀ u ∈ inner, u.IsCut := fun u hu =>
            hts u ((component?_isSuffix hc).subset hu)
          rw [nestedName_of_some hc] at h ⊢
          obtain ⟨us, rfl, hname⟩ := ih _ (hn ▸ component?_rest_length_lt hc) hinner h rfl
          obtain ⟨vs, s, rfl, hs, rfl⟩ := component?_canonical hts hc
          refine ⟨vs ++ s :: us, by simp, ?_⟩
          rw [String.append_assoc, hname]
          exact (canonicalText_append hs).symm

/-- A qualified name is the canonical text of its tokens. -/
theorem qualifiedName_canonical (hts : ∀ t ∈ ts, t.IsCut)
    (h : qualifiedName finish ts = .ok name rest) :
    ∃ us, ts = us ++ rest ∧ name = canonicalText false us := by
  obtain ⟨-, t, ht, rfl⟩ | ⟨s, inner, t, rfl, hs, ht, rfl⟩ := qualifiedName_cases h
  · exact nestedName_canonical hts ht
  · obtain ⟨hcut, hinner⟩ := List.forall_mem_cons.1 hts
    obtain ⟨us, rfl, hname⟩ := nestedName_canonical hinner ht
    refine ⟨s :: us, rfl, ?_⟩
    rw [hname, canonicalText, isWord_eq_false_of_punct hcut hs, templatePiece_punct hcut hs (by simp)]
    rfl

/-- The components of a name and its last identifier are read again from their own tokens. -/
theorem nestedName_rereads (h : expect finish .identifier (nestedName finish ts).2 = .ok t rest) :
    ∃ before, ts = before ++ rest ∧ ∀ finish' us, SameTexts us before →
      ∃ u, expect finish' .identifier (nestedName finish' us).2 = .ok u [] ∧
        (nestedName finish' us).1 ++ u.spelling = (nestedName finish ts).1 ++ t.spelling := by
  obtain ⟨hrest, ht⟩ := (expect_eq_ok_iff (by simp)).1 h
  obtain ⟨scope, hts, hscope⟩ := nestedName_scope finish ts
  rw [hrest] at hts
  refine ⟨scope ++ [t], by simp [hts], fun finish' us hus => ?_⟩
  obtain ⟨xs, vs, rfl, hxs, hvs⟩ := hus.append_cases
  obtain ⟨u, rfl, hu⟩ := List.map_eq_singleton_iff.1 hvs
  have hkind : u.kind = .identifier := (SameTexts.kind hu).trans ht
  have hargs : templateArguments? finish' [] = .ok "" [] := templateArguments?_of_ne_less (by simp)
  have hlast : component? finish' [u] = none := by simp [component?, hkind, hargs]
  rw [hscope finish' xs [u] hxs hlast]
  exact ⟨u, (expect_eq_ok_iff (by simp)).2 ⟨rfl, hkind⟩, by rw [SameTexts.spelling hu]⟩

/-- A qualified name is read again from its own tokens. -/
theorem qualifiedName_rereads (h : qualifiedName finish ts = .ok name rest) :
    ∃ before, ts = before ++ rest ∧
      ∀ finish' us, SameTexts us before → qualifiedName finish' us = .ok name [] := by
  obtain ⟨-, t, ht, rfl⟩ | ⟨s, inner, t, rfl, hs, ht, rfl⟩ := qualifiedName_cases h
  · obtain ⟨before, rfl, hbefore⟩ := nestedName_rereads ht
    refine ⟨before, rfl, fun finish' us hus => ?_⟩
    obtain ⟨u, hu, hname⟩ := hbefore finish' us hus
    obtain ⟨v, vs, rfl, hv⟩ := nestedName_starts hu
    have hahead : NoScopeAhead (v :: vs) := fun z hz => by
      cases hz
      simp [hv]
    rw [qualifiedName, splitGlobal_of_noScopeAhead hahead]
    exact Outcome.map_eq_ok_iff.2 ⟨u, hu, by rw [String.empty_append, hname]⟩
  · obtain ⟨before, rfl, hbefore⟩ := nestedName_rereads ht
    refine ⟨s :: before, rfl, fun finish' us hus => ?_⟩
    obtain ⟨v, vs, rfl, hv, hvs⟩ := hus.cons_cases
    obtain ⟨u, hu, hname⟩ := hbefore finish' vs hvs
    rw [qualifiedName, splitGlobal_of_scope (hv.trans hs)]
    exact Outcome.map_eq_ok_iff.2 ⟨u, hu, by rw [String.append_assoc, hname]⟩

/-! ## Whole texts -/

variable {env : Env} {types : TypeNames}

/-- No group starts here. -/
def NoGroupAhead (ts : List Token) : Prop :=
  ∀ t ∈ ts.head?, t.kind ≠ .punct .lParen

/-- A rule that yields a name has read it, or was given it and has read nothing. Only names in
parentheses are not read from the first tokens. -/
def Rule.YieldsName (finish : EndMark) (name : String) (ts rest : List Token) : Rule → Prop
  | .operators _ e | .accesses e => e = .name name ∧ ts = rest
  | _ => (∃ us vs, us <:+ ts ∧ qualifiedName finish us = .ok name vs) ∧
      (NoGroupAhead ts → qualifiedName finish ts = .ok name rest)

theorem Runs.yieldsName {rule : Rule} {e : Expr} (h : Runs env rule ts e rest)
    (he : e = .name name) : rule.YieldsName env.finish name ts rest := by
  induction h with
  | expression _ ih => exact ih he
  | condition _ ih => exact ih he
  | choice _ _ _ _ _ => cases he
  | operand _ ih => exact ih he
  | level _ _ ihe ihf =>
      obtain ⟨hname, rfl⟩ := ihf he
      exact ihe hname
  | noOperator => exact ⟨he, rfl⟩
  | operator _ _ _ _ ih => cases (ih he).1
  | cast _ _ _ => cases he
  | uncast _ ih => exact ih he
  | unary _ _ => cases he
  | bare _ ih => exact ih he
  | access _ _ ihe ihf =>
      obtain ⟨hname, rfl⟩ := ihf he
      exact ihe hname
  | noAccess => exact ⟨he, rfl⟩
  | subscript _ _ _ _ _ ih => cases (ih he).1
  | member _ _ _ ih => cases (ih he).1
  | number _ _ => cases he
  | truth _ => cases he
  | group hl _ _ ih =>
      obtain ⟨⟨us, vs, hus, hname⟩, -⟩ := ih he
      exact ⟨⟨us, vs, hus.trans (List.suffix_cons _ _), hname⟩, fun hahead => absurd hl (hahead _ rfl)⟩
  | name hid =>
      cases he
      exact ⟨⟨_, _, List.suffix_refl _, hid⟩, fun _ => hid⟩

/-- A qualified name that nothing follows is read as an expression. -/
theorem run_qualifiedName (h : qualifiedName env.finish ts = .ok name []) :
    run env .expression ts = .ok (.name name) [] := by
  obtain ⟨t, us, rfl, ht⟩ := qualifiedName_starts h
  have hstarts : startsPrimary t.kind = true ∧ isMark .lParen t.kind = none := by
    obtain ht | ht := ht
    · rw [ht]
      exact ⟨rfl, rfl⟩
    · rw [ht]
      exact ⟨rfl, rfl⟩
  have hprimary : run env .primary (t :: us) = .ok (.name name) [] := by
    obtain ht | ht := ht
    · rw [run_primary_cons, ht, h]
      rfl
    · rw [run_primary_cons, ht, h]
      rfl
  have haccess : run env .access (t :: us) = .ok (.name name) [] := by
    rw [run_access, hprimary, Outcome.ok_andThen, run_accesses, accept?_nil]
  have hunary : run env .unary (t :: us) = .ok (.name name) [] := by
    have hop : accept? unaryOp? (t :: us) = none :=
      accept?_eq_none_iff.2 fun u hu => by cases hu; exact unaryOp?_of_startsPrimary hstarts.1
    rw [run_unary, hop]
    dsimp only
    rw [haccess]
    exact if_neg (by simp [isIncrement_of_startsPrimary hstarts.1])
  have hcast : run env .cast (t :: us) = .ok (.name name) [] := by
    have hgroup : accept? (isMark .lParen) (t :: us) = none :=
      accept?_eq_none_iff.2 fun u hu => by cases hu; exact hstarts.2
    rw [run_cast, hgroup]
    exact hunary
  have hbinary (p : Precedence) : run env (.binary p) (t :: us) = .ok (.name name) [] := by
    induction p with
    | zero => rw [run_binary_zero, hcast]
    | succ p ih => rw [run_binary_succ, ih, Outcome.ok_andThen, run_operators, accept?_nil]
  rw [run_expression, run_conditional, hbinary, Outcome.ok_andThen, accept?_nil, Outcome.ok_andThen]
  rfl

/-- A text that starts with no group is read as a name if all its tokens are one. -/
theorem read_eq_name_iff {text : String} (hahead : NoGroupAhead (Tokens.lex text).body) :
    Expr.read types text = .ok (.name name) ↔
      qualifiedName (Tokens.lex text).finish (Tokens.lex text).body = .ok name [] := by
  rw [read_expr_eq_ok_iff]
  constructor
  · intro h
    exact ((runs_of_run h).yieldsName rfl).2 hahead
  · intro h
    exact run_qualifiedName h

/-! ## Canonical names as texts -/

theorem exists_isLongest {text : String} (ht : t ∈ (Tokens.lex text).body) :
    ∃ cs, IsLongest cs t.lexeme := by
  obtain ⟨front, back, -, hstands⟩ := (Tokens.lex_cuts text).exists_stands ht
  exact ⟨_, hstands.longest⟩

theorem noGroupAhead_lex {text : String} (htext : text.toList = c :: cs) (hblank : isBlank c = false)
    (hc : c ≠ '(') : NoGroupAhead (Tokens.lex text).body := by
  intro t ht hkind
  have hcut : t.IsCut := Tokens.isCut_of_mem (List.mem_of_head? ht)
  have hbody := lexFrom_cutToken hblank [] cs
  rw [Tokens.lex, htext] at ht
  rw [show Location.start = Location.behind [] from rfl, hbody] at ht
  cases ht
  have hchars := hcut.spelling_eq hkind
  rw [cutToken, String.toList_ofList] at hchars
  have happend := split_append c cs
  rw [hchars] at happend
  exact hc (List.cons.inj happend).1.symm

/-- The canonical text of a name starts with its first token. -/
theorem canonicalText_starts (hcut : t.IsCut)
    (ht : t.kind = .identifier ∨ t.kind = .punct .colonColon) :
    ∃ c cs, (canonicalText false (t :: ts)).toList = c :: cs ∧ isBlank c = false ∧ c ≠ '(' := by
  have hcomma : t.kind ≠ .punct .comma := by
    obtain ht | ht := ht <;> simp [ht]
  rw [canonicalText, templatePiece_eq_spelling (.inl rfl) hcomma, String.toList_append]
  obtain ht | ht := ht
  · obtain ⟨c, cs, hchars, hc, -⟩ := (hcut.isIdentifier ht).1
    rw [hchars]
    refine ⟨c, _, rfl, isBlank_of_startsWord hc, ?_⟩
    rintro rfl
    cases hc
  · rw [hcut.spelling_eq ht]
    exact ⟨':', _, rfl, rfl, by decide⟩

/-- The canonical text of the tokens of a text with canonical spaces is this text, unless two words
touch. -/
theorem canonicalText_lex_iff (h : Spaced false name.toList) :
    canonicalText false (Tokens.lex name).body = name ↔
      (Tokens.lex name).body.IsChain Token.WordsApart := by
  -- At its start the text stands behind no word.
  let p : Token := cutToken [] (mark .comma)
  have hp : p.isWord = false := (isWord_cutToken _ _).trans (isWord_mark .comma)
  have hreproduces : Reproduces p [] name.toList :=
    reproduces_of_spaced h Bool.noConfusion fun ht => absurd ht (by simp [hp])
  rw [Reproduces, hp, List.isChain_cons, String.toList_inj] at hreproduces
  refine hreproduces.trans (and_iff_right fun t ht hword => ?_)
  cases hp.symm.trans hword

theorem eq_canonicalText {text : String}
    (h : qualifiedName finish (Tokens.lex text).body = .ok name []) :
    name = canonicalText false (Tokens.lex text).body := by
  have hcut : ∀ t ∈ (Tokens.lex text).body, t.IsCut := fun t ht => Tokens.isCut_of_mem ht
  obtain ⟨us, hus, hname⟩ := qualifiedName_canonical hcut h
  rw [hname, hus, List.append_nil]

end Grammar

open Grammar

/-- The text of a name that is read is the canonical one of tokens that stand one behind the other, and
if it is cut into these tokens, it is read as this name. It is so exactly if its own tokens are a
qualified name and no two words among them touch. -/
theorem Expr.read_canonical_name {types : TypeNames} {text name : String}
    (h : Expr.read types text = .ok (.name name)) :
    (∃ us, us <:+: (Tokens.lex text).body ∧ name = canonicalText false us ∧
      (SameTexts (Tokens.lex name).body us → Expr.read types name = .ok (.name name))) ∧
    (Expr.read types name = .ok (.name name) ↔
      (∃ name', qualifiedName (Tokens.lex name).finish (Tokens.lex name).body = .ok name' []) ∧
        (Tokens.lex name).body.IsChain Token.WordsApart) := by
  obtain ⟨⟨ts, rest, hts, hname⟩, -⟩ := (runs_of_run (read_expr_eq_ok_iff.1 h)).yieldsName rfl
  have hcut : ∀ t ∈ ts, t.IsCut := fun t ht => Tokens.isCut_of_mem (hts.subset ht)
  obtain ⟨us, rfl, htext⟩ := qualifiedName_canonical hcut hname
  obtain ⟨before, hbefore, hreread⟩ := qualifiedName_rereads hname
  obtain rfl := List.append_cancel_right hbefore
  have hspaced : Spaced false name.toList := by
    rw [htext]
    exact spaced_canonicalText fun t ht => exists_isLongest (hts.subset (List.mem_append_left _ ht))
  have hahead : NoGroupAhead (Tokens.lex name).body := by
    obtain ⟨t, us, rfl, ht⟩ := qualifiedName_starts (hreread (Tokens.lex text).finish us rfl)
    obtain ⟨c, cs, hchars, hblank, hc⟩ := canonicalText_starts (hcut t (by simp)) ht
    exact noGroupAhead_lex (htext ▸ hchars) hblank hc
  refine ⟨⟨us, ?_, htext, fun hus => ?_⟩, ?_, ?_⟩
  · obtain ⟨front, hbody⟩ := hts
    exact ⟨front, rest, (List.append_assoc _ _ _).trans hbody⟩
  · exact (read_eq_name_iff hahead).2 (hreread _ _ hus)
  · intro hsame
    have hwhole := (read_eq_name_iff hahead).1 hsame
    exact ⟨⟨name, hwhole⟩, (canonicalText_lex_iff hspaced).1 (eq_canonicalText hwhole).symm⟩
  · rintro ⟨⟨name', hwhole⟩, hapart⟩
    have hsame : name' = name := (eq_canonicalText hwhole).trans ((canonicalText_lex_iff hspaced).2 hapart)
    exact (read_eq_name_iff hahead).2 (hsame ▸ hwhole)

theorem Expr.read_canonical_name_arguments :
    Expr.read (fun _ => none) "map < int ,unsigned  long > ::size" =
        .ok (.name "map<int, unsigned long>::size") ∧
      Expr.read (fun _ => none) "map<int, unsigned long>::size" =
        .ok (.name "map<int, unsigned long>::size") ∧
      (Tokens.lex "map<int, unsigned long>::size").body.IsChain Token.WordsApart := by
  have hname : Expr.read (fun _ => none) "map < int ,unsigned  long > ::size" =
      .ok (.name "map<int, unsigned long>::size") := by decide +kernel
  have hsame : Expr.read (fun _ => none) "map<int, unsigned long>::size" =
      .ok (.name "map<int, unsigned long>::size") := by decide +kernel
  obtain ⟨-, hapart⟩ := (Expr.read_canonical_name hname).2.1 hsame
  exact ⟨hname, hsame, hapart⟩

/-- Angle brackets may run together, and then the name is read as a shift; or a point may run into a
number, which is then taken for a word. -/
theorem Expr.read_canonical_name_changes :
    (Expr.read (fun _ => none) "a< <b>>::c" = .ok (.name "a<<b>>::c") ∧
      Expr.read (fun _ => none) "a<<b>>::c" =
        .ok (.binary (.shift .right) (.binary (.shift .left) (.name "a") (.name "b")) (.name "::c"))) ∧
    (Expr.read (fun _ => none) "a<x . 5>::b" = .ok (.name "a<x.5>::b") ∧
      Expr.read (fun _ => none) "a<x.5>::b" = .ok (.name "a<x .5>::b")) := by
  refine ⟨⟨?_, ?_⟩, ?_, ?_⟩ <;> decide +kernel

end WatchExpr
