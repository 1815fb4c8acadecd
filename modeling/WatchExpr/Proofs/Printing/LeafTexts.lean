import WatchExpr.Proofs.Grammar.CastTypes
import WatchExpr.Proofs.Grammar.Leaves
import WatchExpr.Proofs.Printing.GlobalNames

/-!
# Texts of leaves

A text that consists of leaves with parentheses between them can be read as these leaves in one way
only, as far as the number of parentheses goes. What is read as a leaf is what the text has there: a
piece, because it is taken for itself or not at all, and a name or a type, because it is read from
its own tokens.
-/

namespace WatchExpr

open Lexeme Grammar Text

/-- A text that starts with no blank and no parenthesis. -/
def IsSolid (cs : List Char) : Prop :=
  ∃ c ds, cs = c :: ds ∧ isBlank c = false ∧ c ≠ '(' ∧ c ≠ ')'

/-- A text of leaves, and the number of parentheses that are opened between them. There are spaces
in front of pieces, but none in front of a point, and behind punctuators. -/
inductive Shows (types : TypeNames) : List Leaf → Nat → List Char → Prop where
  | nil : Shows types [] 0 []
  | opening {ls : List Leaf} {n : Nat} {cs : List Char} (h : Shows types ls n cs) :
      Shows types ls (n + 1) ('(' :: cs)
  | closing {ls : List Leaf} {n : Nat} {cs : List Char} (h : Shows types ls n cs) :
      Shows types ls n (')' :: cs)
  | spaceBefore {p : List Char} {ls : List Leaf} {n : Nat} {cs : List Char} (hp : p ≠ ['.'])
      (h : Shows types (.piece p :: ls) n cs) : Shows types (.piece p :: ls) n (' ' :: cs)
  | piece {p : List Char} {ls : List Leaf} {n : Nat} {cs : List Char} (hp : IsSolid p)
      (h : Shows types ls n cs) : Shows types (.piece p :: ls) n (p ++ cs)
  | spaceBehind {p : Punctuator} {ls : List Leaf} {n : Nat} {cs : List Char} (hp : IsSolid p.chars)
      (hperiod : p ≠ .period) (h : Shows types ls n cs) :
      Shows types (.piece p.chars :: ls) n (p.chars ++ ' ' :: cs)
  | name {id : String} {ls : List Leaf} {n : Nat} {cs : List Char} (hid : IsScopedName id)
      (h : Shows types ls n cs) : Shows types (.name id :: ls) n (id.toList ++ cs)
  | type {t : Ty} {ls : List Leaf} {n : Nat} {cs : List Char} (ht : Ty.read types t.text = .ok t)
      (h : Shows types ls n cs) :
      Shows types (.type t :: ls) n ('(' :: (t.declarator [] ++ ')' :: cs))

variable {types : TypeNames} {ls ms : List Leaf} {n m : Nat} {c : Char} {cs ds p : List Char}
variable {t : Token} {ts us : List Token}

theorem Shows.append (h : Shows types ls n cs) (h' : Shows types ms m ds) :
    Shows types (ls ++ ms) (n + m) (cs ++ ds) := by
  induction h with
  | nil => rwa [List.nil_append, Nat.zero_add]
  | opening _ ih =>
      rw [Nat.add_right_comm]
      exact .opening ih
  | closing _ ih => exact .closing ih
  | spaceBefore hp _ ih => exact .spaceBefore hp ih
  | piece hp _ ih =>
      rw [List.append_assoc]
      exact .piece hp ih
  | spaceBehind hp hperiod _ ih =>
      rw [List.append_assoc]
      exact .spaceBehind hp hperiod ih
  | name hid _ ih =>
      rw [List.append_assoc]
      exact .name hid ih
  | type ht _ ih =>
      rw [List.cons_append, List.cons_append, List.append_assoc, List.cons_append]
      exact .type ht ih

/-! ## Solid texts -/

namespace IsSolid

theorem of_startsWord (h : startsWord c) : IsSolid (c :: cs) := by
  refine ⟨c, cs, rfl, isBlank_of_startsWord h, ?_, ?_⟩ <;> rintro rfl <;> cases h

theorem of_isWord (h : IsWord p) : IsSolid p := by
  obtain ⟨c, cs, rfl, hc, -⟩ := h
  exact .of_startsWord hc

/-- A punctuator that is no parenthesis. -/
theorem of_mark {q : Punctuator} (hq : isParen (.punct q) = false) : IsSolid q.chars := by
  have hall : ∀ q ∈ Punctuator.all, isParen (.punct q) = false →
      q.chars.head? ≠ some '(' ∧ q.chars.head? ≠ some ')' := by
    decide
  obtain ⟨hopening, hclosing⟩ := hall q (Punctuator.mem_all q) hq
  obtain ⟨c, cs, hchars⟩ := List.exists_cons_of_ne_nil q.chars_ne_nil
  rw [hchars] at hopening hclosing ⊢
  have hblank := (Punctuator.chars_head (p := q) (c := c) (by rw [hchars]; rfl)).2.1
  exact ⟨c, cs, rfl, hblank, fun h => hopening (h ▸ rfl), fun h => hclosing (h ▸ rfl)⟩

theorem of_isNumber (h : IsNumber p) : IsSolid p := by
  obtain ⟨c, cs, rfl, hstart, -⟩ := h.chain
  simp only [startsNumber, Bool.or_eq_true, Bool.and_eq_true, decide_eq_true_eq] at hstart
  rcases hstart with hdigit | ⟨rfl, -⟩
  · refine ⟨c, cs, rfl, isBlank_of_isDigit hdigit, ?_, ?_⟩ <;> rintro rfl <;> cases hdigit
  · exact ⟨'.', cs, rfl, rfl, by decide, by decide⟩

end IsSolid

theorem IsScopedName.startsWord {name : String} (h : IsScopedName name) : StartsWord name := by
  cases h with
  | last hs => exact startsWord_of_isIdentifier hs
  | scope hs _ =>
      rw [String.append_assoc]
      exact (startsWord_of_isIdentifier hs).append

theorem IsScopedName.isSolid {name : String} (h : IsScopedName name) : IsSolid name.toList := by
  obtain ⟨c, cs, hname, hc⟩ := h.startsWord
  rw [hname]
  exact .of_startsWord hc

/-! ## The first token -/

namespace Tokens

/-- The first token of a text that starts with no blank. -/
theorem exists_longest (hc : isBlank c = false) (hts : ts.map Token.lexeme = lexemes (c :: cs)) :
    ∃ t us back, ts = t :: us ∧ IsLongest (c :: cs) t.lexeme ∧
      c :: cs = t.spelling.toList ++ back ∧ us.map Token.lexeme = lexemes back := by
  rw [lexemes_piece hc] at hts
  obtain ⟨t, us, rfl, ht, hus⟩ := List.map_eq_cons_iff.1 hts
  refine ⟨t, us, _, rfl, ht ▸ split_isLongest hc cs, ?_, hus⟩
  have hchars : t.spelling.toList = (split c cs).1.chars := congrArg Lexeme.chars ht
  rw [hchars, split_append]

/-- A punctuator that is the first token starts with the first character. -/
theorem head?_of_mark {q : Punctuator} (hc : isBlank c = false)
    (hts : (t :: us).map Token.lexeme = lexemes (c :: cs)) (ht : t.kind = .punct q) :
    q.chars.head? = some c := by
  obtain ⟨u, vs, back, heq, hlongest, htext, -⟩ := exists_longest hc hts
  obtain ⟨rfl, -⟩ := List.cons.inj heq
  have hchars : t.spelling.toList = q.chars := congrArg Lexeme.chars (hlongest.eq_mark ht)
  have hhead : (q.chars ++ back).head? = some c := by
    rw [← hchars, ← htext]
    rfl
  rwa [List.head?_append_of_ne_nil q.chars q.chars_ne_nil] at hhead

end Tokens

theorem Lexeme.IsLongest.isNumber {l : Lexeme} {text : List Char} (h : IsLongest text l)
    (hl : l.kind = .number) : IsNumber l.chars := by
  cases h with
  | unknown => cases hl
  | piece hpiece =>
      cases hpiece with
      | number hnumber => exact hnumber
      | _ => cases hl

/-- A number goes on with a point behind it. -/
theorem Lexeme.IsLongest.not_point {l : Lexeme} (hl : l.kind = .number) :
    ¬IsLongest (l.chars ++ '.' :: cs) l := by
  intro h
  have hnumber := h.isNumber hl
  generalize htext : l.chars ++ '.' :: cs = text at h
  cases h with
  | unknown => cases hl
  | piece hpiece hstart hmax =>
      have hlonger := hmax ⟨.number, l.chars ++ ['.']⟩ (.number (.more hnumber (.inr (.inl rfl))))
        ⟨cs, by simp [← htext]⟩
      simp only [List.length_append, List.length_singleton] at hlonger
      omega

/-- Tokens that a text is cut into. -/
theorem Tokens.isCut_of_lexemes (hts : ts.map Token.lexeme = Tokens.lexemes cs) (ht : t ∈ ts) :
    t.IsCut := by
  have hmem : t.lexeme ∈ Tokens.lexemes cs := hts ▸ List.mem_map_of_mem ht
  obtain ⟨u, hu, hut⟩ := List.mem_map.1 hmem
  obtain ⟨c, ds, hsplit⟩ := Tokens.isCut_of_mem hu
  exact ⟨c, ds, hut ▸ hsplit⟩

namespace IsSolid

variable (hp : IsSolid p) (hts : (t :: us).map Token.lexeme = Tokens.lexemes (p ++ cs))

include hp hts

theorem not_paren : isParen t.kind = false := by
  obtain ⟨c, ds, rfl, hc, hopening, hclosing⟩ := hp
  refine Bool.eq_false_iff.2 fun hparen => ?_
  simp only [isParen, Bool.or_eq_true, decide_eq_true_eq] at hparen
  rcases hparen with hk | hk
  · exact hopening (Option.some.inj (Tokens.head?_of_mark hc hts hk)).symm
  · exact hclosing (Option.some.inj (Tokens.head?_of_mark hc hts hk)).symm

/-- Behind its first token a text is cut as it is by itself. -/
theorem behind (ht : t.spelling.toList = p) : us.map Token.lexeme = Tokens.lexemes cs := by
  obtain ⟨c, ds, rfl, hc, -⟩ := hp
  obtain ⟨u, vs, back, heq, -, htext, hvs⟩ := Tokens.exists_longest hc hts
  obtain ⟨rfl, rfl⟩ := List.cons.inj heq
  rw [ht] at htext
  rwa [(List.append_right_inj (c :: ds)).1 htext]

theorem longest : IsLongest (p ++ cs) t.lexeme := by
  obtain ⟨c, ds, rfl, hc, -⟩ := hp
  obtain ⟨u, vs, back, heq, hlongest, -⟩ := Tokens.exists_longest hc hts
  obtain ⟨rfl, -⟩ := List.cons.inj heq
  exact hlongest

end IsSolid

/-! ## Names and types -/

theorem Ty.toList_text (u : Ty) : u.text.toList = u.declarator [] :=
  String.toList_ofList

namespace Grammar

variable {finish : EndMark} {env : Env} {name : String} {type : Ty} {rest zs : List Token}

/-- A name without `::` in front and without template arguments is read from a name of the
grammar. -/
theorem nestedName_of_qualifiedName (h : qualifiedName finish ts = .ok name rest)
    (hname : IsScopedName name) : ∃ us, ts = us ++ rest ∧ NestedName us name := by
  obtain ⟨-, t, ht, rfl⟩ | ⟨s, us, t, -, -, -, rfl⟩ := qualifiedName_cases h
  · exact nestedName_of_untemplated ht (untemplated_append.1 hname.untemplated).1
  · obtain ⟨c, ds, htext, hc⟩ := hname.startsWord
    rw [String.toList_append] at htext
    obtain ⟨rfl, -⟩ := List.cons.inj htext
    cases hc

/-- Behind the tokens of a name stand those of what follows its text. -/
theorem NestedName.behind (h : NestedName us name)
    (hts : (us ++ rest).map Token.lexeme = Tokens.lexemes (name.toList ++ cs)) :
    rest.map Token.lexeme = Tokens.lexemes cs := by
  have hsolid {t : Token} (hcut : t.IsCut) (ht : t.kind = .identifier) :
      IsSolid t.spelling.toList :=
    .of_isWord (hcut.isIdentifier ht).1
  induction h with
  | last ht =>
      have hcut := Tokens.isCut_of_lexemes hts (List.mem_cons_self ..)
      exact (hsolid hcut ht).behind hts rfl
  | scope ht hs _ ih =>
      have hcut := Tokens.isCut_of_lexemes hts (List.mem_cons_self ..)
      rw [toList_scope, List.append_assoc] at hts
      have hbehind := (hsolid hcut ht).behind hts rfl
      rw [List.cons_append, List.cons_append, Tokens.lexemes_colonColon] at hbehind
      exact ih (List.cons.inj hbehind).2

theorem typeId_starts {d : TypeId} (h : typeId finish ts = .ok d rest) :
    ∃ t us, ts = t :: us ∧ isParen t.kind = false := by
  obtain ⟨s, us, hs, h⟩ := Outcome.andThen_eq_ok_iff.1 h
  split at h
  · rename_i hspecified
    cases ts with
    | nil =>
        rw [specifiers] at hs
        cases hs
        cases hspecified
    | cons t ts =>
        refine ⟨t, ts, rfl, Bool.eq_false_iff.2 fun hparen => ?_⟩
        have hstart : specifierStart? t.kind = none := by
          simp only [isParen, Bool.or_eq_true, decide_eq_true_eq] at hparen
          rcases hparen with hk | hk <;> rw [hk] <;> rfl
        rw [specifiers, hstart] at hs
        cases hs
        cases hspecified
  · cases h

theorem read_type_starts {u : Ty} {xs : List Token} (hu : Ty.read types u.text = .ok u)
    (hxs : xs.map Token.lexeme = Tokens.lexemes (u.declarator [])) :
    ∃ x ys, xs = x :: ys ∧ isParen x.kind = false := by
  obtain ⟨d, us, v, bounds, hd, -⟩ := arrayType_eq_ok_iff.1 (read_type_eq_ok_iff.1 hu)
  obtain ⟨t, us, hbody, ht⟩ := typeId_starts hd
  have hsame : SameTexts xs (t :: us) := by
    rw [← hbody, SameTexts, hxs, ← u.toList_text]
    rfl
  obtain ⟨x, ys, rfl, hx, -⟩ := hsame.cons_cases
  exact ⟨x, ys, rfl, hx ▸ ht⟩

/-- The type of a cast is read up to the parenthesis behind its text, if it is read at all. -/
theorem castType_behind {u : Ty} {xs : List Token} {r : Token}
    (hu : Ty.read env.types u.text = .ok u)
    (hxs : xs.map Token.lexeme = Tokens.lexemes (u.declarator [])) (hr : r.kind = .punct .rParen)
    (h : castType env (xs ++ r :: zs) = .ok type rest) : rest = zs := by
  obtain ⟨d, ws, v, bounds, hd, -, hbounds, -⟩ := arrayType_eq_ok_iff.1 (read_type_eq_ok_iff.1 hu)
  obtain ⟨before, hbody, hbefore⟩ := typeId_reads hd
  have hsame : SameTexts xs (before ++ ws) := by
    rw [← hbody, SameTexts, hxs, ← u.toList_text]
    rfl
  obtain ⟨ys, us, rfl, hys, hus⟩ := hsame.append_cases
  obtain ⟨d', r', hd', hr', -⟩ := castType_eq_ok_iff.1 h
  rw [List.append_assoc] at hd'
  cases ws with
  | nil =>
      obtain rfl := List.map_eq_nil_iff.1 hus
      have hread := hbefore env.finish ys (r :: zs) hys fun z hz => by
        cases hz
        simp [hr, specifierStart?]
      rw [declaratorSigns_of_not_sign (by rw [hr]; rfl)] at hread
      cases hd'.symm.trans hread
      rfl
  | cons w ws =>
      -- Bounds are part of the text, but not of the type of a cast.
      obtain ⟨w', us, rfl, hw', -⟩ := hus.cons_cases
      have hw : w.kind = .punct .lSquare := by
        by_contra hw
        rw [arrayBounds, if_neg hw] at hbounds
        cases hbounds
      have hread := hbefore env.finish ys (w' :: us ++ r :: zs) hys fun z hz => by
        cases hz
        simp [hw', hw, specifierStart?]
      rw [List.cons_append, declaratorSigns_of_not_sign (by rw [hw', hw]; rfl)] at hread
      cases hd'.symm.trans hread
      simp [hw', hw] at hr'

end Grammar

/-! ## Counting parentheses -/

variable {env : Env}

theorem Shows.type_starts {u : Ty} (h : Shows types (.type u :: ls) n cs)
    (hts : ts.map Token.lexeme = Tokens.lexemes cs) : ∃ t us, ts = t :: us ∧ isParen t.kind := by
  have hmark {q : Punctuator} {ds : List Char} (hq : isParen (.punct q))
      (hts : ts.map Token.lexeme = mark q :: Tokens.lexemes ds) :
      ∃ t us, ts = t :: us ∧ isParen t.kind := by
    obtain ⟨t, us, rfl, ht, -⟩ := exists_mark hts
    exact ⟨t, us, rfl, ht ▸ hq⟩
  cases h with
  | opening =>
      rw [Tokens.lexemes_lParen] at hts
      exact hmark rfl hts
  | closing =>
      rw [Tokens.lexemes_rParen] at hts
      exact hmark rfl hts
  | type =>
      rw [Tokens.lexemes_lParen] at hts
      exact hmark rfl hts

/-- A solid piece is taken for the piece that stands first. -/
theorem Grammar.Carries.piece_cases (h : Carries env (.piece p :: ls) n ts []) (hp : IsSolid p)
    (hts : ts.map Token.lexeme = Tokens.lexemes (p ++ cs)) :
    ∃ t us k, ts = t :: us ∧ t.spelling.toList = p ∧ Carries env ls k us [] ∧
      n = k + (t.kind = .number && startsPoint us : Bool).toNat := by
  cases h with
  | opening hl =>
      have hparen := hp.not_paren hts
      rw [hl] at hparen
      cases hparen
  | closing hr =>
      have hparen := hp.not_paren hts
      rw [hr] at hparen
      cases hparen
  | piece ht hcs h =>
      exact ⟨_, _, _, rfl, hcs (Tokens.isCut_of_lexemes hts (List.mem_cons_self ..)), h, rfl⟩

/-- No constant that is cut off such a text stands right in front of a point. -/
theorem Shows.not_startsPoint (h : Shows types ls m cs) (hc : Carries env ls n us [])
    (hus : us.map Token.lexeme = Tokens.lexemes cs) (ht : t.kind = .number)
    (hlongest : IsLongest (t.spelling.toList ++ cs) t.lexeme) : startsPoint us = false := by
  refine Bool.eq_false_iff.2 fun hpoint => ?_
  obtain _ | ⟨d, vs⟩ := us
  · cases hpoint
  have hd : d.kind = .punct .period := by simpa [startsPoint] using hpoint
  have hmark {q : Punctuator} {rest : List Char} (hq : q ≠ .period)
      (hus : (d :: vs).map Token.lexeme = mark q :: Tokens.lexemes rest) : False := by
    have hkind : d.kind = .punct q := congrArg Lexeme.kind (List.cons.inj hus).1
    exact hq (TokenKind.punct.inj (hkind.symm.trans hd))
  -- The constant would go on with a point right behind it.
  have hsolid {q rest : List Char} (hq : IsSolid q) (hcs : cs = q ++ rest) : False := by
    obtain ⟨c, ds, rfl, hblank, -⟩ := hq
    rw [hcs] at hus hlongest
    obtain rfl := Option.some.inj (Tokens.head?_of_mark hblank hus hd)
    exact IsLongest.not_point (l := t.lexeme) ht hlongest
  cases h with
  | nil =>
      rw [Tokens.lexemes_nil] at hus
      cases hus
  | opening =>
      rw [Tokens.lexemes_lParen] at hus
      exact hmark (by decide) hus
  | closing =>
      rw [Tokens.lexemes_rParen] at hus
      exact hmark (by decide) hus
  | spaceBefore hp _ =>
      -- The leaf behind the space is no point, but the token is.
      cases hc with
      | opening hl => cases hl.symm.trans hd
      | closing hr => cases hr.symm.trans hd
      | piece _ hcs _ =>
          have hcut := Tokens.isCut_of_lexemes hus (List.mem_cons_self ..)
          exact hp ((hcs hcut).symm.trans (hcut.spelling_eq hd))
  | piece hp _ => exact hsolid hp rfl
  | spaceBehind hp _ _ => exact hsolid hp rfl
  | name hid _ => exact hsolid hid.isSolid rfl
  | type =>
      rw [Tokens.lexemes_lParen] at hus
      exact hmark (by decide) hus

/-- A parenthesis stands between leaves, or it opens the type of a cast. -/
theorem Grammar.Carries.paren_cases (h : Carries env ls n (t :: ts) []) (ht : isParen t.kind) :
    (t.kind = .punct .lParen ∧ ∃ k, n = k + 1 ∧ Carries env ls k ts []) ∨
      (t.kind = .punct .rParen ∧ Carries env ls n ts []) ∨
      (t.kind = .punct .lParen ∧ ∃ u ms us, ls = .type u :: ms ∧ castType env ts = .ok u us ∧
        Carries env ms n us []) := by
  cases h with
  | opening hl h => exact .inl ⟨hl, _, rfl, h⟩
  | closing hr h => exact .inr (.inl ⟨hr, h⟩)
  | piece hpiece => rw [ht] at hpiece; cases hpiece
  | name hid =>
      obtain ⟨u, us, heq, hu⟩ := qualifiedName_starts hid
      obtain ⟨rfl, -⟩ := List.cons.inj heq
      rcases hu with hk | hk <;> rw [hk] at ht <;> cases ht
  | type hl htype h => exact .inr (.inr ⟨hl, _, _, _, rfl, htype, h⟩)

/-- Leaves with a type in front start with a parenthesis. -/
theorem Grammar.Carries.type_starts {u : Ty} {rest : List Token}
    (h : Carries env (.type u :: ls) n ts rest) : ∃ t us, ts = t :: us ∧ isParen t.kind := by
  cases h with
  | opening hl => exact ⟨_, _, rfl, hl ▸ rfl⟩
  | closing hr => exact ⟨_, _, rfl, hr ▸ rfl⟩
  | type hl => exact ⟨_, _, rfl, hl ▸ rfl⟩

/-- In all readings of a text as these leaves so many parentheses are opened. -/
def OpensAlways (env : Env) (ls : List Leaf) (m : Nat) (cs : List Char) : Prop :=
  ∀ ts n, ts.map Token.lexeme = Tokens.lexemes cs → Carries env ls n ts [] → n = m

namespace OpensAlways

theorem opening (h : Shows env.types ls m cs) (ih : OpensAlways env ls m cs) :
    OpensAlways env ls (m + 1) ('(' :: cs) := by
  intro ts n hts hc
  rw [Tokens.lexemes_lParen] at hts
  obtain ⟨l, us, rfl, hl, hus⟩ := exists_mark hts
  obtain ⟨-, k, rfl, hk⟩ | ⟨hr, -⟩ | ⟨-, u, ms, vs, rfl, htype, -⟩ := hc.paren_cases (hl ▸ rfl)
  · rw [ih us k hus hk]
  · cases hr.symm.trans hl
  · -- A type starts with no parenthesis, but the text goes on with one.
    obtain ⟨d, r, hd, -⟩ := castType_eq_ok_iff.1 htype
    obtain ⟨x, xs, rfl, hx⟩ := typeId_starts hd
    obtain ⟨y, ys, heq, hy⟩ := h.type_starts hus
    obtain ⟨rfl, -⟩ := List.cons.inj heq
    rw [hx] at hy
    cases hy

theorem closing (ih : OpensAlways env ls m cs) : OpensAlways env ls m (')' :: cs) := by
  intro ts n hts hc
  rw [Tokens.lexemes_rParen] at hts
  obtain ⟨r, us, rfl, hr, hus⟩ := exists_mark hts
  obtain ⟨hl, -⟩ | ⟨-, hn⟩ | ⟨hl, -⟩ := hc.paren_cases (hr ▸ rfl)
  · cases hl.symm.trans hr
  · exact ih us n hus hn
  · cases hl.symm.trans hr

theorem piece (hp : IsSolid p) (h : Shows env.types ls m cs) (ih : OpensAlways env ls m cs) :
    OpensAlways env (.piece p :: ls) m (p ++ cs) := by
  intro ts n hts hc
  obtain ⟨t, us, k, rfl, rfl, hk, rfl⟩ := hc.piece_cases hp hts
  have hus := hp.behind hts rfl
  have hbare : (decide (t.kind = .number) && startsPoint us) = false := by
    by_cases ht : t.kind = .number
    · rw [h.not_startsPoint hk hus ht (hp.longest hts), Bool.and_false]
    · rw [decide_eq_false ht, Bool.false_and]
  rw [hbare, ih us k hus hk]
  rfl

theorem spaceBehind {q : Punctuator} (hq : IsSolid q.chars) (hperiod : q ≠ .period)
    (ih : OpensAlways env ls m cs) :
    OpensAlways env (.piece q.chars :: ls) m (q.chars ++ ' ' :: cs) := by
  intro ts n hts hc
  obtain ⟨t, us, k, rfl, ht, hk, rfl⟩ := hc.piece_cases hq hts
  have hus := hq.behind hts ht
  rw [Tokens.lexemes_space] at hus
  have hnumber : t.kind ≠ .number := by
    intro hkind
    obtain ⟨c, ds, hchars, hstart, -⟩ := ((hq.longest hts).isNumber hkind).chain
    exact hperiod (Punctuator.eq_period_of_startsNumber (ht.symm.trans hchars) hstart).1
  rw [decide_eq_false hnumber, ih us k hus hk]
  rfl

theorem name {id : String} (hid : IsScopedName id) (ih : OpensAlways env ls m cs) :
    OpensAlways env (.name id :: ls) m (id.toList ++ cs) := by
  intro ts n hts hc
  cases hc with
  | opening hl => simpa [hl, isParen] using hid.isSolid.not_paren hts
  | closing hr => simpa [hr, isParen] using hid.isSolid.not_paren hts
  | name hname hc =>
      obtain ⟨us, rfl, hus⟩ := nestedName_of_qualifiedName hname hid
      exact ih _ n (hus.behind hts) hc

theorem type {u : Ty} (hu : Ty.read env.types u.text = .ok u) (ih : OpensAlways env ls m cs) :
    OpensAlways env (.type u :: ls) m ('(' :: (u.declarator [] ++ ')' :: cs)) := by
  intro ts n hts hc
  have hbreaks : BreaksBetween (u.declarator []) (')' :: cs) :=
    breaksBetween_cons (breaks_of_first (by decide) (by decide) (by decide)) _ _
  rw [Tokens.lexemes_lParen, Tokens.lexemes_append_of_breaks hbreaks, Tokens.lexemes_rParen] at hts
  obtain ⟨l, us, rfl, hl, hus⟩ := exists_mark hts
  obtain ⟨xs, vs, rfl, hxs, hvs⟩ := List.map_eq_append_iff.1 hus
  obtain ⟨r, zs, rfl, hr, hzs⟩ := exists_mark hvs
  obtain ⟨-, k, rfl, hk⟩ | ⟨hr, -⟩ | ⟨-, v, ms, ws, heq, htype, hn⟩ := hc.paren_cases (hl ▸ rfl)
  · -- Behind a parenthesis that opens no type the type would still have to come.
    obtain ⟨x, ys, rfl, hx⟩ := read_type_starts hu hxs
    obtain ⟨y, ys, heq, hy⟩ := hk.type_starts
    obtain ⟨rfl, -⟩ := List.cons.inj heq
    rw [hx] at hy
    cases hy
  · cases hr.symm.trans hl
  · cases heq
    obtain rfl := castType_behind hu hxs hr htype
    exact ih _ n hzs hn

end OpensAlways

/-- However the tokens of a text are read as its leaves, the same number of parentheses is
opened. -/
theorem Shows.opensAlways (h : Shows env.types ls m cs) : OpensAlways env ls m cs := by
  induction h with
  | nil =>
      intro ts n hts hc
      rw [Tokens.lexemes_nil] at hts
      obtain rfl := List.map_eq_nil_iff.1 hts
      cases hc with
      | nil => rfl
  | opening h ih => exact .opening h ih
  | closing _ ih => exact .closing ih
  | spaceBefore _ _ ih => exact fun ts n hts hc => ih ts n (by rwa [Tokens.lexemes_space] at hts) hc
  | piece hp h ih => exact .piece hp h ih
  | spaceBehind hp hperiod _ ih => exact .spaceBehind hp hperiod ih
  | name hid _ ih => exact .name hid ih
  | type ht _ ih => exact .type ht ih

end WatchExpr
