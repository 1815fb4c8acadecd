import WatchExpr.Proofs.Grammar.Runs
import WatchExpr.Proofs.Grammar.TypeIds
import WatchExpr.Proofs.Lexing.Layout

/-!
# The type-id of a cast is the text of a type

A text without a closing parenthesis and without bounds is read as a type exactly if it is read as the
type of a cast, and as the same one.
-/

namespace WatchExpr

open Lexeme

namespace Grammar

variable {env : Env} {rule : Rule} {ts us zs rest : List Token} {t : Ty} {e f : Expr}

/-! ## How a cast is come by -/

/-- A cast is read in front of the tokens, or else in a group that they start with. What stands behind
an operand makes no cast: one that is returned was the operand. -/
def ReadsCast (env : Env) (rule : Rule) (ts : List Token) (t : Ty) (e : Expr) (rest : List Token) :
    Prop :=
  match rule with
  | .operators _ f | .accesses f => f = .cast t e ∧ rest = ts
  | _ => ∃ l us, ts = l :: us ∧
      ((∃ vs, castType env us = .ok t vs ∧ Runs env .cast vs e rest) ∨
        ∃ r, r.kind = .punct .rParen ∧ Runs env .expression us (.cast t e) (r :: rest))

theorem Runs.readsCast (h : Runs env rule ts f rest) (hf : f = .cast t e) :
    ReadsCast env rule ts t e rest := by
  induction h with
  | expression _ ih => exact ih hf
  | condition _ ih => exact ih hf
  | choice => cases hf
  | operand _ ih => exact ih hf
  | level _ _ ihe ihmore =>
      obtain ⟨he, rfl⟩ := ihmore hf
      exact ihe he
  | noOperator => exact ⟨hf, rfl⟩
  | operator _ _ _ _ ihmore => cases (ihmore hf).1
  | @cast l type ts us rest e hl htype he ih =>
      cases hf
      exact ⟨l, ts, rfl, .inl ⟨us, htype, he⟩⟩
  | uncast _ ih => exact ih hf
  | unary => cases hf
  | bare _ ih => exact ih hf
  | access _ _ ihe ihmore =>
      obtain ⟨he, rfl⟩ := ihmore hf
      exact ihe he
  | noAccess => exact ⟨hf, rfl⟩
  | subscript _ _ _ _ _ ihmore => cases (ihmore hf).1
  | member _ _ _ ihmore => cases (ihmore hf).1
  | number => cases hf
  | truth => cases hf
  | @group l r ts rest e hl he hr ih =>
      subst hf
      exact ⟨l, ts, rfl, .inr ⟨r, hr, he⟩⟩
  | name => cases hf

theorem Runs.isSuffix (h : Runs env rule ts e rest) : rest <:+ ts := by
  induction h with
  | expression _ ih => exact ih
  | condition _ ih => exact ih
  | choice _ _ _ _ _ ihc ihe ihf =>
      have hthen := ihe.trans ((List.suffix_cons _ _).trans ihc)
      exact ihf.trans ((List.suffix_cons _ _).trans hthen)
  | operand _ ih => exact ih
  | level _ _ ihe ihmore => exact ihmore.trans ihe
  | noOperator => exact List.suffix_rfl
  | operator _ _ _ ihf ihmore => exact (ihmore.trans ihf).trans (List.suffix_cons _ _)
  | @cast l type ts us rest e hl htype he ih =>
      have hus := (castType_leaves env ts).isSuffix
      rw [htype, Outcome.rest_ok] at hus
      exact (ih.trans hus).trans (List.suffix_cons l ts)
  | uncast _ ih => exact ih
  | unary _ _ ih => exact ih.trans (List.suffix_cons _ _)
  | bare _ ih => exact ih
  | access _ _ ihe ihmore => exact ihmore.trans ihe
  | noAccess => exact List.suffix_rfl
  | subscript _ _ _ _ ihi ihmore =>
      exact (ihmore.trans ((List.suffix_cons _ _).trans ihi)).trans (List.suffix_cons _ _)
  | member _ _ _ ihmore =>
      exact ihmore.trans ((List.suffix_cons _ _).trans (List.suffix_cons _ _))
  | number => exact List.suffix_cons _ _
  | truth => exact List.suffix_cons _ _
  | group _ _ _ ih => exact ((List.suffix_cons _ _).trans ih).trans (List.suffix_cons _ _)
  | @name ts rest id hid =>
      have hname := (qualifiedName_leaves env.finish ts).isSuffix
      rwa [hid, Outcome.rest_ok] at hname

/-- With nothing behind it a cast expression is a whole expression. -/
theorem run_expression_of_cast (h : run env .cast ts = .ok e []) : run env .expression ts = .ok e [] := by
  have hcast : Complete env (· = ts) .cast ts e := by
    rintro rest hrest -
    rw [List.append_right_eq_self.1 hrest, List.append_nil]
    exact h
  have hbinary : Complete env (· = ts) (.binary .logicalOr) ts e :=
    Level.rec_operand (p := fun n => Complete env (· = ts) n ts e) hcast
      (fun l hl => (operand_continues hl).complete) .logicalOr
  have hwhole := assignment_complete (condition_complete hbinary) [] (List.append_nil ts)
    fun t ht => by cases ht
  rwa [List.append_nil] at hwhole

theorem run_cast_identifier {x : Token} (hx : x.kind = .identifier) :
    run env .cast [x] = .ok (.name x.spelling) [] := by
  have hname : qualifiedName env.finish [x] = .ok x.spelling [] := by
    have hcomplete : qualifiedName env.finish ([x] ++ []) = .ok x.spelling [] :=
      qualifiedName_complete (.nested (.last hx)) ⟨fun _ => rfl, trivial⟩ fun t ht => by cases ht
    exact hcomplete
  have hprimary : run env .primary [x] = .ok (.name x.spelling) [] := by
    rw [run_primary_cons, hx, hname]
    rfl
  have haccess : run env .access [x] = .ok (.name x.spelling) [] := by
    rw [run_access, hprimary, Outcome.ok_andThen, run_accesses, accept?_nil]
  have hunary : run env .unary [x] = .ok (.name x.spelling) [] := by
    have hop : accept? unaryOp? [x] = none := by simp [accept?, hx, unaryOp?]
    rw [run_unary, hop]
    dsimp only
    rw [current_cons, hx, haccess]
    rfl
  have hparen : accept? (isMark .lParen) [x] = none := by simp [accept?, hx, isMark]
  rw [run_cast, hparen]
  exact hunary

/-! ## Tokens of a cast -/

variable {r x : Token}

/-- A type-id in front of a closing parenthesis is one by itself. -/
theorem typeId_rParen_iff {finish finish' : EndMark} {d : TypeId} (hsame : SameTexts us ts)
    (hr : r.kind = .punct .rParen) :
    typeId finish ts = .ok d [] ↔ typeId finish' (us ++ r :: rest) = .ok d (r :: rest) := by
  have hends : SpecifiersEnd (r :: rest) := fun z hz => by
    cases hz
    simp [hr, specifierStart?]
  constructor
  · intro h
    obtain ⟨before, hts, hbefore⟩ := typeId_reads h
    rw [List.append_nil] at hts
    subst hts
    rw [hbefore finish' us _ hsame hends, declaratorSigns_of_not_sign (by rw [hr]; rfl)]
  · intro h
    obtain ⟨before, hus, hbefore⟩ := typeId_reads h
    rw [List.append_cancel_right hus] at hsame
    have hread := hbefore finish ts [] hsame.symm fun z hz => by cases hz
    rwa [List.append_nil, declaratorSigns] at hread

theorem split_at_rParen {before vs : List Token} {r' : Token}
    (hus : ∀ u ∈ us, u.kind ≠ .punct .rParen) (hx : x.kind ≠ .punct .rParen)
    (hr' : r'.kind = .punct .rParen) (h : before ++ r' :: vs = us ++ [r, x]) : r' = r ∧ vs = [x] := by
  induction us generalizing before with
  | nil =>
      obtain _ | ⟨b, before⟩ := before
      · cases h
        exact ⟨rfl, rfl⟩
      · obtain ⟨-, htail⟩ := List.cons.inj h
        obtain _ | ⟨c, before⟩ := before
        · cases htail
          exact absurd hr' hx
        · simp at htail
  | cons u us ih =>
      obtain ⟨hu, hus⟩ := List.forall_mem_cons.1 hus
      obtain _ | ⟨b, before⟩ := before
      · cases h
        exact absurd hr' hu
      · exact ih hus (List.cons.inj h).2

/-- The only closing parenthesis among the tokens closes the cast. -/
theorem castType_eq_ok_iff_typeId {finish : EndMark} (hsame : SameTexts us ts)
    (hts : ∀ t ∈ ts, t.kind ≠ .punct .rParen) (hr : r.kind = .punct .rParen)
    (hx : x.kind ≠ .punct .rParen) {vs : List Token} :
    castType env (us ++ [r, x]) = .ok t vs ↔
      vs = [x] ∧ ∃ d, typeId finish ts = .ok d [] ∧ d.resolve env.types = .ok t := by
  have hus : ∀ u ∈ us, u.kind ≠ .punct .rParen := by
    intro u hu
    have hmem : u.lexeme ∈ ts.map Token.lexeme := hsame ▸ List.mem_map_of_mem hu
    obtain ⟨v, hv, huv⟩ := List.mem_map.1 hmem
    rw [← SameTexts.kind huv]
    exact hts v hv
  constructor
  · intro h
    obtain ⟨d, r', hd, hr', hresolve⟩ := castType_eq_ok_iff.1 h
    have hsuffix := (typeId_leaves env.finish (us ++ [r, x])).isSuffix
    rw [hd, Outcome.rest_ok] at hsuffix
    obtain ⟨before, hbefore⟩ := hsuffix
    obtain ⟨rfl, rfl⟩ := split_at_rParen hus hx hr' hbefore
    exact ⟨rfl, d, (typeId_rParen_iff hsame hr').2 hd, hresolve⟩
  · rintro ⟨rfl, d, hd, hresolve⟩
    exact castType_eq_ok_iff.2 ⟨d, r, (typeId_rParen_iff hsame hr).1 hd, hr, hresolve⟩

/-- Without bounds a whole type is a type-id. -/
theorem arrayType_eq_ok_iff_typeId (hts : ∀ t ∈ ts, t.kind ≠ .punct .lSquare) :
    arrayType env ts = .ok t [] ↔
      ∃ d, typeId env.finish ts = .ok d [] ∧ d.resolve env.types = .ok t := by
  rw [arrayType_eq_ok_iff]
  constructor
  · rintro ⟨d, us, u, bounds, hd, hresolve, hbounds, rfl⟩
    have hsuffix := (typeId_leaves env.finish ts).isSuffix
    rw [hd, Outcome.rest_ok] at hsuffix
    obtain _ | ⟨v, us⟩ := us
    · rw [arrayBounds] at hbounds
      cases hbounds
      exact ⟨d, hd, hresolve⟩
    · rw [arrayBounds, if_neg (hts v (hsuffix.subset (List.mem_cons_self ..)))] at hbounds
      cases hbounds
  · rintro ⟨d, hd, hresolve⟩
    exact ⟨d, [], t, [], hd, hresolve, by rw [arrayBounds], rfl⟩

/-- A parenthesised type-id in front of an operand is read as a cast, and otherwise no cast is. -/
theorem run_expression_cast_iff {l : Token} {finish : EndMark} (hl : l.kind = .punct .lParen)
    (hsame : SameTexts us ts) (hts : ∀ t ∈ ts, t.kind ≠ .punct .rParen)
    (hr : r.kind = .punct .rParen) (hx : x.kind = .identifier) :
    run env .expression (l :: (us ++ [r, x])) = .ok (.cast t (.name x.spelling)) [] ↔
      ∃ d, typeId finish ts = .ok d [] ∧ d.resolve env.types = .ok t := by
  have hnot : x.kind ≠ .punct .rParen := by simp [hx]
  constructor
  · intro h
    obtain ⟨l', us', heq, ⟨vs, htype, -⟩ | ⟨r', hr', hgroup⟩⟩ := (runs_of_run h).readsCast rfl
    · obtain ⟨rfl, rfl⟩ := List.cons.inj heq
      exact ((castType_eq_ok_iff_typeId hsame hts hr hnot).1 htype).2
    · -- A group would have to be closed by the last token, and that is the operand.
      obtain ⟨-, rfl⟩ := List.cons.inj heq
      obtain ⟨before, hbefore⟩ := hgroup.isSuffix
      have hlast := congrArg List.getLast? hbefore
      simp only [List.getLast?_append, List.getLast?_cons_cons, List.getLast?_singleton,
        Option.some_or, Option.some.injEq] at hlast
      rw [hlast] at hr'
      exact absurd hr' hnot
  · intro h
    have htype : castType env (us ++ [r, x]) = .ok t [x] :=
      (castType_eq_ok_iff_typeId hsame hts hr hnot).2 ⟨rfl, h⟩
    have haccept : accept? (isMark .lParen) (l :: (us ++ [r, x])) = some ((), us ++ [r, x]) :=
      accept?_eq_some_iff.2 ⟨l, rfl, isMark_eq_some_iff.2 hl⟩
    refine run_expression_of_cast ?_
    rw [run_cast, haccept]
    dsimp only
    rw [htype]
    dsimp only
    rw [run_cast_identifier hx, Outcome.ok_andThen]

end Grammar

/-! ## Texts -/

/-- The text of a token stands in the text that it is cut from. -/
theorem Tokens.mem_of_kind {text : String} {t : Token} {p : Punctuator} {c : Char}
    (ht : t ∈ (Tokens.lex text).body) (hp : t.kind = .punct p) (hc : c ∈ p.chars) : c ∈ text.toList := by
  obtain ⟨front, back, htext, hstands⟩ := (Tokens.lex_cuts text).exists_stands ht
  have hspelling : t.spelling.toList = p.chars := congrArg Lexeme.chars (hstands.longest.eq_mark hp)
  rw [htext, hspelling]
  simp [hc]

theorem lexemes_cast (text : String) :
    Tokens.lexemes ("(" ++ text ++ ")x").toList =
      mark .lParen :: (Tokens.lexemes text.toList ++ [mark .rParen, ⟨.identifier, ['x']⟩]) := by
  have hbreaks : BreaksBetween text.toList [')', 'x'] :=
    breaksBetween_cons (breaks_of_first (by decide) (by decide) (by decide)) _ _
  have hlast : Tokens.lexemes [')', 'x'] = [mark .rParen, ⟨.identifier, ['x']⟩] := by decide +kernel
  have htext : ("(" ++ text ++ ")x").toList = '(' :: (text.toList ++ [')', 'x']) := by simp
  rw [htext, Tokens.lexemes_lParen, Tokens.lexemes_append_of_breaks hbreaks, hlast]

open Grammar

/-- Where no parenthesis is closed and no bound stands, the texts that are read as a type are those that
are read as the type of a cast, and it is the same type. -/
theorem read_type_iff_read_cast {types : TypeNames} {text : String} {t : Ty}
    (htext : ∀ c ∈ text.toList, c ≠ ')' ∧ c ≠ '[') :
    Ty.read types text = .ok t ↔ Expr.read types ("(" ++ text ++ ")x") = .ok (.cast t (.name "x")) := by
  have hbody : (Tokens.lex ("(" ++ text ++ ")x")).body.map Token.lexeme =
      mark .lParen :: (Tokens.lexemes text.toList ++ [mark .rParen, ⟨.identifier, ['x']⟩]) :=
    lexemes_cast text
  obtain ⟨l, inner, hlex, hl, hinner⟩ := exists_mark hbody
  obtain ⟨us, last, rfl, hus, hlast⟩ := List.map_eq_append_iff.1 hinner
  obtain ⟨r, xs, rfl, hr, hxs⟩ := exists_mark hlast
  obtain ⟨x, rfl, hx⟩ := List.map_eq_singleton_iff.1 hxs
  obtain ⟨hkind, hspelling⟩ := Token.of_lexeme (s := "x") hx
  have hparens : ∀ t ∈ (Tokens.lex text).body, t.kind ≠ .punct .rParen := fun t ht hk =>
    (htext ')' (Tokens.mem_of_kind ht hk (List.mem_singleton_self _))).1 rfl
  have hbounds : ∀ t ∈ (Tokens.lex text).body, t.kind ≠ .punct .lSquare := fun t ht hk =>
    (htext '[' (Tokens.mem_of_kind ht hk (List.mem_singleton_self _))).2 rfl
  have hsame : SameTexts us (Tokens.lex text).body := hus
  rw [read_type_eq_ok_iff, read_expr_eq_ok_iff, hlex, ← hspelling,
    run_expression_cast_iff hl hsame hparens hr hkind, arrayType_eq_ok_iff_typeId hbounds]

theorem read_type_iff_read_cast_template :
    let t : Ty := .pointer (.pointer (.scalar (.arithmetic (.integral .int)) ⟨true, false⟩) .none) ⟨false, true⟩
    let types : TypeNames := fun name =>
      if name = "Map<int, ::K>::Item" then some (.scalar (.arithmetic (.integral .int)) .none) else none
    let text := "Map< int,::K > ::Item const** volatile"
    (∀ c ∈ text.toList, c ≠ ')' ∧ c ≠ '[') ∧ Ty.read types text = .ok t ∧
      Expr.read types ("(" ++ text ++ ")x") = .ok (.cast t (.name "x")) := by
  intro t types text
  have htext : ∀ c ∈ text.toList, c ≠ ')' ∧ c ≠ '[' := by simp [text]
  have hread : Ty.read types text = .ok t := by decide +kernel
  exact ⟨htext, hread, (read_type_iff_read_cast htext).1 hread⟩

end WatchExpr
