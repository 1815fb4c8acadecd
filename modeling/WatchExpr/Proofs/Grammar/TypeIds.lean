import WatchExpr.Proofs.Grammar.Formation
import WatchExpr.Proofs.Grammar.TypeNames
import WatchExpr.Proofs.Printing.Groups

/-!
# Type-ids read from their own tokens

What is read as a type-id depends on the texts of its tokens only. It is read again in front of other
tokens, as long as these go on with neither its specifiers nor its last name; signs among them are
added to its own.
-/

namespace WatchExpr.Grammar

variable {finish : EndMark} {d d' : TypeId} {t : Token} {ts us zs before rest : List Token}

theorem SameTexts.append_cases {after : List Token} (h : SameTexts us (before ++ after)) :
    ∃ vs ws, us = vs ++ ws ∧ SameTexts vs before ∧ SameTexts ws after := by
  rw [SameTexts, List.map_append] at h
  exact List.map_eq_append_iff.1 h

theorem SameTexts.cons_cases (h : SameTexts us (t :: before)) :
    ∃ v vs, us = v :: vs ∧ v.kind = t.kind ∧ SameTexts vs before := by
  obtain ⟨v, vs, rfl, hv, hvs⟩ := List.map_eq_cons_iff.1 h
  exact ⟨v, vs, rfl, SameTexts.kind hv, hvs⟩

/-- What follows is no further specifier and no template argument list. -/
def SpecifiersEnd (zs : List Token) : Prop :=
  ∀ z ∈ zs.head?, specifierStart? z.kind = none ∧ z.kind ≠ .punct .less

theorem SpecifiersEnd.nameEnds (h : SpecifiersEnd zs) : NameEnds zs := by
  refine fun z hz => ⟨(h z hz).2, fun hcolon => ?_⟩
  have hstart := (h z hz).1
  rw [hcolon] at hstart
  cases hstart

theorem SpecifiersEnd.specifiers_eq (h : SpecifiersEnd zs) (finish : EndMark) (d : TypeId) :
    specifiers finish d zs = .ok d zs := by
  cases zs with
  | nil => rw [specifiers]
  | cons z zs => rw [specifiers, (h z rfl).1]

theorem SpecifiersEnd.pointerQualifiers_eq (h : SpecifiersEnd zs) (cv : Qualifiers) :
    pointerQualifiers cv zs = (cv, zs) := by
  cases zs with
  | nil => rfl
  | cons z zs => rw [pointerQualifiers, (h z rfl).1]

theorem specifiersEnd_sign (ht : isSign t.kind) : SpecifiersEnd (t :: ts) := by
  intro z hz
  cases hz
  rcases isSign_iff.1 ht with hk | hk | hk <;> simp [hk, specifierStart?]

/-! ## Specifiers -/

/-- Tokens with these texts turn one type-id into the other, whatever ends them; behind a first
specifier they go on with no name. -/
def Specify (d : TypeId) (before : List Token) (d' : TypeId) : Prop :=
  ∀ finish us zs, SameTexts us before → SpecifiersEnd zs →
    specifiers finish d (us ++ zs) = .ok d' zs ∧ (d.hasSpecifier → NameEnds (us ++ zs))

theorem specify_nil (d : TypeId) : Specify d [] d := by
  intro finish us zs hus hzs
  obtain rfl := List.map_eq_nil_iff.1 hus
  exact ⟨hzs.specifiers_eq finish d, fun _ => hzs.nameEnds⟩

theorem nameEnds_startsType (ht : startsType t.kind) : NameEnds (t :: ts) := by
  intro z hz
  cases hz
  constructor <;> rintro hk <;> rw [hk] at ht <;> cases ht

theorem Specify.keyword {d₁ : TypeId} (ht : startsType t.kind)
    (hstep : ∀ finish u us, u.kind = t.kind → specifiers finish d (u :: us) = specifiers finish d₁ us)
    (h : Specify d₁ before d') : Specify d (t :: before) d' := by
  intro finish us zs hus hzs
  obtain ⟨u, us, rfl, hu, hus⟩ := hus.cons_cases
  rw [List.cons_append, hstep finish u _ hu]
  exact ⟨(h finish us zs hus hzs).1, fun _ => nameEnds_startsType (hu ▸ ht)⟩

/-- Specifiers are read from their own tokens. -/
theorem specifiers_reads (h : specifiers finish d ts = .ok d' rest) :
    ∃ before, ts = before ++ rest ∧ Specify d before d' := by
  fun_induction specifiers finish d ts with
  | case1 d =>
      cases h
      exact ⟨[], rfl, specify_nil _⟩
  | case2 d t ts hk =>
      cases h
      exact ⟨[], rfl, specify_nil _⟩
  | case3 d t ts w hk ih =>
      obtain ⟨before, rfl, hbefore⟩ := ih h
      refine ⟨t :: before, rfl, hbefore.keyword (by simp [startsType, hk]) fun finish u us hu => ?_⟩
      rw [specifiers_cons, hu, hk]
  | case4 d t ts hk ih =>
      obtain ⟨before, rfl, hbefore⟩ := ih h
      refine ⟨t :: before, rfl, hbefore.keyword (by simp [startsType, hk]) fun finish u us hu => ?_⟩
      rw [specifiers_cons, hu, hk]
  | case5 d t ts hk ih =>
      obtain ⟨before, rfl, hbefore⟩ := ih h
      refine ⟨t :: before, rfl, hbefore.keyword (by simp [startsType, hk]) fun finish u us hu => ?_⟩
      rw [specifiers_cons, hu, hk]
  | case6 d t ts hk name us hname ih =>
      obtain ⟨after, rfl, hafter⟩ := ih h
      obtain ⟨before, rfl, hbefore⟩ := typeName_reads hname
      refine ⟨t :: (before ++ after), by simp, fun finish us zs hus hzs => ?_⟩
      obtain ⟨u, us, rfl, hu, hus⟩ := hus.cons_cases
      obtain ⟨us, vs, rfl, hus, hvs⟩ := hus.append_cases
      obtain ⟨hspecifiers, hends⟩ := hafter finish vs zs hvs hzs
      rw [List.cons_append, List.append_assoc, specifiers_cons, hu, hk]
      dsimp only
      rw [hbefore finish us _ hus (hends (by simp [TypeId.hasSpecifier, TypeId.addName]))]
      refine ⟨hspecifiers, fun _ => nameEnds_startsType ?_⟩
      rw [hu, startsType, hk]
  | case7 => cases h
  | case8 d t ts hk hd =>
      cases h
      exact ⟨[], rfl, specify_nil _⟩
  | case9 d t ts hk hd name us hname ih =>
      obtain ⟨after, rfl, hafter⟩ := ih h
      obtain ⟨before, hts, hbefore⟩ := typeName_reads hname
      -- The name starts with the token that told it.
      have hlength := typeName_rest_length_lt hname
      obtain _ | ⟨v, before⟩ := before
      · rw [hts] at hlength
        exact absurd hlength (Nat.lt_irrefl _)
      obtain ⟨rfl, rfl⟩ := List.cons.inj hts
      refine ⟨t :: before ++ after, by simp, fun finish us zs hus hzs => ⟨?_, fun h => absurd h hd⟩⟩
      obtain ⟨us, vs, rfl, hus, hvs⟩ := hus.append_cases
      obtain ⟨hspecifiers, hends⟩ := hafter finish vs zs hvs hzs
      have hread := hbefore finish us (vs ++ zs) hus
        (hends (by simp [TypeId.hasSpecifier, TypeId.addName]))
      obtain ⟨u, us, rfl, hu, -⟩ := hus.cons_cases
      rw [List.cons_append] at hread
      rw [List.append_assoc, List.cons_append, specifiers_cons, hu, hk]
      dsimp only
      rw [if_neg hd, hread]
      exact hspecifiers
  | case10 => cases h

/-! ## Declarators -/

theorem pointerQualifiers_reads (cv : Qualifiers) (ts : List Token) :
    ∃ before, ts = before ++ (pointerQualifiers cv ts).2 ∧
      ∀ us zs, SameTexts us before → SpecifiersEnd zs →
        pointerQualifiers cv (us ++ zs) = ((pointerQualifiers cv ts).1, zs) := by
  fun_induction pointerQualifiers cv ts with
  | case1 cv =>
      refine ⟨[], rfl, fun us zs hus hzs => ?_⟩
      obtain rfl := List.map_eq_nil_iff.1 hus
      exact hzs.pointerQualifiers_eq cv
  | case2 cv t ts hk ih =>
      obtain ⟨before, hts, hbefore⟩ := ih
      refine ⟨t :: before, congrArg (t :: ·) hts, fun us zs hus hzs => ?_⟩
      obtain ⟨u, us, rfl, hu, hus⟩ := hus.cons_cases
      rw [List.cons_append, pointerQualifiers, hu, hk]
      exact hbefore us zs hus hzs
  | case3 cv t ts hk ih =>
      obtain ⟨before, hts, hbefore⟩ := ih
      refine ⟨t :: before, congrArg (t :: ·) hts, fun us zs hus hzs => ?_⟩
      obtain ⟨u, us, rfl, hu, hus⟩ := hus.cons_cases
      rw [List.cons_append, pointerQualifiers, hu, hk]
      exact hbefore us zs hus hzs
  | case4 cv t ts =>
      refine ⟨[], rfl, fun us zs hus hzs => ?_⟩
      obtain rfl := List.map_eq_nil_iff.1 hus
      exact hzs.pointerQualifiers_eq cv

/-- The signs of a declarator are read from their own tokens, and then those that follow. -/
theorem declaratorSigns_reads (d : TypeId) (ts : List Token) :
    ∃ before, ts = before ++ (declaratorSigns d ts).2 ∧
      ∀ us zs, SameTexts us before → SpecifiersEnd zs → SpecifiersEnd (us ++ zs) ∧
        declaratorSigns d (us ++ zs) = declaratorSigns (declaratorSigns d ts).1 zs := by
  fun_induction declaratorSigns d ts with
  | case1 d =>
      refine ⟨[], rfl, fun us zs hus hzs => ?_⟩
      obtain rfl := List.map_eq_nil_iff.1 hus
      exact ⟨hzs, rfl⟩
  | case2 d t ts hk ih =>
      obtain ⟨after, hrest, hafter⟩ := ih
      obtain ⟨before, hts, hbefore⟩ := pointerQualifiers_reads .none ts
      refine ⟨t :: (before ++ after), by rw [List.cons_append, List.append_assoc, ← hrest, ← hts],
        fun us zs hus hzs => ?_⟩
      obtain ⟨u, us, rfl, hu, hus⟩ := hus.cons_cases
      obtain ⟨us, vs, rfl, hus, hvs⟩ := hus.append_cases
      obtain ⟨hends, hsigns⟩ := hafter vs zs hvs hzs
      rw [List.cons_append, List.append_assoc, declaratorSigns, hu, hk]
      dsimp only
      rw [hbefore us _ hus hends]
      exact ⟨specifiersEnd_sign (by rw [hu, hk]; rfl), hsigns⟩
  | case3 d t ts hk ih =>
      obtain ⟨before, hts, hbefore⟩ := ih
      refine ⟨t :: before, congrArg (t :: ·) hts, fun us zs hus hzs => ?_⟩
      obtain ⟨u, us, rfl, hu, hus⟩ := hus.cons_cases
      rw [List.cons_append, declaratorSigns, hu, hk]
      exact ⟨specifiersEnd_sign (by rw [hu, hk]; rfl), (hbefore us zs hus hzs).2⟩
  | case4 d t ts hk ih =>
      obtain ⟨before, hts, hbefore⟩ := ih
      refine ⟨t :: before, congrArg (t :: ·) hts, fun us zs hus hzs => ?_⟩
      obtain ⟨u, us, rfl, hu, hus⟩ := hus.cons_cases
      rw [List.cons_append, declaratorSigns, hu, hk]
      exact ⟨specifiersEnd_sign (by rw [hu, hk]; rfl), (hbefore us zs hus hzs).2⟩
  | case5 d t ts =>
      refine ⟨[], rfl, fun us zs hus hzs => ?_⟩
      obtain rfl := List.map_eq_nil_iff.1 hus
      exact ⟨hzs, rfl⟩

/-- A type-id is read from its own tokens, and then the signs that follow are added to it. -/
theorem typeId_reads (h : typeId finish ts = .ok d rest) :
    ∃ before, ts = before ++ rest ∧ ∀ finish' us zs, SameTexts us before → SpecifiersEnd zs →
      typeId finish' (us ++ zs) = .ok (declaratorSigns d zs).1 (declaratorSigns d zs).2 := by
  obtain ⟨d₁, inner, hspecifiers, hsigns⟩ := Outcome.andThen_eq_ok_iff.1 h
  split at hsigns
  · rename_i hspecified
    obtain ⟨rfl, rfl⟩ := Outcome.ok.inj hsigns
    obtain ⟨before, rfl, hbefore⟩ := specifiers_reads hspecifiers
    obtain ⟨after, hinner, hafter⟩ := declaratorSigns_reads d₁ inner
    refine ⟨before ++ after, by rw [List.append_assoc, ← hinner], fun finish' us zs hus hzs => ?_⟩
    obtain ⟨us, vs, rfl, hus, hvs⟩ := hus.append_cases
    obtain ⟨hends, hread⟩ := hafter vs zs hvs hzs
    rw [List.append_assoc, typeId, (hbefore finish' us _ hus hends).1, Outcome.ok_andThen,
      if_pos hspecified, hread]
  · cases hsigns

/-! ## Whole texts -/

/-- Nothing may be left of a whole text. -/
theorem andThen_expect_eof_eq_ok_iff {α : Type} {o : Outcome α} {a : α}
    (heof : ∀ t ∈ o.rest, t.kind ≠ .eof) :
    (o.andThen fun a rest => (expect finish .eof rest).map fun _ => a) = .ok a rest ↔
      o = .ok a [] ∧ rest = [] := by
  cases o with
  | error e us => simp [Outcome.andThen]
  | ok b us =>
      rw [Outcome.ok_andThen, Outcome.map_eq_ok_iff]
      constructor
      · rintro ⟨t, ht, rfl⟩
        obtain ⟨rfl, rfl, -⟩ := (expect_eof_eq_ok_iff heof).1 ht
        exact ⟨rfl, rfl⟩
      · rintro ⟨h, rfl⟩
        cases h
        exact ⟨finish.token, (expect_eof_eq_ok_iff heof).2 ⟨rfl, rfl, rfl⟩, rfl⟩

theorem arrayType_eq_ok_iff {env : Env} {t : Ty} :
    arrayType env ts = .ok t rest ↔ ∃ d us u bounds, typeId env.finish ts = .ok d us ∧
      d.resolve env.types = .ok u ∧ arrayBounds env.finish us = .ok bounds rest ∧
      u.arrays bounds = t := by
  constructor
  · intro h
    obtain ⟨d, us, hd, h⟩ := Outcome.andThen_eq_ok_iff.1 h
    obtain ⟨u, vs, hu, h⟩ := Outcome.andThen_eq_ok_iff.1 h
    obtain ⟨hresolve, rfl⟩ := resolveAt_eq_ok_iff.1 hu
    obtain ⟨bounds, hbounds, rfl⟩ := Outcome.map_eq_ok_iff.1 h
    exact ⟨d, us, u, bounds, hd, hresolve, hbounds, rfl⟩
  · rintro ⟨d, us, u, bounds, hd, hresolve, hbounds, rfl⟩
    refine Outcome.andThen_eq_ok_iff.2 ⟨d, us, hd, ?_⟩
    refine Outcome.andThen_eq_ok_iff.2 ⟨u, us, resolveAt_eq_ok_iff.2 ⟨hresolve, rfl⟩, ?_⟩
    exact Outcome.map_eq_ok_iff.2 ⟨bounds, hbounds, rfl⟩

theorem castType_eq_ok_iff {env : Env} {t : Ty} :
    castType env ts = .ok t rest ↔ ∃ d r, typeId env.finish ts = .ok d (r :: rest) ∧
      r.kind = .punct .rParen ∧ d.resolve env.types = .ok t := by
  constructor
  · intro h
    obtain ⟨d, us, hd, h⟩ := Outcome.andThen_eq_ok_iff.1 h
    obtain ⟨r, vs, rfl, hr, h⟩ := (expect_andThen_eq_ok_iff (by simp)).1 h
    obtain ⟨hresolve, rfl⟩ := resolveAt_eq_ok_iff.1 h
    exact ⟨d, r, hd, hr, hresolve⟩
  · rintro ⟨d, r, hd, hr, hresolve⟩
    refine Outcome.andThen_eq_ok_iff.2 ⟨d, r :: rest, hd, ?_⟩
    exact (expect_andThen_eq_ok_iff (by simp)).2
      ⟨r, rest, rfl, hr, resolveAt_eq_ok_iff.2 ⟨hresolve, rfl⟩⟩

variable {types : TypeNames} {text : String}

/-- A text is read as a type if all its tokens are. -/
theorem read_type_eq_ok_iff {t : Ty} :
    Ty.read types text = .ok t ↔
      arrayType ⟨types, (Tokens.lex text).finish⟩ (Tokens.lex text).body = .ok t [] := by
  refine Outcome.toExcept_eq_ok_iff.trans ?_
  have hleaves := arrayType_leaves ⟨types, (Tokens.lex text).finish⟩ (Tokens.lex text).body
  have heof := fun t ht =>
    Tokens.lexFrom_kind_ne_eof .start text.toList t (hleaves.isSuffix.subset ht)
  exact (exists_congr fun rest => andThen_expect_eof_eq_ok_iff heof).trans (by simp)

/-- A text is read as an expression if all its tokens are. -/
theorem read_expr_eq_ok_iff {e : Expr} :
    Expr.read types text = .ok e ↔
      run ⟨types, (Tokens.lex text).finish⟩ .expression (Tokens.lex text).body = .ok e [] := by
  refine Outcome.toExcept_eq_ok_iff.trans ?_
  have hleaves := run_leaves ⟨types, (Tokens.lex text).finish⟩ .expression (Tokens.lex text).body
  have heof := fun t ht =>
    Tokens.lexFrom_kind_ne_eof .start text.toList t (hleaves.isSuffix.subset ht)
  exact (exists_congr fun rest => andThen_expect_eof_eq_ok_iff heof).trans (by simp)

end WatchExpr.Grammar
