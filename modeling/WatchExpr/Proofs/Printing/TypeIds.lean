import WatchExpr.Grammar.TypeIds
import WatchExpr.Proofs.Failure
import WatchExpr.Proofs.Grammar.Names
import WatchExpr.Proofs.Printing.Types

/-!
# Printed types are read back

The tokens of the text of a type are read as the type-id that it is printed from, and that type-id
stands for the type.
-/

namespace WatchExpr

open Lexeme Grammar

/-- A type as it is written. -/
def Ty.typeId : Ty → TypeId
  | .scalar k q => { words := k.words, cv := q }
  | .tagged r q => { name? := some r.name, cv := q }
  | .pointer t q => t.typeId.addSign (.pointer q)
  | .reference t _ => t.typeId.addSign .reference
  | .array t _ _ => t.typeId

/-! ## Resolution -/

namespace TypeId

variable {types : TypeNames} {d : TypeId} {b t : Ty}

theorem resolve_eq_ok (hwell : d.illFormed = false) (hspecified : d.hasSpecifier)
    (hbase : d.base types = .ok b) (hsigns : d.signs.foldlM applySign b = .ok t)
    (hvoid : t.isVoid = false) : d.resolve types = .ok t := by
  simp [resolve, hwell, hspecified, hbase, hsigns, hvoid, bind, Except.bind]

/-- A well-formed type-id without references that stands for a type, which may be `void`. -/
structure Stands (types : TypeNames) (d : TypeId) (t : Ty) : Prop where
  wellFormed : d.illFormed = false
  specified : d.hasSpecifier
  noReference : .reference ∉ d.signs
  signs : ∃ b, d.base types = .ok b ∧ d.signs.foldlM applySign b = .ok t

theorem foldlM_applySign_append {signs : List DeclaratorSign} {s : DeclaratorSign} {u : Ty}
    (hsigns : signs.foldlM applySign b = .ok t) (hs : applySign t s = .ok u) :
    (signs ++ [s]).foldlM applySign b = .ok u := by
  rw [List.foldlM_append, hsigns]
  simp [bind, Except.bind, hs]

theorem Stands.illFormed_addSign (h : Stands types d t) (s : DeclaratorSign) :
    (d.addSign s).illFormed = false := by
  have hlast : d.signs.getLast? ≠ some .reference :=
    fun hlast => h.noReference (List.mem_of_getLast? hlast)
  simp [addSign, h.wellFormed, hlast]

theorem Stands.pointer (h : Stands types d t) (q : Qualifiers) :
    Stands types (d.addSign (.pointer q)) (.pointer t q) where
  wellFormed := h.illFormed_addSign _
  specified := h.specified
  noReference := by simp [addSign, h.noReference]
  signs := by
    obtain ⟨b, hb, hsigns⟩ := h.signs
    exact ⟨b, hb, foldlM_applySign_append hsigns rfl⟩

end TypeId

namespace Ty

variable {types : TypeNames} {t : Ty}

theorem typeId_stands (ht : t.PointsToKnown types) : TypeId.Stands types t.typeId t := by
  induction t with
  | scalar k q =>
      refine ⟨rfl, ?_, by simp [typeId], .scalar k q, ?_, rfl⟩
      · simp [typeId, TypeId.hasSpecifier, k.words_ne_nil]
      · simp only [typeId, TypeId.base, k.kind?_words]
  | tagged r q =>
      obtain ⟨-, p, hp⟩ := ht
      refine ⟨rfl, by simp [typeId, TypeId.hasSpecifier], by simp [typeId], .tagged r q, ?_, rfl⟩
      simp only [typeId, TypeId.base, hp, withCv]
  | pointer t q ih => exact (ih ht).pointer q
  | reference t q => exact ht.elim
  | array t n q => exact ht.elim

theorem isReference_of_pointsToKnown (ht : t.PointsToKnown types) : t.isReference = false := by
  cases t with
  | reference t q => exact ht.elim
  | _ => rfl

/-- The written form of a type stands for it. -/
theorem resolve_typeId (ht : t.IsDeclarable types) : t.typeId.resolve types = .ok t := by
  have hpointer : t.isVoid = false → t.PointsToKnown types →
      t.typeId.resolve types = .ok t := fun hvoid ht => by
    have hstands := typeId_stands ht
    obtain ⟨b, hb, hsigns⟩ := hstands.signs
    exact TypeId.resolve_eq_ok hstands.wellFormed hstands.specified hb hsigns hvoid
  cases t with
  | reference t q =>
      obtain ⟨rfl, hvoid, ht⟩ := ht
      have hstands := typeId_stands ht
      obtain ⟨b, hb, hsigns⟩ := hstands.signs
      refine TypeId.resolve_eq_ok (hstands.illFormed_addSign _) hstands.specified hb
        (TypeId.foldlM_applySign_append hsigns ?_) rfl
      simp [TypeId.applySign, hvoid, isReference_of_pointsToKnown ht]
  | scalar k q => exact hpointer ht.1 ht.2
  | tagged r q => exact hpointer ht.1 ht.2
  | pointer t q => exact hpointer ht.1 ht.2
  | array t n q => exact ht.2.elim

end Ty

/-! ## Specifiers -/

namespace Grammar

variable {finish : EndMark} {d : TypeId} {t : Token} {ts us zs rest : List Token} {q : Qualifiers}

theorem specifiers_word {w : BuiltinWord} (ht : t.kind = .keyword (.builtin w)) :
    specifiers finish d (t :: ts) = specifiers finish (d.addWord w) ts := by
  rw [specifiers, ht]
  rfl

theorem specifiers_const (ht : t.kind = .keyword .const) :
    specifiers finish d (t :: ts) = specifiers finish d.addConst ts := by
  rw [specifiers, ht]
  rfl

theorem specifiers_volatile (ht : t.kind = .keyword .volatile) :
    specifiers finish d (t :: ts) = specifiers finish d.addVolatile ts := by
  rw [specifiers, ht]
  rfl

theorem specifiers_name {name : String} (ht : specifierStart? t.kind = some .name)
    (hd : d.hasSpecifier = false) (hname : typeName finish (t :: ts) = .ok name rest) :
    specifiers finish d (t :: ts) = specifiers finish (d.addName name) rest := by
  rw [specifiers, ht]
  dsimp only
  rw [if_neg (by simp [hd])]
  split
  · rename_i h
    cases hname.symm.trans h
    rfl
  · rename_i h
    cases hname.symm.trans h

/-- What ends a declarator: a bound or a parenthesis. -/
def declaratorEnds : List TokenKind :=
  [.punct .rParen, .punct .lSquare, .punct .lParen]

/-- What stands behind a part of a printed type: a sign, what ends it or nothing. -/
def SignsAhead (zs : List Token) : Prop :=
  ∀ z ∈ zs.head?, z.kind ∈ .punct .star :: .punct .amp :: declaratorEnds

theorem SignsAhead.nameEnds (h : SignsAhead zs) : NameEnds zs := by
  have hall : ∀ k ∈ .punct .star :: .punct .amp :: declaratorEnds,
      k ≠ .punct .less ∧ k ≠ .punct .colonColon := by decide
  exact fun z hz => hall z.kind (h z hz)

theorem SignsAhead.specifierStart? (h : SignsAhead zs) :
    ∀ z ∈ zs.head?, specifierStart? z.kind = none := by
  have hall : ∀ k ∈ .punct .star :: .punct .amp :: declaratorEnds,
      Grammar.specifierStart? k = none := by decide
  exact fun z hz => hall z.kind (h z hz)

theorem specifiers_signsAhead (h : SignsAhead zs) : specifiers finish d zs = .ok d zs := by
  cases zs with
  | nil => rw [specifiers]
  | cons z us => rw [specifiers, h.specifierStart? z rfl]

theorem kind_of_lexeme_word {w : List Char} {k : TokenKind} (ht : t.lexeme = word w)
    (hk : wordKind w = k) : t.kind = k :=
  (congrArg Lexeme.kind ht).trans hk

theorem kind_const (ht : t.lexeme = word "const".toList) : t.kind = .keyword .const :=
  kind_of_lexeme_word ht (by decide)

theorem kind_volatile (ht : t.lexeme = word "volatile".toList) : t.kind = .keyword .volatile :=
  kind_of_lexeme_word ht (by decide)

theorem wordKind_builtin (w : BuiltinWord) :
    wordKind w.spelling.toList = .keyword (.builtin w) := by
  cases w <;> decide

theorem specifiers_words {ws : List BuiltinWord}
    (hts : ts.map Token.lexeme = ws.map fun w => word w.spelling.toList) :
    specifiers finish d (ts ++ zs) = specifiers finish (ws.foldl TypeId.addWord d) zs := by
  induction ws generalizing d ts with
  | nil =>
      obtain rfl := List.map_eq_nil_iff.1 hts
      rfl
  | cons w ws ih =>
      obtain ⟨t, us, rfl, ht, hus⟩ := List.map_eq_cons_iff.1 hts
      rw [List.cons_append, specifiers_word (kind_of_lexeme_word ht (wordKind_builtin w)), ih hus,
        List.foldl_cons]

theorem foldl_addWord (ws : List BuiltinWord) (hd : d.name? = none) :
    ws.foldl TypeId.addWord d = { d with words := d.words ++ ws } := by
  induction ws generalizing d with
  | nil => simp
  | cons w ws ih =>
      have hword : (d.addWord w).name? = none := hd
      rw [List.foldl_cons, ih hword]
      simp [TypeId.addWord, hd]

/-- The tokens of printed qualifiers: `const` in front of `volatile`. -/
theorem qualifiers_cases (hts : ts.map Token.lexeme = q.lexemes) :
    q = .none ∧ ts = [] ∨
      (∃ t, q = ⟨true, false⟩ ∧ ts = [t] ∧ t.kind = .keyword .const) ∨
      (∃ t, q = ⟨false, true⟩ ∧ ts = [t] ∧ t.kind = .keyword .volatile) ∨
      ∃ t u, q = ⟨true, true⟩ ∧ ts = [t, u] ∧ t.kind = .keyword .const ∧
        u.kind = .keyword .volatile := by
  obtain ⟨_ | _, _ | _⟩ := q
  · exact .inl ⟨rfl, List.map_eq_nil_iff.1 hts⟩
  · obtain ⟨t, rfl, ht⟩ := List.map_eq_singleton_iff.1 hts
    exact .inr (.inr (.inl ⟨t, rfl, rfl, kind_volatile ht⟩))
  · obtain ⟨t, rfl, ht⟩ := List.map_eq_singleton_iff.1 hts
    exact .inr (.inl ⟨t, rfl, rfl, kind_const ht⟩)
  · obtain ⟨t, us, rfl, ht, hus⟩ := List.map_eq_cons_iff.1 hts
    obtain ⟨u, rfl, hu⟩ := List.map_eq_singleton_iff.1 hus
    exact .inr (.inr (.inr ⟨t, u, rfl, rfl, kind_const ht, kind_volatile hu⟩))

/-- The qualifiers of the core of a printed type. -/
theorem specifiers_qualifiers (hts : ts.map Token.lexeme = q.lexemes) :
    specifiers finish {} (ts ++ zs) = specifiers finish { cv := q } zs := by
  obtain ⟨rfl, rfl⟩ | ⟨t, rfl, rfl, ht⟩ | ⟨t, rfl, rfl, ht⟩ | ⟨t, u, rfl, rfl, ht, hu⟩ :=
    qualifiers_cases hts
  · rfl
  · exact specifiers_const ht
  · exact specifiers_volatile ht
  · exact (specifiers_const ht).trans (specifiers_volatile hu)

theorem pointerQualifiers_const {cv : Qualifiers} (ht : t.kind = .keyword .const) :
    pointerQualifiers cv (t :: ts) = pointerQualifiers { cv with isConst := true } ts := by
  rw [pointerQualifiers, ht]
  rfl

theorem pointerQualifiers_volatile {cv : Qualifiers} (ht : t.kind = .keyword .volatile) :
    pointerQualifiers cv (t :: ts) = pointerQualifiers { cv with isVolatile := true } ts := by
  rw [pointerQualifiers, ht]
  rfl

theorem pointerQualifiers_signsAhead (h : SignsAhead zs) (cv : Qualifiers) :
    pointerQualifiers cv zs = (cv, zs) := by
  cases zs with
  | nil => rfl
  | cons z us => rw [pointerQualifiers, h.specifierStart? z rfl]

/-- The qualifiers behind a sign of a printed type. -/
theorem pointerQualifiers_qualifiers (hts : ts.map Token.lexeme = q.lexemes)
    (hzs : SignsAhead zs) : pointerQualifiers .none (ts ++ zs) = (q, zs) := by
  have hend := pointerQualifiers_signsAhead hzs
  obtain ⟨rfl, rfl⟩ | ⟨t, rfl, rfl, ht⟩ | ⟨t, rfl, rfl, ht⟩ | ⟨t, u, rfl, rfl, ht, hu⟩ :=
    qualifiers_cases hts
  · exact hend _
  · exact (pointerQualifiers_const ht).trans (hend _)
  · exact (pointerQualifiers_volatile ht).trans (hend _)
  · exact ((pointerQualifiers_const ht).trans (pointerQualifiers_volatile hu)).trans (hend _)

/-! ## Whole types -/

variable {types : TypeNames} {type : Ty}

theorem typeId_eq (hspec : specifiers finish {} ts = .ok d zs) (hd : d.hasSpecifier) :
    typeId finish ts = .ok (declaratorSigns d zs).1 (declaratorSigns d zs).2 := by
  rw [typeId, hspec, Outcome.ok_andThen, if_pos hd]

/-- The tokens of a printed type leave its written form, to which further signs may be added. -/
theorem typeId_pointsToKnown (htype : type.PointsToKnown types)
    (hts : ts.map Token.lexeme = type.lexemes) (hzs : SignsAhead zs) :
    typeId finish (ts ++ zs) =
      .ok (declaratorSigns type.typeId zs).1 (declaratorSigns type.typeId zs).2 := by
  induction type generalizing ts zs with
  | scalar k q =>
      obtain ⟨us, vs, rfl, hus, hvs⟩ := List.map_eq_append_iff.1 hts
      refine typeId_eq ?_ (Ty.typeId_stands htype).specified
      rw [List.append_assoc, specifiers_qualifiers hus, specifiers_words hvs,
        foldl_addWord _ rfl, specifiers_signsAhead hzs]
      rfl
  | tagged r q =>
      obtain ⟨us, vs, rfl, hus, hvs⟩ := List.map_eq_append_iff.1 hts
      have hname : typeName finish (vs ++ zs) = .ok r.name zs := htype.1.reads hvs hzs.nameEnds
      obtain ⟨v, ws, rfl, hv⟩ := htype.1.starts hvs
      rw [List.cons_append] at hname
      refine typeId_eq ?_ (Ty.typeId_stands htype).specified
      rw [List.append_assoc, specifiers_qualifiers hus, List.cons_append,
        specifiers_name hv rfl hname, specifiers_signsAhead hzs]
      rfl
  | pointer type q ih =>
      obtain ⟨us, vs, rfl, hus, hvs⟩ := List.map_eq_append_iff.1 hts
      obtain ⟨star, qs, rfl, hkind, hqs⟩ := exists_mark hvs
      have hsigns : SignsAhead (star :: (qs ++ zs)) := fun z hz => by
        cases hz
        simp [hkind]
      rw [List.append_assoc, List.cons_append, ih htype hus hsigns, declaratorSigns, hkind]
      dsimp only
      rw [pointerQualifiers_qualifiers hqs hzs]
      rfl
  | reference type q => exact htype.elim
  | array type n q => exact htype.elim

/-- The declarator ends here: with a bound, a parenthesis or nothing. -/
def DeclaratorEnds (zs : List Token) : Prop :=
  ∀ z ∈ zs.head?, z.kind ∈ declaratorEnds

theorem DeclaratorEnds.signsAhead (h : DeclaratorEnds zs) : SignsAhead zs :=
  fun z hz => List.mem_cons_of_mem _ (List.mem_cons_of_mem _ (h z hz))

theorem declaratorSigns_of_ends (h : DeclaratorEnds zs) (d : TypeId) :
    declaratorSigns d zs = (d, zs) := by
  cases zs with
  | nil => rw [declaratorSigns]
  | cons z us =>
      have hz := h z rfl
      simp only [declaratorEnds, List.mem_cons, List.not_mem_nil, or_false] at hz
      rcases hz with hz | hz | hz <;> rw [declaratorSigns, hz]

/-- The tokens of a printed type are read as its written form. -/
theorem typeId_declarable (htype : type.IsDeclarable types)
    (hts : ts.map Token.lexeme = type.lexemes) (hzs : DeclaratorEnds zs) :
    typeId finish (ts ++ zs) = .ok type.typeId zs := by
  have hpointer : type.PointsToKnown types → typeId finish (ts ++ zs) = .ok type.typeId zs :=
    fun htype => by
      rw [typeId_pointsToKnown htype hts hzs.signsAhead, declaratorSigns_of_ends hzs]
  cases type with
  | reference type q =>
      obtain ⟨us, vs, rfl, hus, hvs⟩ := List.map_eq_append_iff.1 hts
      obtain ⟨amp, rfl, hkind⟩ := exists_last_mark hvs
      have hsign : SignsAhead (amp :: zs) := fun z hz => by
        cases hz
        simp [hkind]
      rw [List.append_assoc, List.singleton_append, typeId_pointsToKnown htype.2.2 hus hsign,
        declaratorSigns, hkind]
      dsimp only
      rw [declaratorSigns_of_ends hzs]
      rfl
  | scalar k q => exact hpointer htype.2
  | tagged r q => exact hpointer htype.2
  | pointer t q => exact hpointer htype.2
  | array t n q => exact htype.2.elim

/-- The type of a printed cast is read back. -/
theorem castType_castForm {env : Env} {r : Token} (htype : type.IsCastForm env.types)
    (hts : ts.map Token.lexeme = type.lexemes) (hr : r.kind = .punct .rParen) :
    castType env (ts ++ r :: rest) = .ok type rest := by
  have hends : DeclaratorEnds (r :: rest) := fun z hz => by
    cases hz
    simp [hr, declaratorEnds]
  have hexpect : expect env.finish (.punct .rParen) (r :: rest) = .ok r rest :=
    (expect_eq_ok_iff (by simp)).2 ⟨rfl, hr⟩
  rw [castType, typeId_declarable htype.isDeclarable hts hends, Outcome.ok_andThen, hexpect,
    Outcome.ok_andThen, resolveAt, Ty.resolve_typeId htype.isDeclarable]

end Grammar

end WatchExpr
