import WatchExpr.Grammar.Reading
import WatchExpr.Proofs.Failure
import WatchExpr.Proofs.Grammar.Runs
import WatchExpr.Proofs.Subexpressions
import WatchExpr.Proofs.Typing.Types

/-!
# Types that are formed

What a type that is read keeps from the type at its core. A reference to a reference is refused, and so
is `void` but under a pointer. A pointer or an array that is put on a reference is refused only if the
reference is written in front of it: a name may hide the reference, and bounds are not looked at.
-/

namespace WatchExpr

namespace Ty

/-- In the type `void` stands only under a pointer. -/
def VoidPointedTo : Ty → Prop
  | .scalar k _ => k ≠ .void
  | .tagged _ _ => True
  | .pointer t _ => t.isVoid ∨ t.VoidPointedTo
  | .reference t _ | .array t _ _ => t.VoidPointedTo

/-- No pointer in the type points to a reference, and no array in it is one of references. -/
def NothingOnReferences : Ty → Prop
  | .scalar _ _ | .tagged _ _ => True
  | .pointer t _ | .array t _ _ => t.isReference = false ∧ t.NothingOnReferences
  | .reference t _ => t.NothingOnReferences

/-- A type that the inspected program may have: references are to objects, nothing else is made of
references, and `void` is only pointed to. -/
structure WellFormed (t : Ty) : Prop where
  referencesFlat : t.ReferencesFlat
  voidPointedTo : t.VoidPointedTo
  nothingOnReferences : t.NothingOnReferences

variable {t u : Ty} {q : Qualifiers}

@[simp] theorem isVoid_withCv (t : Ty) (q : Qualifiers) : (t.withCv q).isVoid = t.isVoid := by
  cases t with
  | scalar k _ => cases k <;> rfl
  | _ => rfl

@[simp] theorem voidPointedTo_withCv (t : Ty) (q : Qualifiers) :
    (t.withCv q).VoidPointedTo ↔ t.VoidPointedTo := by
  cases t <;> rfl

@[simp] theorem referencesFlat_withCv (t : Ty) (q : Qualifiers) :
    (t.withCv q).ReferencesFlat ↔ t.ReferencesFlat := by
  cases t <;> rfl

/-- A type whose references are flat and whose `void`, if it is not itself `void`, is pointed to. -/
structure Sound (t : Ty) : Prop where
  referencesFlat : t.ReferencesFlat
  voidPointedTo : t.isVoid ∨ t.VoidPointedTo

theorem Sound.withCv (h : t.Sound) (q : Qualifiers) : (t.withCv q).Sound :=
  ⟨(referencesFlat_withCv t q).2 h.referencesFlat, by simpa using h.voidPointedTo⟩

theorem sound_scalar (k : ScalarKind) (q : Qualifiers) : (scalar k q).Sound := by
  cases k with
  | void => exact ⟨trivial, .inl rfl⟩
  | arithmetic k => exact ⟨trivial, .inr nofun⟩

/-! ## Array bounds -/

/-- The array of given bounds, the first of them being the outermost. -/
def arrays (t : Ty) (bounds : List UInt64) : Ty :=
  bounds.foldr (fun n t => .array t n .none) t

variable {bounds : List UInt64}

theorem referencesFlat_arrays : (t.arrays bounds).ReferencesFlat ↔ t.ReferencesFlat := by
  induction bounds with
  | nil => rfl
  | cons n bounds ih => exact ih

theorem voidPointedTo_arrays : (t.arrays bounds).VoidPointedTo ↔ t.VoidPointedTo := by
  induction bounds with
  | nil => rfl
  | cons n bounds ih => exact ih

theorem nothingOnReferences_arrays :
    (t.arrays bounds).NothingOnReferences ↔
      t.NothingOnReferences ∧ (t.isReference → bounds = []) := by
  induction bounds with
  | nil => simp [arrays]
  | cons n bounds ih =>
      have hcons : (t.arrays (n :: bounds)).NothingOnReferences ↔
          (t.arrays bounds).isReference = false ∧ (t.arrays bounds).NothingOnReferences := Iff.rfl
      rw [hcons, ih]
      cases bounds with
      | nil => simp [arrays, and_comm]
      | cons m bounds => simp [arrays, isReference]

end Ty

/-! ## Signs -/

namespace TypeId

variable {types : TypeNames} {d : TypeId} {b t u : Ty} {signs : List DeclaratorSign}
  {bounds : List UInt64}

theorem applySign_reference_eq_ok (h : applySign t .reference = .ok u) :
    t.isVoid = false ∧ t.isReference = false ∧ u = .reference t .none := by
  simp only [applySign] at h
  split at h
  · cases h
  · split at h
    · cases h
    · cases h
      exact ⟨Bool.eq_false_iff.2 ‹_›, Bool.eq_false_iff.2 ‹_›, rfl⟩

theorem sound_applySign {s : DeclaratorSign} (ht : t.Sound) (h : applySign t s = .ok u) :
    u.Sound := by
  cases s with
  | pointer q =>
      cases h
      exact ⟨ht.referencesFlat, .inr ht.voidPointedTo⟩
  | reference =>
      obtain ⟨hvoid, href, rfl⟩ := applySign_reference_eq_ok h
      exact ⟨⟨href, ht.referencesFlat⟩, .inr (ht.voidPointedTo.resolve_left (by simp [hvoid]))⟩

theorem sound_foldlM (hb : b.Sound) (h : signs.foldlM applySign b = .ok t) : t.Sound :=
  foldlM_invariant (fun _ _ _ ht h => sound_applySign ht h) hb h

/-- References among the signs of a declarator stand at its end. -/
def Ordered (signs : List DeclaratorSign) : Prop :=
  .reference ∉ signs.dropLast

/-- Signs in order put no pointer on a reference, unless there is one already at the core. -/
theorem nothingOnReferences_foldlM (hsigns : Ordered signs)
    (h : signs.foldlM applySign b = .ok t) :
    t.NothingOnReferences ↔ b.NothingOnReferences ∧ (b.isReference → signs = []) := by
  induction signs generalizing b with
  | nil =>
      cases h
      simp
  | cons s signs ih =>
      rw [List.foldlM_cons] at h
      obtain ⟨u, hu, h⟩ := bind_eq_ok_iff.1 h
      have htail : Ordered signs := fun hmem => by
        cases signs with
        | nil => cases hmem
        | cons s' signs => exact hsigns (by simp [hmem])
      rw [ih htail h]
      cases s with
      | pointer q =>
          cases hu
          simp [Ty.NothingOnReferences, Ty.isReference, and_comm]
      | reference =>
          obtain ⟨-, href, rfl⟩ := applySign_reference_eq_ok hu
          have hlast : signs = [] := by
            by_contra hne
            exact hsigns (by simp [List.dropLast_cons_of_ne_nil hne])
          simp [Ty.NothingOnReferences, href, hlast]

/-- The outermost level is a reference if the last sign makes it one, or if there is no sign. -/
theorem isReference_foldlM (hsigns : Ordered signs) (h : signs.foldlM applySign b = .ok t) :
    t.isReference ↔ signs = [] ∧ b.isReference ∨ .reference ∈ signs := by
  obtain rfl | ⟨before, s, rfl⟩ := List.eq_nil_or_concat signs
  · cases h
    simp
  · rw [List.concat_eq_append] at *
    rw [Ordered, List.dropLast_concat] at hsigns
    rw [List.foldlM_append] at h
    obtain ⟨u, -, h⟩ := bind_eq_ok_iff.1 h
    rw [List.foldlM_cons] at h
    obtain ⟨v, hv, h⟩ := bind_eq_ok_iff.1 h
    cases h
    cases s with
    | pointer q =>
        cases hv
        simp [Ty.isReference, hsigns]
    | reference =>
        obtain ⟨-, -, rfl⟩ := applySign_reference_eq_ok hv
        simp [Ty.isReference]

/-- Whether a sign or a bound is put on a reference: on one that the core is, or that the signs make. -/
def OnReference (d : TypeId) (b : Ty) (bounds : List UInt64) : Prop :=
  b.isReference ∧ (d.signs ≠ [] ∨ bounds ≠ []) ∨ .reference ∈ d.signs ∧ bounds ≠ []

/-- The type-id resolves to a type with a given type at its core. -/
structure Resolves (types : TypeNames) (d : TypeId) (b t : Ty) : Prop where
  wellFormed : d.illFormed = false
  base : d.base types = .ok b
  signs : d.signs.foldlM applySign b = .ok t
  notVoid : t.isVoid = false

theorem resolve_eq_ok_iff :
    d.resolve types = .ok t ↔ d.hasSpecifier ∧ ∃ b, d.Resolves types b t := by
  constructor
  · intro h
    rw [resolve] at h
    split at h
    · cases h
    · rename_i hd
      obtain ⟨b, hb, h⟩ := bind_eq_ok_iff.1 h
      obtain ⟨u, hu, h⟩ := bind_eq_ok_iff.1 h
      split at h
      · cases h
      · rename_i hvoid
        cases h
        simp only [Bool.or_eq_true, not_or, Bool.not_eq_true, Bool.not_eq_false'] at hd
        exact ⟨by simpa using hd.2, b, hd.1, hb, hu, Bool.eq_false_iff.2 hvoid⟩
  · rintro ⟨hspecified, b, hwell, hb, hu, hvoid⟩
    simp [resolve, hwell, hspecified, hb, hu, hvoid, bind, Except.bind]

/-- A type is as good as the one at its core, unless something is put on a reference. -/
theorem Resolves.nothingOnReferences_iff (h : d.Resolves types b t) (hd : Ordered d.signs)
    (bounds : List UInt64) :
    (t.arrays bounds).NothingOnReferences ↔ b.NothingOnReferences ∧ ¬d.OnReference b bounds := by
  rw [Ty.nothingOnReferences_arrays, nothingOnReferences_foldlM hd h.signs,
    isReference_foldlM hd h.signs, OnReference]
  grind

theorem Resolves.sound (h : d.Resolves types b t) (hb : b.Sound) (bounds : List UInt64) :
    (t.arrays bounds).ReferencesFlat ∧ (t.arrays bounds).VoidPointedTo := by
  have ht := sound_foldlM hb h.signs
  exact ⟨Ty.referencesFlat_arrays.2 ht.referencesFlat,
    Ty.voidPointedTo_arrays.2 (ht.voidPointedTo.resolve_left (by simp [h.notVoid]))⟩

end TypeId

/-! ## Reading -/

namespace Grammar

variable {env : Env} {finish : EndMark} {d d' : TypeId} {t : Ty} {ts us rest : List Token}

theorem specifiers_signs (h : specifiers finish d ts = .ok d' rest) : d'.signs = d.signs := by
  fun_induction specifiers finish d ts with
  | case1 => cases h; rfl
  | case2 => cases h; rfl
  | case3 _ _ _ _ _ ih => exact ih h
  | case4 _ _ _ _ ih => exact ih h
  | case5 _ _ _ _ ih => exact ih h
  | case6 _ _ _ _ _ _ _ ih => exact ih h
  | case7 => cases h
  | case8 => cases h; rfl
  | case9 _ _ _ _ _ _ _ _ ih => exact ih h
  | case10 => cases h

theorem ordered_addSign {s : DeclaratorSign} (hd : d.illFormed = false → TypeId.Ordered d.signs)
    (h : (d.addSign s).illFormed = false) : TypeId.Ordered (d.addSign s).signs := by
  simp only [TypeId.addSign, Bool.or_eq_false_iff, decide_eq_false_iff_not] at h
  intro hmem
  rw [TypeId.addSign, List.dropLast_concat] at hmem
  obtain hnil | ⟨before, last, hsigns⟩ := List.eq_nil_or_concat d.signs
  · simp [hnil] at hmem
  · have hbefore := hd h.1
    rw [hsigns, List.concat_eq_append] at h hmem hbefore
    rw [TypeId.Ordered, List.dropLast_concat] at hbefore
    simp [hbefore] at hmem
    simp [← hmem] at h

/-- A sign behind a reference makes the type-id ill-formed. -/
theorem ordered_declaratorSigns (hd : d.illFormed = false → TypeId.Ordered d.signs)
    (h : (declaratorSigns d ts).1.illFormed = false) :
    TypeId.Ordered (declaratorSigns d ts).1.signs := by
  fun_induction declaratorSigns d ts with
  | case1 => exact hd h
  | case2 _ _ _ _ ih => exact ih (ordered_addSign hd) h
  | case3 _ _ _ _ ih => exact ih (ordered_addSign hd) h
  | case4 _ _ _ _ ih => exact ih (fun hwell => by cases hwell) h
  | case5 => exact hd h

theorem ordered_of_typeId (h : typeId finish ts = .ok d rest) (hd : d.illFormed = false) :
    TypeId.Ordered d.signs := by
  obtain ⟨s, us, hs, h⟩ := Outcome.andThen_eq_ok_iff.1 h
  split at h
  · cases h
    refine ordered_declaratorSigns (fun _ => ?_) hd
    rw [specifiers_signs hs]
    exact List.not_mem_nil
  · cases h

theorem resolveAt_eq_ok_iff {place : Location} :
    resolveAt env place d us = .ok t rest ↔ d.resolve env.types = .ok t ∧ us = rest := by
  unfold resolveAt
  split
  · rename_i h
    simp [h]
  · rename_i h
    simp [h]

/-- The tokens start with a type: a type-id, and array bounds behind it. -/
structure Writes (env : Env) (ts : List Token) (d : TypeId) (b : Ty) (bounds : List UInt64) (t : Ty) :
    Prop where
  reads : ∃ us rest, typeId env.finish ts = .ok d us ∧ arrayBounds env.finish us = .ok bounds rest
  resolves : ∃ u, d.Resolves env.types b u ∧ t = u.arrays bounds

variable {b : Ty} {bounds : List UInt64}

theorem Writes.nothingOnReferences_iff (h : Writes env ts d b bounds t) :
    t.NothingOnReferences ↔ b.NothingOnReferences ∧ ¬d.OnReference b bounds := by
  obtain ⟨us, rest, hd, -⟩ := h.reads
  obtain ⟨u, hu, rfl⟩ := h.resolves
  exact hu.nothingOnReferences_iff (ordered_of_typeId hd hu.wellFormed) bounds

theorem writes_of_arrayType (h : arrayType env ts = .ok t rest) :
    ∃ d b bounds, Writes env ts d b bounds t := by
  obtain ⟨d, us, hd, h⟩ := Outcome.andThen_eq_ok_iff.1 h
  obtain ⟨u, vs, hu, h⟩ := Outcome.andThen_eq_ok_iff.1 h
  obtain ⟨hresolve, rfl⟩ := resolveAt_eq_ok_iff.1 hu
  obtain ⟨bounds, hbounds, rfl⟩ := Outcome.map_eq_ok_iff.1 h
  obtain ⟨-, b, hb⟩ := TypeId.resolve_eq_ok_iff.1 hresolve
  exact ⟨d, b, bounds, ⟨us, rest, hd, hbounds⟩, u, hb, rfl⟩

theorem writes_of_read {types : TypeNames} {text : String} (h : Ty.read types text = .ok t) :
    ∃ d b bounds,
      Writes ⟨types, (Tokens.lex text).finish⟩ (Tokens.lex text).body d b bounds t := by
  obtain ⟨rest, h⟩ := Outcome.toExcept_eq_ok_iff.1 h
  obtain ⟨u, us, hu, h⟩ := Outcome.andThen_eq_ok_iff.1 h
  obtain ⟨-, -, rfl⟩ := Outcome.map_eq_ok_iff.1 h
  exact writes_of_arrayType hu

/-- The type of a cast has no bounds: it is closed by a parenthesis. -/
theorem writes_of_castType (h : castType env ts = .ok t rest) : ∃ d b, Writes env ts d b [] t := by
  obtain ⟨d, us, hd, h⟩ := Outcome.andThen_eq_ok_iff.1 h
  obtain ⟨r, vs, rfl, hr, h⟩ := (expect_andThen_eq_ok_iff (by simp)).1 h
  obtain ⟨hresolve, rfl⟩ := resolveAt_eq_ok_iff.1 h
  obtain ⟨-, b, hb⟩ := TypeId.resolve_eq_ok_iff.1 hresolve
  have hbounds : arrayBounds env.finish (r :: vs) = .ok [] (r :: vs) := by
    rw [arrayBounds, hr]
    rfl
  exact ⟨d, b, ⟨_, _, hd, hbounds⟩, t, hb, rfl⟩

/-! ## Casts -/

/-- An expression whose casts are all to types that were read. -/
def CastsRead (env : Env) (e : Expr) : Prop :=
  e.Everywhere fun e => ∀ t f, e = .cast t f → ∃ ts rest, castType env ts = .ok t rest

/-- What a rule is given in front of the tokens, if anything, has its casts read. -/
def Rule.GivenCastsRead (env : Env) : Rule → Prop
  | .operators _ e | .accesses e => CastsRead env e
  | _ => True

theorem castsRead_of_runs {rule : Rule} {e : Expr} (h : Runs env rule ts e rest)
    (hgiven : rule.GivenCastsRead env) : CastsRead env e := by
  induction h with
  | expression _ ih => exact ih trivial
  | condition _ ih => exact ih trivial
  | choice _ _ _ _ _ ihc ihe ihf => exact ⟨nofun, ihc trivial, ihe trivial, ihf trivial⟩
  | operand _ ih => exact ih trivial
  | level _ _ ihe ihf => exact ihf (ihe trivial)
  | noOperator => exact hgiven
  | operator _ _ _ ihf ihmore => exact ihmore ⟨nofun, hgiven, ihf trivial⟩
  | cast _ htype _ ih => exact ⟨fun t f h => by cases h; exact ⟨_, _, htype⟩, ih trivial⟩
  | uncast _ ih => exact ih trivial
  | unary _ _ ih => exact ⟨nofun, ih trivial⟩
  | bare _ ih => exact ih trivial
  | access _ _ ihe ihf => exact ihf (ihe trivial)
  | noAccess => exact hgiven
  | subscript _ _ _ _ ihi ihmore => exact ihmore ⟨nofun, hgiven, ihi trivial⟩
  | member _ _ _ ihmore => exact ihmore ⟨nofun, hgiven⟩
  | number => exact nofun
  | truth => exact nofun
  | group _ _ _ ih => exact ih trivial
  | name => exact nofun

theorem castsRead_of_read {types : TypeNames} {text : String} {e : Expr}
    (h : Expr.read types text = .ok e) : CastsRead ⟨types, (Tokens.lex text).finish⟩ e := by
  obtain ⟨rest, h⟩ := Outcome.toExcept_eq_ok_iff.1 h
  obtain ⟨f, us, hf, h⟩ := Outcome.andThen_eq_ok_iff.1 h
  obtain ⟨-, -, rfl⟩ := Outcome.map_eq_ok_iff.1 h
  exact castsRead_of_runs (runs_of_run hf) trivial

end Grammar

end WatchExpr
