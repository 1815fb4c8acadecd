import WatchExpr.Proofs.Grammar.Outcome
import WatchExpr.Grammar.TypeIds

/-!
# Attempts to read casts

Without known names of types only a type keyword can start the type of a cast.
-/

namespace WatchExpr.Grammar

/-- Whether a token is a reserved word of types. -/
def isTypeKeyword : TokenKind → Bool
  | .keyword (.truth _) => false
  | .keyword _ => true
  | _ => false

theorem startsType_eq_isTypeKeyword (k : TokenKind) : startsType k = isTypeKeyword k := by
  rcases k with _ | _ | _ | _ | k | p
  · rfl
  · rfl
  · rfl
  · rfl
  · cases k <;> rfl
  · cases p <;> rfl

variable {finish : EndMark} {ts rest : List Token} {d d' : TypeId}

theorem specifiers_keeps_name (hd : d.name?.isSome)
    (h : specifiers finish d ts = .ok d' rest) : d'.name?.isSome := by
  fun_induction specifiers finish d ts with
  | case1 => cases h; exact hd
  | case2 => cases h; exact hd
  | case3 _ _ _ _ _ ih => exact ih hd h
  | case4 _ _ _ _ ih => exact ih hd h
  | case5 _ _ _ _ ih => exact ih hd h
  | case6 _ _ _ _ _ _ _ ih => exact ih rfl h
  | case7 => cases h
  | case8 => cases h; exact hd
  | case9 _ _ _ _ _ _ _ _ ih => exact ih rfl h
  | case10 => cases h

/-- What starts with no type keyword specifies a name or nothing. -/
theorem specifiers_name_of_not_startsType (hts : startsType (current finish ts).kind = false)
    (h : specifiers finish {} ts = .ok d rest) : d = {} ∨ d.name?.isSome := by
  cases ts with
  | nil =>
      rw [specifiers] at h
      cases h
      exact .inl rfl
  | cons t ts =>
      rw [current_cons] at hts
      rw [specifiers] at h
      unfold startsType at hts
      split at h
      · cases h
        exact .inl rfl
      · simp [*] at hts
      · simp [*] at hts
      · simp [*] at hts
      · simp [*] at hts
      · split at h
        · cases h
          exact .inl rfl
        · split at h
          · exact .inr (specifiers_keeps_name rfl h)
          · cases h

theorem declaratorSigns_name? (d : TypeId) (ts : List Token) :
    (declaratorSigns d ts).1.name? = d.name? := by
  fun_induction declaratorSigns d ts with
  | case1 => rfl
  | case2 _ _ _ _ ih => exact ih
  | case3 _ _ _ _ ih => exact ih
  | case4 _ _ _ _ ih => exact ih
  | case5 => rfl

theorem typeId_name_of_not_startsType (hts : startsType (current finish ts).kind = false)
    (h : typeId finish ts = .ok d rest) : d.name?.isSome := by
  obtain ⟨s, us, hs, h⟩ := Outcome.andThen_eq_ok_iff.1 h
  split at h
  · rename_i hspec
    cases h
    rw [declaratorSigns_name?]
    cases specifiers_name_of_not_startsType hts hs with
    | inl hnone =>
        subst hnone
        cases hspec
    | inr hname => exact hname
  · cases h

/-- A type-id with an unknown name stands for no type. -/
theorem resolve_of_unknown {types : TypeNames} {t : Ty} (htypes : ∀ n, types n = none)
    (hname : d.name?.isSome) : d.resolve types ≠ .ok t := by
  obtain ⟨n, hn⟩ := Option.isSome_iff_exists.1 hname
  have hbase : d.base types = .error (.unknownName n) := by
    simp only [TypeId.base, hn, htypes]
  intro h
  simp only [TypeId.resolve, hbase] at h
  split at h <;> cases h

/-- Without known names of types there is no cast, unless by a type keyword. -/
theorem castType_ne_ok {env : Env} {t : Ty} (htypes : ∀ n, env.types n = none)
    (hts : startsType (current env.finish ts).kind = false) : castType env ts ≠ .ok t rest := by
  intro h
  obtain ⟨d, us, hd, h⟩ := Outcome.andThen_eq_ok_iff.1 h
  obtain ⟨-, vs, -, h⟩ := Outcome.andThen_eq_ok_iff.1 h
  have hresolve := resolve_of_unknown (t := t) htypes (typeId_name_of_not_startsType hts hd)
  unfold resolveAt at h
  split at h
  · rename_i hok
    cases h
    exact hresolve hok
  · cases h

end WatchExpr.Grammar
