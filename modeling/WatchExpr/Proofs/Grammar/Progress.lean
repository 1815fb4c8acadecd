import WatchExpr.Proofs.Grammar.Consumption
import WatchExpr.Proofs.Grammar.Runs

/-!
# Progress

A rule that succeeds has consumed a token, unless it reads the rest of a loop, which may find nothing to
read.
-/

namespace WatchExpr.Grammar

variable {env : Env} {finish : EndMark} {ts rest : List Token}

/-- A sequence consumes what its first part does. -/
theorem Outcome.andThen_rest_length_lt {α β : Type} {o : Outcome α} {f : α → List Token → Outcome β}
    {b : β} (h : o.andThen f = .ok b rest) (ho : ∀ a us, o = .ok a us → us.length < ts.length)
    (hf : ∀ a us, (f a us).Leaves us) : rest.length < ts.length := by
  obtain ⟨a, us, hok, h⟩ := Outcome.andThen_eq_ok_iff.1 h
  have hsuffix := (hf a us).isSuffix
  rw [h] at hsuffix
  exact Nat.lt_of_le_of_lt hsuffix.length_le (ho a us hok)

/-! ## Names -/

theorem templateTail_rest_length_lt {angles parens : Nat} {afterWord : Bool} {text : String}
    (h : templateTail finish angles parens afterWord ts = .ok text rest) :
    rest.length < ts.length := by
  cases ts with
  | nil => cases h
  | cons t ts =>
      simp only [templateTail] at h
      split at h
      · cases h
      · split at h
        · cases h
        · rename_i angles parens hdepth
          split at h
          · cases h
            exact Nat.lt_succ_self _
          · have hle := templateTail_rest_length_le finish angles parens t.isWord ts
            obtain ⟨tail, htail, -⟩ := Outcome.map_eq_ok_iff.1 h
            rw [htail] at hle
            exact Nat.lt_succ_of_le hle

theorem templateArguments_rest_length_lt {text : String}
    (h : templateArguments finish ts = .ok text rest) : rest.length < ts.length :=
  Outcome.andThen_rest_length_lt h
    (fun t us ht => expect_rest_length_lt (by simp) ht) fun t us => (templateTail_leaves ..).map

/-! ## Type-ids -/

/-- Only a token can make up for a specifier that was missing. -/
theorem specifiers_rest_length_lt {d d' : TypeId} (h : specifiers finish d ts = .ok d' rest)
    (hd : d.hasSpecifier = false) (hd' : d'.hasSpecifier = true) : rest.length < ts.length := by
  have hlater (d : TypeId) {us : List Token} (h : specifiers finish d us = .ok d' rest)
      (hus : us.length < ts.length) : rest.length < ts.length := by
    have hle := specifiers_rest_length_le finish d us
    rw [h] at hle
    exact Nat.lt_of_le_of_lt hle hus
  have hnothing (us : List Token) (h : Outcome.ok d us = .ok d' rest) : rest.length < ts.length := by
    cases h
    exact absurd (hd.symm.trans hd') Bool.false_ne_true
  cases ts with
  | nil =>
      rw [specifiers] at h
      exact hnothing _ h
  | cons t ts =>
      rw [specifiers_cons] at h
      split at h
      · exact hnothing _ h
      · exact hlater _ h (Nat.lt_succ_self _)
      · exact hlater _ h (Nat.lt_succ_self _)
      · exact hlater _ h (Nat.lt_succ_self _)
      · obtain ⟨name, us, hname, h⟩ := Outcome.andThen_eq_ok_iff.1 h
        exact hlater _ h (Nat.lt_succ_of_lt (typeName_rest_length_lt hname))
      · split at h
        · exact hnothing _ h
        · obtain ⟨name, us, hname, h⟩ := Outcome.andThen_eq_ok_iff.1 h
          exact hlater _ h (typeName_rest_length_lt hname)

theorem typeId_rest_length_lt {d : TypeId} (h : typeId finish ts = .ok d rest) :
    rest.length < ts.length := by
  obtain ⟨e, us, he, h⟩ := Outcome.andThen_eq_ok_iff.1 h
  split at h
  · rename_i hspecifier
    have hle := declaratorSigns_rest_length_le e us
    cases h
    exact Nat.lt_of_le_of_lt hle (specifiers_rest_length_lt he rfl hspecifier)
  · cases h

theorem castType_rest_length_lt {t : Ty} (h : castType env ts = .ok t rest) :
    rest.length < ts.length :=
  Outcome.andThen_rest_length_lt h (fun _ _ hd => typeId_rest_length_lt hd) fun _ _ =>
    (expect_leaves ..).andThen fun _ _ _ => resolveAt_leaves ..

theorem arrayType_rest_length_lt {t : Ty} (h : arrayType env ts = .ok t rest) :
    rest.length < ts.length :=
  Outcome.andThen_rest_length_lt h (fun _ _ hd => typeId_rest_length_lt hd) fun _ _ =>
    (resolveAt_leaves ..).andThen fun _ _ _ => (arrayBounds_leaves ..).map

theorem wholeType_rest_length_lt {t : Ty} (h : wholeType env ts = .ok t rest) :
    rest.length < ts.length :=
  Outcome.andThen_rest_length_lt h (fun _ _ ht => arrayType_rest_length_lt ht) fun _ _ =>
    (expect_leaves ..).map

/-! ## Expressions -/

/-- Whether a rule reads on behind an operand, where there may be nothing to read. -/
def Rule.readsOn : Rule → Bool
  | .operators _ _ | .accesses _ => true
  | _ => false

variable {rule : Rule} {e : Expr}

/-- A run leaves fewer tokens than it was given; one that reads on behind an operand may also leave them
all. -/
def Rule.Leaves (rule : Rule) (ts rest : List Token) : Prop :=
  rest.length < ts.length ∨ rule.readsOn = true ∧ rest = ts

theorem Rule.Leaves.lt (h : rule.Leaves ts rest) (hrule : rule.readsOn = false) :
    rest.length < ts.length :=
  h.resolve_right fun hstay => Bool.false_ne_true (hrule.symm.trans hstay.1)

theorem Rule.Leaves.le (h : rule.Leaves ts rest) : rest.length ≤ ts.length := by
  rcases h with hlt | ⟨-, rfl⟩
  · exact Nat.le_of_lt hlt
  · exact Nat.le_refl _

theorem Runs.leaves (h : Runs env rule ts e rest) : rule.Leaves ts rest := by
  induction h with
  | expression _ ih => exact .inl (ih.lt rfl)
  | condition _ ih => exact .inl (ih.lt rfl)
  | choice _ _ _ _ _ ihc ihe ihf =>
      have hc := ihc.lt rfl
      have he := ihe.lt rfl
      have hf := ihf.lt rfl
      simp only [List.length_cons] at hc he
      exact .inl (by omega)
  | operand _ ih => exact .inl (ih.lt rfl)
  | level _ _ ihe ihf => exact .inl (Nat.lt_of_le_of_lt ihf.le (ihe.lt rfl))
  | noOperator => exact .inr ⟨rfl, rfl⟩
  | operator _ _ _ ihf ihmore =>
      exact .inl (Nat.lt_succ_of_lt (Nat.lt_of_le_of_lt ihmore.le (ihf.lt rfl)))
  | cast _ htype _ ih =>
      exact .inl (Nat.lt_succ_of_lt (Nat.lt_trans (ih.lt rfl) (castType_rest_length_lt htype)))
  | uncast _ ih => exact .inl (ih.lt rfl)
  | unary _ _ ih => exact .inl (Nat.lt_succ_of_lt (ih.lt rfl))
  | bare _ ih => exact .inl (ih.lt rfl)
  | access _ _ ihe ihf => exact .inl (Nat.lt_of_le_of_lt ihf.le (ihe.lt rfl))
  | noAccess => exact .inr ⟨rfl, rfl⟩
  | subscript _ _ _ _ ihi ihmore =>
      have hi := ihi.lt rfl
      have hmore := ihmore.le
      simp only [List.length_cons] at hi
      exact .inl (Nat.lt_succ_of_lt (by omega))
  | member _ _ _ ihmore => exact .inl (Nat.lt_succ_of_le (Nat.le_succ_of_le ihmore.le))
  | number _ _ => exact .inl (Nat.lt_succ_self _)
  | truth _ => exact .inl (Nat.lt_succ_self _)
  | group _ _ _ ih =>
      have hlt := ih.lt rfl
      simp only [List.length_cons] at hlt
      exact .inl (Nat.lt_succ_of_lt (by omega))
  | name hid => exact .inl (qualifiedName_rest_length_lt hid)

theorem run_rest_length_lt (hrule : rule.readsOn = false) (h : run env rule ts = .ok e rest) :
    rest.length < ts.length :=
  (runs_of_run h).leaves.lt hrule

theorem wholeExpression_rest_length_lt (h : wholeExpression env ts = .ok e rest) :
    rest.length < ts.length :=
  Outcome.andThen_rest_length_lt h (fun _ _ he => run_rest_length_lt rfl he) fun _ _ =>
    (expect_leaves ..).map

end WatchExpr.Grammar
