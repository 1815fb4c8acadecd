import WatchExpr.Grammar.Reading
import WatchExpr.Proofs.Grammar.Equations
import WatchExpr.Proofs.Grammar.Outcome
import WatchExpr.Proofs.Lexing.Constants

/-!
# What rules leave

A rule takes tokens off the front and leaves the others as they are, whether it succeeds or fails. So
the tokens that it leaves tell the position of the stream. A rule that stops without a report has just
taken off a number that is not spelled out.
-/

namespace WatchExpr

/-- A number that is not spelled out. -/
structure Token.IsUnspelled (t : Token) : Prop where
  kind : t.kind = .number
  spelling : t.spelling = ""

namespace Grammar

variable {α β : Type} {env : Env} {finish : EndMark} {ts us : List Token}

namespace Outcome

/-- Whether reading came to an end that is neither a success nor a reported failure. -/
def Stops : Outcome α → Prop
  | .ok _ _ => False
  | .error e _ => e.code? = none

/-- What is left of some tokens is their end. If reading stopped, then right behind a number that is not
spelled out. -/
structure Leaves (o : Outcome α) (ts : List Token) : Prop where
  isSuffix : o.rest <:+ ts
  unspelled : o.Stops → ∃ t : Token, t.IsUnspelled ∧ t :: o.rest <:+ ts

theorem leaves_ok {a : α} (h : us <:+ ts) : (ok a us).Leaves ts :=
  ⟨h, False.elim⟩

theorem leaves_error {e : ParseError} (hcode : e.code?.isSome = true) (h : us <:+ ts) :
    (error e us : Outcome α).Leaves ts :=
  ⟨h, fun hstops => absurd hstops (Option.isSome_iff_ne_none.1 hcode)⟩

/-- A failure is passed on as it is. -/
theorem Leaves.passedOn {e : ParseError} (h : (error e us : Outcome α).Leaves ts) :
    (error e us : Outcome β).Leaves ts :=
  ⟨h.isSuffix, h.unspelled⟩

variable {o : Outcome α}

theorem Leaves.of_isSuffix (h : o.Leaves us) (hus : us <:+ ts) : o.Leaves ts :=
  ⟨h.isSuffix.trans hus, fun hstops =>
    have ⟨t, ht, hbehind⟩ := h.unspelled hstops
    ⟨t, ht, hbehind.trans hus⟩⟩

theorem Leaves.andThen {f : α → List Token → Outcome β} (ho : o.Leaves ts)
    (hf : ∀ a us, us <:+ ts → (f a us).Leaves us) : (o.andThen f).Leaves ts := by
  cases o with
  | ok a us => exact (hf a us ho.isSuffix).of_isSuffix ho.isSuffix
  | error e us => exact ho.passedOn

theorem Leaves.map {f : α → β} (ho : o.Leaves ts) : (o.map f).Leaves ts := by
  cases o with
  | ok a us => exact leaves_ok ho.isSuffix
  | error e us => exact ho.passedOn

end Outcome

open Outcome

theorem accept?_isSuffix {f : TokenKind → Option α} {a : α} (h : accept? f ts = some (a, us)) :
    us <:+ ts := by
  obtain ⟨t, rfl, -⟩ := accept?_eq_some_iff.1 h
  exact List.suffix_cons t us

theorem expect_leaves (finish : EndMark) (kind : TokenKind) (ts : List Token) :
    (expect finish kind ts).Leaves ts := by
  unfold expect
  split
  · exact leaves_ok (List.tail_suffix ts)
  · exact leaves_error rfl List.suffix_rfl

/-! ## Names -/

theorem templateTail_leaves (finish : EndMark) (angles parens : Nat) (afterWord : Bool)
    (ts : List Token) : (templateTail finish angles parens afterWord ts).Leaves ts := by
  induction ts generalizing angles parens afterWord with
  | nil => exact leaves_error rfl List.suffix_rfl
  | cons t ts ih =>
      simp only [templateTail]
      split
      · exact leaves_error rfl List.suffix_rfl
      · split
        · exact leaves_error rfl List.suffix_rfl
        · split
          · exact leaves_ok (List.suffix_cons t ts)
          · exact (ih _ _ _).map.of_isSuffix (List.suffix_cons t ts)

theorem templateArguments_leaves (finish : EndMark) (ts : List Token) :
    (templateArguments finish ts).Leaves ts :=
  (expect_leaves ..).andThen fun _ _ _ => (templateTail_leaves ..).map

theorem templateArguments?_leaves (finish : EndMark) (ts : List Token) :
    (templateArguments? finish ts).Leaves ts := by
  unfold templateArguments?
  split
  · exact templateArguments_leaves finish ts
  · exact leaves_ok List.suffix_rfl

theorem component?_isSuffix {text : String} (h : component? finish ts = some (text, us)) :
    us <:+ ts := by
  cases ts with
  | nil => cases h
  | cons t ts =>
      have hargs := (templateArguments?_leaves finish ts).isSuffix
      simp only [component?] at h
      split at h
      · cases h
      · split at h
        · rename_i hok
          rw [hok] at hargs
          split at h
          · cases h
            exact ((List.suffix_cons _ us).trans hargs).trans (List.suffix_cons t ts)
          · cases h
        · cases h

theorem nestedName_isSuffix (finish : EndMark) (ts : List Token) :
    (nestedName finish ts).2 <:+ ts := by
  fun_induction nestedName finish ts with
  | case1 ts text rest h more rest' heq ih =>
      rw [heq] at ih
      exact ih.trans (component?_isSuffix h)
  | case2 => exact List.suffix_rfl

theorem splitGlobal_isSuffix (ts : List Token) : (splitGlobal ts).2 <:+ ts := by
  unfold splitGlobal
  split
  · exact List.suffix_cons _ _
  · exact List.suffix_rfl

theorem qualifiedName_leaves (finish : EndMark) (ts : List Token) :
    (qualifiedName finish ts).Leaves ts :=
  (expect_leaves ..).map.of_isSuffix ((nestedName_isSuffix ..).trans (splitGlobal_isSuffix ts))

theorem typeName_leaves (finish : EndMark) (ts : List Token) : (typeName finish ts).Leaves ts :=
  (qualifiedName_leaves finish ts).andThen fun _ us _ => (templateArguments?_leaves finish us).map

/-! ## Type-ids -/

theorem typeName_isSuffix_of_ok {name : String} (h : typeName finish ts = .ok name us) :
    us <:+ ts := by
  have hleaves := typeName_leaves finish ts
  rw [h] at hleaves
  exact hleaves.isSuffix

theorem typeName_leaves_of_error {e : ParseError} (h : typeName finish ts = .error e us) :
    (error e us : Outcome α).Leaves ts := by
  have hleaves := typeName_leaves finish ts
  rw [h] at hleaves
  exact hleaves.passedOn

theorem specifiers_leaves (finish : EndMark) (d : TypeId) (ts : List Token) :
    (specifiers finish d ts).Leaves ts := by
  fun_induction specifiers finish d ts with
  | case1 => exact leaves_ok List.suffix_rfl
  | case2 => exact leaves_ok List.suffix_rfl
  | case3 _ t ts _ _ ih => exact ih.of_isSuffix (List.suffix_cons t ts)
  | case4 _ t ts _ ih => exact ih.of_isSuffix (List.suffix_cons t ts)
  | case5 _ t ts _ ih => exact ih.of_isSuffix (List.suffix_cons t ts)
  | case6 _ t ts _ _ _ h ih =>
      exact (ih.of_isSuffix (typeName_isSuffix_of_ok h)).of_isSuffix (List.suffix_cons t ts)
  | case7 _ t ts _ _ _ h => exact (typeName_leaves_of_error h).of_isSuffix (List.suffix_cons t ts)
  | case8 => exact leaves_ok List.suffix_rfl
  | case9 _ _ _ _ _ _ _ h ih => exact ih.of_isSuffix (typeName_isSuffix_of_ok h)
  | case10 _ _ _ _ _ _ _ h => exact typeName_leaves_of_error h

theorem pointerQualifiers_isSuffix (cv : Qualifiers) (ts : List Token) :
    (pointerQualifiers cv ts).2 <:+ ts := by
  fun_induction pointerQualifiers cv ts with
  | case1 => exact List.suffix_rfl
  | case2 _ t ts _ ih => exact ih.trans (List.suffix_cons t ts)
  | case3 _ t ts _ ih => exact ih.trans (List.suffix_cons t ts)
  | case4 => exact List.suffix_rfl

theorem declaratorSigns_isSuffix (d : TypeId) (ts : List Token) :
    (declaratorSigns d ts).2 <:+ ts := by
  fun_induction declaratorSigns d ts with
  | case1 => exact List.suffix_rfl
  | case2 _ t ts _ ih =>
      exact (ih.trans (pointerQualifiers_isSuffix .none ts)).trans (List.suffix_cons t ts)
  | case3 _ t ts _ ih => exact ih.trans (List.suffix_cons t ts)
  | case4 _ t ts _ ih => exact ih.trans (List.suffix_cons t ts)
  | case5 => exact List.suffix_rfl

theorem typeId_leaves (finish : EndMark) (ts : List Token) : (typeId finish ts).Leaves ts := by
  refine (specifiers_leaves finish {} ts).andThen fun d us _ => ?_
  split
  · exact leaves_ok (declaratorSigns_isSuffix d us)
  · exact leaves_error rfl List.suffix_rfl

theorem resolveAt_leaves (env : Env) (place : Location) (d : TypeId) (ts : List Token) :
    (resolveAt env place d ts).Leaves ts := by
  unfold resolveAt
  split
  · exact leaves_ok List.suffix_rfl
  · exact leaves_error rfl List.suffix_rfl

theorem castType_leaves (env : Env) (ts : List Token) : (castType env ts).Leaves ts :=
  (typeId_leaves env.finish ts).andThen fun _ _ _ =>
    (expect_leaves ..).andThen fun _ _ _ => resolveAt_leaves ..

/-! ## Numbers -/

/-- Behind a number reading stops only if the number is not spelled out. -/
theorem leaves_number {t : Token} {e : ParseError} (hkind : t.kind = .number)
    (hspelling : e.code? = none → t.spelling = "") :
    (error e us : Outcome α).Leaves (t :: us) :=
  ⟨List.suffix_cons t us, fun hstops => ⟨t, ⟨hkind, hspelling hstops⟩, List.suffix_rfl⟩⟩

theorem constant_leaves {t : Token} (hkind : t.kind = .number) (ts : List Token) :
    (constant t ts).Leaves (t :: ts) := by
  unfold constant
  split
  · exact leaves_ok (List.suffix_cons t ts)
  · rename_i failure hread
    refine leaves_number hkind fun hcode => ?_
    obtain rfl := LiteralError.eq_noSpelling hcode
    exact Literal.read_eq_noSpelling_iff.1 hread

theorem boundFailure_reported {spelling : String} {place : Location}
    (hcode : ParseError.code? ⟨boundFailure spelling, place⟩ = none) : spelling = "" := by
  unfold boundFailure at hcode
  split at hcode
  · rename_i hread
    exact Literal.read_eq_noSpelling_iff.1 hread
  · cases hcode

theorem arrayBound_leaves (finish : EndMark) (ts : List Token) :
    (arrayBound finish ts).Leaves ts := by
  cases ts with
  | nil => exact leaves_error rfl List.suffix_rfl
  | cons t us =>
      rw [arrayBound, expect]
      split
      · rename_i hkind
        rw [ok_andThen]
        split
        · exact leaves_number hkind boundFailure_reported
        · exact (expect_leaves ..).map.of_isSuffix (List.suffix_cons t us)
      · exact leaves_error rfl List.suffix_rfl

theorem arrayBounds_leaves (finish : EndMark) (ts : List Token) :
    (arrayBounds finish ts).Leaves ts := by
  fun_induction arrayBounds finish ts with
  | case1 => exact leaves_ok List.suffix_rfl
  | case2 t ts _ n rest h ih =>
      have hbound := arrayBound_leaves finish ts
      rw [h] at hbound
      exact (ih.map.of_isSuffix hbound.isSuffix).of_isSuffix (List.suffix_cons t ts)
  | case3 t ts _ e rest h =>
      have hbound := arrayBound_leaves finish ts
      rw [h] at hbound
      exact hbound.passedOn.of_isSuffix (List.suffix_cons t ts)
  | case4 => exact leaves_ok List.suffix_rfl

theorem arrayType_leaves (env : Env) (ts : List Token) : (arrayType env ts).Leaves ts :=
  (typeId_leaves env.finish ts).andThen fun _ _ _ =>
    (resolveAt_leaves ..).andThen fun _ vs _ => (arrayBounds_leaves env.finish vs).map

theorem wholeType_leaves (env : Env) (ts : List Token) : (wholeType env ts).Leaves ts :=
  (arrayType_leaves env ts).andThen fun _ _ _ => (expect_leaves ..).map

/-! ## Expressions -/

/-- Calls of lower measure leave the end of what they are given. -/
def LeavesBelow (env : Env) (n : Nat) : Prop :=
  ∀ rule us, us.length * 64 + Rule.rank rule < n → (run env rule us).Leaves us

variable {e : Expr} {p : Precedence}

theorem leaves_conditional (ih : LeavesBelow env (ts.length * 64 + 39)) :
    (run env .conditional ts).Leaves ts := by
  rw [run_conditional]
  refine (ih _ _ (by simp [Rule.rank, Precedence.loosestBinary])).andThen fun c us hus => ?_
  split
  · exact leaves_ok List.suffix_rfl
  · rename_i vs haccept
    have hvs := accept?_length_lt haccept
    have hlen := hus.length_le
    refine Leaves.of_isSuffix ?_ (accept?_isSuffix haccept)
    refine (ih _ _ (by simp only [Rule.rank]; omega)).andThen fun e ws hws => ?_
    refine (expect_leaves ..).andThen fun _ xs hxs => ?_
    have hlen' := (hxs.trans hws).length_le
    exact (ih _ _ (by simp only [Rule.rank]; omega)).andThen fun _ _ _ => leaves_ok List.suffix_rfl

theorem leaves_binary (ih : LeavesBelow env (ts.length * 64 + (2 * p + 4))) :
    (run env (.binary p) ts).Leaves ts := by
  cases p with
  | zero =>
      rw [run_binary_zero]
      exact ih _ _ (by simp [Rule.rank])
  | succ p =>
      rw [run_binary_succ]
      refine (ih _ _ (by simp only [Rule.rank]; omega)).andThen fun e us hus => ?_
      have hlen := hus.length_le
      exact ih _ _ (by simp only [Rule.rank]; omega)

theorem leaves_operators (ih : LeavesBelow env (ts.length * 64 + (2 * p + 5))) :
    (run env (.operators p e) ts).Leaves ts := by
  rw [run_operators]
  split
  · exact leaves_ok List.suffix_rfl
  · rename_i op us haccept
    have hus := accept?_length_lt haccept
    refine Leaves.of_isSuffix ?_ (accept?_isSuffix haccept)
    refine (ih _ _ (by simp only [Rule.rank]; omega)).andThen fun f vs hvs => ?_
    have hlen := hvs.length_le
    exact ih _ _ (by simp only [Rule.rank]; omega)

theorem leaves_cast (ih : LeavesBelow env (ts.length * 64 + 3)) :
    (run env .cast ts).Leaves ts := by
  rw [run_cast]
  have hunary : (run env .unary ts).Leaves ts := ih _ _ (by simp [Rule.rank])
  split
  · exact hunary
  · rename_i us haccept
    have hus := accept?_length_lt haccept
    have htype := (castType_leaves env us).of_isSuffix (accept?_isSuffix haccept)
    split
    · rename_i t vs hok
      have hlen := castType_rest_le_of_ok hok
      rw [hok] at htype
      refine Leaves.of_isSuffix ?_ htype.isSuffix
      exact (ih _ _ (by simp only [Rule.rank]; omega)).andThen fun _ _ _ => leaves_ok List.suffix_rfl
    · rename_i failure vs herror
      rw [herror] at htype
      -- The attempt is kept only where nothing but a type may stand.
      split
      · exact htype.passedOn
      · exact hunary

theorem leaves_unary (ih : LeavesBelow env (ts.length * 64 + 2)) :
    (run env .unary ts).Leaves ts := by
  rw [run_unary]
  split
  · rename_i op us haccept
    have hus := accept?_length_lt haccept
    refine Leaves.of_isSuffix ?_ (accept?_isSuffix haccept)
    exact (ih _ _ (by simp only [Rule.rank]; omega)).andThen fun _ _ _ => leaves_ok List.suffix_rfl
  · split
    · exact leaves_error rfl List.suffix_rfl
    · exact ih _ _ (by simp [Rule.rank])

theorem leaves_access (ih : LeavesBelow env (ts.length * 64 + 1)) :
    (run env .access ts).Leaves ts := by
  rw [run_access]
  refine (ih _ _ (by simp [Rule.rank])).andThen fun e us hus => ?_
  have hlen := hus.length_le
  exact ih _ _ (by simp only [Rule.rank]; omega)

theorem leaves_accesses (ih : LeavesBelow env (ts.length * 64)) :
    (run env (.accesses e) ts).Leaves ts := by
  rw [run_accesses]
  split
  · exact leaves_ok List.suffix_rfl
  · rename_i us haccept
    have hus := accept?_length_lt haccept
    refine Leaves.of_isSuffix ?_ (accept?_isSuffix haccept)
    refine (ih _ _ (by simp only [Rule.rank]; omega)).andThen fun i vs hvs => ?_
    refine (expect_leaves ..).andThen fun _ ws hws => ?_
    have hlen := (hws.trans hvs).length_le
    exact ih _ _ (by simp only [Rule.rank]; omega)
  · rename_i access us haccept
    have hus := accept?_length_lt haccept
    refine Leaves.of_isSuffix ?_ (accept?_isSuffix haccept)
    refine (expect_leaves ..).andThen fun t vs hvs => ?_
    have hlen := hvs.length_le
    exact ih _ _ (by simp only [Rule.rank]; omega)
  · exact leaves_error rfl List.suffix_rfl

theorem leaves_primary (ih : LeavesBelow env (ts.length * 64)) :
    (run env .primary ts).Leaves ts := by
  cases ts with
  | nil =>
      rw [run_primary_nil]
      exact leaves_error rfl List.suffix_rfl
  | cons t us =>
      rw [run_primary_cons]
      split
      · rename_i hkind
        exact constant_leaves hkind us
      · exact leaves_ok (List.suffix_cons t us)
      · refine Leaves.of_isSuffix ?_ (List.suffix_cons t us)
        refine (ih _ _ (by simp only [Rule.rank, List.length_cons]; omega)).andThen fun e vs hvs => ?_
        exact (expect_leaves ..).andThen fun _ _ _ => leaves_ok List.suffix_rfl
      · exact (qualifiedName_leaves ..).map
      · exact (qualifiedName_leaves ..).map
      · exact leaves_error rfl List.suffix_rfl

/-- A rule leaves the end of the tokens that it is given. -/
theorem run_leaves (env : Env) (rule : Rule) (ts : List Token) : (run env rule ts).Leaves ts := by
  induction hn : ts.length * 64 + rule.rank using Nat.strongRecOn generalizing rule ts with
  | ind n ih =>
      have hbelow : LeavesBelow env (ts.length * 64 + rule.rank) :=
        fun rule us hlt => ih _ (hn ▸ hlt) rule us rfl
      cases rule with
      | expression =>
          rw [run_expression]
          refine (hbelow _ _ (by simp [Rule.rank])).andThen fun e us _ => ?_
          split
          · exact leaves_error rfl List.suffix_rfl
          · exact leaves_ok List.suffix_rfl
      | conditional => exact leaves_conditional hbelow
      | binary p => exact leaves_binary hbelow
      | operators p e => exact leaves_operators hbelow
      | cast => exact leaves_cast hbelow
      | unary => exact leaves_unary hbelow
      | access => exact leaves_access hbelow
      | accesses e => exact leaves_accesses hbelow
      | primary => exact leaves_primary hbelow

theorem wholeExpression_leaves (env : Env) (ts : List Token) :
    (wholeExpression env ts).Leaves ts :=
  (run_leaves env .expression ts).andThen fun _ _ _ => (expect_leaves ..).map

end Grammar

end WatchExpr
