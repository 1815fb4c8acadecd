import WatchExpr.Proofs.Grammar.Consumption
import WatchExpr.Proofs.Grammar.Routines

/-!
# Calls descend

Every call that a routine makes, those of its loops included, is made behind consumed tokens or, on the
same tokens, of a routine of a tighter level. Going back is no exception: what is read again is read at
a tighter level.
-/

namespace WatchExpr.Grammar

/-- A routine called on some tokens. -/
structure Call : Type 1 where
  {α : Type}
  routine : Routine α
  tokens : List Token

/-- On the tokens that it was given a routine only calls routines of a tighter level. -/
def Routine.level {α : Type} : Routine α → Nat
  | .wholeExpression => 49
  | .rule r => 8 + r.rank
  | .wholeType => 8
  | .arrayType | .castType => 7
  | .typeId => 6
  | .specifiers _ => 5
  | .typeName => 4
  | .qualifiedName => 3
  | .nestedName => 2
  | .templateArguments | .declaratorSigns _ => 1
  | .templateTail _ _ _ | .pointerQualifiers _ | .arrayBounds => 0

/-- Tokens that are left when at least one was consumed. -/
structure Behind (ts rest : List Token) : Prop where
  isSuffix : rest <:+ ts
  length_lt : rest.length < ts.length

/-- One call is made behind tokens that the other one consumed, or on the same tokens at a tighter
level. -/
inductive Call.Below (c d : Call) : Prop where
  | consumed (h : Behind d.tokens c.tokens)
  | tighter (htokens : c.tokens = d.tokens) (hlevel : c.routine.level < d.routine.level)

variable {α β : Type} {env : Env} {ts us rest : List Token}

theorem Behind.of_isSuffix (h : Behind ts us) (hrest : rest <:+ us) : Behind ts rest :=
  ⟨hrest.trans h.isSuffix, Nat.lt_of_le_of_lt hrest.length_le h.length_lt⟩

theorem behind_cons {t : Token} (h : rest <:+ ts) : Behind (t :: ts) rest :=
  ⟨h.trans (List.suffix_cons t ts), Nat.lt_succ_of_le h.length_le⟩

theorem behind_accept {f : TokenKind → Option α} {a : α} (hus : us <:+ ts)
    (haccept : accept? f us = some (a, rest)) : Behind ts rest :=
  ⟨(accept?_isSuffix haccept).trans hus,
    Nat.lt_of_lt_of_le (accept?_length_lt haccept) hus.length_le⟩

theorem Call.below_of_level_lt {q : Routine α} {r : Routine β} (hlevel : q.level < r.level) :
    Call.Below ⟨q, ts⟩ ⟨r, ts⟩ :=
  .tighter rfl hlevel

/-- A call at a tighter level descends, whether tokens were consumed or not. -/
theorem Call.below_of_isSuffix {q : Routine α} {r : Routine β} (h : us <:+ ts)
    (hlevel : q.level < r.level) : Call.Below ⟨q, us⟩ ⟨r, ts⟩ := by
  obtain hlt | heq := Nat.lt_or_eq_of_le h.length_le
  · exact .consumed ⟨h, hlt⟩
  · exact .tighter (h.eq_of_length heq) hlevel

/-- A routine leaves the end of the tokens that it is given. -/
theorem Routine.outcome_leaves (env : Env) (r : Routine α) (ts : List Token) :
    (r.outcome env ts).Leaves ts := by
  cases r with
  | wholeExpression => exact wholeExpression_leaves env ts
  | rule r => exact run_leaves env r ts
  | wholeType => exact wholeType_leaves env ts
  | arrayType => exact arrayType_leaves env ts
  | castType => exact castType_leaves env ts
  | typeId => exact typeId_leaves env.finish ts
  | specifiers d => exact specifiers_leaves env.finish d ts
  | declaratorSigns d => exact Outcome.leaves_ok (declaratorSigns_isSuffix d ts)
  | pointerQualifiers cv => exact Outcome.leaves_ok (pointerQualifiers_isSuffix cv ts)
  | arrayBounds => exact arrayBounds_leaves env.finish ts
  | typeName => exact typeName_leaves env.finish ts
  | qualifiedName => exact qualifiedName_leaves env.finish ts
  | nestedName => exact Outcome.leaves_ok (nestedName_isSuffix env.finish ts)
  | templateArguments => exact templateArguments_leaves env.finish ts
  | templateTail angles parens afterWord =>
      exact templateTail_leaves env.finish angles parens afterWord ts

/-! ## The calls of a script -/

namespace Script

variable {P Q : Call → Prop}

/-- All calls have a property, each being made with the outcomes of those before it. -/
def EachCall (P : Call → Prop) (env : Env) : Script α → Prop
  | .done _ => True
  | .call r ts more => P ⟨r, ts⟩ ∧ (more (r.outcome env ts)).EachCall P env

theorem eachCall_ofCall {r : Routine α} (h : P ⟨r, ts⟩) : (ofCall r ts).EachCall P env :=
  ⟨h, trivial⟩

theorem EachCall.mono {s : Script α} (h : s.EachCall P env) (hPQ : ∀ c, P c → Q c) :
    s.EachCall Q env := by
  induction s with
  | done o => trivial
  | call r ts more ih => exact ⟨hPQ _ h.1, ih _ h.2⟩

theorem EachCall.followedBy {s : Script α} {f : Outcome α → Script β} (hs : s.EachCall P env)
    (hf : (f (s.answer env)).EachCall P env) : (s.followedBy f).EachCall P env := by
  induction s with
  | done o => exact hf
  | call r ts more ih => exact ⟨hs.1, ih _ hs.2 hf⟩

theorem EachCall.map {s : Script α} {f : α → β} (hs : s.EachCall P env) :
    (s.map f).EachCall P env :=
  hs.followedBy trivial

theorem EachCall.andThen {s : Script α} {f : α → List Token → Script β} (hs : s.EachCall P env)
    (hf : ∀ a rest, s.answer env = .ok a rest → (f a rest).EachCall P env) :
    (s.andThen f).EachCall P env := by
  refine hs.followedBy ?_
  cases hanswer : s.answer env with
  | ok a rest => exact hf a rest hanswer
  | error e rest => trivial

/-- Behind a call there are only tokens that it was given. -/
theorem eachCall_ofCall_andThen {r : Routine α} {f : α → List Token → Script β} (h : P ⟨r, ts⟩)
    (hf : ∀ a rest, rest <:+ ts → (f a rest).EachCall P env) :
    ((ofCall r ts).andThen f).EachCall P env := by
  refine .andThen (eachCall_ofCall h) fun a rest hok => hf a rest ?_
  have hsuffix := (r.outcome_leaves env ts).isSuffix
  rwa [show r.outcome env ts = .ok a rest from hok] at hsuffix

/-- Nothing is called while a part without calls is read. -/
theorem eachCall_done_andThen {o : Outcome α} {f : α → List Token → Script β} (ho : o.rest <:+ ts)
    (hf : ∀ a rest, rest <:+ ts → (f a rest).EachCall P env) :
    ((done o).andThen f).EachCall P env := by
  refine .andThen trivial fun a rest hok => hf a rest ?_
  rwa [show o = .ok a rest from hok] at ho

theorem eachCall_optionalArguments (h : P ⟨.templateArguments, ts⟩) :
    (optionalArguments env ts).EachCall P env := by
  rw [optionalArguments]
  split
  · exact eachCall_ofCall h
  · trivial

end Script

open Script Call

/-! ## The calls of a routine -/

/-- What a routine calls on given tokens descends. -/
def Routine.Descends (env : Env) (r : Routine α) (ts : List Token) : Prop :=
  (r.script env ts).EachCall (Below · ⟨r, ts⟩) env

theorem conditional_descends : (Routine.rule .conditional).Descends env ts := by
  refine eachCall_ofCall_andThen (below_of_level_lt (by decide)) fun c us hus => ?_
  split
  · trivial
  · rename_i vs haccept
    have hvs := behind_accept hus haccept
    refine eachCall_ofCall_andThen (.consumed hvs) fun e ws hws => ?_
    refine eachCall_done_andThen (expect_leaves ..).isSuffix fun _ xs hxs => ?_
    have hxs := (hvs.of_isSuffix hws).of_isSuffix hxs
    exact eachCall_ofCall_andThen (.consumed hxs) fun _ _ _ => trivial

theorem binary_descends (p : Precedence) : (Routine.rule (.binary p)).Descends env ts := by
  cases p with
  | zero => exact eachCall_ofCall (below_of_level_lt (by decide))
  | succ p =>
      refine eachCall_ofCall_andThen (below_of_level_lt ?_) fun e us hus => ?_
      · simp only [Routine.level, Rule.rank]
        omega
      · refine eachCall_ofCall (below_of_isSuffix hus ?_)
        simp only [Routine.level, Rule.rank]
        omega

theorem operators_descends (p : Precedence) (e : Expr) :
    (Routine.rule (.operators p e)).Descends env ts := by
  rw [Routine.Descends, Routine.script, Rule.script]
  split
  · trivial
  · rename_i op us haccept
    have hus := behind_accept List.suffix_rfl haccept
    exact eachCall_ofCall_andThen (.consumed hus) fun f vs hvs =>
      eachCall_ofCall (.consumed (hus.of_isSuffix hvs))

theorem cast_descends : (Routine.rule .cast).Descends env ts := by
  have hunary : Below ⟨.rule .unary, ts⟩ ⟨.rule .cast, ts⟩ := below_of_level_lt (by decide)
  rw [Routine.Descends, Routine.script, Rule.script]
  split
  · exact eachCall_ofCall hunary
  · rename_i us haccept
    have hus := behind_accept List.suffix_rfl haccept
    have htype := ((Routine.castType).outcome_leaves env us).isSuffix
    refine .followedBy (eachCall_ofCall (.consumed hus)) ?_
    rw [answer_ofCall]
    cases hoc : (Routine.castType).outcome env us with
    | ok t vs =>
        rw [hoc] at htype
        exact eachCall_ofCall_andThen (.consumed (hus.of_isSuffix htype)) fun _ _ _ => trivial
    | error e vs =>
        -- Going back, the same tokens are read as no cast.
        dsimp only
        split
        · trivial
        · exact eachCall_ofCall hunary

theorem unary_descends : (Routine.rule .unary).Descends env ts := by
  rw [Routine.Descends, Routine.script, Rule.script]
  split
  · rename_i op us haccept
    have hus := behind_accept List.suffix_rfl haccept
    exact eachCall_ofCall_andThen (.consumed hus) fun _ _ _ => trivial
  · split
    · trivial
    · exact eachCall_ofCall (below_of_level_lt (by decide))

theorem access_descends : (Routine.rule .access).Descends env ts :=
  eachCall_ofCall_andThen (below_of_level_lt (by decide)) fun _ _ hus =>
    eachCall_ofCall (below_of_isSuffix hus (by simp [Routine.level, Rule.rank]))

theorem accesses_descends (e : Expr) : (Routine.rule (.accesses e)).Descends env ts := by
  rw [Routine.Descends, Routine.script, Rule.script]
  split
  · trivial
  · rename_i us haccept
    have hus := behind_accept List.suffix_rfl haccept
    refine eachCall_ofCall_andThen (.consumed hus) fun i vs hvs => ?_
    refine eachCall_done_andThen (expect_leaves ..).isSuffix fun _ ws hws => ?_
    exact eachCall_ofCall (.consumed ((hus.of_isSuffix hvs).of_isSuffix hws))
  · rename_i via us haccept
    have hus := behind_accept List.suffix_rfl haccept
    exact eachCall_done_andThen (expect_leaves ..).isSuffix fun t vs hvs =>
      eachCall_ofCall (.consumed (hus.of_isSuffix hvs))
  · trivial

theorem primary_descends : (Routine.rule .primary).Descends env ts := by
  have hname (ts : List Token) :
      ((ofCall .qualifiedName ts).map Expr.name).EachCall (Below · ⟨.rule .primary, ts⟩) env :=
    .map (eachCall_ofCall (below_of_level_lt (by decide)))
  cases ts with
  | nil => trivial
  | cons t us =>
      rw [Routine.Descends, Routine.script, Rule.script]
      split
      · trivial
      · trivial
      · refine eachCall_ofCall_andThen (.consumed (behind_cons List.suffix_rfl)) fun e vs hvs => ?_
        exact eachCall_done_andThen (expect_leaves ..).isSuffix fun _ _ _ => trivial
      · exact hname _
      · exact hname _
      · trivial

theorem rule_descends (r : Rule) : (Routine.rule r).Descends env ts := by
  cases r with
  | expression =>
      refine eachCall_ofCall_andThen (below_of_level_lt (by decide)) fun e us _ => ?_
      split <;> trivial
  | conditional => exact conditional_descends
  | binary p => exact binary_descends p
  | operators p e => exact operators_descends p e
  | cast => exact cast_descends
  | unary => exact unary_descends
  | access => exact access_descends
  | accesses e => exact accesses_descends e
  | primary => exact primary_descends

theorem arrayType_descends : (Routine.arrayType).Descends env ts :=
  eachCall_ofCall_andThen (below_of_level_lt (by decide)) fun _ _ hus =>
    eachCall_done_andThen (resolveAt_leaves ..).isSuffix fun _ _ hvs =>
      .map (eachCall_ofCall (below_of_isSuffix (hvs.trans hus) (by decide)))

theorem castType_descends : (Routine.castType).Descends env ts :=
  eachCall_ofCall_andThen (below_of_level_lt (by decide)) fun _ _ _ =>
    eachCall_done_andThen (expect_leaves ..).isSuffix fun _ _ _ => trivial

theorem typeId_descends : (Routine.typeId).Descends env ts := by
  refine eachCall_ofCall_andThen (below_of_level_lt (by decide)) fun d us hus => ?_
  split
  · exact eachCall_ofCall (below_of_isSuffix hus (by simp [Routine.level]))
  · trivial

theorem specifiers_descends (d : TypeId) : (Routine.specifiers d).Descends env ts := by
  cases ts with
  | nil => trivial
  | cons t ts =>
      have hbehind : Behind (t :: ts) ts := behind_cons List.suffix_rfl
      rw [Routine.Descends, Routine.script]
      split
      · trivial
      · exact eachCall_ofCall (.consumed hbehind)
      · exact eachCall_ofCall (.consumed hbehind)
      · exact eachCall_ofCall (.consumed hbehind)
      · exact eachCall_ofCall_andThen (.consumed hbehind) fun name us hus =>
          eachCall_ofCall (.consumed (hbehind.of_isSuffix hus))
      · split
        · trivial
        · -- The name may begin with the first token; the loop goes on behind it.
          refine .andThen (eachCall_ofCall (below_of_level_lt (by simp [Routine.level])))
            fun name us hname => ?_
          exact eachCall_ofCall (.consumed ⟨typeName_isSuffix_of_ok hname, typeName_rest_length_lt hname⟩)

theorem declaratorSigns_descends (d : TypeId) : (Routine.declaratorSigns d).Descends env ts := by
  cases ts with
  | nil => trivial
  | cons t ts =>
      have hbehind : Behind (t :: ts) ts := behind_cons List.suffix_rfl
      rw [Routine.Descends, Routine.script]
      split
      · exact eachCall_ofCall_andThen (.consumed hbehind) fun cv us hus =>
          eachCall_ofCall (.consumed (hbehind.of_isSuffix hus))
      · exact eachCall_ofCall (.consumed hbehind)
      · exact eachCall_ofCall (.consumed hbehind)
      · trivial

theorem pointerQualifiers_descends (cv : Qualifiers) :
    (Routine.pointerQualifiers cv).Descends env ts := by
  cases ts with
  | nil => trivial
  | cons t ts =>
      rw [Routine.Descends, Routine.script]
      split
      · exact eachCall_ofCall (.consumed (behind_cons List.suffix_rfl))
      · exact eachCall_ofCall (.consumed (behind_cons List.suffix_rfl))
      · trivial

theorem arrayBounds_descends : (Routine.arrayBounds).Descends env ts := by
  cases ts with
  | nil => trivial
  | cons t ts =>
      rw [Routine.Descends, Routine.script]
      split
      · exact eachCall_done_andThen (arrayBound_leaves ..).isSuffix fun _ _ hus =>
          .map (eachCall_ofCall (.consumed (behind_cons hus)))
      · trivial

theorem typeName_descends : (Routine.typeName).Descends env ts :=
  eachCall_ofCall_andThen (below_of_level_lt (by decide)) fun _ _ hus =>
    .map (eachCall_optionalArguments (below_of_isSuffix hus (by decide)))

theorem qualifiedName_descends : (Routine.qualifiedName).Descends env ts :=
  eachCall_ofCall_andThen (below_of_isSuffix (splitGlobal_isSuffix ts) (by decide)) fun _ _ _ => trivial

theorem nestedName_descends : (Routine.nestedName).Descends env ts := by
  cases ts with
  | nil => trivial
  | cons t ts =>
      rw [Routine.Descends, Routine.script]
      split
      · trivial
      · refine .followedBy
          (eachCall_optionalArguments (.consumed (behind_cons List.suffix_rfl))) ?_
        have hsuffix := (templateArguments?_leaves env.finish ts).isSuffix
        rw [answer_optionalArguments]
        split
        · rename_i args sep rest hargs
          rw [hargs] at hsuffix
          split
          · have hrest : rest <:+ ts := (List.suffix_cons sep rest).trans hsuffix
            exact .map (eachCall_ofCall (.consumed (behind_cons hrest)))
          · trivial
        · trivial

theorem templateArguments_descends : (Routine.templateArguments).Descends env ts :=
  eachCall_done_andThen (expect_leaves ..).isSuffix fun _ _ hus =>
    .map (eachCall_ofCall (below_of_isSuffix hus (by decide)))

theorem templateTail_descends (angles parens : Nat) (afterWord : Bool) :
    (Routine.templateTail angles parens afterWord).Descends env ts := by
  cases ts with
  | nil => trivial
  | cons t ts =>
      rw [Routine.Descends, Routine.script]
      split
      · trivial
      · split
        · trivial
        · split
          · trivial
          · exact .map (eachCall_ofCall (.consumed (behind_cons List.suffix_rfl)))

/-- Every call of a routine descends. -/
theorem Routine.descends (r : Routine α) : r.Descends env ts := by
  cases r with
  | wholeExpression =>
      exact eachCall_ofCall_andThen (below_of_level_lt (by decide)) fun _ _ _ => trivial
  | rule r => exact rule_descends r
  | wholeType =>
      exact eachCall_ofCall_andThen (below_of_level_lt (by decide)) fun _ _ _ => trivial
  | arrayType => exact arrayType_descends
  | castType => exact castType_descends
  | typeId => exact typeId_descends
  | specifiers d => exact specifiers_descends d
  | declaratorSigns d => exact declaratorSigns_descends d
  | pointerQualifiers cv => exact pointerQualifiers_descends cv
  | arrayBounds => exact arrayBounds_descends
  | typeName => exact typeName_descends
  | qualifiedName => exact qualifiedName_descends
  | nestedName => exact nestedName_descends
  | templateArguments => exact templateArguments_descends
  | templateTail angles parens afterWord => exact templateTail_descends angles parens afterWord

end WatchExpr.Grammar
