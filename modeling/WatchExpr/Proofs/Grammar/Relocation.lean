import WatchExpr.Proofs.Grammar.Consumption
import WatchExpr.Proofs.Grammar.Names

/-!
# Moved tokens

A rule looks at the categories and the texts of tokens. It copies their places into failures and does
nothing else with them: if the tokens are moved, so is what the rule yields.
-/

namespace WatchExpr

/-- The token at another place. -/
def Token.moved (m : Location → Location) (t : Token) : Token :=
  { t with location := m t.location }

/-- The end mark at another place. -/
def EndMark.moved (m : Location → Location) (e : EndMark) : EndMark :=
  { e with location := m e.location }

/-- The failure as it is reported for moved tokens. -/
def ParseError.Cause.moved (m : Location → Location) : ParseError.Cause → ParseError.Cause
  | .expected kind got => .expected kind (got.moved m)
  | .unexpected got => .unexpected (got.moved m)
  | .expectedType got => .expectedType (got.moved m)
  | .unbalancedTemplate got => .unbalancedTemplate (got.moved m)
  | .unsupported feature => .unsupported feature
  | .arrayBound spelling => .arrayBound spelling
  | .literal failure => .literal failure
  | .type failure => .type failure

/-- The failure as it is reported for moved tokens. -/
def ParseError.moved (m : Location → Location) (e : ParseError) : ParseError :=
  ⟨e.cause.moved m, m e.location⟩

namespace Grammar

variable {α β : Type} {m : Location → Location} {finish : EndMark} {env : Env} {ts us : List Token}

/-- What the rules yield on moved tokens. -/
def Outcome.moved (m : Location → Location) : Outcome α → Outcome α
  | .ok a ts => .ok a (ts.map (Token.moved m))
  | .error e ts => .error (e.moved m) (ts.map (Token.moved m))

/-- The same names of types, with the end mark at another place. -/
def Env.moved (m : Location → Location) (env : Env) : Env :=
  { env with finish := env.finish.moved m }

@[simp] theorem kind_moved (t : Token) : (t.moved m).kind = t.kind := rfl

@[simp] theorem spelling_moved (t : Token) : (t.moved m).spelling = t.spelling := rfl

@[simp] theorem location_moved (t : Token) : (t.moved m).location = m t.location := rfl

@[simp] theorem isWord_moved (t : Token) : (t.moved m).isWord = t.isWord := rfl

@[simp] theorem finish_moved (env : Env) : (env.moved m).finish = env.finish.moved m := rfl

@[simp] theorem types_moved (env : Env) : (env.moved m).types = env.types := rfl

@[simp] theorem ok_moved (a : α) : (Outcome.ok a ts).moved m = .ok a (ts.map (Token.moved m)) := rfl

@[simp] theorem error_moved (e : ParseError) :
    (Outcome.error e ts : Outcome α).moved m = .error (e.moved m) (ts.map (Token.moved m)) := rfl

@[simp] theorem map_moved (f : α → β) (o : Outcome α) : (o.map f).moved m = (o.moved m).map f := by
  cases o <;> rfl

theorem andThen_moved {o : Outcome α} {f g : α → List Token → Outcome β} (ho : o.rest <:+ ts)
    (h : ∀ a us, us <:+ ts → g a (us.map (Token.moved m)) = (f a us).moved m) :
    (o.moved m).andThen g = (o.andThen f).moved m := by
  cases o with
  | ok a us => exact h a us ho
  | error e us => rfl

/-! ## Single tokens -/

@[simp] theorem current_moved (finish : EndMark) (ts : List Token) :
    current (finish.moved m) (ts.map (Token.moved m)) = (current finish ts).moved m := by
  cases ts <;> rfl

@[simp] theorem accept?_moved (f : TokenKind → Option α) (ts : List Token) :
    accept? f (ts.map (Token.moved m)) =
      (accept? f ts).map (Prod.map id (List.map (Token.moved m))) := by
  cases ts with
  | nil => rfl
  | cons t ts =>
      simp only [List.map_cons, accept?, kind_moved]
      cases f t.kind <;> rfl

theorem failAt_moved {cause : Token → ParseError.Cause}
    (hcause : ∀ t, cause (t.moved m) = (cause t).moved m) :
    failAt (finish.moved m) cause (ts.map (Token.moved m)) = (failAt finish cause ts).moved m := by
  simp [failAt, ParseError.moved, hcause]

theorem failAt_nil_moved {cause : Token → ParseError.Cause}
    (hcause : ∀ t, cause (t.moved m) = (cause t).moved m) :
    failAt (finish.moved m) cause [] = (failAt finish cause []).moved m :=
  @failAt_moved m finish [] cause hcause

theorem expect_moved (finish : EndMark) (kind : TokenKind) (ts : List Token) :
    expect (finish.moved m) kind (ts.map (Token.moved m)) =
      ((expect finish kind ts).map (Token.moved m)).moved m := by
  rw [expect, expect, current_moved, kind_moved, failAt_moved fun _ => rfl]
  split
  · simp [Outcome.map, List.map_tail]
  · rfl

theorem expect_map_moved {f : Token → α} (hf : ∀ t, f (t.moved m) = f t) (kind : TokenKind)
    (ts : List Token) :
    (expect (finish.moved m) kind (ts.map (Token.moved m))).map f =
      ((expect finish kind ts).map f).moved m := by
  rw [expect_moved]
  cases expect finish kind ts <;> simp [Outcome.map, hf]

theorem expect_andThen_moved {kind : TokenKind} {f g : Token → List Token → Outcome β}
    (h : ∀ t us, us <:+ ts → g (t.moved m) (us.map (Token.moved m)) = (f t us).moved m) :
    (expect (finish.moved m) kind (ts.map (Token.moved m))).andThen g =
      ((expect finish kind ts).andThen f).moved m := by
  have hsuffix := (expect_leaves finish kind ts).isSuffix
  rw [expect_moved]
  cases hexpect : expect finish kind ts with
  | ok t us => exact h t us (by simpa [hexpect] using hsuffix)
  | error e us => rfl

/-! ## Names -/

theorem templatePiece_moved (afterWord : Bool) (t : Token) :
    templatePiece afterWord (t.moved m) = templatePiece afterWord t := rfl

theorem templateTail_moved (angles parens : Nat) (afterWord : Bool) (ts : List Token) :
    templateTail (finish.moved m) angles parens afterWord (ts.map (Token.moved m)) =
      (templateTail finish angles parens afterWord ts).moved m := by
  induction ts generalizing angles parens afterWord with
  | nil => rw [List.map_nil, templateTail, templateTail, failAt_nil_moved fun _ => rfl]; rfl
  | cons t ts ih =>
      rw [List.map_cons, templateTail, templateTail]
      simp only [kind_moved, isWord_moved, templatePiece_moved, ih]
      split
      · rfl
      · split
        · rfl
        · split
          · rfl
          · rw [map_moved]

theorem templateArguments_moved (finish : EndMark) (ts : List Token) :
    templateArguments (finish.moved m) (ts.map (Token.moved m)) =
      (templateArguments finish ts).moved m := by
  refine expect_andThen_moved fun _ us _ => ?_
  rw [templateTail_moved, map_moved]

theorem templateArguments?_moved (finish : EndMark) (ts : List Token) :
    templateArguments? (finish.moved m) (ts.map (Token.moved m)) =
      (templateArguments? finish ts).moved m := by
  rw [templateArguments?, templateArguments?, current_moved, kind_moved, templateArguments_moved]
  split <;> rfl

theorem component?_moved (finish : EndMark) (ts : List Token) :
    component? (finish.moved m) (ts.map (Token.moved m)) =
      (component? finish ts).map (Prod.map id (List.map (Token.moved m))) := by
  cases ts with
  | nil => rfl
  | cons t ts =>
      rw [List.map_cons, component?, component?, kind_moved, templateArguments?_moved]
      split
      · rfl
      · obtain ⟨args, _ | ⟨s, us⟩⟩ | ⟨e, us⟩ := templateArguments? finish ts
        · rfl
        · by_cases hs : s.kind = .punct .colonColon
          · simp [hs]
          · simp [hs]
        · rfl

theorem nestedName_moved (finish : EndMark) (ts : List Token) :
    nestedName (finish.moved m) (ts.map (Token.moved m)) =
      Prod.map id (List.map (Token.moved m)) (nestedName finish ts) := by
  induction hn : ts.length using Nat.strongRecOn generalizing ts with
  | ind n ih =>
      subst hn
      have hmoved := component?_moved (m := m) finish ts
      cases hc : component? finish ts with
      | none =>
          rw [hc] at hmoved
          rw [nestedName_of_none hc, nestedName_of_none hmoved]
          rfl
      | some c =>
          obtain ⟨text, rest⟩ := c
          rw [hc] at hmoved
          rw [nestedName_of_some hc, nestedName_of_some hmoved,
            ih _ (component?_rest_length_lt hc) rest rfl]
          rfl

theorem splitGlobal_moved (ts : List Token) :
    splitGlobal (ts.map (Token.moved m)) =
      Prod.map id (List.map (Token.moved m)) (splitGlobal ts) := by
  obtain _ | ⟨⟨k, s, l⟩, ts⟩ := ts
  · rfl
  · cases k with
    | punct p => cases p <;> rfl
    | _ => rfl

theorem qualifiedName_moved (finish : EndMark) (ts : List Token) :
    qualifiedName (finish.moved m) (ts.map (Token.moved m)) =
      (qualifiedName finish ts).moved m := by
  rw [qualifiedName, qualifiedName, splitGlobal_moved]
  simp only [Prod.map_fst, Prod.map_snd, nestedName_moved, id]
  exact expect_map_moved (fun t => rfl) _ _

theorem typeName_moved (finish : EndMark) (ts : List Token) :
    typeName (finish.moved m) (ts.map (Token.moved m)) = (typeName finish ts).moved m := by
  rw [typeName, qualifiedName_moved]
  refine andThen_moved (qualifiedName_leaves finish ts).isSuffix fun name us _ => ?_
  rw [templateArguments?_moved, map_moved]

/-! ## Type-ids -/

theorem specifiers_moved (finish : EndMark) (d : TypeId) (ts : List Token) :
    specifiers (finish.moved m) d (ts.map (Token.moved m)) = (specifiers finish d ts).moved m := by
  induction hn : ts.length using Nat.strongRecOn generalizing ts d with
  | ind n ih =>
      subst hn
      cases ts with
      | nil => simp [specifiers]
      | cons t ts =>
          have hrest (d : TypeId) {us : List Token} (hus : us.length ≤ ts.length) :
              specifiers (finish.moved m) d (us.map (Token.moved m)) =
                (specifiers finish d us).moved m :=
            ih _ (Nat.lt_succ_of_le hus) d us rfl
          rw [List.map_cons, specifiers_cons, specifiers_cons, kind_moved]
          split
          · rfl
          · exact hrest _ (Nat.le_refl _)
          · exact hrest _ (Nat.le_refl _)
          · exact hrest _ (Nat.le_refl _)
          · rw [typeName_moved]
            exact andThen_moved (typeName_leaves finish ts).isSuffix fun name us hus =>
              hrest _ hus.length_le
          · split
            · rfl
            · rw [← List.map_cons, typeName_moved]
              cases hname : typeName finish (t :: ts) with
              | ok name us => exact hrest _ (Nat.le_of_lt_succ (typeName_rest_length_lt hname))
              | error e us => rfl

theorem pointerQualifiers_moved (cv : Qualifiers) (ts : List Token) :
    pointerQualifiers cv (ts.map (Token.moved m)) =
      Prod.map id (List.map (Token.moved m)) (pointerQualifiers cv ts) := by
  fun_induction pointerQualifiers cv ts with
  | case1 => rfl
  | case2 cv t ts ht ih => simp [pointerQualifiers, ht, ih]
  | case3 cv t ts ht ih => simp [pointerQualifiers, ht, ih]
  | case4 cv t ts hconst hvolatile =>
      rw [List.map_cons, pointerQualifiers, kind_moved]
      split
      · rename_i ht
        exact absurd ht hconst
      · rename_i ht
        exact absurd ht hvolatile
      · rfl

theorem declaratorSigns_moved (d : TypeId) (ts : List Token) :
    declaratorSigns d (ts.map (Token.moved m)) =
      Prod.map id (List.map (Token.moved m)) (declaratorSigns d ts) := by
  fun_induction declaratorSigns d ts with
  | case1 => simp [declaratorSigns]
  | case2 d t ts ht ih =>
      rw [List.map_cons, declaratorSigns, kind_moved, ht]
      simpa [pointerQualifiers_moved] using ih
  | case3 d t ts ht ih =>
      rw [List.map_cons, declaratorSigns, kind_moved, ht]
      exact ih
  | case4 d t ts ht ih =>
      rw [List.map_cons, declaratorSigns, kind_moved, ht]
      exact ih
  | case5 d t ts hstar hamp hampAmp =>
      rw [List.map_cons, declaratorSigns, kind_moved]
      split
      · exact absurd ‹_› hstar
      · exact absurd ‹_› hamp
      · exact absurd ‹_› hampAmp
      · rfl

theorem typeId_moved (finish : EndMark) (ts : List Token) :
    typeId (finish.moved m) (ts.map (Token.moved m)) = (typeId finish ts).moved m := by
  rw [typeId, specifiers_moved]
  refine andThen_moved (specifiers_leaves finish {} ts).isSuffix fun d us _ => ?_
  rw [declaratorSigns_moved, failAt_moved fun _ => rfl]
  split <;> rfl

theorem resolveAt_moved (env : Env) (place : Location) (d : TypeId) (ts : List Token) :
    resolveAt (env.moved m) (m place) d (ts.map (Token.moved m)) =
      (resolveAt env place d ts).moved m := by
  rw [resolveAt, resolveAt, types_moved]
  cases d.resolve env.types <;> rfl

theorem castType_moved (env : Env) (ts : List Token) :
    castType (env.moved m) (ts.map (Token.moved m)) = (castType env ts).moved m := by
  rw [castType, finish_moved, typeId_moved]
  refine andThen_moved (typeId_leaves env.finish ts).isSuffix fun d us _ => ?_
  refine expect_andThen_moved fun _ vs _ => ?_
  rw [current_moved, location_moved, resolveAt_moved]

theorem boundFailure_moved (spelling : String) :
    (boundFailure spelling).moved m = boundFailure spelling := by
  unfold boundFailure
  split <;> rfl

theorem arrayBound_moved (finish : EndMark) (ts : List Token) :
    arrayBound (finish.moved m) (ts.map (Token.moved m)) = (arrayBound finish ts).moved m := by
  refine expect_andThen_moved fun t us _ => ?_
  rw [spelling_moved]
  cases boundOf? t.spelling with
  | none =>
      dsimp only [Outcome.moved, ParseError.moved]
      rw [boundFailure_moved, location_moved]
  | some n => exact expect_map_moved (fun _ => rfl) _ us

theorem arrayBounds_moved (finish : EndMark) (ts : List Token) :
    arrayBounds (finish.moved m) (ts.map (Token.moved m)) = (arrayBounds finish ts).moved m := by
  induction hn : ts.length using Nat.strongRecOn generalizing ts with
  | ind n ih =>
      subst hn
      cases ts with
      | nil => simp [arrayBounds]
      | cons t ts =>
          rw [List.map_cons, arrayBounds_cons, arrayBounds_cons, kind_moved, arrayBound_moved]
          split
          · refine andThen_moved (arrayBound_leaves finish ts).isSuffix fun n us hus => ?_
            rw [ih _ (Nat.lt_succ_of_le hus.length_le) us rfl, map_moved]
          · rfl

theorem arrayType_moved (env : Env) (ts : List Token) :
    arrayType (env.moved m) (ts.map (Token.moved m)) = (arrayType env ts).moved m := by
  rw [arrayType, finish_moved, typeId_moved]
  refine andThen_moved (typeId_leaves env.finish ts).isSuffix fun d us _ => ?_
  rw [current_moved, location_moved, resolveAt_moved]
  refine andThen_moved (resolveAt_leaves ..).isSuffix fun t vs _ => ?_
  rw [arrayBounds_moved, map_moved]

/-! ## Expressions -/

/-- Calls of lower measure yield the same on moved tokens. -/
def MovesBelow (m : Location → Location) (env : Env) (n : Nat) : Prop :=
  ∀ rule us, us.length * 64 + Rule.rank rule < n →
    run (env.moved m) rule (us.map (Token.moved m)) = (run env rule us).moved m

variable {e : Expr} {p : Precedence}

theorem moves_conditional (ih : MovesBelow m env (ts.length * 64 + 39)) :
    run (env.moved m) .conditional (ts.map (Token.moved m)) =
      (run env .conditional ts).moved m := by
  rw [run_conditional, run_conditional, ih _ _ (by simp [Rule.rank, Precedence.loosestBinary])]
  refine andThen_moved (run_leaves ..).isSuffix fun c us hus => ?_
  rw [accept?_moved]
  cases haccept : accept? (isMark .question) us with
  | none => rfl
  | some q =>
      obtain ⟨_, vs⟩ := q
      have hvs := accept?_length_lt haccept
      have hlen := hus.length_le
      simp only [Option.map_some, Prod.map_apply]
      rw [ih _ _ (by simp only [Rule.rank]; omega)]
      refine andThen_moved (run_leaves ..).isSuffix fun e ws hws => ?_
      refine expect_andThen_moved fun _ xs hxs => ?_
      have hlen' := (hxs.trans hws).length_le
      rw [ih _ _ (by simp only [Rule.rank]; omega)]
      exact andThen_moved (run_leaves ..).isSuffix fun f ys _ => rfl

theorem moves_binary (ih : MovesBelow m env (ts.length * 64 + (2 * p + 4))) :
    run (env.moved m) (.binary p) (ts.map (Token.moved m)) =
      (run env (.binary p) ts).moved m := by
  cases p with
  | zero =>
      rw [run_binary_zero, run_binary_zero]
      exact ih _ _ (by simp [Rule.rank])
  | succ p =>
      rw [run_binary_succ, run_binary_succ, ih _ _ (by simp only [Rule.rank]; omega)]
      refine andThen_moved (run_leaves ..).isSuffix fun e us hus => ?_
      have hlen := hus.length_le
      exact ih _ _ (by simp only [Rule.rank]; omega)

theorem moves_operators (ih : MovesBelow m env (ts.length * 64 + (2 * p + 5))) :
    run (env.moved m) (.operators p e) (ts.map (Token.moved m)) =
      (run env (.operators p e) ts).moved m := by
  rw [run_operators, run_operators, accept?_moved]
  cases haccept : accept? (operatorAt? (p + 1)) ts with
  | none => rfl
  | some a =>
      obtain ⟨op, us⟩ := a
      have hus := accept?_length_lt haccept
      simp only [Option.map_some, Prod.map_apply]
      rw [ih _ _ (by simp only [Rule.rank]; omega)]
      refine andThen_moved (run_leaves ..).isSuffix fun f vs hvs => ?_
      have hlen := hvs.length_le
      exact ih _ _ (by simp only [Rule.rank]; omega)

theorem moves_cast (ih : MovesBelow m env (ts.length * 64 + 3)) :
    run (env.moved m) .cast (ts.map (Token.moved m)) = (run env .cast ts).moved m := by
  have hunary := ih .unary ts (by simp [Rule.rank])
  rw [run_cast, run_cast, accept?_moved]
  cases haccept : accept? (isMark .lParen) ts with
  | none => exact hunary
  | some a =>
      obtain ⟨_, us⟩ := a
      have hus := accept?_length_lt haccept
      simp only [Option.map_some, Prod.map_apply]
      rw [castType_moved]
      cases htype : castType env us with
      | ok t vs =>
          have hlen := castType_rest_le_of_ok htype
          simp only [ok_moved]
          rw [ih _ _ (by simp only [Rule.rank]; omega)]
          exact andThen_moved (run_leaves ..).isSuffix fun e ws _ => rfl
      | error failure vs =>
          simp only [error_moved, finish_moved, current_moved, kind_moved]
          -- Whether the failure stands is told by the kind of a token.
          split
          · rfl
          · exact hunary

theorem moves_unary (ih : MovesBelow m env (ts.length * 64 + 2)) :
    run (env.moved m) .unary (ts.map (Token.moved m)) = (run env .unary ts).moved m := by
  rw [run_unary, run_unary, accept?_moved]
  cases haccept : accept? unaryOp? ts with
  | some a =>
      obtain ⟨op, us⟩ := a
      have hus := accept?_length_lt haccept
      simp only [Option.map_some, Prod.map_apply]
      rw [ih _ _ (by simp only [Rule.rank]; omega)]
      exact andThen_moved (run_leaves ..).isSuffix fun e vs _ => rfl
  | none =>
      simp only [Option.map_none, finish_moved, current_moved, kind_moved]
      split
      · rw [failAt_moved fun _ => rfl]
        rfl
      · exact ih _ _ (by simp [Rule.rank])

theorem moves_access (ih : MovesBelow m env (ts.length * 64 + 1)) :
    run (env.moved m) .access (ts.map (Token.moved m)) = (run env .access ts).moved m := by
  rw [run_access, run_access, ih _ _ (by simp [Rule.rank])]
  refine andThen_moved (run_leaves ..).isSuffix fun e us hus => ?_
  have hlen := hus.length_le
  exact ih _ _ (by simp only [Rule.rank]; omega)

theorem moves_accesses (ih : MovesBelow m env (ts.length * 64)) :
    run (env.moved m) (.accesses e) (ts.map (Token.moved m)) =
      (run env (.accesses e) ts).moved m := by
  rw [run_accesses, run_accesses, accept?_moved]
  cases haccept : accept? accessStart? ts with
  | none => rfl
  | some a =>
      obtain ⟨start, us⟩ := a
      have hus := accept?_length_lt haccept
      simp only [Option.map_some, Prod.map_apply]
      cases start with
      | subscript =>
          simp only [id]
          rw [ih _ _ (by simp only [Rule.rank]; omega)]
          refine andThen_moved (run_leaves ..).isSuffix fun i vs hvs => ?_
          refine expect_andThen_moved fun _ ws hws => ?_
          have hlen := (hws.trans hvs).length_le
          exact ih _ _ (by simp only [Rule.rank]; omega)
      | member access =>
          refine expect_andThen_moved fun t vs hvs => ?_
          have hlen := hvs.length_le
          exact ih _ _ (by simp only [Rule.rank]; omega)
      | unsupported feature =>
          simp only [id, finish_moved]
          rw [failAt_moved fun _ => rfl]
          rfl

theorem constant_moved (t : Token) (ts : List Token) :
    constant (t.moved m) (ts.map (Token.moved m)) = (constant t ts).moved m := by
  rw [constant, constant, spelling_moved]
  cases Literal.read t.spelling <;> rfl

theorem moves_primary (ih : MovesBelow m env (ts.length * 64)) :
    run (env.moved m) .primary (ts.map (Token.moved m)) = (run env .primary ts).moved m := by
  cases ts with
  | nil =>
      rw [List.map_nil, run_primary_nil, run_primary_nil, finish_moved,
        failAt_nil_moved fun _ => rfl]
      rfl
  | cons t us =>
      rw [List.map_cons, run_primary_cons, run_primary_cons, kind_moved, finish_moved,
        ← List.map_cons, qualifiedName_moved, failAt_moved fun _ => rfl]
      split
      · exact constant_moved t us
      · rfl
      · rw [ih _ _ (by simp only [Rule.rank, List.length_cons]; omega)]
        refine andThen_moved (run_leaves ..).isSuffix fun e vs _ => ?_
        exact expect_andThen_moved fun _ ws _ => rfl
      · rw [map_moved]
      · rw [map_moved]
      · rfl

/-- A rule yields the same on moved tokens. -/
theorem run_moved (m : Location → Location) (env : Env) (rule : Rule) (ts : List Token) :
    run (env.moved m) rule (ts.map (Token.moved m)) = (run env rule ts).moved m := by
  induction hn : ts.length * 64 + rule.rank using Nat.strongRecOn generalizing rule ts with
  | ind n ih =>
      have hbelow : MovesBelow m env (ts.length * 64 + rule.rank) :=
        fun rule us hlt => ih _ (hn ▸ hlt) rule us rfl
      cases rule with
      | expression =>
          rw [run_expression, run_expression, hbelow _ _ (by simp [Rule.rank])]
          refine andThen_moved (run_leaves ..).isSuffix fun e us _ => ?_
          rw [finish_moved, current_moved, kind_moved, failAt_moved fun _ => rfl]
          split <;> rfl
      | conditional => exact moves_conditional hbelow
      | binary p => exact moves_binary hbelow
      | operators p e => exact moves_operators hbelow
      | cast => exact moves_cast hbelow
      | unary => exact moves_unary hbelow
      | access => exact moves_access hbelow
      | accesses e => exact moves_accesses hbelow
      | primary => exact moves_primary hbelow

/-- A way to read tokens that yields the same on moved tokens. -/
def Relocates (rule : Env → List Token → Outcome α) : Prop :=
  ∀ m env ts, rule (env.moved m) (ts.map (Token.moved m)) = (rule env ts).moved m

theorem wholeExpression_relocates : Relocates wholeExpression := by
  intro m env ts
  refine (congrArg (Outcome.andThen · _) (run_moved m env .expression ts)).trans ?_
  refine andThen_moved (run_leaves ..).isSuffix fun e us _ => ?_
  exact expect_map_moved (fun _ => rfl) .eof us

theorem wholeType_relocates : Relocates wholeType := by
  intro m env ts
  rw [wholeType, arrayType_moved]
  refine andThen_moved (arrayType_leaves env ts).isSuffix fun t us _ => ?_
  exact expect_map_moved (fun _ => rfl) .eof us

end Grammar

end WatchExpr
