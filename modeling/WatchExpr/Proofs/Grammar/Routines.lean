import WatchExpr.Grammar.Reading
import WatchExpr.Proofs.Grammar.Equations
import WatchExpr.Proofs.Grammar.Names

/-!
# Routines and their calls

What the rules of the grammar do one call at a time. A routine is opened into a script, which is either
done or calls a routine and goes on with its outcome. If every call has the outcome of the rule that is
called, then the script has the outcome of its own rule.
-/

namespace WatchExpr.Grammar

/-- What may be called while reading, by the kind of result. A loop is a routine that calls itself; it
carries what was read so far. -/
inductive Routine : Type → Type where
  | wholeExpression : Routine Expr
  | rule (r : Rule) : Routine Expr
  | wholeType : Routine Ty
  | arrayType : Routine Ty
  | castType : Routine Ty
  | typeId : Routine TypeId
  | specifiers (d : TypeId) : Routine TypeId
  | declaratorSigns (d : TypeId) : Routine TypeId
  | pointerQualifiers (cv : Qualifiers) : Routine Qualifiers
  | arrayBounds : Routine (List UInt64)
  | typeName : Routine String
  | qualifiedName : Routine String
  | nestedName : Routine String
  | templateArguments : Routine String
  | templateTail (angles parens : Nat) (afterWord : Bool) : Routine String

variable {α β : Type}

/-- The outcome of the rule that a routine carries out. -/
def Routine.outcome (env : Env) : Routine α → List Token → Outcome α
  | .wholeExpression, ts => Grammar.wholeExpression env ts
  | .rule r, ts => run env r ts
  | .wholeType, ts => Grammar.wholeType env ts
  | .arrayType, ts => Grammar.arrayType env ts
  | .castType, ts => Grammar.castType env ts
  | .typeId, ts => Grammar.typeId env.finish ts
  | .specifiers d, ts => Grammar.specifiers env.finish d ts
  | .declaratorSigns d, ts => .ok (Grammar.declaratorSigns d ts).1 (Grammar.declaratorSigns d ts).2
  | .pointerQualifiers cv, ts =>
    .ok (Grammar.pointerQualifiers cv ts).1 (Grammar.pointerQualifiers cv ts).2
  | .arrayBounds, ts => Grammar.arrayBounds env.finish ts
  | .typeName, ts => Grammar.typeName env.finish ts
  | .qualifiedName, ts => Grammar.qualifiedName env.finish ts
  | .nestedName, ts => .ok (Grammar.nestedName env.finish ts).1 (Grammar.nestedName env.finish ts).2
  | .templateArguments, ts => Grammar.templateArguments env.finish ts
  | .templateTail angles parens afterWord, ts =>
    Grammar.templateTail env.finish angles parens afterWord ts

/-! ## Scripts -/

/-- What is left to do up to the next call. -/
inductive Script (α : Type) : Type 1 where
  | done (o : Outcome α)
  | call {β : Type} (r : Routine β) (ts : List Token) (more : Outcome β → Script α)

namespace Script

/-- Goes on with the outcome. -/
def followedBy : Script α → (Outcome α → Script β) → Script β
  | .done o, f => f o
  | .call r ts more, f => .call r ts fun o => (more o).followedBy f

/-- Goes on with the tokens that are left. -/
def andThen (s : Script α) (f : α → List Token → Script β) : Script β :=
  s.followedBy fun
    | .ok a ts => f a ts
    | .error e ts => .done (.error e ts)

/-- Changes the value. -/
def map (f : α → β) (s : Script α) : Script β :=
  s.followedBy fun o => .done (o.map f)

/-- A call with nothing to do behind it. -/
def ofCall (r : Routine α) (ts : List Token) : Script α :=
  .call r ts .done

/-- The outcome if every call has the outcome of the rule that is called. -/
def answer (env : Env) : Script α → Outcome α
  | .done o => o
  | .call r ts more => (more (r.outcome env ts)).answer env

variable (env : Env)

@[simp] theorem answer_done (o : Outcome α) : (done o).answer env = o := rfl

@[simp] theorem answer_ofCall (r : Routine α) (ts : List Token) :
    (ofCall r ts).answer env = r.outcome env ts := rfl

@[simp] theorem answer_followedBy (s : Script α) (f : Outcome α → Script β) :
    (s.followedBy f).answer env = (f (s.answer env)).answer env := by
  induction s with
  | done o => rfl
  | call r ts more ih => exact ih _

@[simp] theorem answer_andThen (s : Script α) (f : α → List Token → Script β) :
    (s.andThen f).answer env = (s.answer env).andThen fun a ts => (f a ts).answer env := by
  rw [andThen, answer_followedBy]
  cases s.answer env <;> rfl

@[simp] theorem answer_map (f : α → β) (s : Script α) :
    (s.map f).answer env = (s.answer env).map f := by
  rw [map, answer_followedBy, answer_done]

end Script

open Script

/-! ## The scripts of the routines -/

/-- The script of a rule for expressions. -/
def Rule.script (env : Env) : Rule → List Token → Script Expr
  | .expression, ts => (ofCall (.rule .conditional) ts).andThen fun e rest =>
      if isAssignment (current env.finish rest).kind then
        done (.error (failAt env.finish (fun _ => .unsupported .assignment) rest) rest)
      else done (.ok e rest)
  | .conditional, ts => (ofCall (.rule (.binary .loosestBinary)) ts).andThen fun c rest =>
      match accept? (isMark .question) rest with
      | none => done (.ok c rest)
      | some (_, rest) => (ofCall (.rule .expression) rest).andThen fun e rest =>
          (done (expect env.finish (.punct .colon) rest)).andThen fun _ rest =>
            (ofCall (.rule .expression) rest).andThen fun f rest => done (.ok (.conditional c e f) rest)
  | .binary 0, ts => ofCall (.rule .cast) ts
  | .binary (level + 1), ts => (ofCall (.rule (.binary level)) ts).andThen fun e rest =>
      ofCall (.rule (.operators level e)) rest
  | .operators level lhs, ts =>
    match accept? (operatorAt? (level + 1)) ts with
    | none => done (.ok lhs ts)
    | some (op, rest) => (ofCall (.rule (.binary level)) rest).andThen fun rhs rest =>
        ofCall (.rule (.operators level (.binary op lhs rhs))) rest
  | .cast, ts =>
    match accept? (isMark .lParen) ts with
    | none => ofCall (.rule .unary) ts
    | some (_, inner) => (ofCall .castType inner).followedBy fun
        | .ok t rest => (ofCall (.rule .cast) rest).andThen fun e rest => done (.ok (.cast t e) rest)
        | .error e rest =>
          if startsType (current env.finish inner).kind then done (.error e rest)
          else ofCall (.rule .unary) ts
  | .unary, ts =>
    match accept? unaryOp? ts with
    | some (op, rest) => (ofCall (.rule .cast) rest).andThen fun e rest =>
        done (.ok (.unary op e) rest)
    | none =>
      if isIncrement (current env.finish ts).kind then
        done (.error (failAt env.finish (fun _ => .unsupported .increment) ts) ts)
      else ofCall (.rule .access) ts
  | .access, ts => (ofCall (.rule .primary) ts).andThen fun e rest =>
      ofCall (.rule (.accesses e)) rest
  | .accesses base, ts =>
    match accept? accessStart? ts with
    | none => done (.ok base ts)
    | some (.subscript, rest) => (ofCall (.rule .expression) rest).andThen fun i rest =>
        (done (expect env.finish (.punct .rSquare) rest)).andThen fun _ rest =>
          ofCall (.rule (.accesses (.binary .subscript base i))) rest
    | some (.member via, rest) => (done (expect env.finish .identifier rest)).andThen fun t rest =>
        ofCall (.rule (.accesses (.member base via t.spelling))) rest
    | some (.unsupported feature, _) =>
      done (.error (failAt env.finish (fun _ => .unsupported feature) ts) ts)
  | .primary, [] => done (.error (failAt env.finish .unexpected []) [])
  | .primary, t :: ts =>
    match t.kind with
    | .number => done (constant t ts)
    | .keyword (.truth b) => done (.ok (.truth b) ts)
    | .punct .lParen => (ofCall (.rule .expression) ts).andThen fun e rest =>
        (done (expect env.finish (.punct .rParen) rest)).andThen fun _ rest => done (.ok e rest)
    | .identifier | .punct .colonColon => (ofCall .qualifiedName (t :: ts)).map .name
    | _ => done (.error (failAt env.finish .unexpected (t :: ts)) (t :: ts))

/-- Template arguments are read where a list of them starts. -/
def optionalArguments (env : Env) (ts : List Token) : Script String :=
  if (current env.finish ts).kind = .punct .less then ofCall .templateArguments ts
  else done (.ok "" ts)

/-- The script of a routine. -/
def Routine.script (env : Env) : Routine α → List Token → Script α
  | .wholeExpression, ts => (ofCall (.rule .expression) ts).andThen fun e rest =>
      done ((expect env.finish .eof rest).map fun _ => e)
  | .rule r, ts => r.script env ts
  | .wholeType, ts => (ofCall .arrayType ts).andThen fun t rest =>
      done ((expect env.finish .eof rest).map fun _ => t)
  | .arrayType, ts => (ofCall .typeId ts).andThen fun d rest =>
      (done (resolveAt env (current env.finish ts).location d rest)).andThen fun t rest =>
        (ofCall .arrayBounds rest).map fun bounds => bounds.foldr (fun n t => .array t n .none) t
  | .castType, ts => (ofCall .typeId ts).andThen fun d rest =>
      (done (expect env.finish (.punct .rParen) rest)).andThen fun _ rest =>
        done (resolveAt env (current env.finish ts).location d rest)
  | .typeId, ts => (ofCall (.specifiers {}) ts).andThen fun d rest =>
      if d.hasSpecifier then ofCall (.declaratorSigns d) rest
      else done (.error (failAt env.finish .expectedType rest) rest)
  | .specifiers d, [] => done (.ok d [])
  | .specifiers d, t :: ts =>
    match specifierStart? t.kind with
    | none => done (.ok d (t :: ts))
    | some (.word w) => ofCall (.specifiers (d.addWord w)) ts
    | some .const => ofCall (.specifiers d.addConst) ts
    | some .volatile => ofCall (.specifiers d.addVolatile) ts
    | some .tag => (ofCall .typeName ts).andThen fun name rest =>
        ofCall (.specifiers (d.addName name)) rest
    | some .name =>
      if d.hasSpecifier then done (.ok d (t :: ts))
      else (ofCall .typeName (t :: ts)).andThen fun name rest =>
        ofCall (.specifiers (d.addName name)) rest
  | .declaratorSigns d, [] => done (.ok d [])
  | .declaratorSigns d, t :: ts =>
    match t.kind with
    | .punct .star => (ofCall (.pointerQualifiers .none) ts).andThen fun cv rest =>
        ofCall (.declaratorSigns (d.addSign (.pointer cv))) rest
    | .punct .amp => ofCall (.declaratorSigns (d.addSign .reference)) ts
    | .punct .ampAmp => ofCall (.declaratorSigns { d with illFormed := true }) ts
    | _ => done (.ok d (t :: ts))
  | .pointerQualifiers cv, [] => done (.ok cv [])
  | .pointerQualifiers cv, t :: ts =>
    match specifierStart? t.kind with
    | some .const => ofCall (.pointerQualifiers { cv with isConst := true }) ts
    | some .volatile => ofCall (.pointerQualifiers { cv with isVolatile := true }) ts
    | _ => done (.ok cv (t :: ts))
  | .arrayBounds, [] => done (.ok [] [])
  | .arrayBounds, t :: ts =>
    if t.kind = .punct .lSquare then
      (done (arrayBound env.finish ts)).andThen fun n rest => (ofCall .arrayBounds rest).map (n :: ·)
    else done (.ok [] (t :: ts))
  | .typeName, ts => (ofCall .qualifiedName ts).andThen fun name rest =>
      (optionalArguments env rest).map (name ++ ·)
  | .qualifiedName, ts => (ofCall .nestedName (splitGlobal ts).2).andThen fun scope rest =>
      done ((expect env.finish .identifier rest).map fun t =>
        (splitGlobal ts).1 ++ scope ++ t.spelling)
  | .nestedName, [] => done (.ok "" [])
  | .nestedName, t :: ts =>
    if t.kind ≠ .identifier then done (.ok "" (t :: ts))
    else (optionalArguments env ts).followedBy fun
      | .ok args (sep :: rest) =>
        if sep.kind = .punct .colonColon then
          (ofCall .nestedName rest).map (t.spelling ++ args ++ "::" ++ ·)
        else done (.ok "" (t :: ts))
      | _ => done (.ok "" (t :: ts))
  | .templateArguments, ts => (done (expect env.finish (.punct .less) ts)).andThen fun _ rest =>
      (ofCall (.templateTail 1 0 false) rest).map ("<" ++ ·)
  | .templateTail _ _ _, [] => done (.error (failAt env.finish (.expected (.punct .greater)) []) [])
  | .templateTail angles parens afterWord, t :: ts =>
    if t.kind = .eof then done (.error ⟨.expected (.punct .greater) t, t.location⟩ (t :: ts))
    else match templateDepth angles parens t.kind with
      | none => done (.error ⟨.unbalancedTemplate t, t.location⟩ (t :: ts))
      | some (angles, parens) =>
        if angles = 0 then done (.ok (templatePiece afterWord t) ts)
        else (ofCall (.templateTail angles parens t.isWord) ts).map (templatePiece afterWord t ++ ·)

/-! ## Scripts and rules -/

variable (env : Env) (ts : List Token)

theorem answer_rule (r : Rule) : (r.script env ts).answer env = run env r ts := by
  cases r with
  | expression =>
      rw [run_expression, Rule.script, answer_andThen, answer_ofCall, Routine.outcome]
      congr 1
      funext e rest
      split <;> rfl
  | conditional =>
      rw [run_conditional, Rule.script, answer_andThen, answer_ofCall, Routine.outcome]
      congr 1
      funext c rest
      cases accept? (isMark .question) rest with
      | none => rfl
      | some q => simp only [answer_andThen, answer_ofCall, answer_done, Routine.outcome]
  | binary p =>
      cases p with
      | zero => exact (run_binary_zero env ts).symm
      | succ p =>
          rw [run_binary_succ, Rule.script, answer_andThen]
          rfl
  | operators p e =>
      rw [run_operators, Rule.script]
      cases accept? (operatorAt? (p + 1)) ts with
      | none => rfl
      | some o =>
          rw [answer_andThen]
          rfl
  | cast =>
      rw [run_cast, Rule.script]
      cases accept? (isMark .lParen) ts with
      | none => rfl
      | some p =>
          dsimp only
          rw [answer_followedBy, answer_ofCall, Routine.outcome]
          cases castType env p.2 with
          | ok t rest =>
              dsimp only
              rw [answer_andThen]
              rfl
          | error e rest =>
              dsimp only
              split <;> rfl
  | unary =>
      rw [run_unary, Rule.script]
      cases accept? unaryOp? ts with
      | none =>
          dsimp only
          split <;> rfl
      | some o =>
          dsimp only
          rw [answer_andThen]
          rfl
  | access =>
      rw [run_access, Rule.script, answer_andThen]
      rfl
  | accesses e =>
      rw [run_accesses, Rule.script]
      cases accept? accessStart? ts with
      | none => rfl
      | some a =>
          obtain ⟨start, rest⟩ := a
          cases start with
          | subscript => simp only [answer_andThen, answer_ofCall, answer_done, Routine.outcome]
          | member via => simp only [answer_andThen, answer_ofCall, answer_done, Routine.outcome]
          | unsupported feature => rfl
  | primary =>
      cases ts with
      | nil => exact (run_primary_nil env).symm
      | cons t ts =>
          rw [run_primary_cons, Rule.script]
          obtain ⟨k, spelling, place⟩ := t
          cases k with
          | keyword w => cases w <;> rfl
          | punct p =>
              cases p with
              | lParen => simp only [answer_andThen, answer_ofCall, answer_done, Routine.outcome]
              | colonColon => exact answer_map env _ _
              | _ => rfl
          | identifier => exact answer_map env _ _
          | _ => rfl

theorem answer_optionalArguments :
    (optionalArguments env ts).answer env = templateArguments? env.finish ts := by
  rw [optionalArguments, templateArguments?]
  split <;> rfl

/-- A component that turns out to be none is given back. -/
theorem answer_nestedName :
    ((Routine.nestedName).script env ts).answer env = (Routine.nestedName).outcome env ts := by
  have hnone (h : component? env.finish ts = none) :
      (Routine.nestedName).outcome env ts = .ok "" ts := by
    rw [Routine.outcome, nestedName_of_none h]
  cases ts with
  | nil => exact (hnone rfl).symm
  | cons t us =>
      rw [Routine.script]
      split
      · rename_i ht
        exact (hnone (by rw [component?, if_pos ht])).symm
      · rename_i ht
        rw [answer_followedBy, answer_optionalArguments]
        have hcomponent : component? env.finish (t :: us) =
            match templateArguments? env.finish us with
            | .ok args (sep :: rest) =>
              if sep.kind = .punct .colonColon then some (t.spelling ++ args ++ "::", rest) else none
            | _ => none := if_neg ht
        cases hargs : templateArguments? env.finish us with
        | error e rest => exact (hnone (by rw [hcomponent, hargs])).symm
        | ok args rest =>
            rw [hargs] at hcomponent
            cases rest with
            | nil => exact (hnone hcomponent).symm
            | cons sep rest =>
                dsimp only at hcomponent ⊢
                split
                · rename_i hsep
                  rw [if_pos hsep] at hcomponent
                  rw [Routine.outcome, nestedName_of_some hcomponent, answer_map]
                  rfl
                · rename_i hsep
                  exact (hnone (by rw [hcomponent, if_neg hsep])).symm

theorem answer_specifiers (d : TypeId) :
    ((Routine.specifiers d).script env ts).answer env = specifiers env.finish d ts := by
  cases ts with
  | nil =>
      rw [specifiers]
      rfl
  | cons t ts =>
      rw [specifiers_cons, Routine.script]
      cases specifierStart? t.kind with
      | none => rfl
      | some start =>
          cases start with
          | tag => exact answer_andThen env _ _
          | name =>
              dsimp only
              split
              · rfl
              · exact answer_andThen env _ _
          | _ => rfl

theorem answer_declaratorSigns (d : TypeId) :
    ((Routine.declaratorSigns d).script env ts).answer env =
      (Routine.declaratorSigns d).outcome env ts := by
  rw [Routine.outcome]
  cases ts with
  | nil =>
      rw [declaratorSigns]
      rfl
  | cons t ts =>
      rw [declaratorSigns, Routine.script]
      cases t.kind with
      | punct p =>
          cases p with
          | star => exact answer_andThen env _ _
          | _ => rfl
      | _ => rfl

theorem answer_pointerQualifiers (cv : Qualifiers) :
    ((Routine.pointerQualifiers cv).script env ts).answer env =
      (Routine.pointerQualifiers cv).outcome env ts := by
  cases ts with
  | nil => rfl
  | cons t ts =>
      rw [Routine.outcome, pointerQualifiers, Routine.script]
      cases specifierStart? t.kind with
      | none => rfl
      | some start => cases start <;> rfl

theorem answer_arrayBounds :
    ((Routine.arrayBounds).script env ts).answer env = arrayBounds env.finish ts := by
  cases ts with
  | nil =>
      rw [arrayBounds]
      rfl
  | cons t ts =>
      rw [arrayBounds_cons, Routine.script]
      split
      · simp only [answer_andThen, answer_map, answer_ofCall, answer_done, Routine.outcome]
      · rfl

theorem answer_templateTail (angles parens : Nat) (afterWord : Bool) :
    ((Routine.templateTail angles parens afterWord).script env ts).answer env =
      templateTail env.finish angles parens afterWord ts := by
  cases ts with
  | nil => rfl
  | cons t ts =>
      rw [templateTail, Routine.script]
      split
      · rfl
      · cases templateDepth angles parens t.kind with
        | none => rfl
        | some depth =>
            dsimp only
            split
            · rfl
            · exact answer_map env _ _

/-- The script of a routine has the outcome of its rule. -/
theorem Routine.answer_script (r : Routine α) : (r.script env ts).answer env = r.outcome env ts := by
  cases r with
  | rule r => exact answer_rule env ts r
  | wholeExpression => exact answer_andThen env _ _
  | wholeType => exact answer_andThen env _ _
  | arrayType =>
      simp only [Routine.script, answer_andThen, answer_map, answer_ofCall, answer_done, Routine.outcome,
        Grammar.arrayType]
  | castType =>
      simp only [Routine.script, answer_andThen, answer_ofCall, answer_done, Routine.outcome,
        Grammar.castType]
  | typeId =>
      rw [Routine.script, answer_andThen, Routine.outcome, Grammar.typeId]
      congr 1
      funext d rest
      split <;> rfl
  | specifiers d => exact answer_specifiers env ts d
  | declaratorSigns d => exact answer_declaratorSigns env ts d
  | pointerQualifiers cv => exact answer_pointerQualifiers env ts cv
  | arrayBounds => exact answer_arrayBounds env ts
  | typeName =>
      simp only [Routine.script, answer_andThen, answer_map, answer_ofCall, answer_optionalArguments,
        Routine.outcome, Grammar.typeName]
  | qualifiedName => rfl
  | nestedName => exact answer_nestedName env ts
  | templateArguments =>
      simp only [Routine.script, answer_andThen, answer_map, answer_ofCall, answer_done, Routine.outcome,
        Grammar.templateArguments]
  | templateTail angles parens afterWord => exact answer_templateTail env ts angles parens afterWord

end WatchExpr.Grammar
