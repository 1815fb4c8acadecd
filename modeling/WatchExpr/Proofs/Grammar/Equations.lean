import WatchExpr.Grammar.Expressions
import Mathlib.Tactic.Common

/-!
# Rules as plain equations

The outcome of each rule without the bounds that make the rules total.
-/

namespace WatchExpr.Grammar

/-- The outcome of a rule. -/
def run (env : Env) (rule : Rule) (ts : List Token) : Outcome Expr :=
  (parse env rule ts).val

variable (env : Env) (ts : List Token)

theorem run_expression :
    run env .expression ts = (run env .conditional ts).andThen fun e rest =>
      if isAssignment (current env.finish rest).kind then
        .error (failAt env.finish (fun _ => .unsupported .assignment) rest) rest
      else .ok e rest := by
  rw [run, parse]
  refine Bounded.val_andThen fun e rest h => ?_
  split <;> rfl

theorem run_conditional :
    run env .conditional ts = (run env (.binary .loosestBinary) ts).andThen fun c rest =>
      match accept? (isMark .question) rest with
      | none => .ok c rest
      | some (_, rest) =>
        (run env .expression rest).andThen fun e rest =>
          (expect env.finish (.punct .colon) rest).andThen fun _ rest =>
            (run env .expression rest).andThen fun f rest => .ok (.conditional c e f) rest := by
  rw [run, parse]
  refine Bounded.val_andThen fun c rest h => ?_
  split
  · rename_i hq
    conv_rhs => rw [hq]
    dsimp only
    rfl
  · rename_i hq
    conv_rhs => rw [hq]
    dsimp only [Bounded.val_relax]
    refine Bounded.val_andThen fun e rest h => ?_
    refine Bounded.val_andThen fun _ rest h => ?_
    exact Bounded.val_andThen fun f rest h => rfl

theorem run_binary_zero : run env (.binary 0) ts = run env .cast ts := by
  rw [run, parse]
  rfl

theorem run_binary_succ (p : Precedence) :
    run env (.binary (p + 1)) ts = (run env (.binary p) ts).andThen fun e rest =>
      run env (.operators p e) rest := by
  rw [run, parse]
  exact Bounded.val_andThen fun e rest h => rfl

theorem run_operators (p : Precedence) (e : Expr) :
    run env (.operators p e) ts = match accept? (operatorAt? (p + 1)) ts with
      | none => .ok e ts
      | some (op, rest) => (run env (.binary p) rest).andThen fun f rest =>
          run env (.operators p (.binary op e f)) rest := by
  rw [run, parse]
  split
  · rename_i ho
    conv_rhs => rw [ho]
    dsimp only
    rfl
  · rename_i ho
    conv_rhs => rw [ho]
    dsimp only [Bounded.val_relax]
    exact Bounded.val_andThen fun f rest h => rfl

theorem run_cast :
    run env .cast ts = match accept? (isMark .lParen) ts with
      | none => run env .unary ts
      | some (_, inner) => match castType env inner with
        | .ok t rest => (run env .cast rest).andThen fun e rest => .ok (.cast t e) rest
        | .error e rest =>
          if startsType (current env.finish inner).kind then .error e rest
          else run env .unary ts := by
  rw [run, parse]
  split
  · rename_i hp
    conv_rhs => rw [hp]
    dsimp only
    rfl
  · rename_i hp
    conv_rhs => rw [hp]
    dsimp only
    split
    · rename_i ht
      conv_rhs => rw [ht]
      dsimp only [Bounded.val_relax]
      exact Bounded.val_andThen fun e rest h => rfl
    · rename_i ht
      conv_rhs => rw [ht]
      dsimp only
      split <;> rfl

theorem run_unary :
    run env .unary ts = match accept? unaryOp? ts with
      | some (op, rest) => (run env .cast rest).andThen fun e rest => .ok (.unary op e) rest
      | none =>
        if isIncrement (current env.finish ts).kind then
          .error (failAt env.finish (fun _ => .unsupported .increment) ts) ts
        else run env .access ts := by
  rw [run, parse]
  split
  · rename_i hu
    conv_rhs => rw [hu]
    dsimp only [Bounded.val_relax]
    exact Bounded.val_andThen fun e rest h => rfl
  · rename_i hu
    conv_rhs => rw [hu]
    dsimp only
    split <;> rfl

theorem run_access :
    run env .access ts = (run env .primary ts).andThen fun e rest =>
      run env (.accesses e) rest := by
  rw [run, parse]
  exact Bounded.val_andThen fun e rest h => rfl

theorem run_accesses (e : Expr) :
    run env (.accesses e) ts = match accept? accessStart? ts with
      | none => .ok e ts
      | some (.subscript, rest) => (run env .expression rest).andThen fun i rest =>
          (expect env.finish (.punct .rSquare) rest).andThen fun _ rest =>
            run env (.accesses (.binary .subscript e i)) rest
      | some (.member access, rest) => (expect env.finish .identifier rest).andThen fun t rest =>
          run env (.accesses (.member e access t.spelling)) rest
      | some (.unsupported feature, _) =>
        .error (failAt env.finish (fun _ => .unsupported feature) ts) ts := by
  rw [run, parse]
  split
  · rename_i ha
    conv_rhs => rw [ha]
    dsimp only
    rfl
  · rename_i ha
    conv_rhs => rw [ha]
    dsimp only [Bounded.val_relax]
    refine Bounded.val_andThen fun i rest h => ?_
    exact Bounded.val_andThen fun _ rest h => rfl
  · rename_i ha
    conv_rhs => rw [ha]
    dsimp only [Bounded.val_relax]
    exact Bounded.val_andThen fun t rest h => rfl
  · rename_i ha
    conv_rhs => rw [ha]
    dsimp only
    rfl

theorem run_primary_nil :
    run env .primary [] = .error (failAt env.finish .unexpected []) [] := by
  rw [run, parse]
  rfl

theorem run_primary_cons (t : Token) :
    run env .primary (t :: ts) = match t.kind with
      | .number => constant t ts
      | .keyword (.truth b) => .ok (.truth b) ts
      | .punct .lParen => (run env .expression ts).andThen fun e rest =>
          (expect env.finish (.punct .rParen) rest).andThen fun _ rest => .ok e rest
      | .identifier | .punct .colonColon => (qualifiedName env.finish (t :: ts)).map .name
      | _ => .error (failAt env.finish .unexpected (t :: ts)) (t :: ts) := by
  rw [run, parse]
  obtain ⟨k, spelling, location⟩ := t
  cases k with
  | keyword w => cases w <;> rfl
  | punct p =>
      cases p with
      | lParen =>
          dsimp only [Bounded.val_relax]
          refine Bounded.val_andThen fun e rest h => ?_
          exact Bounded.val_andThen fun _ rest h => rfl
      | _ => rfl
  | _ => rfl

/-! ## Type-ids -/

variable (finish : EndMark)

theorem specifiers_cons (d : TypeId) (t : Token) :
    specifiers finish d (t :: ts) = match specifierStart? t.kind with
      | none => .ok d (t :: ts)
      | some (.word w) => specifiers finish (d.addWord w) ts
      | some .const => specifiers finish d.addConst ts
      | some .volatile => specifiers finish d.addVolatile ts
      | some .tag => (typeName finish ts).andThen fun name rest =>
          specifiers finish (d.addName name) rest
      | some .name =>
        if d.hasSpecifier then .ok d (t :: ts)
        else (typeName finish (t :: ts)).andThen fun name rest =>
          specifiers finish (d.addName name) rest := by
  rw [specifiers]
  cases hk : specifierStart? t.kind with
  | none => rfl
  | some start =>
      cases start with
      | tag =>
          dsimp only
          split
          · rename_i h
            rw [h]
            rfl
          · rename_i h
            rw [h]
            rfl
      | name =>
          dsimp only
          split
          · rfl
          · split
            · rename_i h
              rw [h]
              rfl
            · rename_i h
              rw [h]
              rfl
      | _ => rfl

theorem arrayBounds_cons (t : Token) :
    arrayBounds finish (t :: ts) =
      if t.kind = .punct .lSquare then
        (arrayBound finish ts).andThen fun n rest => (arrayBounds finish rest).map (n :: ·)
      else .ok [] (t :: ts) := by
  rw [arrayBounds]
  split
  · split
    · rename_i h
      rw [h]
      rfl
    · rename_i h
      rw [h]
      rfl
  · rfl

end WatchExpr.Grammar
