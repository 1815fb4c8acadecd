import WatchExpr.Proofs.Grammar.Derivation
import WatchExpr.Proofs.Grammar.Equations
import WatchExpr.Proofs.Grammar.Outcome

/-!
# Levels and precedences

The rules number the levels of precedence, and some of the numbers have no operators. Rules of such a
number do what the next tighter one does, so that the rules follow the ten levels of the grammar.
-/

namespace WatchExpr.Grammar

/-- The number of a level among the precedences. -/
def Level.precedence : Level → Precedence
  | .logicalOr => 15
  | .logicalAnd => 14
  | .bitOr => 13
  | .bitXor => 12
  | .bitAnd => 11
  | .equality => 10
  | .relational => 9
  | .shift => 7
  | .additive => 6
  | .multiplicative => 5

/-- The rule that reads phrases of a sort. -/
def Nonterminal.rule : Nonterminal → Rule
  | .expression | .assignment => .expression
  | .conditional => .conditional
  | .binary l => .binary l.precedence
  | .cast => .cast
  | .unary => .unary
  | .access => .access
  | .primary => .primary

/-- What holds of cast expressions, and of a level if it holds of its operands, holds of all levels. -/
theorem Level.rec_operand {p : Nonterminal → Prop} (hcast : p .cast)
    (h : ∀ l : Level, p l.operand → p (.binary l)) (l : Level) : p (.binary l) := by
  have multiplicative := h .multiplicative hcast
  have additive := h .additive multiplicative
  have shift := h .shift additive
  have relational := h .relational shift
  have equality := h .equality relational
  have bitAnd := h .bitAnd equality
  have bitXor := h .bitXor bitAnd
  have bitOr := h .bitOr bitXor
  have logicalAnd := h .logicalAnd bitOr
  have logicalOr := h .logicalOr logicalAnd
  cases l <;> assumption

variable {k : TokenKind} {l : Level}

theorem operatorAt?_of_mem_operators {p : Punctuator} {op : BinaryOp} (h : (p, op) ∈ l.operators) :
    operatorAt? l.precedence (.punct p) = some op := by
  have hall : ∀ q ∈ l.operators, operatorAt? l.precedence (.punct q.1) = some q.2 := by
    cases l <;> decide
  exact hall _ h

theorem mem_operators_of_operatorAt? {p : Punctuator} {op : BinaryOp}
    (h : operatorAt? l.precedence (.punct p) = some op) : (p, op) ∈ l.operators := by
  have hall : ∀ p ∈ Punctuator.all, ∀ op ∈ operatorAt? l.precedence (.punct p),
      (p, op) ∈ l.operators := by
    cases l <;> decide
  exact hall p (Punctuator.mem_all p) op h

theorem operatorAt?_eq_some_iff {op : BinaryOp} :
    operatorAt? l.precedence k = some op ↔ ∃ p, k = .punct p ∧ (p, op) ∈ l.operators := by
  constructor
  · intro h
    cases k with
    | punct p => exact ⟨p, rfl, mem_operators_of_operatorAt? h⟩
    | _ => cases h
  · rintro ⟨p, rfl, h⟩
    exact operatorAt?_of_mem_operators h

theorem unaryOp?_eq_some_iff {op : UnaryOp} :
    unaryOp? k = some op ↔ ∃ p, k = .punct p ∧ (p, op) ∈ unaryOperators := by
  constructor
  · intro h
    cases k with
    | punct p =>
        have hall : ∀ p ∈ Punctuator.all, ∀ op ∈ unaryOp? (.punct p), (p, op) ∈ unaryOperators := by
          decide
        exact ⟨p, rfl, hall p (Punctuator.mem_all p) op h⟩
    | _ => cases h
  · rintro ⟨p, rfl, h⟩
    have hall : ∀ q ∈ unaryOperators, unaryOp? (.punct q.1) = some q.2 := by decide
    exact hall _ h

theorem accessStart?_eq_member_iff {access : MemberAccess} :
    accessStart? k = some (.member access) ↔ ∃ p, k = .punct p ∧ (p, access) ∈ memberOperators := by
  constructor
  · intro h
    cases k with
    | punct p =>
        have hall : ∀ p ∈ Punctuator.all, ∀ start ∈ accessStart? (.punct p),
            ∀ access ∈ [MemberAccess.dot, .arrow], start = .member access →
              (p, access) ∈ memberOperators := by
          decide
        exact ⟨p, rfl, hall p (Punctuator.mem_all p) _ h access (by cases access <;> simp) rfl⟩
    | _ => cases h
  · rintro ⟨p, rfl, h⟩
    have hall : ∀ q ∈ memberOperators, accessStart? (.punct q.1) = some (.member q.2) := by decide
    exact hall _ h

theorem accessStart?_eq_subscript_iff :
    accessStart? k = some .subscript ↔ k = .punct .lSquare := by
  constructor
  · intro h
    cases k with
    | punct p =>
        have hall : ∀ p ∈ Punctuator.all, accessStart? (.punct p) = some .subscript → p = .lSquare := by
          decide
        rw [hall p (Punctuator.mem_all p) h]
    | _ => cases h
  · rintro rfl
    rfl

/-! ## Rules of the levels -/

variable (env : Env) (ts : List Token)

/-- A number without operators reads what the next tighter one reads. -/
theorem run_binary_of_no_operator {p : Precedence} (h : ∀ k, operatorAt? (p + 1) k = none) :
    run env (.binary (p + 1)) ts = run env (.binary p) ts := by
  rw [run_binary_succ]
  cases run env (.binary p) ts with
  | ok e rest =>
      have hnone : accept? (operatorAt? (p + 1)) rest = none :=
        accept?_eq_none_iff.2 fun t _ => h t.kind
      rw [Outcome.ok_andThen, run_operators, hnone]
  | error e rest => rfl

theorem operatorAt?_eq_none {p : Precedence} (h : ∀ q ∈ Punctuator.all, operatorAt? p (.punct q) = none) :
    ∀ k, operatorAt? p k = none := by
  intro k
  cases k with
  | punct q => exact h q (Punctuator.mem_all q)
  | _ => rfl

/-- The number right below that of a level reads the operands of the level. -/
theorem run_operand (l : Level) :
    run env (.binary (l.precedence - 1)) ts = run env l.operand.rule ts := by
  cases l with
  | relational => exact run_binary_of_no_operator env ts (operatorAt?_eq_none (by decide))
  | multiplicative =>
      calc run env (.binary 4) ts
        _ = run env (.binary 3) ts :=
          run_binary_of_no_operator env ts (operatorAt?_eq_none (by decide))
        _ = run env (.binary 2) ts :=
          run_binary_of_no_operator env ts (operatorAt?_eq_none (by decide))
        _ = run env (.binary 1) ts :=
          run_binary_of_no_operator env ts (operatorAt?_eq_none (by decide))
        _ = run env (.binary 0) ts :=
          run_binary_of_no_operator env ts (operatorAt?_eq_none (by decide))
        _ = run env .cast ts := run_binary_zero env ts
  | _ => rfl

theorem Level.precedence_eq (l : Level) : l.precedence = l.precedence - 1 + 1 := by
  cases l <;> rfl

/-- A level is an operand and what its operators make of it. -/
theorem run_level (l : Level) :
    run env (.binary l.precedence) ts = (run env l.operand.rule ts).andThen fun e rest =>
      run env (.operators (l.precedence - 1) e) rest := by
  rw [l.precedence_eq, run_binary_succ, ← l.precedence_eq, run_operand]

/-- The operators of a level and their right operands, from the left. -/
theorem run_level_operators (l : Level) (e : Expr) :
    run env (.operators (l.precedence - 1) e) ts = match accept? (operatorAt? l.precedence) ts with
      | none => .ok e ts
      | some (op, rest) => (run env l.operand.rule rest).andThen fun f rest =>
          run env (.operators (l.precedence - 1) (.binary op e f)) rest := by
  rw [run_operators, ← l.precedence_eq]
  cases accept? (operatorAt? l.precedence) ts with
  | none => rfl
  | some q => simp only [run_operand]

end WatchExpr.Grammar
