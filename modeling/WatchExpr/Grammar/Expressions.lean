import WatchExpr.Expr.Basic
import WatchExpr.Grammar.TypeIds

/-!
# Expressions in the grammar

One rule for each level of precedence, from assignment, which is rejected, down to primary
expressions. A parenthesis may open a cast or a group; it opens a cast if its contents name a type
or can name nothing else. Going back is reading the same tokens by another rule.
-/

namespace WatchExpr.Grammar

/-- The unary operator that a token stands for. -/
def unaryOp? : TokenKind → Option UnaryOp
  | .punct .plus => some .plus
  | .punct .minus => some .neg
  | .punct .exclaim => some .logicalNot
  | .punct .tilde => some .bitNot
  | .punct .star => some .deref
  | .punct .amp => some .addressOf
  | _ => none

/-- The binary operator that a token stands for. -/
def binaryOp? : TokenKind → Option BinaryOp
  | .punct .plus => some (.arith .add)
  | .punct .minus => some (.arith .sub)
  | .punct .star => some (.arith .mul)
  | .punct .slash => some (.arith .div)
  | .punct .percent => some (.arith .rem)
  | .punct .amp => some (.arith .bitAnd)
  | .punct .caret => some (.arith .bitXor)
  | .punct .pipe => some (.arith .bitOr)
  | .punct .lessLess => some (.shift .left)
  | .punct .greaterGreater => some (.shift .right)
  | .punct .less => some (.compare .lt)
  | .punct .lessEqual => some (.compare .le)
  | .punct .greater => some (.compare .gt)
  | .punct .greaterEqual => some (.compare .ge)
  | .punct .equalEqual => some (.compare .eq)
  | .punct .exclaimEqual => some (.compare .ne)
  | .punct .ampAmp => some (.logical .and)
  | .punct .pipePipe => some (.logical .or)
  | _ => none

/-- The operator of a given precedence that a token stands for. -/
def operatorAt? (p : Precedence) (k : TokenKind) : Option BinaryOp :=
  (binaryOp? k).filter (·.precedence = p)

/-- What a token behind a primary expression asks for. -/
inductive AccessStart where
  | subscript
  | member (access : MemberAccess)
  | unsupported (feature : UnsupportedFeature)
deriving DecidableEq

/-- What a token behind a primary expression asks for. -/
def accessStart? : TokenKind → Option AccessStart
  | .punct .lSquare => some .subscript
  | .punct .period => some (.member .dot)
  | .punct .arrow => some (.member .arrow)
  | .punct .lParen => some (.unsupported .call)
  | .punct .plusPlus | .punct .minusMinus => some (.unsupported .increment)
  | _ => none

/-- Whether a token is an assignment operator. -/
def isAssignment : TokenKind → Bool
  | .punct p => p.isAssignment
  | _ => false

/-- Whether a token is an increment or decrement operator. -/
def isIncrement (k : TokenKind) : Bool :=
  k = .punct .plusPlus || k = .punct .minusMinus

/-- Reads a numeric constant from its token. -/
def constant (t : Token) (rest : List Token) : Outcome Expr :=
  match Literal.read t.spelling with
  | .ok v => .ok (.number v t.spelling) rest
  | .error e => .error ⟨.literal e, t.location⟩ rest

@[simp] theorem constant_rest (t : Token) (rest : List Token) : (constant t rest).rest = rest := by
  unfold constant
  split <;> rfl

/-- The rules of the grammar. The rules of what may follow an operand carry the tree read so far. -/
inductive Rule where
  /-- A conditional expression that no assignment operator follows. -/
  | expression
  | conditional
  /-- Operands joined by operators that bind at least as tightly as `level`; at level zero a cast
  expression. -/
  | binary (level : Precedence)
  /-- The operators of precedence `level + 1`, each with its right operand. -/
  | operators (level : Precedence) (lhs : Expr)
  | cast
  | unary
  /-- A primary expression with its subscripts and member accesses. -/
  | access
  | accesses (base : Expr)
  | primary

/-- On the tokens that it was given a rule only calls rules of lower rank. -/
def Rule.rank : Rule → Nat
  | .expression => 40
  | .conditional => 39
  | .operators level _ => 2 * level + 5
  | .binary level => 2 * level + 4
  | .cast => 3
  | .unary => 2
  | .access => 1
  | .accesses _ | .primary => 0

/-- Reads an expression by a rule. -/
def parse (env : Env) (rule : Rule) (ts : List Token) : Bounded Expr ts.length :=
  match rule with
  | .expression =>
    (parse env .conditional ts).andThen fun e rest h =>
      if isAssignment (current env.finish rest).kind then
        .error (failAt env.finish (fun _ => .unsupported .assignment) rest) rest h
      else .ok e rest h
  | .conditional =>
    (parse env (.binary .loosestBinary) ts).andThen fun c rest h =>
      match hq : accept? (isMark .question) rest with
      | none => .ok c rest h
      | some (_, inner) =>
        have hlt := Nat.lt_of_lt_of_le (accept?_length_lt hq) h
        ((parse env .expression inner).andThen fun e rest h =>
          (Bounded.of (expect env.finish (.punct .colon) rest)
            (Nat.le_trans (expect_rest_length_le ..) h)).andThen fun _ rest h =>
              ((parse env .expression rest).relax h).andThen fun f rest h =>
                .ok (.conditional c e f) rest h).relax (Nat.le_of_lt hlt)
  | .binary 0 => parse env .cast ts
  | .binary (level + 1) =>
    (parse env (.binary level) ts).andThen fun e rest h =>
      (parse env (.operators level e) rest).relax h
  | .operators level lhs =>
    match ho : accept? (operatorAt? (level + 1)) ts with
    | none => .ok lhs ts (Nat.le_refl _)
    | some (op, inner) =>
      have hlt := accept?_length_lt ho
      ((parse env (.binary level) inner).andThen fun rhs rest h =>
        (parse env (.operators level (.binary op lhs rhs)) rest).relax h).relax (Nat.le_of_lt hlt)
  | .cast =>
    match hp : accept? (isMark .lParen) ts with
    | none => parse env .unary ts
    | some (_, inner) =>
      have hlt := accept?_length_lt hp
      match ht : castType env inner with
      | .ok t rest =>
        have hle := castType_rest_le_of_ok ht
        ((parse env .cast rest).andThen fun e rest h => .ok (.cast t e) rest h).relax
          (Nat.le_of_lt (Nat.lt_of_le_of_lt hle hlt))
      | .error e rest =>
        if startsType (current env.finish inner).kind then
          .error e rest (Nat.le_of_lt (Nat.lt_of_le_of_lt (castType_rest_le_of_error ht) hlt))
        else parse env .unary ts
  | .unary =>
    match hu : accept? unaryOp? ts with
    | some (op, inner) =>
      have hlt := accept?_length_lt hu
      ((parse env .cast inner).andThen fun e rest h => .ok (.unary op e) rest h).relax
        (Nat.le_of_lt hlt)
    | none =>
      if isIncrement (current env.finish ts).kind then
        .error (failAt env.finish (fun _ => .unsupported .increment) ts) ts (Nat.le_refl _)
      else parse env .access ts
  | .access =>
    (parse env .primary ts).andThen fun e rest h => (parse env (.accesses e) rest).relax h
  | .accesses base =>
    match ha : accept? accessStart? ts with
    | none => .ok base ts (Nat.le_refl _)
    | some (.subscript, inner) =>
      have hlt := accept?_length_lt ha
      ((parse env .expression inner).andThen fun i rest h =>
        (Bounded.of (expect env.finish (.punct .rSquare) rest)
          (Nat.le_trans (expect_rest_length_le ..) h)).andThen fun _ rest h =>
            (parse env (.accesses (.binary .subscript base i)) rest).relax h).relax
        (Nat.le_of_lt hlt)
    | some (.member access, inner) =>
      have hlt := accept?_length_lt ha
      ((Bounded.of (expect env.finish .identifier inner)
        (expect_rest_length_le ..)).andThen fun t rest h =>
          (parse env (.accesses (.member base access t.spelling)) rest).relax h).relax
        (Nat.le_of_lt hlt)
    | some (.unsupported feature, _) =>
      .error (failAt env.finish (fun _ => .unsupported feature) ts) ts (Nat.le_refl _)
  | .primary =>
    match ts with
    | [] => .error (failAt env.finish .unexpected []) [] (Nat.le_refl _)
    | t :: inner =>
      match t.kind with
      | .number => .of (constant t inner) (by simp)
      | .keyword (.truth b) => .ok (.truth b) inner (by simp)
      | .punct .lParen =>
        ((parse env .expression inner).andThen fun e rest h =>
          (Bounded.of (expect env.finish (.punct .rParen) rest)
            (Nat.le_trans (expect_rest_length_le ..) h)).andThen fun _ rest h =>
              .ok e rest h).relax (by simp)
      | .identifier | .punct .colonColon =>
        .of ((qualifiedName env.finish (t :: inner)).map .name)
          (by simpa using qualifiedName_rest_length_le env.finish (t :: inner))
      | _ => .error (failAt env.finish .unexpected (t :: inner)) (t :: inner) (Nat.le_refl _)
termination_by ts.length * 64 + rule.rank
decreasing_by
  all_goals
    simp only [Rule.rank, Precedence.loosestBinary, List.length_cons]
    omega

end WatchExpr.Grammar
