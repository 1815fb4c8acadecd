import WatchExpr.Expr.Basic
import WatchExpr.Literal
import WatchExpr.Token.Basic

/-!
# Derivations

The grammar of the language as it is documented, with the tree that each derivation gives. What may
stand in parentheses is a parameter: with no type-ids at all it is the grammar without casts.
-/

namespace WatchExpr.Grammar

/-- The levels of the binary operators, loosest first. -/
inductive Level where
  | logicalOr | logicalAnd | bitOr | bitXor | bitAnd
  | equality | relational | shift | additive | multiplicative
deriving DecidableEq

/-- The sorts of phrases. -/
inductive Nonterminal where
  | expression | assignment | conditional
  | binary (level : Level)
  | cast | unary | access | primary
deriving DecidableEq

namespace Level

/-- The operators of a level. -/
def operators : Level → List (Punctuator × BinaryOp)
  | .logicalOr => [(.pipePipe, .logical .or)]
  | .logicalAnd => [(.ampAmp, .logical .and)]
  | .bitOr => [(.pipe, .arith .bitOr)]
  | .bitXor => [(.caret, .arith .bitXor)]
  | .bitAnd => [(.amp, .arith .bitAnd)]
  | .equality => [(.equalEqual, .compare .eq), (.exclaimEqual, .compare .ne)]
  | .relational =>
    [(.less, .compare .lt), (.greater, .compare .gt), (.lessEqual, .compare .le),
     (.greaterEqual, .compare .ge)]
  | .shift => [(.lessLess, .shift .left), (.greaterGreater, .shift .right)]
  | .additive => [(.plus, .arith .add), (.minus, .arith .sub)]
  | .multiplicative => [(.star, .arith .mul), (.slash, .arith .div), (.percent, .arith .rem)]

/-- The operands of a level. -/
def operand : Level → Nonterminal
  | .logicalOr => .binary .logicalAnd
  | .logicalAnd => .binary .bitOr
  | .bitOr => .binary .bitXor
  | .bitXor => .binary .bitAnd
  | .bitAnd => .binary .equality
  | .equality => .binary .relational
  | .relational => .binary .shift
  | .shift => .binary .additive
  | .additive => .binary .multiplicative
  | .multiplicative => .cast

end Level

/-- The operators in front of an operand. -/
def unaryOperators : List (Punctuator × UnaryOp) :=
  [(.plus, .plus), (.minus, .neg), (.exclaim, .logicalNot), (.tilde, .bitNot), (.star, .deref),
   (.amp, .addressOf)]

/-- The operators in front of a member. -/
def memberOperators : List (Punctuator × MemberAccess) :=
  [(.period, .dot), (.arrow, .arrow)]

/-- Identifiers with `::` between them, and the text of the name. -/
inductive NestedName : List Token → String → Prop where
  | last {t : Token} (ht : t.kind = .identifier) : NestedName [t] t.spelling
  | scope {t s : Token} {ts : List Token} {name : String} (ht : t.kind = .identifier)
      (hs : s.kind = .punct .colonColon) (h : NestedName ts name) :
      NestedName (t :: s :: ts) (t.spelling ++ "::" ++ name)

/-- A name, possibly with `::` in front. -/
inductive QualifiedName : List Token → String → Prop where
  | nested {ts : List Token} {name : String} (h : NestedName ts name) : QualifiedName ts name
  | global {s : Token} {ts : List Token} {name : String} (hs : s.kind = .punct .colonColon)
      (h : NestedName ts name) : QualifiedName (s :: ts) ("::" ++ name)

/-- What may stand in parentheses: a type-id in a cast, and the text of a group. -/
structure Parenthesised where
  typeId : List Token → Ty → Prop
  group : List Token → Prop

/-- There are no casts, and everything may be grouped. -/
def Parenthesised.castFree : Parenthesised where
  typeId _ _ := False
  group _ := True

/-- A phrase of a sort, and its tree. -/
inductive Derives (inner : Parenthesised) : Nonterminal → List Token → Expr → Prop where
  | assignment {ts : List Token} {e : Expr} (he : Derives inner .assignment ts e) :
      Derives inner .expression ts e
  | conditional {ts : List Token} {e : Expr} (he : Derives inner .conditional ts e) :
      Derives inner .assignment ts e
  | condition {ts : List Token} {e : Expr} (he : Derives inner (.binary .logicalOr) ts e) :
      Derives inner .conditional ts e
  | choice {q colon : Token} {cs ts us : List Token} {c e f : Expr}
      (hq : q.kind = .punct .question) (hcolon : colon.kind = .punct .colon)
      (hc : Derives inner (.binary .logicalOr) cs c) (he : Derives inner .expression ts e)
      (hf : Derives inner .assignment us f) :
      Derives inner .conditional (cs ++ q :: (ts ++ colon :: us)) (.conditional c e f)
  | operand {l : Level} {ts : List Token} {e : Expr} (he : Derives inner l.operand ts e) :
      Derives inner (.binary l) ts e
  | binary {l : Level} {t : Token} {p : Punctuator} {op : BinaryOp} {ts us : List Token}
      {e f : Expr} (hop : (p, op) ∈ l.operators) (ht : t.kind = .punct p)
      (he : Derives inner (.binary l) ts e) (hf : Derives inner l.operand us f) :
      Derives inner (.binary l) (ts ++ t :: us) (.binary op e f)
  | uncast {ts : List Token} {e : Expr} (he : Derives inner .unary ts e) :
      Derives inner .cast ts e
  | cast {l r : Token} {ts us : List Token} {type : Ty} {e : Expr} (hl : l.kind = .punct .lParen)
      (hr : r.kind = .punct .rParen) (ht : inner.typeId ts type) (he : Derives inner .cast us e) :
      Derives inner .cast (l :: (ts ++ r :: us)) (.cast type e)
  | access {ts : List Token} {e : Expr} (he : Derives inner .access ts e) :
      Derives inner .unary ts e
  | unary {t : Token} {p : Punctuator} {op : UnaryOp} {ts : List Token} {e : Expr}
      (hop : (p, op) ∈ unaryOperators) (ht : t.kind = .punct p) (he : Derives inner .cast ts e) :
      Derives inner .unary (t :: ts) (.unary op e)
  | primary {ts : List Token} {e : Expr} (he : Derives inner .primary ts e) :
      Derives inner .access ts e
  | subscript {l r : Token} {ts us : List Token} {e i : Expr} (hl : l.kind = .punct .lSquare)
      (hr : r.kind = .punct .rSquare) (he : Derives inner .access ts e)
      (hi : Derives inner .expression us i) :
      Derives inner .access (ts ++ l :: (us ++ [r])) (.binary .subscript e i)
  | member {t m : Token} {p : Punctuator} {access : MemberAccess} {ts : List Token} {e : Expr}
      (hop : (p, access) ∈ memberOperators) (ht : t.kind = .punct p) (hm : m.kind = .identifier)
      (he : Derives inner .access ts e) :
      Derives inner .access (ts ++ [t, m]) (.member e access m.spelling)
  | number {t : Token} {v : Scalar} (ht : t.kind = .number) (hv : Literal.read t.spelling = .ok v) :
      Derives inner .primary [t] (.number v t.spelling)
  | truth {t : Token} {b : Bool} (ht : t.kind = .keyword (.truth b)) :
      Derives inner .primary [t] (.truth b)
  | group {l r : Token} {ts : List Token} {e : Expr} (hl : l.kind = .punct .lParen)
      (hr : r.kind = .punct .rParen) (hg : inner.group ts) (he : Derives inner .expression ts e) :
      Derives inner .primary (l :: (ts ++ [r])) e
  | name {ts : List Token} {name : String} (h : QualifiedName ts name) :
      Derives inner .primary ts (.name name)

end WatchExpr.Grammar
