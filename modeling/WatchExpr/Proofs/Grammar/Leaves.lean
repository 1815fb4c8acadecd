import WatchExpr.Expr.Printer
import WatchExpr.Proofs.Grammar.Runs
import WatchExpr.Proofs.Grammar.TypeNames
import WatchExpr.Proofs.Lexing.Longest
import Mathlib.Data.Bool.Basic

/-!
# Leaves of a tree

Whatever parentheses an expression is read with, the rest of its tokens stand in the order of the
tree: its operators, constants and members, and its names and the types of its casts as wholes. And
between them there are at least as many pairs of parentheses as the printer puts around operands.
-/

namespace WatchExpr

open Lexeme

theorem Token.IsCut.spelling_keyword {t : Token} {k : Keyword} (h : t.IsCut)
    (ht : t.kind = .keyword k) :
    t.spelling.toList = k.spelling.toList := by
  obtain ⟨c, cs, hsplit⟩ := h
  have hkind : (split c cs).1.kind = .keyword k := by rw [← hsplit]; exact ht
  obtain ⟨w, hw, hpiece⟩ | ⟨p, hpiece⟩ | hnumber | hunknown := split_cases c cs
  · rw [hpiece] at hkind hsplit
    exact (congrArg Lexeme.chars hsplit).trans (wordKind_eq_keyword_iff.1 hkind).symm
  · rw [hpiece] at hkind
    cases hkind
  · cases hnumber.symm.trans hkind
  · cases hunknown.symm.trans hkind

/-- What the text of an expression consists of besides the parentheses around operands. -/
inductive Leaf where
  | piece (chars : List Char)
  | name (id : String)
  /-- The type of a cast, together with its parentheses. -/
  | type (t : Ty)

namespace Expr

/-- The leaves of an expression from left to right. -/
def leaves : Expr → List Leaf
  | .poisoned _ => []
  | .truth b => [.piece (Keyword.truth b).spelling.toList]
  | .number _ spelling => [.piece spelling.toList]
  | .name id => [.name id]
  | .cast t e => .type t :: e.leaves
  | .member e access field => e.leaves ++ [.piece access.chars, .piece field.toList]
  | .binary .subscript e i => e.leaves ++ .piece ['['] :: (i.leaves ++ [.piece [']']])
  | .binary op e f => e.leaves ++ .piece op.chars :: f.leaves
  | .unary op e => .piece op.chars :: e.leaves
  | .conditional c e f => c.leaves ++ .piece ['?'] :: (e.leaves ++ .piece [':'] :: f.leaves)

/-- Whether the base of a member access needs parentheses. A numeric constant needs them only in
front of a point. -/
def isGroupedBase (e : Expr) (access : MemberAccess) : Bool :=
  Precedence.access < e.precedence || (e.isNumber && access = .dot)

/-- Whether the right operand of a binary operator needs parentheses. An index never does. -/
def isGroupedRight (f : Expr) (op : BinaryOp) : Bool :=
  op ≠ .subscript && op.precedence ≤ f.precedence

/-- The number of operands in an expression that need parentheses. -/
def pairs : Expr → Nat
  | .poisoned _ | .truth _ | .number _ _ | .name _ => 0
  | .cast _ e => e.pairs + (decide (Precedence.unary < e.precedence)).toNat
  | .member e access _ => e.pairs + (e.isGroupedBase access).toNat
  | .binary op e f =>
    e.pairs + (decide (op.precedence < e.precedence)).toNat +
      (f.pairs + (f.isGroupedRight op).toNat)
  | .unary _ e => e.pairs + (decide (Precedence.unary < e.precedence)).toNat
  | .conditional c e f =>
    c.pairs + (decide (Precedence.conditional ≤ c.precedence)).toNat + e.pairs +
      (f.pairs + (decide (Precedence.conditional < f.precedence)).toNat)

/-- The pairs of parentheses of an operand in a place of a given precedence, its own included. -/
def pairsAt (p : Precedence) (e : Expr) : Nat :=
  e.pairs + (decide (p < e.precedence)).toNat

variable {e f : Expr} {op : BinaryOp} {p q : Precedence}

theorem leaves_binary (h : op ≠ .subscript) :
    (binary op e f).leaves = e.leaves ++ .piece op.chars :: f.leaves := by
  rw [leaves]
  exact h

theorem isGroupedRight_eq (h : op ≠ .subscript) :
    f.isGroupedRight op = decide (op.precedence ≤ f.precedence) := by
  rw [isGroupedRight, decide_eq_true h, Bool.true_and]

theorem pairs_le_pairsAt : e.pairs ≤ e.pairsAt p :=
  Nat.le_add_right ..

/-- A tighter place asks for no fewer parentheses. -/
theorem pairsAt_anti (h : p ≤ q) : e.pairsAt q ≤ e.pairsAt p := by
  refine Nat.add_le_add_left (Bool.toNat_le_toNat fun hq => ?_) _
  exact decide_eq_true (Nat.lt_of_le_of_lt h (of_decide_eq_true hq))

/-- In its own place an expression needs no parentheses around it. -/
theorem pairsAt_of_le (h : e.precedence ≤ p) : e.pairsAt p = e.pairs := by
  rw [pairsAt, decide_eq_false (Nat.not_lt.2 h)]
  rfl

end Expr

namespace Grammar

/-- Whether a token is a parenthesis. -/
def isParen (k : TokenKind) : Bool :=
  k = .punct .lParen || k = .punct .rParen

/-- Whether a point stands first. -/
def startsPoint (ts : List Token) : Bool :=
  ts.head?.any fun t => t.kind = .punct .period

/-- Up to the second list the tokens are leaves with parentheses between them. The number is that of
the opening ones, a constant right in front of a point counting as if it stood in parentheses. -/
inductive Carries (env : Env) : List Leaf → Nat → List Token → List Token → Prop where
  | nil {ts : List Token} : Carries env [] 0 ts ts
  | opening {l : Token} {ls : List Leaf} {n : Nat} {ts rest : List Token}
      (hl : l.kind = .punct .lParen) (h : Carries env ls n ts rest) :
      Carries env ls (n + 1) (l :: ts) rest
  | closing {r : Token} {ls : List Leaf} {n : Nat} {ts rest : List Token}
      (hr : r.kind = .punct .rParen) (h : Carries env ls n ts rest) :
      Carries env ls n (r :: ts) rest
  | piece {t : Token} {cs : List Char} {ls : List Leaf} {n : Nat} {ts rest : List Token}
      (ht : isParen t.kind = false) (hcs : t.IsCut → t.spelling.toList = cs)
      (h : Carries env ls n ts rest) :
      Carries env (.piece cs :: ls) (n + (t.kind = .number && startsPoint ts : Bool).toNat)
        (t :: ts) rest
  | name {id : String} {ls : List Leaf} {n : Nat} {ts us rest : List Token}
      (hid : qualifiedName env.finish ts = .ok id us) (h : Carries env ls n us rest) :
      Carries env (.name id :: ls) n ts rest
  | type {l : Token} {t : Ty} {ls : List Leaf} {n : Nat} {ts us rest : List Token}
      (hl : l.kind = .punct .lParen) (htype : castType env ts = .ok t us)
      (h : Carries env ls n us rest) : Carries env (.type t :: ls) n (l :: ts) rest

variable {env : Env} {ls ms : List Leaf} {n m : Nat}
variable {ts us rest : List Token} {t : Token} {k : TokenKind}

namespace Carries

theorem append (h : Carries env ls n ts us) (h' : Carries env ms m us rest) :
    Carries env (ls ++ ms) (n + m) ts rest := by
  induction h with
  | nil => rwa [List.nil_append, Nat.zero_add]
  | opening hl _ ih =>
      rw [Nat.add_right_comm]
      exact .opening hl (ih h')
  | closing hr _ ih => exact .closing hr (ih h')
  | piece ht hcs _ ih =>
      rw [Nat.add_right_comm]
      exact .piece ht hcs (ih h')
  | name hid _ ih => exact .name hid (ih h')
  | type hl htype _ ih => exact .type hl htype (ih h')

/-- A punctuator in front of other leaves. -/
theorem mark {p : Punctuator} (ht : t.kind = .punct p) (hp : p ≠ .lParen ∧ p ≠ .rParen)
    (h : Carries env ls n ts rest) : Carries env (.piece p.chars :: ls) n (t :: ts) rest := by
  have hparen : isParen t.kind = false := by simp [isParen, ht, hp]
  have hpiece := Carries.piece hparen (fun hcut => hcut.spelling_eq ht) h
  rwa [ht] at hpiece

end Carries

/-! ## Tokens of operators -/

theorem exists_of_unaryOp? {op : UnaryOp} (h : unaryOp? k = some op) :
    ∃ p : Punctuator, k = .punct p ∧ p.chars = op.chars ∧ p ≠ .lParen ∧ p ≠ .rParen := by
  obtain ⟨p, hk, hp⟩ := unaryOp?_eq_some_iff.1 h
  have hall : ∀ q ∈ unaryOperators, q.1.chars = q.2.chars ∧ q.1 ≠ .lParen ∧ q.1 ≠ .rParen := by
    decide
  exact ⟨p, hk, hall _ hp⟩

theorem exists_of_member {access : MemberAccess} (h : accessStart? k = some (.member access)) :
    ∃ p : Punctuator, k = .punct p ∧ p.chars = access.chars ∧ (p ≠ .lParen ∧ p ≠ .rParen) ∧
      (access = .dot → p = .period) := by
  obtain ⟨p, hk, hp⟩ := accessStart?_eq_member_iff.1 h
  have hall : ∀ q ∈ memberOperators, q.1.chars = q.2.chars ∧ (q.1 ≠ .lParen ∧ q.1 ≠ .rParen) ∧
      (q.2 = .dot → q.1 = .period) := by
    decide
  exact ⟨p, hk, hall _ hp⟩

theorem exists_of_operatorAt? {op : BinaryOp} {p : Precedence} (h : operatorAt? p k = some op) :
    ∃ q : Punctuator, k = .punct q ∧ q.chars = op.chars ∧ (q ≠ .lParen ∧ q ≠ .rParen) ∧
      op ≠ .subscript ∧ op.precedence = p ∧ Precedence.unary < p := by
  obtain ⟨hop, hp⟩ := Option.filter_eq_some_iff.1 h
  cases k with
  | punct q =>
      have hall : ∀ q ∈ Punctuator.all, ∀ op ∈ binaryOp? (.punct q), q.chars = op.chars ∧
          (q ≠ .lParen ∧ q ≠ .rParen) ∧ op ≠ .subscript ∧ Precedence.unary < op.precedence := by
        decide
      obtain ⟨hchars, hparen, hsubscript, hloose⟩ := hall q (Punctuator.mem_all q) op hop
      obtain rfl := of_decide_eq_true hp
      exact ⟨q, rfl, hchars, hparen, hsubscript, rfl, hloose⟩
  | _ => cases hop

/-! ## Rules -/

/-- The tokens carry the leaves of an expression with the parentheses of a place of a given
precedence. -/
def CarriesTree (env : Env) (p : Precedence) (ts : List Token) (e : Expr) (rest : List Token) :
    Prop :=
  ∃ n, Carries env e.leaves n ts rest ∧ e.pairsAt p ≤ n

/-- The pairs of parentheses of a base in front of tokens, its own included. -/
def pairsBefore (e : Expr) (ts : List Token) : Nat :=
  e.pairs + (Precedence.access < e.precedence || (e.isNumber && startsPoint ts) : Bool).toNat

/-- What a rule reads carries the leaves of the tree that it yields, with the parentheses that the
rule asks for. A rule that goes on with a tree reads the leaves behind those of this tree. -/
def RuleCarries (env : Env) (rule : Rule) (ts : List Token) (e : Expr) (rest : List Token) : Prop :=
  match rule with
  | .expression | .conditional => CarriesTree env .conditional ts e rest
  | .binary p => CarriesTree env (max p .unary) ts e rest
  | .operators p lhs => ∃ ls n, Carries env ls n ts rest ∧ e.leaves = lhs.leaves ++ ls ∧
      e.pairsAt (max (p + 1) .unary) ≤ lhs.pairsAt (max (p + 1) .unary) + n
  | .cast | .unary => CarriesTree env .unary ts e rest
  | .access => CarriesTree env .access ts e rest
  | .accesses base => ∃ ls n, Carries env ls n ts rest ∧ e.leaves = base.leaves ++ ls ∧
      e.pairsAt .access ≤ pairsBefore base ts + n
  | .primary => ∃ n, Carries env e.leaves n ts rest ∧ pairsBefore e rest ≤ n

variable {rule : Rule} {e f g : Expr} {p q : Precedence}

theorem CarriesTree.loosen (h : CarriesTree env p ts e rest) (hpq : p ≤ q) :
    CarriesTree env q ts e rest := by
  obtain ⟨n, hn, hle⟩ := h
  exact ⟨n, hn, Nat.le_trans (Expr.pairsAt_anti hpq) hle⟩

theorem pairsAt_access_le_pairsBefore : e.pairsAt .access ≤ pairsBefore e ts := by
  refine Nat.add_le_add_left (Bool.toNat_le_toNat fun h => ?_) _
  rw [h, Bool.true_or]

theorem pairsBefore_of_not_number (h : e.isNumber = false) :
    pairsBefore e ts = e.pairsAt .access := by
  rw [pairsBefore, h, Bool.false_and, Bool.or_false, Expr.pairsAt]

namespace Carries

theorem truth {b : Bool} (ht : t.kind = .keyword (.truth b)) :
    Carries env (Expr.truth b).leaves 0 (t :: ts) ts := by
  have hparen : isParen t.kind = false := by rw [ht]; rfl
  have hpiece := Carries.piece hparen (fun hcut => hcut.spelling_keyword ht) (@nil env ts)
  rwa [ht] at hpiece

theorem number {v : Scalar} (ht : t.kind = .number) :
    Carries env (Expr.number v t.spelling).leaves (startsPoint ts).toNat (t :: ts) ts := by
  have hparen : isParen t.kind = false := by rw [ht]; rfl
  have hpiece := Carries.piece hparen (fun _ => rfl) (@nil env ts)
  rwa [ht, Nat.zero_add] at hpiece

end Carries

theorem ruleCarries_level (he : CarriesTree env (max p .unary) ts e us)
    (hf : RuleCarries env (.operators p e) us f rest) :
    RuleCarries env (.binary (p + 1)) ts f rest := by
  obtain ⟨n, hn, hle⟩ := he
  obtain ⟨ls, m, hm, hleaves, hlem⟩ := hf
  refine ⟨n + m, hleaves ▸ hn.append hm, ?_⟩
  have hlevel : max p .unary ≤ max (p + 1) .unary :=
    Nat.max_le.2 ⟨Nat.le_trans (Nat.le_succ p) (Nat.le_max_left ..), Nat.le_max_right ..⟩
  have hloose := Expr.pairsAt_anti (e := e) hlevel
  omega

theorem ruleCarries_access (he : RuleCarries env .primary ts e us)
    (hf : RuleCarries env (.accesses e) us f rest) : RuleCarries env .access ts f rest := by
  obtain ⟨n, hn, hle⟩ := he
  obtain ⟨ls, m, hm, hleaves, hlem⟩ := hf
  exact ⟨n + m, hleaves ▸ hn.append hm, Nat.le_trans hlem (Nat.add_le_add_right hle m)⟩

theorem ruleCarries_number {v : Scalar} (ht : t.kind = .number) :
    RuleCarries env .primary (t :: ts) (.number v t.spelling) ts := by
  refine ⟨_, .number ht, ?_⟩
  rw [pairsBefore, Expr.pairs, Nat.zero_add]
  exact Nat.le_refl _

theorem ruleCarries_group {l r : Token} (hl : l.kind = .punct .lParen)
    (hr : r.kind = .punct .rParen) (h : CarriesTree env .conditional ts e (r :: rest)) :
    RuleCarries env .primary (l :: ts) e rest := by
  obtain ⟨n, hn, hle⟩ := h
  have happend := (Carries.opening hl hn).append (.closing hr .nil)
  rw [List.append_nil] at happend
  refine ⟨n + 1, happend, ?_⟩
  have hpairs := Nat.le_trans Expr.pairs_le_pairsAt hle
  exact Nat.add_le_add hpairs (Bool.toNat_le _)

theorem ruleCarries_operator {op : BinaryOp} (ht : operatorAt? (p + 1) t.kind = some op)
    (hf : CarriesTree env (max p .unary) ts f us)
    (hmore : RuleCarries env (.operators p (.binary op e f)) us g rest) :
    RuleCarries env (.operators p e) (t :: ts) g rest := by
  obtain ⟨q, hk, hchars, hparen, hsubscript, hop, hloose⟩ := exists_of_operatorAt? ht
  obtain ⟨n, hn, hle⟩ := hf
  obtain ⟨ls, m, hm, hleaves, hlem⟩ := hmore
  have hcarries : Carries env (.piece op.chars :: (f.leaves ++ ls)) (n + m) (t :: ts) rest :=
    hchars ▸ .mark hk hparen (hn.append hm)
  refine ⟨_, _, hcarries, ?_, ?_⟩
  · rw [hleaves, Expr.leaves_binary hsubscript, List.append_assoc, List.cons_append]
  · rw [Nat.max_eq_left (Nat.le_of_lt_succ hloose)] at hle
    rw [Nat.max_eq_left (Nat.le_of_lt hloose)] at hlem ⊢
    have htree : (Expr.binary op e f).pairsAt (p + 1) = e.pairsAt (p + 1) + f.pairsAt p := by
      rw [Expr.pairsAt_of_le hop.le, Expr.pairs, Expr.isGroupedRight_eq hsubscript, hop]
      rfl
    omega

theorem ruleCarries_conditional {q colon : Token} {c : Expr} {vs : List Token}
    (hq : q.kind = .punct .question) (hcolon : colon.kind = .punct .colon)
    (hc : CarriesTree env (max .loosestBinary .unary) ts c (q :: us))
    (he : CarriesTree env .conditional us e (colon :: vs))
    (hf : CarriesTree env .conditional vs f rest) :
    RuleCarries env .conditional ts (.conditional c e f) rest := by
  obtain ⟨n, hn, hlen⟩ := hc
  obtain ⟨m, hm, hlem⟩ := he
  obtain ⟨k, hk, hlek⟩ := hf
  have hcarries : Carries env (Expr.conditional c e f).leaves (n + (m + k)) ts rest :=
    hn.append (.mark hq (by decide) (hm.append (.mark hcolon (by decide) hk)))
  refine ⟨_, hcarries, ?_⟩
  have hpairs : (Expr.conditional c e f).pairsAt .conditional =
      c.pairsAt (max .loosestBinary .unary) + e.pairs + f.pairsAt .conditional := rfl
  have hle := Nat.le_trans Expr.pairs_le_pairsAt hlem
  omega

theorem ruleCarries_cast {l : Token} {type : Ty} (hl : l.kind = .punct .lParen)
    (htype : castType env ts = .ok type us) (he : CarriesTree env .unary us e rest) :
    RuleCarries env .cast (l :: ts) (.cast type e) rest := by
  obtain ⟨n, hn, hle⟩ := he
  exact ⟨n, .type hl htype hn, hle⟩

theorem ruleCarries_unary {op : UnaryOp} (ht : unaryOp? t.kind = some op)
    (he : CarriesTree env .unary ts e rest) :
    RuleCarries env .unary (t :: ts) (.unary op e) rest := by
  obtain ⟨p, hk, hchars, hparen⟩ := exists_of_unaryOp? ht
  obtain ⟨n, hn, hle⟩ := he
  have hcarries : Carries env (.piece op.chars :: e.leaves) n (t :: ts) rest :=
    hchars ▸ .mark hk hparen hn
  exact ⟨n, hcarries, hle⟩

theorem ruleCarries_subscript {l r : Token} {i : Expr} (hl : l.kind = .punct .lSquare)
    (hr : r.kind = .punct .rSquare) (hi : CarriesTree env .conditional ts i (r :: us))
    (hmore : RuleCarries env (.accesses (.binary .subscript e i)) us f rest) :
    RuleCarries env (.accesses e) (l :: ts) f rest := by
  obtain ⟨n, hn, hle⟩ := hi
  obtain ⟨ls, m, hm, hleaves, hlem⟩ := hmore
  have hcarries := Carries.mark hl (by decide) (hn.append (.mark hr (by decide) hm))
  refine ⟨_, _, hcarries, ?_, ?_⟩
  · simp [hleaves, Expr.leaves, Punctuator.chars]
  · have hbase : (Expr.binary .subscript e i).pairsAt .access = e.pairsAt .access + i.pairs := rfl
    rw [pairsBefore_of_not_number rfl, hbase] at hlem
    have hindex := Nat.le_trans Expr.pairs_le_pairsAt hle
    have hbefore : e.pairsAt .access ≤ pairsBefore e (l :: ts) := pairsAt_access_le_pairsBefore
    omega

theorem ruleCarries_member {m : Token} {access : MemberAccess}
    (ht : accessStart? t.kind = some (.member access)) (hm : m.kind = .identifier)
    (hmore : RuleCarries env (.accesses (.member e access m.spelling)) ts f rest) :
    RuleCarries env (.accesses e) (t :: m :: ts) f rest := by
  obtain ⟨p, hk, hchars, hparen, hpoint⟩ := exists_of_member ht
  obtain ⟨ls, n, hn, hleaves, hle⟩ := hmore
  have hfield := Carries.piece (by rw [hm]; rfl) (fun _ => rfl) hn
  rw [hm] at hfield
  have hcarries := hchars ▸ Carries.mark hk hparen hfield
  refine ⟨_, _, hcarries, ?_, ?_⟩
  · simp [hleaves, Expr.leaves]
  · -- A number stands here only in front of a point, and that has been counted.
    have hbase :
        (Expr.member e access m.spelling).pairsAt .access ≤ pairsBefore e (t :: m :: ts) := by
      have hmember : (Expr.member e access m.spelling).pairsAt .access =
          e.pairs + (e.isGroupedBase access).toNat := rfl
      rw [hmember]
      refine Nat.add_le_add_left (Bool.toNat_le_toNat fun hgrouped => ?_) _
      simp only [Expr.isGroupedBase, Bool.or_eq_true, Bool.and_eq_true,
        decide_eq_true_eq] at hgrouped
      rcases hgrouped with hloose | ⟨hnumber, hdot⟩
      · simp [hloose]
      · simp [hnumber, startsPoint, hk, hpoint hdot]
    rw [pairsBefore_of_not_number rfl] at hle
    exact Nat.le_trans hle (Nat.add_le_add_right hbase n)

/-- What a rule reads carries the leaves of its tree. -/
theorem Runs.carries (h : Runs env rule ts e rest) : RuleCarries env rule ts e rest := by
  induction h with
  | expression _ ih => exact ih
  | condition _ ih => exact CarriesTree.loosen ih (by decide)
  | choice _ hq _ hcolon _ ihc ihe ihf => exact ruleCarries_conditional hq hcolon ihc ihe ihf
  | operand _ ih => exact ih
  | level _ _ ihe ihf => exact ruleCarries_level ihe ihf
  | noOperator => exact ⟨[], 0, .nil, (List.append_nil _).symm, Nat.le_refl _⟩
  | operator ht _ _ ihf ihmore => exact ruleCarries_operator ht ihf ihmore
  | cast hl htype _ ih => exact ruleCarries_cast hl htype ih
  | uncast _ ih => exact ih
  | unary ht _ ih => exact ruleCarries_unary ht ih
  | bare _ ih => exact CarriesTree.loosen ih (by decide)
  | access _ _ ihe ihf => exact ruleCarries_access ihe ihf
  | noAccess =>
      exact ⟨[], 0, .nil, (List.append_nil _).symm, pairsAt_access_le_pairsBefore⟩
  | subscript hl _ hr _ ihi ihmore => exact ruleCarries_subscript hl hr ihi ihmore
  | member ht hm _ ih => exact ruleCarries_member ht hm ih
  | number ht _ => exact ruleCarries_number ht
  | truth ht => exact ⟨0, .truth ht, Nat.le_refl _⟩
  | group hl _ hr ih => exact ruleCarries_group hl hr ih
  | name hid => exact ⟨0, .name hid .nil, Nat.le_refl _⟩

end Grammar

end WatchExpr
