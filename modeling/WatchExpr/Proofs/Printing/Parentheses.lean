import WatchExpr.Proofs.Printing.LeafTexts

/-!
# The parentheses around operands are needed

If one pair of the parentheses that the printer puts around operands is left out, the text is no
longer read as the expression: every text that is read as it opens at least as many parentheses
between the leaves of the tree, whatever their places.
-/

namespace WatchExpr

open Lexeme Grammar

/-! ## Places of operands -/

namespace UnaryOp

/-- What is put in front of the text of an operand. -/
def front (op : UnaryOp) (operand : List Char) : List Char :=
  match op with
  | .plus | .neg | .addressOf =>
    if op.chars.isPrefixOf operand then op.chars ++ [' '] else op.chars
  | _ => op.chars

theorem inFrontOf_eq (op : UnaryOp) (operand : List Char) :
    op.inFrontOf operand = op.front operand ++ operand := by
  cases op with
  | logicalNot => rfl
  | bitNot => rfl
  | deref => rfl
  | _ =>
      unfold inFrontOf front
      dsimp only
      split <;> simp

theorem front_eq_or (op : UnaryOp) (operand : List Char) :
    op.front operand = op.chars ++ [' '] ∨ op.front operand = op.chars := by
  cases op with
  | plus => exact ite_eq_or_eq _ _ _
  | neg => exact ite_eq_or_eq _ _ _
  | addressOf => exact ite_eq_or_eq _ _ _
  | _ => exact .inr rfl

end UnaryOp

namespace BinaryOp

/-- The text between the operands. -/
def link : BinaryOp → List Char
  | .subscript => ['[']
  | op => ' ' :: (op.chars ++ [' '])

/-- The text behind the operands. -/
def close : BinaryOp → List Char
  | .subscript => [']']
  | _ => []

theorem link_eq (op : BinaryOp) (h : op ≠ .subscript) : op.link = ' ' :: (op.chars ++ [' ']) := by
  cases op with
  | subscript => exact absurd rfl h
  | _ => rfl

theorem close_eq (op : BinaryOp) (h : op ≠ .subscript) : op.close = [] := by
  cases op with
  | subscript => exact absurd rfl h
  | _ => rfl

end BinaryOp

/-- An expression without one of its operands. -/
inductive Hole where
  | castOperand (t : Ty)
  | memberBase (access : MemberAccess) (field : String)
  | left (op : BinaryOp) (rhs : Expr)
  | right (op : BinaryOp) (lhs : Expr)
  | unaryOperand (op : UnaryOp)
  | condition (whenTrue whenFalse : Expr)
  | whenTrue (condition whenFalse : Expr)
  | whenFalse (condition whenTrue : Expr)

namespace Hole

/-- The expression with an operand in the place. -/
def fill : Hole → Expr → Expr
  | castOperand t, e => .cast t e
  | memberBase access field, e => .member e access field
  | left op f, e => .binary op e f
  | right op f, e => .binary op f e
  | unaryOperand op, e => .unary op e
  | condition f g, e => .conditional e f g
  | whenTrue c g, e => .conditional c e g
  | whenFalse c f, e => .conditional c f e

/-- Whether an operand stands in parentheses in the place. -/
def isGrouped : Hole → Expr → Bool
  | castOperand _, e | unaryOperand _, e => Precedence.unary < e.precedence
  | memberBase _ _, e => Precedence.access < e.precedence || e.isNumber
  | left op _, e => op.precedence < e.precedence
  | right op _, e => e.isGroupedRight op
  | condition _ _, e => Precedence.conditional ≤ e.precedence
  | whenTrue _ _, _ => false
  | whenFalse _ _, e => Precedence.conditional < e.precedence

/-- The text in front of an operand in the place. -/
def before : Hole → Expr → List Char
  | castOperand t, _ => parenthesized (t.declarator [])
  | memberBase _ _, _ | left _ _, _ | condition _ _, _ => []
  | right op f, _ => grouped (op.precedence < f.precedence) f.print ++ op.link
  | unaryOperand op, e => op.front (grouped (Precedence.unary < e.precedence) e.print)
  | whenTrue c _, _ => grouped (Precedence.conditional ≤ c.precedence) c.print ++ " ? ".toList
  | whenFalse c f, _ =>
    grouped (Precedence.conditional ≤ c.precedence) c.print ++ (" ? ".toList ++
      (f.print ++ " : ".toList))

/-- The text behind an operand in the place. -/
def behind : Hole → List Char
  | castOperand _ | unaryOperand _ | whenFalse _ _ => []
  | memberBase access field => access.chars ++ field.toList
  | left op f => op.link ++ (grouped (f.isGroupedRight op) f.print ++ op.close)
  | right op _ => op.close
  | condition f g =>
    " ? ".toList ++ (f.print ++ (" : ".toList ++
      grouped (Precedence.conditional < g.precedence) g.print))
  | whenTrue _ g => " : ".toList ++ grouped (Precedence.conditional < g.precedence) g.print

/-- The text of the whole expression, where the operand in the place has a given text. -/
def textWith (hole : Hole) (e : Expr) (cs : List Char) : List Char :=
  hole.before e ++ (cs ++ hole.behind)

/-- The texts of the whole expression with one pair of parentheses left out: that of the operand, if
it has one, or one within the operand. -/
def without (hole : Hole) (e : Expr) (inner : List (List Char)) : List (List Char) :=
  (if hole.isGrouped e then [hole.textWith e e.print] else []) ++
    inner.map fun cs => hole.textWith e (grouped (hole.isGrouped e) cs)

end Hole

namespace Expr

variable {e f c : Expr} {op : BinaryOp}

theorem print_binary_eq :
    (binary op e f).print = grouped (op.precedence < e.precedence) e.print ++
      (op.link ++ (grouped (f.isGroupedRight op) f.print ++ op.close)) := by
  by_cases h : op = .subscript
  · subst h
    exact print_subscript
  · rw [print_binary h, op.link_eq h, op.close_eq h, isGroupedRight_eq h]
    simp

/-- The texts that come from leaving out one pair of the parentheses around operands. -/
def withoutPair : Expr → List (List Char)
  | .poisoned _ | .truth _ | .number _ _ | .name _ => []
  | .cast t e => (Hole.castOperand t).without e e.withoutPair
  | .member e access field => (Hole.memberBase access field).without e e.withoutPair
  | .binary op e f =>
    (Hole.left op f).without e e.withoutPair ++ (Hole.right op e).without f f.withoutPair
  | .unary op e => (Hole.unaryOperand op).without e e.withoutPair
  | .conditional c e f =>
    (Hole.condition e f).without c c.withoutPair ++ (Hole.whenTrue c f).without e e.withoutPair ++
      (Hole.whenFalse c e).without f f.withoutPair

end Expr

/-- The text of an expression, part by part. -/
theorem Hole.print_fill (hole : Hole) (e : Expr) :
    (hole.fill e).print = hole.textWith e (grouped (hole.isGrouped e) e.print) := by
  cases hole with
  | castOperand t => exact congrArg _ (List.append_nil _).symm
  | memberBase access field => exact Expr.print_member access field
  | left op f => exact Expr.print_binary_eq
  | right op f => exact Expr.print_binary_eq.trans (List.append_assoc ..).symm
  | unaryOperand op =>
      rw [fill, Expr.print_unary, op.inFrontOf_eq]
      exact congrArg _ (List.append_nil _).symm
  | condition f g => exact Expr.print_conditional
  | whenTrue c g => exact Expr.print_conditional.trans (List.append_assoc ..).symm
  | whenFalse c f =>
      rw [fill, Expr.print_conditional]
      simp [textWith, before, behind, isGrouped]

/-! ## Plain expressions -/

/-- What is asked of the single nodes of a plain expression. -/
def Expr.IsPlainNode (types : TypeNames) : Expr → Prop
  | .poisoned _ => False
  | .number v s => Literal.read s = .ok v ∧ ∃ t, (Tokens.lex s).body = [t] ∧ t.kind = .number
  | .name id => IsScopedName id
  | .cast t _ => Ty.read types t.text = .ok t
  | .member e access field => IsIdentifier field ∧ (access = .arrow → e.isNumber = false)
  | _ => True

/-- An expression of constants that have a value, names without `::` in front and without template
arguments, casts to types that can be named, and operators; only what is no constant is taken for a
pointer. -/
def Expr.IsPlain (types : TypeNames) (e : Expr) : Prop :=
  e.Everywhere (IsPlainNode types)

variable {types : TypeNames} {ls : List Leaf} {n k m : Nat} {x y z cs : List Char} {c e f : Expr}

namespace Shows

theorem grouped (h : Shows types ls n cs) (needed : Bool) :
    Shows types ls (n + needed.toNat) (WatchExpr.grouped needed cs) := by
  cases needed with
  | false => exact h
  | true =>
      have hclosed := h.append (.closing .nil)
      rw [List.append_nil] at hclosed
      exact .opening hclosed

/-- A punctuator between spaces. -/
theorem operator {q : Punctuator} (hq : isParen (.punct q) = false) (hperiod : q ≠ .period)
    (h : Shows types ls n cs) :
    Shows types (.piece q.chars :: ls) n (' ' :: (q.chars ++ ' ' :: cs)) :=
  .spaceBefore (fun h => hperiod (Punctuator.chars_injective h))
    (.spaceBehind (.of_mark hq) hperiod h)

theorem cast {t : Ty} (ht : Ty.read types t.text = .ok t) (hx : Shows types e.leaves k x) :
    Shows types (Expr.cast t e).leaves k (parenthesized (t.declarator []) ++ x) := by
  rw [parenthesized, List.cons_append, List.append_assoc, List.singleton_append]
  exact .type ht hx

theorem member {field : String} (access : MemberAccess) (hfield : IsIdentifier field)
    (hx : Shows types e.leaves k x) :
    Shows types (Expr.member e access field).leaves k (x ++ (access.chars ++ field.toList)) := by
  have haccess : IsSolid access.chars := by
    cases access <;> exact ⟨_, _, rfl, by decide⟩
  have hback : Shows types [.piece field.toList] 0 (field.toList ++ []) :=
    .piece (.of_isWord hfield.1) .nil
  rw [List.append_nil] at hback
  exact hx.append (.piece haccess hback)

theorem subscript (hx : Shows types e.leaves k x) (hy : Shows types f.leaves m y) :
    Shows types (Expr.binary .subscript e f).leaves (k + m) (x ++ '[' :: (y ++ [']'])) := by
  have hopening : IsSolid ['['] := ⟨_, _, rfl, by decide⟩
  have hclosing : IsSolid [']'] := ⟨_, _, rfl, by decide⟩
  exact hx.append (.piece hopening (hy.append (.piece hclosing .nil)))

theorem binary (op : BinaryOp) (hx : Shows types e.leaves k x) (hy : Shows types f.leaves m y) :
    Shows types (Expr.binary op e f).leaves (k + m) (x ++ (op.link ++ (y ++ op.close))) := by
  by_cases hop : op = .subscript
  · subst hop
    exact hx.subscript hy
  · obtain ⟨l, q, hq, -, hchars⟩ := op.exists_operator hop
    have hall : ∀ q ∈ l.operators, isParen (.punct q.1) = false ∧ q.1 ≠ .period := by
      cases l <;> decide
    obtain ⟨hparen, hperiod⟩ := hall _ hq
    have hshows := hx.append (hy.operator hparen hperiod)
    rw [hchars] at hshows
    rw [Expr.leaves_binary hop, op.link_eq hop, op.close_eq hop, List.append_nil]
    simpa using hshows

theorem unary (op : UnaryOp) (operand : List Char) (hx : Shows types e.leaves k x) :
    Shows types (Expr.unary op e).leaves k (op.front operand ++ x) := by
  obtain ⟨p, hp, hchars⟩ := op.exists_operator
  have hall : ∀ q ∈ unaryOperators, isParen (.punct q.1) = false ∧ q.1 ≠ .period := by decide
  obtain ⟨hparen, hperiod⟩ := hall _ hp
  rw [Expr.leaves, ← hchars]
  obtain hfront | hfront := op.front_eq_or operand
  · rw [hfront, ← hchars, List.append_assoc]
    exact .spaceBehind (.of_mark hparen) hperiod hx
  · rw [hfront, ← hchars]
    exact .piece (.of_mark hparen) hx

theorem conditional (hx : Shows types c.leaves k x) (hy : Shows types e.leaves m y)
    (hz : Shows types f.leaves n z) : Shows types (Expr.conditional c e f).leaves (k + (m + n))
      (x ++ (" ? ".toList ++ (y ++ (" : ".toList ++ z)))) :=
  hx.append (.operator (q := .question) rfl (by decide)
    (hy.append (.operator (q := .colon) rfl (by decide) hz)))

end Shows

/-! ## Texts of plain expressions -/

theorem Expr.isGroupedBase_eq {access : MemberAccess} (h : access = .arrow → e.isNumber = false) :
    e.isGroupedBase access = (Precedence.access < e.precedence || e.isNumber : Bool) := by
  cases access with
  | dot => rw [Expr.isGroupedBase, decide_eq_true rfl, Bool.and_true]
  | arrow => rw [Expr.isGroupedBase, h rfl, Bool.false_and]

namespace Expr

theorem shows_number {v : Scalar} {s : String} (h : (number v s).IsPlain types) :
    Shows types (number v s).leaves 0 s.toList := by
  obtain ⟨hv, t, hlex, ht⟩ := h
  have hsingle := Tokens.lexemes_constant hv hlex ht
  have hblank := noBlank_head hv
  have hsolid : IsSolid s.toList := by
    cases hs : s.toList with
    | nil => simp [hs] at hsingle
    | cons c ds =>
        rw [hs] at hsingle hblank
        have hc := hblank c rfl
        have hlongest := split_isLongest hc ds
        rw [Tokens.eq_split_of_lexemes hc rfl hsingle] at hlongest
        exact .of_isNumber (hlongest.isNumber rfl)
  have hshows : Shows types [.piece s.toList] 0 (s.toList ++ []) := .piece hsolid .nil
  rwa [List.append_nil] at hshows

theorem shows_truth (b : Bool) : Shows types (truth b).leaves 0 (truth b).print := by
  have hshows : Shows types [.piece (Keyword.truth b).spelling.toList] 0
      ((Keyword.truth b).spelling.toList ++ []) :=
    .piece (.of_isWord (isWord_keyword _)) .nil
  have hprint : (truth b).print = (Keyword.truth b).spelling.toList := by
    cases b <;> rfl
  rw [List.append_nil] at hshows
  rwa [hprint]

/-- The text of a plain expression consists of its leaves, with the parentheses of its operands
between them. -/
theorem shows_print (h : e.IsPlain types) : Shows types e.leaves e.pairs e.print := by
  induction e with
  | poisoned d => exact h.elim
  | truth b => exact shows_truth b
  | number v s => exact shows_number h
  | name id =>
      have hname : Shows types [.name id] 0 (id.toList ++ []) := .name h .nil
      rwa [List.append_nil] at hname
  | cast t e ih => exact ((ih h.2).grouped _).cast h.1
  | member e access field ih =>
      rw [print_member, pairs, isGroupedBase_eq h.1.2]
      exact ((ih h.2).grouped _).member access h.1.1
  | binary op e f ihe ihf =>
      rw [print_binary_eq]
      exact ((ihe h.2.1).grouped _).binary op ((ihf h.2.2).grouped _)
  | unary op e ih =>
      rw [print_unary, op.inFrontOf_eq]
      exact ((ih h.2).grouped _).unary op _
  | conditional c e f ihc ihe ihf =>
      rw [print_conditional, pairs, Nat.add_assoc]
      exact ((ihc h.2.1).grouped _).conditional (ihe h.2.2.1) ((ihf h.2.2.2).grouped _)

end Expr

namespace Hole

variable {hole : Hole} {inner : List (List Char)}

/-- The operands in the other places have their parentheses. -/
theorem shows_textWith (h : (hole.fill e).IsPlain types) (hx : Shows types e.leaves k x) :
    ∃ n, Shows types (hole.fill e).leaves n (hole.textWith e x) ∧
      n + (e.pairs + (hole.isGrouped e).toNat) = (hole.fill e).pairs + k := by
  cases hole with
  | castOperand t =>
      refine ⟨k, ?_, Nat.add_comm ..⟩
      rw [textWith, behind, List.append_nil]
      exact hx.cast h.1
  | memberBase access field =>
      refine ⟨k, hx.member access h.1.1, ?_⟩
      rw [fill, Expr.pairs, Expr.isGroupedBase_eq h.1.2]
      exact Nat.add_comm ..
  | left op f =>
      refine ⟨_, hx.binary op ((Expr.shows_print h.2.2).grouped _), ?_⟩
      simp only [fill, Expr.pairs, isGrouped]
      omega
  | right op f =>
      have hshows := ((Expr.shows_print h.2.1).grouped (op.precedence < f.precedence)).binary op hx
      rw [← List.append_assoc] at hshows
      refine ⟨_, hshows, ?_⟩
      simp only [fill, Expr.pairs, isGrouped]
      omega
  | unaryOperand op =>
      refine ⟨k, ?_, Nat.add_comm ..⟩
      rw [textWith, behind, List.append_nil]
      exact hx.unary op _
  | condition f g =>
      have hshows := hx.conditional (Expr.shows_print h.2.2.1) ((Expr.shows_print h.2.2.2).grouped
        (Precedence.conditional < g.precedence))
      refine ⟨_, hshows, ?_⟩
      simp only [fill, Expr.pairs, isGrouped]
      omega
  | whenTrue c g =>
      have hshows := ((Expr.shows_print h.2.1).grouped
        (Precedence.conditional ≤ c.precedence)).conditional hx
          ((Expr.shows_print h.2.2.2).grouped (Precedence.conditional < g.precedence))
      rw [← List.append_assoc] at hshows
      refine ⟨_, hshows, ?_⟩
      simp only [fill, Expr.pairs, isGrouped, Bool.toNat_false]
      omega
  | whenFalse c f =>
      have hshows := ((Expr.shows_print h.2.1).grouped
        (Precedence.conditional ≤ c.precedence)).conditional (Expr.shows_print h.2.2.1) hx
      have htext : WatchExpr.grouped (Precedence.conditional ≤ c.precedence) c.print ++
          (" ? ".toList ++ (f.print ++ (" : ".toList ++ x))) = (whenFalse c f).textWith e x := by
        simp only [textWith, before, behind, List.append_nil, List.append_assoc]
      rw [htext] at hshows
      refine ⟨_, hshows, ?_⟩
      simp only [fill, Expr.pairs, isGrouped]
      omega

theorem isPlain_operand (h : (hole.fill e).IsPlain types) : e.IsPlain types := by
  cases hole with
  | castOperand t => exact h.2
  | memberBase access field => exact h.2
  | left op f => exact h.2.1
  | right op f => exact h.2.2
  | unaryOperand op => exact h.2
  | condition f g => exact h.2.1
  | whenTrue c g => exact h.2.2.1
  | whenFalse c f => exact h.2.2.2

/-- A text within the operand is a text within the whole. -/
theorem exists_textWith (hole : Hole) (e : Expr) (needed : Bool) (before behind : List Char) :
    ∃ front back, ∀ cs, hole.textWith e (grouped needed (before ++ (cs ++ behind))) =
      front ++ (cs ++ back) := by
  cases needed with
  | false =>
      exact ⟨hole.before e ++ before, behind ++ hole.behind, fun cs => by simp [textWith, grouped]⟩
  | true =>
      exact ⟨hole.before e ++ '(' :: before, behind ++ ')' :: hole.behind, fun cs => by
        simp [textWith, grouped, parenthesized]⟩

theorem mem_without :
    cs ∈ hole.without e inner ↔ (hole.isGrouped e ∧ cs = hole.textWith e e.print) ∨
      ∃ ds ∈ inner, cs = hole.textWith e (grouped (hole.isGrouped e) ds) := by
  rw [without, List.mem_append, List.mem_map]
  refine or_congr ?_ (by simp only [eq_comm])
  cases hole.isGrouped e <;> simp

theorem length_without :
    (hole.without e inner).length = inner.length + (hole.isGrouped e).toNat := by
  rw [without, List.length_append, List.length_map, Nat.add_comm]
  cases hole.isGrouped e <;> rfl

end Hole

namespace Expr

/-- A pair that is left out is that of an operand, or one within an operand. -/
@[elab_as_elim] theorem withoutPair_induction {motive : Expr → List Char → Prop}
    (own : ∀ (hole : Hole) e, hole.isGrouped e → motive (hole.fill e) (hole.textWith e e.print))
    (within : ∀ (hole : Hole) e cs, motive e cs →
      motive (hole.fill e) (hole.textWith e (grouped (hole.isGrouped e) cs)))
    (hcs : cs ∈ e.withoutPair) : motive e cs := by
  have hwithout (hole : Hole) {e : Expr} (ih : ∀ {cs}, cs ∈ e.withoutPair → motive e cs)
      {cs : List Char} (hcs : cs ∈ hole.without e e.withoutPair) : motive (hole.fill e) cs := by
    obtain ⟨hgrouped, rfl⟩ | ⟨ds, hds, rfl⟩ := Hole.mem_without.1 hcs
    · exact own hole e hgrouped
    · exact within hole e ds (ih hds)
  induction e generalizing cs with
  | poisoned d => cases hcs
  | truth b => cases hcs
  | number v s => cases hcs
  | name id => cases hcs
  | cast t e ih => exact hwithout (.castOperand t) ih hcs
  | member e access field ih => exact hwithout (.memberBase access field) ih hcs
  | binary op e f ihe ihf =>
      obtain hcs | hcs := List.mem_append.1 hcs
      · exact hwithout (.left op f) ihe hcs
      · exact hwithout (.right op e) ihf hcs
  | unary op e ih => exact hwithout (.unaryOperand op) ih hcs
  | conditional c e f ihc ihe ihf =>
      obtain hcs | hcs := List.mem_append.1 hcs
      · obtain hcs | hcs := List.mem_append.1 hcs
        · exact hwithout (.condition e f) ihc hcs
        · exact hwithout (.whenTrue c f) ihe hcs
      · exact hwithout (.whenFalse c e) ihf hcs

/-- Each pair of parentheses around an operand is left out once. -/
theorem length_withoutPair (h : e.IsPlain types) : e.withoutPair.length = e.pairs := by
  induction e with
  | poisoned d => rfl
  | truth b => rfl
  | number v s => rfl
  | name id => rfl
  | cast t e ih => rw [withoutPair, Hole.length_without, ih h.2]; rfl
  | member e access field ih =>
      rw [withoutPair, Hole.length_without, ih h.2, pairs, isGroupedBase_eq h.1.2]
      rfl
  | binary op e f ihe ihf =>
      rw [withoutPair, List.length_append, Hole.length_without, Hole.length_without, ihe h.2.1,
        ihf h.2.2]
      rfl
  | unary op e ih => rw [withoutPair, Hole.length_without, ih h.2]; rfl
  | conditional c e f ihc ihe ihf =>
      rw [withoutPair, List.length_append, List.length_append, Hole.length_without,
        Hole.length_without, Hole.length_without, ihc h.2.1, ihe h.2.2.1, ihf h.2.2.2]
      rfl

/-- With a pair left out one parenthesis less is opened between the leaves. -/
theorem shows_withoutPair (h : e.IsPlain types) (hcs : cs ∈ e.withoutPair) :
    ∃ n, Shows types e.leaves n cs ∧ n + 1 = e.pairs := by
  revert h
  refine withoutPair_induction ?own ?within hcs
  case own =>
    intro hole e hgrouped h
    obtain ⟨n, hn, hpairs⟩ := Hole.shows_textWith h (shows_print (Hole.isPlain_operand h))
    rw [hgrouped, Bool.toNat_true] at hpairs
    exact ⟨n, hn, by omega⟩
  case within =>
    intro hole e cs ih h
    obtain ⟨k, hk, hinner⟩ := ih (Hole.isPlain_operand h)
    obtain ⟨n, hn, hpairs⟩ := Hole.shows_textWith h (hk.grouped (hole.isGrouped e))
    exact ⟨n, hn, by omega⟩

/-- A text with a pair left out, and the pair that it is without. -/
theorem exists_of_mem_withoutPair (hcs : cs ∈ e.withoutPair) :
    ∃ before f behind, e.print = before ++ (parenthesized (print f) ++ behind) ∧
      cs = before ++ (f.print ++ behind) := by
  refine withoutPair_induction ?own ?within hcs
  case own =>
    intro hole e hgrouped
    rw [hole.print_fill, hgrouped]
    exact ⟨hole.before e, e, hole.behind, rfl, rfl⟩
  case within =>
    intro hole e cs ih
    obtain ⟨before, f, behind, hprint, rfl⟩ := ih
    obtain ⟨front, back, htext⟩ := hole.exists_textWith e (hole.isGrouped e) before behind
    rw [hole.print_fill, hprint, htext, htext]
    exact ⟨front, f, back, rfl, rfl⟩

/-- A text that is read as the expression opens no fewer parentheses than the printer. -/
theorem pairs_le_of_read (hread : read types (String.ofList cs) = .ok e)
    (hcs : Shows types e.leaves n cs) : e.pairs ≤ n := by
  obtain ⟨k, hk, hle⟩ := (runs_of_run (read_expr_eq_ok_iff.1 hread)).carries
  have hlex : (Tokens.lex (String.ofList cs)).body.map Token.lexeme = Tokens.lexemes cs := by
    rw [Tokens.lex, String.toList_ofList]
    rfl
  have heq : k = n := hcs.opensAlways _ k hlex hk
  exact heq ▸ Nat.le_trans pairs_le_pairsAt hle

/-- In a plain expression each pair of parentheses around an operand is needed: where one is left
out, the text is not read as the expression. -/
theorem operand_parentheses_needed (he : e.IsPlain types) (hcs : cs ∈ e.withoutPair) :
    (∃ before f behind, e.print = before ++ (parenthesized (print f) ++ behind) ∧
      cs = before ++ (f.print ++ behind)) ∧
    read types (String.ofList cs) ≠ .ok e := by
  refine ⟨exists_of_mem_withoutPair hcs, fun hread => ?_⟩
  obtain ⟨n, hn, hpairs⟩ := shows_withoutPair he hcs
  have hle := pairs_le_of_read hread hn
  omega

/-- A cast, the right operand of an operator that groups to the left, signs that would run together,
and a constant that would swallow the point. -/
theorem operand_parentheses_needed_difference :
    let types : TypeNames := fun _ => none
    let one : Expr := .number (.integral .int 1) "1"
    let sum : Expr := .binary (.arith .add) (.unary .neg (.name "b")) (.name "c")
    let int : Ty := .scalar (.arithmetic (.integral .int)) .none
    let e : Expr := .cast int
      (.binary (.arith .sub) (.name "a")
        (.binary (.arith .sub) (.unary .neg sum) (.member one .dot "x")))
    e.IsPlain types ∧ e.text = "(int)(a - (-(-b + c) - (1).x))" ∧
      e.withoutPair.map String.ofList =
        ["(int)a - (-(-b + c) - (1).x)", "(int)(a - -(-b + c) - (1).x)",
          "(int)(a - (--b + c - (1).x))", "(int)(a - (-(-b + c) - 1.x))"] ∧
      ∀ cs ∈ e.withoutPair, read types (String.ofList cs) ≠ .ok e := by
  intro types one sum int e
  have hint : Ty.read types int.text = .ok int := by decide +kernel
  have hname : ∀ s ∈ ["a", "b", "c", "x"], IsIdentifier s := by decide
  have hone : one.IsPlain types := ⟨by decide, ⟨.number, "1", .start⟩, by decide +kernel, rfl⟩
  have hsum : sum.IsPlain types :=
    ⟨trivial, ⟨trivial, .last (hname "b" (by simp))⟩, .last (hname "c" (by simp))⟩
  have he : e.IsPlain types :=
    ⟨hint, trivial, .last (hname "a" (by simp)), trivial, ⟨trivial, hsum⟩,
      ⟨hname "x" (by simp), nofun⟩, hone⟩
  exact ⟨he, by decide +kernel, by decide +kernel, fun cs hcs =>
    (operand_parentheses_needed he hcs).2⟩

end Expr

end WatchExpr
