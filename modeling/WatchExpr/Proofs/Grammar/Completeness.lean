import WatchExpr.Proofs.Grammar.Lookahead

/-!
# Completeness of the rules

A phrase is read in full if the token behind it holds on more loosely than the phrase does, provided
that the attempt to read a cast tells type-ids and groups apart.
-/

namespace WatchExpr.Grammar

/-- On lists with a property the attempt to read a cast succeeds for type-ids and fails for groups.
The property says what may follow. -/
structure Parenthesised.Told (inner : Parenthesised) (env : Env) (Q : List Token → Prop) : Prop where
  tail : ∀ {t ts}, Q (t :: ts) → Q ts
  plainNames : ∀ {ts}, Q ts → PlainNames env.finish ts
  typeId : ∀ {ts t r rest}, inner.typeId ts t → r.kind = .punct .rParen → Q (ts ++ r :: rest) →
    castType env (ts ++ r :: rest) = .ok t rest
  group : ∀ {ts r rest}, inner.group ts → r.kind = .punct .rParen → Q (ts ++ r :: rest) →
    startsType (current env.finish (ts ++ r :: rest)).kind = false ∧
      ∀ t more, castType env (ts ++ r :: rest) ≠ .ok t more

variable {inner : Parenthesised} {env : Env} {Q : List Token → Prop}

theorem Parenthesised.Told.right (hQ : inner.Told env Q) {us ts : List Token} (h : Q (us ++ ts)) :
    Q ts := by
  induction us with
  | nil => exact h
  | cons u us ih => exact ih (hQ.tail h)

/-- A phrase is read in full, whatever may follow it. -/
def Complete (env : Env) (Q : List Token → Prop) (n : Nonterminal) (ts : List Token) (e : Expr) :
    Prop :=
  ∀ rest, Q (ts ++ rest) → Stops n.looseness rest → run env n.rule (ts ++ rest) = .ok e rest

/-- A phrase is read, and what follows is read as more of the same sort. -/
def Continues (env : Env) (Q : List Token → Prop) : Nonterminal → List Token → Expr → Prop
  | .access, ts, e => ∀ rest, Q (ts ++ rest) → Stops 0 rest →
    run env .access (ts ++ rest) = run env (.accesses e) rest
  | .binary l, ts, e => ∀ rest, Q (ts ++ rest) → Stops (l.precedence - 1) rest →
    run env (.binary l.precedence) (ts ++ rest) = run env (.operators (l.precedence - 1) e) rest
  | n, ts, e => Complete env Q n ts e

theorem Continues.complete {n : Nonterminal} {ts : List Token} {e : Expr}
    (h : Continues env Q n ts e) : Complete env Q n ts e := by
  cases n with
  | access =>
      intro rest hQ hrest
      rw [Nonterminal.rule, h rest hQ (hrest.mono (Nat.zero_le 2)), run_accesses,
        hrest.accessStart?]
  | binary l =>
      intro rest hQ hrest
      rw [Nonterminal.rule, h rest hQ (hrest.mono (Nat.sub_le _ 1)), run_level_operators,
        hrest.operatorAt?]
  | _ => exact h

theorem Level.looseness_operand_le (l : Level) : l.operand.looseness ≤ l.precedence - 1 := by
  cases l <;> decide

/-! ## The sorts -/

variable {ts us : List Token} {t r : Token} {e f : Expr}

theorem assignment_complete (h : Complete env Q .conditional ts e) :
    Complete env Q .assignment ts e := by
  intro rest hQ hrest
  rw [Nonterminal.rule, run_expression, show run env .conditional _ = _ from h rest hQ hrest,
    Outcome.ok_andThen, if_neg (by simp [hrest.isAssignment])]

theorem condition_complete (h : Complete env Q (.binary .logicalOr) ts e) :
    Complete env Q .conditional ts e := by
  intro rest hQ hrest
  have hcondition : run env (.binary .loosestBinary) (ts ++ rest) = .ok e rest :=
    h rest hQ (hrest.mono (by decide))
  have hquestion : Stops 16 rest := hrest.mono (by decide)
  rw [Nonterminal.rule, run_conditional, hcondition, Outcome.ok_andThen, hquestion.question]

theorem choice_complete (hQ : inner.Told env Q) {q colon : Token}
    {cs : List Token} {c : Expr} (hq : q.kind = .punct .question)
    (hcolon : colon.kind = .punct .colon) (hc : Complete env Q (.binary .logicalOr) cs c)
    (he : Complete env Q .expression ts e) (hf : Complete env Q .assignment us f) :
    Complete env Q .conditional (cs ++ q :: (ts ++ colon :: us)) (.conditional c e f) := by
  intro rest hts hrest
  have hassoc : cs ++ q :: (ts ++ colon :: us) ++ rest =
      cs ++ q :: (ts ++ colon :: (us ++ rest)) := by simp
  rw [hassoc] at hts ⊢
  have hinner : Q (ts ++ colon :: (us ++ rest)) := hQ.tail (hQ.right hts)
  have hlast : Q (us ++ rest) := hQ.tail (hQ.right hinner)
  have hcondition := hc _ hts (stops_cons (by rw [hq]; decide))
  have hthen := he _ hinner (stops_cons (by rw [hcolon]; decide))
  have helse := hf _ hlast hrest
  have haccept : accept? (isMark .question) (q :: (ts ++ colon :: (us ++ rest))) =
      some ((), ts ++ colon :: (us ++ rest)) :=
    accept?_eq_some_iff.2 ⟨q, rfl, isMark_eq_some_iff.2 hq⟩
  have hexpect : expect env.finish (.punct .colon) (colon :: (us ++ rest)) =
      .ok colon (us ++ rest) := (expect_eq_ok_iff (by simp)).2 ⟨rfl, hcolon⟩
  rw [Nonterminal.rule, run_conditional,
    show run env (.binary .loosestBinary) _ = _ from hcondition, Outcome.ok_andThen, haccept]
  dsimp only
  rw [show run env .expression (ts ++ _) = _ from hthen, Outcome.ok_andThen, hexpect,
    Outcome.ok_andThen, show run env .expression (us ++ _) = _ from helse, Outcome.ok_andThen]

theorem operand_continues {l : Level} (h : Complete env Q l.operand ts e) :
    Continues env Q (.binary l) ts e := by
  intro rest hQ hrest
  rw [run_level, h rest hQ (hrest.mono l.looseness_operand_le), Outcome.ok_andThen]

theorem binary_continues (hQ : inner.Told env Q) {l : Level} {p : Punctuator}
    {op : BinaryOp} (hop : (p, op) ∈ l.operators) (ht : t.kind = .punct p)
    (he : Continues env Q (.binary l) ts e) (hf : Complete env Q l.operand us f) :
    Continues env Q (.binary l) (ts ++ t :: us) (.binary op e f) := by
  intro rest hts hrest
  rw [List.append_assoc, List.cons_append] at hts ⊢
  have hstops : l.precedence - 1 < looseness t.kind := by
    rw [ht, looseness_of_operator hop]
    cases l <;> decide
  have haccept : accept? (operatorAt? l.precedence) (t :: (us ++ rest)) = some (op, us ++ rest) :=
    accept?_eq_some_iff.2 ⟨t, rfl, operatorAt?_eq_some_iff.2 ⟨p, ht, hop⟩⟩
  have hright := hf rest (hQ.tail (hQ.right hts)) (hrest.mono l.looseness_operand_le)
  rw [he _ hts (stops_cons hstops), run_level_operators, haccept]
  dsimp only
  rw [hright, Outcome.ok_andThen]

/-- A unary expression is no cast, since a parenthesis in front of it opens a group. -/
theorem uncast_complete (hQ : inner.Told env Q) (hd : Derives inner .unary ts e)
    (h : Complete env Q .unary ts e) : Complete env Q .cast ts e := by
  intro rest hts hrest
  have hunary : run env .unary (ts ++ rest) = .ok e rest := h rest hts hrest
  obtain ⟨t, us, rfl, hgroup⟩ := hd.unary_opensGroup
  rw [Nonterminal.rule, run_cast, hunary]
  cases haccept : accept? (isMark .lParen) (t :: us ++ rest) with
  | none => rfl
  | some q =>
      obtain ⟨u, hu, ht⟩ := accept?_eq_some_iff.1 (show _ = some ((), q.2) from haccept)
      obtain ⟨rfl, hinner⟩ := List.cons.inj hu
      obtain ⟨gs, r, vs, rfl, hr, hgs⟩ := hgroup (isMark_eq_some_iff.1 ht)
      have hassoc : gs ++ r :: vs ++ rest = gs ++ r :: (vs ++ rest) := by simp
      rw [List.cons_append, hassoc] at hts
      obtain ⟨hstart, hcast⟩ := hQ.group hgs hr (hQ.tail hts)
      have hinner : gs ++ r :: (vs ++ rest) = q.2 := hassoc.symm.trans hinner
      rw [hinner] at hstart hcast
      dsimp only
      cases htype : castType env q.2 with
      | ok t more => exact absurd htype (hcast t more)
      | error failure more => exact if_neg (by simp [hstart])

theorem cast_complete (hQ : inner.Told env Q) {l : Token} {type : Ty}
    (hl : l.kind = .punct .lParen) (hr : r.kind = .punct .rParen) (ht : inner.typeId ts type)
    (h : Complete env Q .cast us e) :
    Complete env Q .cast (l :: (ts ++ r :: us)) (.cast type e) := by
  intro rest hts hrest
  have hassoc : l :: (ts ++ r :: us) ++ rest = l :: (ts ++ r :: (us ++ rest)) := by simp
  rw [hassoc] at hts ⊢
  have haccept : accept? (isMark .lParen) (l :: (ts ++ r :: (us ++ rest))) =
      some ((), ts ++ r :: (us ++ rest)) :=
    accept?_eq_some_iff.2 ⟨l, rfl, isMark_eq_some_iff.2 hl⟩
  have htype := hQ.typeId ht hr (hQ.tail hts)
  have hoperand := h rest (hQ.tail (hQ.right (hQ.tail hts))) hrest
  rw [Nonterminal.rule, run_cast, haccept]
  dsimp only
  rw [htype]
  dsimp only
  rw [show run env .cast _ = _ from hoperand, Outcome.ok_andThen]

theorem access_complete (hd : Derives inner .access ts e) (h : Complete env Q .access ts e) :
    Complete env Q .unary ts e := by
  intro rest hts hrest
  have haccess : run env .access (ts ++ rest) = .ok e rest :=
    h rest hts (hrest.mono (by decide))
  obtain ⟨t, us, rfl, ht, -⟩ := hd.starts (.inl rfl)
  have hop : accept? unaryOp? (t :: us ++ rest) = none :=
    accept?_eq_none_iff.2 fun u hu => by cases hu; exact unaryOp?_of_startsPrimary ht
  rw [Nonterminal.rule, run_unary, hop]
  dsimp only
  rw [haccess]
  exact if_neg (by simp [isIncrement_of_startsPrimary ht])

theorem unary_complete (hQ : inner.Told env Q) {p : Punctuator} {op : UnaryOp}
    (hop : (p, op) ∈ unaryOperators) (ht : t.kind = .punct p) (h : Complete env Q .cast ts e) :
    Complete env Q .unary (t :: ts) (.unary op e) := by
  intro rest hts hrest
  have haccept : accept? unaryOp? (t :: (ts ++ rest)) = some (op, ts ++ rest) :=
    accept?_eq_some_iff.2 ⟨t, rfl, unaryOp?_eq_some_iff.2 ⟨p, ht, hop⟩⟩
  rw [List.cons_append] at hts ⊢
  have hoperand := h rest (hQ.tail hts) hrest
  rw [Nonterminal.rule, run_unary, haccept]
  dsimp only
  rw [show run env .cast _ = _ from hoperand, Outcome.ok_andThen]

theorem primary_continues (h : Complete env Q .primary ts e) : Continues env Q .access ts e := by
  intro rest hts hrest
  rw [run_access, show run env .primary _ = _ from h rest hts hrest, Outcome.ok_andThen]

theorem subscript_continues (hQ : inner.Told env Q) {l : Token} {i : Expr}
    (hl : l.kind = .punct .lSquare) (hr : r.kind = .punct .rSquare)
    (he : Continues env Q .access ts e) (hi : Complete env Q .expression us i) :
    Continues env Q .access (ts ++ l :: (us ++ [r])) (.binary .subscript e i) := by
  intro rest hts hrest
  have hassoc : ts ++ l :: (us ++ [r]) ++ rest = ts ++ l :: (us ++ r :: rest) := by simp
  rw [hassoc] at hts ⊢
  have haccept : accept? accessStart? (l :: (us ++ r :: rest)) = some (.subscript, us ++ r :: rest) :=
    accept?_eq_some_iff.2 ⟨l, rfl, accessStart?_eq_subscript_iff.2 hl⟩
  have hindex := hi _ (hQ.tail (hQ.right hts)) (stops_cons (by rw [hr]; decide))
  have hexpect : expect env.finish (.punct .rSquare) (r :: rest) = .ok r rest :=
    (expect_eq_ok_iff (by simp)).2 ⟨rfl, hr⟩
  rw [he _ hts (stops_cons (by rw [hl]; decide)), run_accesses, haccept]
  dsimp only
  rw [show run env .expression _ = _ from hindex, Outcome.ok_andThen, hexpect, Outcome.ok_andThen]

theorem member_continues {m : Token} {p : Punctuator} {access : MemberAccess}
    (hop : (p, access) ∈ memberOperators) (ht : t.kind = .punct p) (hm : m.kind = .identifier)
    (he : Continues env Q .access ts e) :
    Continues env Q .access (ts ++ [t, m]) (.member e access m.spelling) := by
  intro rest hts hrest
  have hassoc : ts ++ [t, m] ++ rest = ts ++ t :: m :: rest := by simp
  rw [hassoc] at hts ⊢
  have haccept : accept? accessStart? (t :: m :: rest) = some (.member access, m :: rest) :=
    accept?_eq_some_iff.2 ⟨t, rfl, accessStart?_eq_member_iff.2 ⟨p, ht, hop⟩⟩
  have hexpect : expect env.finish .identifier (m :: rest) = .ok m rest :=
    (expect_eq_ok_iff (by simp)).2 ⟨rfl, hm⟩
  have hstops : 0 < looseness t.kind := by
    rw [ht, looseness_of_memberOperator hop]
    decide
  rw [he _ hts (stops_cons hstops), run_accesses, haccept]
  dsimp only
  rw [hexpect, Outcome.ok_andThen]

theorem number_complete {v : Scalar} (ht : t.kind = .number)
    (hv : Literal.read t.spelling = .ok v) :
    Complete env Q .primary [t] (.number v t.spelling) := by
  intro rest _ _
  rw [Nonterminal.rule, List.singleton_append, run_primary_cons, ht]
  simp only [constant, hv]

theorem truth_complete {b : Bool} (ht : t.kind = .keyword (.truth b)) :
    Complete env Q .primary [t] (.truth b) := by
  intro rest _ _
  rw [Nonterminal.rule, List.singleton_append, run_primary_cons, ht]

theorem group_complete (hQ : inner.Told env Q) {l : Token} (hl : l.kind = .punct .lParen)
    (hr : r.kind = .punct .rParen) (he : Complete env Q .expression ts e) :
    Complete env Q .primary (l :: (ts ++ [r])) e := by
  intro rest hts _
  have hassoc : l :: (ts ++ [r]) ++ rest = l :: (ts ++ r :: rest) := by simp
  rw [hassoc] at hts ⊢
  have hcontents := he _ (hQ.tail hts) (stops_cons (by rw [hr]; decide))
  have hexpect : expect env.finish (.punct .rParen) (r :: rest) = .ok r rest :=
    (expect_eq_ok_iff (by simp)).2 ⟨rfl, hr⟩
  rw [Nonterminal.rule, run_primary_cons, hl]
  dsimp only
  rw [show run env .expression _ = _ from hcontents, Outcome.ok_andThen, hexpect,
    Outcome.ok_andThen]

theorem name_complete (hQ : inner.Told env Q) {name : String} (h : QualifiedName ts name) :
    Complete env Q .primary ts (.name name) := by
  intro rest hts hrest
  have hname : qualifiedName env.finish (ts ++ rest) = .ok name rest :=
    qualifiedName_complete h (hQ.plainNames hts) hrest.noScopeAhead
  obtain ⟨t, us, rfl, ht⟩ := h.starts
  rw [List.cons_append] at hname ⊢
  rw [Nonterminal.rule, run_primary_cons]
  cases ht with
  | inl ht => rw [ht, hname]; rfl
  | inr ht => rw [ht, hname]; rfl

/-- Every phrase is read, and what follows it as more of its sort. -/
theorem Derives.continues (hQ : inner.Told env Q) {n : Nonterminal} (h : Derives inner n ts e) :
    Continues env Q n ts e := by
  induction h with
  | assignment _ ih => exact ih
  | conditional _ ih => exact assignment_complete ih
  | condition _ ih => exact condition_complete ih.complete
  | choice hq hcolon _ _ _ ihc ihe ihf =>
      exact choice_complete hQ hq hcolon ihc.complete ihe ihf
  | operand _ ih => exact operand_continues ih.complete
  | binary hop ht _ _ ihe ihf => exact binary_continues hQ hop ht ihe ihf.complete
  | uncast hd ih => exact uncast_complete hQ hd ih
  | cast hl hr ht _ ih => exact cast_complete hQ hl hr ht ih
  | access hd ih => exact access_complete hd ih.complete
  | unary hop ht _ ih => exact unary_complete hQ hop ht ih
  | primary _ ih => exact primary_continues ih
  | subscript hl hr _ _ ihe ihi => exact subscript_continues hQ hl hr ihe ihi
  | member hop ht hm _ ih => exact member_continues hop ht hm ih
  | number ht hv => exact number_complete ht hv
  | truth ht => exact truth_complete ht
  | group hl hr _ _ ih => exact group_complete hQ hl hr ih
  | name h => exact name_complete hQ h

/-- Every phrase is read in full. -/
theorem run_complete (hQ : inner.Told env Q) {n : Nonterminal} (h : Derives inner n ts e) :
    Complete env Q n ts e :=
  (h.continues hQ).complete

end WatchExpr.Grammar
