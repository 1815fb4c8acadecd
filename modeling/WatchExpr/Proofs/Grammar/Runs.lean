import WatchExpr.Proofs.Grammar.Levels

/-!
# Successful runs

What a rule does when it succeeds, as a relation: one case for each way in which a rule may go on. A
property of successful runs is proved by induction on it, without a measure.
-/

namespace WatchExpr.Grammar

/-- A rule reads an expression from the first tokens and leaves the others. -/
inductive Runs (env : Env) : Rule → List Token → Expr → List Token → Prop where
  | expression {ts rest : List Token} {e : Expr} (he : Runs env .conditional ts e rest) :
      Runs env .expression ts e rest
  | condition {ts rest : List Token} {e : Expr}
      (he : Runs env (.binary .loosestBinary) ts e rest) : Runs env .conditional ts e rest
  | choice {q colon : Token} {ts us vs rest : List Token} {c e f : Expr}
      (hc : Runs env (.binary .loosestBinary) ts c (q :: us)) (hq : q.kind = .punct .question)
      (he : Runs env .expression us e (colon :: vs)) (hcolon : colon.kind = .punct .colon)
      (hf : Runs env .expression vs f rest) : Runs env .conditional ts (.conditional c e f) rest
  | operand {ts rest : List Token} {e : Expr} (he : Runs env .cast ts e rest) :
      Runs env (.binary 0) ts e rest
  | level {p : Precedence} {ts us rest : List Token} {e f : Expr}
      (he : Runs env (.binary p) ts e us) (hf : Runs env (.operators p e) us f rest) :
      Runs env (.binary (p + 1)) ts f rest
  | noOperator {p : Precedence} {ts : List Token} {e : Expr} : Runs env (.operators p e) ts e ts
  | operator {p : Precedence} {t : Token} {op : BinaryOp} {ts us rest : List Token} {e f g : Expr}
      (ht : operatorAt? (p + 1) t.kind = some op) (hf : Runs env (.binary p) ts f us)
      (hmore : Runs env (.operators p (.binary op e f)) us g rest) :
      Runs env (.operators p e) (t :: ts) g rest
  | cast {l : Token} {type : Ty} {ts us rest : List Token} {e : Expr}
      (hl : l.kind = .punct .lParen) (htype : castType env ts = .ok type us)
      (he : Runs env .cast us e rest) : Runs env .cast (l :: ts) (.cast type e) rest
  | uncast {ts rest : List Token} {e : Expr} (he : Runs env .unary ts e rest) :
      Runs env .cast ts e rest
  | unary {t : Token} {op : UnaryOp} {ts rest : List Token} {e : Expr}
      (ht : unaryOp? t.kind = some op) (he : Runs env .cast ts e rest) :
      Runs env .unary (t :: ts) (.unary op e) rest
  | bare {ts rest : List Token} {e : Expr} (he : Runs env .access ts e rest) :
      Runs env .unary ts e rest
  | access {ts us rest : List Token} {e f : Expr} (he : Runs env .primary ts e us)
      (hf : Runs env (.accesses e) us f rest) : Runs env .access ts f rest
  | noAccess {ts : List Token} {e : Expr} : Runs env (.accesses e) ts e ts
  | subscript {l r : Token} {ts us rest : List Token} {e i f : Expr}
      (hl : l.kind = .punct .lSquare) (hi : Runs env .expression ts i (r :: us))
      (hr : r.kind = .punct .rSquare)
      (hmore : Runs env (.accesses (.binary .subscript e i)) us f rest) :
      Runs env (.accesses e) (l :: ts) f rest
  | member {t m : Token} {access : MemberAccess} {ts rest : List Token} {e f : Expr}
      (ht : accessStart? t.kind = some (.member access)) (hm : m.kind = .identifier)
      (hmore : Runs env (.accesses (.member e access m.spelling)) ts f rest) :
      Runs env (.accesses e) (t :: m :: ts) f rest
  | number {t : Token} {v : Scalar} {ts : List Token} (ht : t.kind = .number)
      (hv : Literal.read t.spelling = .ok v) : Runs env .primary (t :: ts) (.number v t.spelling) ts
  | truth {t : Token} {b : Bool} {ts : List Token} (ht : t.kind = .keyword (.truth b)) :
      Runs env .primary (t :: ts) (.truth b) ts
  | group {l r : Token} {ts rest : List Token} {e : Expr} (hl : l.kind = .punct .lParen)
      (he : Runs env .expression ts e (r :: rest)) (hr : r.kind = .punct .rParen) :
      Runs env .primary (l :: ts) e rest
  | name {ts rest : List Token} {id : String}
      (hid : qualifiedName env.finish ts = .ok id rest) : Runs env .primary ts (.name id) rest

variable {env : Env} {rule : Rule} {ts rest : List Token} {e f : Expr} {p : Precedence}

theorem run_rest_length_le (h : run env rule ts = .ok e rest) : rest.length ≤ ts.length := by
  have hle := (parse env rule ts).property
  rwa [show (parse env rule ts).val = .ok e rest from h] at hle

/-- Calls of lower measure that succeed are successful runs. -/
def RunsBelow (env : Env) (n : Nat) : Prop :=
  ∀ rule us e rest, us.length * 64 + Rule.rank rule < n → run env rule us = .ok e rest →
    Runs env rule us e rest

theorem runs_expression (ih : RunsBelow env (ts.length * 64 + 40))
    (h : run env .expression ts = .ok e rest) : Runs env .expression ts e rest := by
  rw [run_expression] at h
  obtain ⟨f, us, hf, h⟩ := Outcome.andThen_eq_ok_iff.1 h
  split at h
  · cases h
  · cases h
    exact .expression (ih _ _ _ _ (by simp [Rule.rank]) hf)

theorem runs_conditional (ih : RunsBelow env (ts.length * 64 + 39))
    (h : run env .conditional ts = .ok e rest) : Runs env .conditional ts e rest := by
  rw [run_conditional] at h
  obtain ⟨c, us, hc, h⟩ := Outcome.andThen_eq_ok_iff.1 h
  have hcondition := ih _ _ _ _ (by simp [Rule.rank, Precedence.loosestBinary]) hc
  split at h
  · cases h
    exact .condition hcondition
  · rename_i inner haccept
    obtain ⟨q, rfl, hq⟩ := accept?_eq_some_iff.1 haccept
    obtain ⟨f, vs, hf, hrest⟩ := Outcome.andThen_eq_ok_iff.1 h
    obtain ⟨colon, ws, rfl, hcolon, hlast⟩ := (expect_andThen_eq_ok_iff (by simp)).1 hrest
    obtain ⟨g, zs, hg, hok⟩ := Outcome.andThen_eq_ok_iff.1 hlast
    cases hok
    have hinner : inner.length < ts.length := Nat.lt_of_succ_le (run_rest_length_le hc)
    have hlast : ws.length < inner.length := Nat.lt_of_succ_le (run_rest_length_le hf)
    exact .choice hcondition (isMark_eq_some_iff.1 hq)
      (ih _ _ _ _ (by simp only [Rule.rank]; omega) hf) hcolon
      (ih _ _ _ _ (by simp only [Rule.rank]; omega) hg)

theorem runs_binary (ih : RunsBelow env (ts.length * 64 + (2 * p + 4)))
    (h : run env (.binary p) ts = .ok e rest) : Runs env (.binary p) ts e rest := by
  cases p with
  | zero =>
      rw [run_binary_zero] at h
      exact .operand (ih _ _ _ _ (by simp [Rule.rank]) h)
  | succ p =>
      rw [run_binary_succ] at h
      obtain ⟨f, us, hf, h⟩ := Outcome.andThen_eq_ok_iff.1 h
      have hle := run_rest_length_le hf
      exact .level (ih _ _ _ _ (by simp only [Rule.rank]; omega) hf)
        (ih _ _ _ _ (by simp only [Rule.rank]; omega) h)

theorem runs_operators (ih : RunsBelow env (ts.length * 64 + (2 * p + 5)))
    (h : run env (.operators p e) ts = .ok f rest) : Runs env (.operators p e) ts f rest := by
  rw [run_operators] at h
  split at h
  · cases h
    exact .noOperator
  · rename_i op inner haccept
    obtain ⟨t, rfl, ht⟩ := accept?_eq_some_iff.1 haccept
    obtain ⟨g, us, hg, h⟩ := Outcome.andThen_eq_ok_iff.1 h
    have hle := run_rest_length_le hg
    exact .operator ht (ih _ _ _ _ (by simp only [Rule.rank, List.length_cons]; omega) hg)
      (ih _ _ _ _ (by simp only [Rule.rank, List.length_cons]; omega) h)

theorem runs_cast (ih : RunsBelow env (ts.length * 64 + 3))
    (h : run env .cast ts = .ok e rest) : Runs env .cast ts e rest := by
  rw [run_cast] at h
  have hunary (h : run env .unary ts = .ok e rest) : Runs env .cast ts e rest :=
    .uncast (ih _ _ _ _ (by simp [Rule.rank]) h)
  split at h
  · exact hunary h
  · rename_i inner haccept
    split at h
    · rename_i htype
      obtain ⟨l, rfl, hl⟩ := accept?_eq_some_iff.1 haccept
      obtain ⟨f, us, hf, h⟩ := Outcome.andThen_eq_ok_iff.1 h
      cases h
      have hle := castType_rest_le_of_ok htype
      exact .cast (isMark_eq_some_iff.1 hl) htype
        (ih _ _ _ _ (by simp only [Rule.rank, List.length_cons]; omega) hf)
    · split at h
      · cases h
      · exact hunary h

theorem runs_unary (ih : RunsBelow env (ts.length * 64 + 2))
    (h : run env .unary ts = .ok e rest) : Runs env .unary ts e rest := by
  rw [run_unary] at h
  split at h
  · rename_i op inner haccept
    obtain ⟨t, rfl, ht⟩ := accept?_eq_some_iff.1 haccept
    obtain ⟨f, us, hf, h⟩ := Outcome.andThen_eq_ok_iff.1 h
    cases h
    exact .unary ht (ih _ _ _ _ (by simp only [Rule.rank, List.length_cons]; omega) hf)
  · split at h
    · cases h
    · exact .bare (ih _ _ _ _ (by simp [Rule.rank]) h)

theorem runs_access (ih : RunsBelow env (ts.length * 64 + 1))
    (h : run env .access ts = .ok e rest) : Runs env .access ts e rest := by
  rw [run_access] at h
  obtain ⟨f, us, hf, h⟩ := Outcome.andThen_eq_ok_iff.1 h
  have hle := run_rest_length_le hf
  exact .access (ih _ _ _ _ (by simp [Rule.rank]) hf)
    (ih _ _ _ _ (by simp only [Rule.rank]; omega) h)

theorem runs_accesses (ih : RunsBelow env (ts.length * 64))
    (h : run env (.accesses e) ts = .ok f rest) : Runs env (.accesses e) ts f rest := by
  rw [run_accesses] at h
  split at h
  · cases h
    exact .noAccess
  · rename_i inner haccept
    obtain ⟨l, rfl, hl⟩ := accept?_eq_some_iff.1 haccept
    obtain ⟨i, us, hi, hclose⟩ := Outcome.andThen_eq_ok_iff.1 h
    obtain ⟨r, vs, rfl, hr, hmore⟩ := (expect_andThen_eq_ok_iff (by simp)).1 hclose
    have hlt : vs.length < inner.length := Nat.lt_of_succ_le (run_rest_length_le hi)
    exact .subscript (accessStart?_eq_subscript_iff.1 hl)
      (ih _ _ _ _ (by simp only [Rule.rank, List.length_cons]; omega) hi) hr
      (ih _ _ _ _ (by simp only [Rule.rank, List.length_cons]; omega) hmore)
  · rename_i access inner haccept
    obtain ⟨t, rfl, ht⟩ := accept?_eq_some_iff.1 haccept
    obtain ⟨m, us, rfl, hm, hmore⟩ := (expect_andThen_eq_ok_iff (by simp)).1 h
    exact .member ht hm (ih _ _ _ _ (by simp only [Rule.rank, List.length_cons]; omega) hmore)
  · cases h

theorem runs_primary (ih : RunsBelow env (ts.length * 64))
    (h : run env .primary ts = .ok e rest) : Runs env .primary ts e rest := by
  have hname (h : (qualifiedName env.finish ts).map Expr.name = .ok e rest) :
      Runs env .primary ts e rest := by
    obtain ⟨id, hid, rfl⟩ := Outcome.map_eq_ok_iff.1 h
    exact .name hid
  cases ts with
  | nil =>
      rw [run_primary_nil] at h
      cases h
  | cons t inner =>
      rw [run_primary_cons] at h
      split at h
      · rename_i ht
        unfold constant at h
        split at h
        · rename_i hv
          cases h
          exact .number ht hv
        · cases h
      · rename_i ht
        cases h
        exact .truth ht
      · rename_i ht
        obtain ⟨f, us, hf, hclose⟩ := Outcome.andThen_eq_ok_iff.1 h
        obtain ⟨r, vs, rfl, hr, hok⟩ := (expect_andThen_eq_ok_iff (by simp)).1 hclose
        cases hok
        exact .group ht (ih _ _ _ _ (by simp only [Rule.rank, List.length_cons]; omega) hf) hr
      · exact hname h
      · exact hname h
      · cases h

/-- Where a rule succeeds, there is a successful run of it. -/
theorem runs_of_run (h : run env rule ts = .ok e rest) : Runs env rule ts e rest := by
  induction hn : ts.length * 64 + rule.rank using Nat.strongRecOn generalizing rule ts e rest with
  | ind n ih =>
      have hbelow : RunsBelow env (ts.length * 64 + rule.rank) :=
        fun rule us e rest hlt h => ih _ (hn ▸ hlt) h rfl
      cases rule with
      | expression => exact runs_expression hbelow h
      | conditional => exact runs_conditional hbelow h
      | binary p => exact runs_binary hbelow h
      | operators p e => exact runs_operators hbelow h
      | cast => exact runs_cast hbelow h
      | unary => exact runs_unary hbelow h
      | access => exact runs_access hbelow h
      | accesses e => exact runs_accesses hbelow h
      | primary => exact runs_primary hbelow h

end WatchExpr.Grammar
