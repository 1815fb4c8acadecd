import WatchExpr.Proofs.Evaluation.Codes
import WatchExpr.Proofs.Reduction
import WatchExpr.Proofs.Subexpressions

/-!
# Members in the branch that is not selected

The branch of a conditional that is not selected is asked for its names, all of them, and then for
its type. Typing goes from left to right and stops at the first failure of any kind, so that a
member that a record lacks is reported only if all operands to the left of it have types.
-/

namespace WatchExpr

/-! ## Failures of typing -/

namespace Ty

theorem not_undeclared_accessed (access : MemberAccess) (t : Ty) :
    ¬ FailsWith .undeclared (t.accessed access) := by
  cases access with
  | dot => exact FailsWith.not_ok t
  | arrow => cases t <;> simp [accessed, EvalError.code?]

theorem not_undeclared_subscripted (t u : Ty) : ¬ FailsWith .undeclared (t.subscripted u) := by
  unfold subscripted
  split <;> simp [EvalError.code?]

theorem not_undeclared_underUnary (op : UnaryOp) (t : Ty) :
    ¬ FailsWith .undeclared (t.underUnary op) := by
  unfold underUnary
  split
  · exact FailsWith.not_ok _
  · split <;> simp [EvalError.code?]
  · exact FailsWith.not_ok _
  · exact FailsWith.not_ok _
  · exact FailsWith.not_ok _

end Ty

theorem BinaryOp.not_undeclared_resultType (op : BinaryOp) (t u : Ty) :
    ¬ FailsWith .undeclared (op.resultType t u) := by
  unfold resultType
  split <;> simp [EvalError.code?]

/-- Only a record can lack a member. -/
theorem Target.undeclared_member_iff {target : Target} {t : Ty} {name : String} :
    FailsWith .undeclared (target.member t name) ↔
      ∃ r q, t = .tagged r q ∧ target.field? r name = none := by
  cases t with
  | tagged r q =>
      rw [member]
      cases hf : target.field? r name <;> simp [hf, EvalError.code?]
  | _ => simp [member, EvalError.code?]

namespace Expr

variable {target : Target}

/-- A member access on an expression whose type is, or points to, a record without that member. -/
def IsMissingMember (target : Target) : Expr → Prop
  | .member e access field => ∃ t r q, e.staticType target = .ok t ∧
      t.dereferenced.accessed access = .ok (.tagged r q) ∧ target.field? r field = none
  | _ => False

theorem undeclared_staticType_member {e : Expr} {access : MemberAccess} {field : String} :
    FailsWith .undeclared ((member e access field).staticType target) ↔
      FailsWith .undeclared (e.staticType target) ∨
        IsMissingMember target (.member e access field) := by
  simp [staticType, FailsWith.bind_iff, IsMissingMember,
    Ty.not_undeclared_accessed, Target.undeclared_member_iff]

/-- Whether a property holds of some expression in an expression that typing gets to: everything to
the left of it has a type. -/
def TypingMeets (target : Target) (p : Expr → Prop) : Expr → Prop
  | .poisoned d => p (.poisoned d)
  | .truth b => p (.truth b)
  | .number v s => p (.number v s)
  | .name id => p (.name id)
  | .cast t e => p (.cast t e) ∨ e.TypingMeets target p
  | .member e access field => p (.member e access field) ∨ e.TypingMeets target p
  | .binary op e f => p (.binary op e f) ∨ e.TypingMeets target p ∨
      (∃ t, e.staticType target = .ok t) ∧ f.TypingMeets target p
  | .unary op e => p (.unary op e) ∨ e.TypingMeets target p
  | .conditional c e f => p (.conditional c e f) ∨ c.TypingMeets target p ∨
      (∃ t, c.staticType target = .ok t) ∧ (e.TypingMeets target p ∨
        (∃ t, e.staticType target = .ok t) ∧ f.TypingMeets target p)

/-- Typing fails for want of a member exactly if it gets to an access to a missing one. -/
theorem undeclared_staticType_iff {e : Expr} (hn : e.checkNames target = .ok ()) :
    FailsWith .undeclared (e.staticType target) ↔
      e.TypingMeets target (IsMissingMember target) := by
  induction e with
  | poisoned d => cases hn
  | truth b => exact iff_of_false (FailsWith.not_ok _) id
  | number v s => exact iff_of_false (FailsWith.not_ok _) id
  | name id =>
      have hlookup : ∃ v, target.lookup id = .ok v := by
        cases hv : target.lookup id with
        | error e =>
            rw [checkNames, hv] at hn
            cases hn
        | ok v => exact ⟨v, rfl⟩
      obtain ⟨v, hv⟩ := hlookup
      rw [staticType, hv]
      exact iff_of_false (FailsWith.not_ok _) not_false
  | cast t e ih =>
      simp [staticType, FailsWith.bind_iff, TypingMeets, IsMissingMember, ih hn]
  | member e access field ih =>
      rw [undeclared_staticType_member, ih hn]
      exact or_comm
  | binary op e f ihe ihf =>
      obtain ⟨⟨⟩, hne, hnf⟩ := bind_eq_ok_iff.1 hn
      by_cases hop : op = .subscript
      · subst hop
        simp [staticType, FailsWith.bind_iff, TypingMeets, IsMissingMember, ihe hne, ihf hnf,
          Ty.not_undeclared_subscripted]
      · rw [staticType_binary target hop]
        simp [FailsWith.bind_iff, TypingMeets, IsMissingMember, ihe hne, ihf hnf,
          BinaryOp.not_undeclared_resultType]
  | unary op e ih =>
      simp [staticType, FailsWith.bind_iff, TypingMeets, IsMissingMember, ih hn,
        Ty.not_undeclared_underUnary]
  | conditional c e f ihc ihe ihf =>
      obtain ⟨⟨⟩, hnc, hn⟩ := bind_eq_ok_iff.1 hn
      obtain ⟨⟨⟩, hne, hnf⟩ := bind_eq_ok_iff.1 hn
      simp [staticType, FailsWith.bind_iff, TypingMeets, IsMissingMember, ihc hnc, ihe hne,
        ihf hnf]

/-- Nothing that has a type contains an access to a missing member. -/
theorem not_missingMember_of_staticType {e : Expr} {t : Ty} (h : e.staticType target = .ok t) :
    ¬ e.Somewhere (IsMissingMember target) := by
  induction e generalizing t with
  | poisoned d => cases h
  | truth b => exact not_false
  | number v s => exact not_false
  | name id => exact not_false
  | cast u e ih =>
      obtain ⟨t, ht, -⟩ := bind_eq_ok_iff.1 h
      exact not_or.2 ⟨not_false, ih ht⟩
  | member e access field ih =>
      obtain ⟨t, ht, h⟩ := bind_eq_ok_iff.1 h
      obtain ⟨record, hrecord, h⟩ := bind_eq_ok_iff.1 h
      obtain ⟨f, hf, -⟩ := bind_eq_ok_iff.1 h
      refine not_or.2 ⟨?_, ih ht⟩
      rintro ⟨u, r, q, hu, haccess, hnone⟩
      obtain rfl := Except.ok.inj (ht.symm.trans hu)
      obtain rfl := Except.ok.inj (hrecord.symm.trans haccess)
      rw [Target.member, hnone] at hf
      cases hf
  | binary op e f ihe ihf =>
      by_cases hop : op = .subscript
      · subst hop
        obtain ⟨t, ht, h⟩ := bind_eq_ok_iff.1 h
        obtain ⟨u, hu, -⟩ := bind_eq_ok_iff.1 h
        exact not_or.2 ⟨not_false, not_or.2 ⟨ihe ht, ihf hu⟩⟩
      · rw [staticType_binary target hop] at h
        obtain ⟨t, ht, h⟩ := bind_eq_ok_iff.1 h
        obtain ⟨u, hu, -⟩ := bind_eq_ok_iff.1 h
        exact not_or.2 ⟨not_false, not_or.2 ⟨ihe ht, ihf hu⟩⟩
  | unary op e ih =>
      obtain ⟨t, ht, -⟩ := bind_eq_ok_iff.1 h
      exact not_or.2 ⟨not_false, ih ht⟩
  | conditional c e f ihc ihe ihf =>
      obtain ⟨s, hs, h⟩ := bind_eq_ok_iff.1 h
      obtain ⟨t, ht, h⟩ := bind_eq_ok_iff.1 h
      obtain ⟨u, hu, -⟩ := bind_eq_ok_iff.1 h
      exact not_or.2 ⟨not_false, not_or.2 ⟨ihc hs, not_or.2 ⟨ihe ht, ihf hu⟩⟩⟩

/-- Unless typing fails for the sake of something else, it gets to an access to a missing member. -/
theorem typingMeets_of_missingMember {e : Expr} (h : e.Somewhere (IsMissingMember target))
    (he : e.Everywhere fun e =>
      e.Somewhere (IsMissingMember target) ∨ ∃ t, e.staticType target = .ok t) :
    e.TypingMeets target (IsMissingMember target) := by
  induction e with
  | poisoned d => exact h
  | truth b => exact h
  | number v s => exact h
  | name id => exact h
  | cast t e ih => exact h.imp_right fun h => ih h he.2
  | member e access field ih => exact h.imp_right fun h => ih h he.2
  | binary op e f ihe ihf =>
      obtain ⟨-, he, hf⟩ := he
      refine h.imp_right fun h => ?_
      obtain hmissing | htype := he.self
      · exact .inl (ihe hmissing he)
      · exact h.imp (fun h => ihe h he) fun h => ⟨htype, ihf h hf⟩
  | unary op e ih => exact h.imp_right fun h => ih h he.2
  | conditional c e f ihc ihe ihf =>
      obtain ⟨-, hc, he, hf⟩ := he
      refine h.imp_right fun h => ?_
      obtain hmissing | hctype := hc.self
      · exact .inl (ihc hmissing hc)
      obtain hmissing | hetype := he.self
      · exact .inr ⟨hctype, .inl (ihe hmissing he)⟩
      · exact h.imp (fun h => ihc h hc) fun h =>
          ⟨hctype, h.imp (fun h => ihe h he) fun h => ⟨hetype, ihf h hf⟩⟩

/-! ## Conditionals -/

/-- All names of the other branch are looked up, but only the members that typing gets to. -/
theorem undeclared_besides_iff {other : Expr} {v : Value} :
    FailsWith .undeclared (other.besides target v) ↔
      FailsWith .undeclared (other.checkNames target) ∨
        other.checkNames target = .ok () ∧ other.TypingMeets target (IsMissingMember target) := by
  rw [besides, FailsWith.bind_iff]
  refine or_congr_right ⟨?_, ?_⟩
  · rintro ⟨⟨⟩, hn, h⟩
    refine ⟨hn, (undeclared_staticType_iff hn).1 ?_⟩
    cases ht : other.staticType target with
    | ok t =>
        rw [ht] at h
        exact absurd h (FailsWith.not_ok _)
    | error e =>
        rw [ht] at h
        by_cases hcode : e.code? = some .undeclared
        · exact FailsWith.error_iff.2 hcode
        · simp [hcode] at h
  · rintro ⟨hn, h⟩
    obtain ⟨e, ht, hcode⟩ := (undeclared_staticType_iff hn).2 h
    refine ⟨(), hn, e, ?_, hcode⟩
    rw [ht]
    exact if_pos hcode

/-- Beside a branch with a missing member that is not reported, the value stays as it is. -/
theorem besides_eq_ok_iff {other : Expr} {v : Value}
    (hmissing : other.Somewhere (IsMissingMember target)) :
    other.besides target v = .ok v ↔ other.checkNames target = .ok () ∧
      ¬ other.TypingMeets target (IsMissingMember target) := by
  constructor
  · intro h
    obtain ⟨⟨⟩, hn, -⟩ := bind_eq_ok_iff.1 h
    exact ⟨hn, fun hmeets => (undeclared_besides_iff.2 (.inr ⟨hn, hmeets⟩)).ne_ok v h⟩
  · rintro ⟨hn, hmeets⟩
    rw [besides, hn]
    cases ht : other.staticType target with
    | ok t => exact absurd hmissing (not_missingMember_of_staticType ht)
    | error e =>
        have hcode : e.code? ≠ some .undeclared := fun hcode =>
          hmeets ((undeclared_staticType_iff hn).1 ⟨e, ht, hcode⟩)
        simp [bind, Except.bind, hcode]

section

variable {c e f selected other : Expr} {v w : Value} {b : Bool}

/-- The value of a conditional is that of the selected branch beside the other one. -/
theorem eval_conditional (hc : c.eval target = .ok v) (hb : v.decayed.toBool = .ok b)
    (hbranches : (selected, other) = if b then (e, f) else (f, e))
    (hw : selected.eval target = .ok w) :
    (conditional c e f).eval target = other.besides target w.decayed := by
  rw [eval_conditional_eq_bind, operandValue_of_eval hc]
  simp only [bind, Except.bind, hb]
  cases b with
  | true =>
      cases hbranches
      rw [operandValue_of_eval hw]
      rfl
  | false =>
      cases hbranches
      rw [operandValue_of_eval hw]
      rfl

/-- When the condition and the selected branch of a conditional have values, something undeclared in
the other branch is reported exactly if a name is looked up in vain or, all names being declared,
typing gets to an access to a missing member, as it does if nothing else there lacks a type. A
missing member that typing does not get to is passed over: the conditional has the value of the
selected branch. -/
theorem unselected_members_reported_iff (hc : c.eval target = .ok v)
    (hb : v.decayed.toBool = .ok b)
    (hbranches : (selected, other) = if b then (e, f) else (f, e))
    (hw : selected.eval target = .ok w) :
    (FailsWith .undeclared ((conditional c e f).eval target) ↔
      FailsWith .undeclared (other.checkNames target) ∨
        other.checkNames target = .ok () ∧ other.TypingMeets target (IsMissingMember target)) ∧
    (other.Somewhere (IsMissingMember target) →
      ((conditional c e f).eval target = .ok w.decayed ↔ other.checkNames target = .ok () ∧
        ¬ other.TypingMeets target (IsMissingMember target)) ∧
      ((other.Everywhere fun e =>
          e.Somewhere (IsMissingMember target) ∨ ∃ t, e.staticType target = .ok t) →
        other.TypingMeets target (IsMissingMember target))) := by
  rw [eval_conditional hc hb hbranches hw]
  exact ⟨undeclared_besides_iff, fun hmissing =>
    ⟨besides_eq_ok_iff hmissing, typingMeets_of_missingMember hmissing⟩⟩

end

/-- A missing member on the right of a number, in the branch for a condition that is not met. -/
theorem unselected_members_reported_iff_sum :
    let record : Ty := .tagged ⟨"P", 8⟩ .none
    let target : Target :=
      { variableNamed? := fun n => if n = "p" then some ⟨n, record, 16⟩ else none
        types := fun _ => none
        field? := fun _ _ => none
        read? := fun _ _ => none }
    let two : Expr := .number (.integral .int 2) "2"
    let other : Expr := .binary (.arith .add) two (.member (.name "p") .dot "missing")
    (truth false).eval target = .ok (.ofBool false) ∧
      (Value.ofBool false).decayed.toBool = .ok false ∧
      (two, other) = (if false then (other, two) else (two, other)) ∧
      two.eval target = .ok (.scalar (.integral .int 2)) ∧
      other.Somewhere (IsMissingMember target) ∧
      other.TypingMeets target (IsMissingMember target) ∧
      FailsWith .undeclared ((conditional (.truth false) other two).eval target) := by
  intro record target two other
  have hmissing : IsMissingMember target (.member (.name "p") .dot "missing") :=
    ⟨record, ⟨"P", 8⟩, .none, by decide, rfl, rfl⟩
  have hsomewhere : other.Somewhere (IsMissingMember target) := .inr (.inr (.inl hmissing))
  have hc : (truth false).eval target = .ok (.ofBool false) := rfl
  have hbranches : (two, other) = if false then (other, two) else (two, other) := rfl
  have hw : two.eval target = .ok (.scalar (.integral .int 2)) := rfl
  obtain ⟨hreported, hpassed⟩ := unselected_members_reported_iff hc rfl hbranches hw
  have hmeets : other.TypingMeets target (IsMissingMember target) :=
    (hpassed hsomewhere).2 ⟨.inl hsomewhere, .inr ⟨_, rfl⟩, .inl (.inl hmissing),
      .inr ⟨record, by decide⟩⟩
  exact ⟨hc, rfl, hbranches, hw, hsomewhere, hmeets, hreported.2 (.inr ⟨by decide, hmeets⟩)⟩

/-- A record without the member that is asked for, beside a number that is taken for a pointer: the
failure is reported if the member comes first, and passed over if the number does. -/
theorem unselected_members_passed_over :
    let record : Ty := .tagged ⟨"P", 8⟩ .none
    let target : Target :=
      { variableNamed? := fun n =>
          if n = "p" then some ⟨n, record, 16⟩
          else if n = "x" then some ⟨n, .arithmetic (.integral .int), 32⟩ else none
        types := fun _ => none
        field? := fun _ _ => none
        read? := fun _ _ => none }
    let two : Expr := .number (.integral .int 2) "2"
    let missing : Expr := .member (.name "p") .dot "missing"
    let mistyped : Expr := .unary .deref (.name "x")
    let other : Expr := .binary (.arith .add) mistyped missing
    IsMissingMember target missing ∧ other.Somewhere (IsMissingMember target) ∧
      (truth true).eval target = .ok (.ofBool true) ∧
      two.eval target = .ok (.scalar (.integral .int 2)) ∧
      (conditional (.truth true) two other).eval target = .ok (.scalar (.integral .int 2)) ∧
      ¬ FailsWith .undeclared ((conditional (.truth true) two other).eval target) ∧
      FailsWith .undeclared ((conditional (.truth true) two
        (.binary (.arith .add) missing mistyped)).eval target) := by
  intro record target two missing mistyped other
  have hmissing : IsMissingMember target missing :=
    ⟨record, ⟨"P", 8⟩, .none, by decide, rfl, rfl⟩
  have hother : (conditional (.truth true) two other).eval target =
      .ok (.scalar (.integral .int 2)) := by decide +kernel
  have hswapped : (conditional (.truth true) two
      (.binary (.arith .add) missing mistyped)).eval target =
        .error (.noMember "missing" "P") := by decide +kernel
  refine ⟨hmissing, .inr (.inr (.inl hmissing)), rfl, rfl, hother, ?_, ?_⟩
  · rw [hother]
    exact FailsWith.not_ok _
  · rw [hswapped]
    exact FailsWith.error_iff.2 rfl

end Expr

end WatchExpr
