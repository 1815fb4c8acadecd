import WatchExpr.Proofs.Evaluation.Carried
import WatchExpr.Proofs.Evaluation.Codes

/-!
# Logical connectives

A connective evaluates both of its operands, but asks for the truth of the right one only if that of
the left one leaves the result open. So it lets a record pass on the right that it refuses on the
left.
-/

namespace WatchExpr

namespace Connective

/-- The connective on truth values. -/
def combine : Connective → Bool → Bool → Bool
  | .and, p, q => p && q
  | .or, p, q => p || q

/-- Whether the truth of the left operand is already that of the result. -/
def decidedBy : Connective → Bool → Bool
  | .and, p => !p
  | .or, p => p

theorem combine_comm (op : Connective) (p q : Bool) : op.combine p q = op.combine q p := by
  cases op with
  | and => exact Bool.and_comm p q
  | or => exact Bool.or_comm p q

theorem combine_of_decidedBy {op : Connective} {p : Bool} (h : op.decidedBy p = true) (q : Bool) :
    op.combine p q = p := by
  cases op <;> cases p <;> first | rfl | cases h

theorem combine_of_not_decidedBy {op : Connective} {p : Bool} (h : op.decidedBy p = false)
    (q : Bool) : op.combine p q = q := by
  cases op <;> cases p <;> first | rfl | cases h

end Connective

namespace Value

variable {v w : Value}

/-- The value is an object left in memory. -/
def IsAggregate (v : Value) : Prop := ∃ t a, v = .aggregate t a

theorem logical_eq (op : Connective) (v w : Value) :
    v.logical op w = (do
      let p ← v.toBool
      if op.decidedBy p then return ofBool p else return ofBool (← w.toBool)) := by
  unfold logical
  cases v.toBool with
  | error e => rfl
  | ok p => cases op <;> cases p <;> rfl

theorem IsAggregate.toBool (h : v.IsAggregate) : FailsWith .invalidOperand v.toBool := by
  obtain ⟨t, a, rfl⟩ := h
  exact FailsWith.error_iff.2 rfl

theorem IsAggregate.logical (h : v.IsAggregate) (op : Connective) (w : Value) :
    FailsWith .invalidOperand (v.logical op w) := by
  rw [logical_eq]
  exact FailsWith.bind_iff.2 (.inl h.toBool)

/-- Every value but an aggregate has a truth. -/
theorem exists_toBool_or_isAggregate (h : v.isValid = true) :
    (∃ p, v.toBool = .ok p) ∨ v.IsAggregate := by
  cases v with
  | invalid => cases h
  | scalar s => exact .inl ⟨_, rfl⟩
  | pointer p => exact .inl ⟨_, rfl⟩
  | aggregate t a => exact .inr ⟨t, a, rfl⟩

end Value

namespace Expr

variable {target : Target} {op : Connective} {a b : Expr}

/-- The truth of an expression as an operand. -/
def truthValue (target : Target) (e : Expr) : Except EvalError Bool := do
  (← e.operandValue target).toBool

/-- What a connective does that asks for the truth of both operands: it has a value exactly if both
are convertible to `bool`, and if both have values it refuses an aggregate. -/
structure AsksBoth (target : Target) (op : Connective) (a b : Expr) : Prop where
  value : ∀ x, (binary (.logical op) a b).eval target = .ok x ↔
    ∃ p q, a.truthValue target = .ok p ∧ b.truthValue target = .ok q ∧
      x = .ofBool (op.combine p q)
  refusal : ∀ {v w}, a.operandValue target = .ok v → b.operandValue target = .ok w →
    v.IsAggregate ∨ w.IsAggregate →
      FailsWith .invalidOperand ((binary (.logical op) a b).eval target)

/-- The left operand decides, and the right one is an aggregate. -/
def Overlooks (target : Target) (op : Connective) (a b : Expr) : Prop :=
  ∃ p w, a.truthValue target = .ok p ∧ op.decidedBy p = true ∧
    b.operandValue target = .ok w ∧ w.IsAggregate

theorem eval_logical (op : Connective) (a b : Expr) :
    (binary (.logical op) a b).eval target = (do
      let v ← a.operandValue target
      let w ← b.operandValue target
      v.logical op w) := by
  rw [eval, reduce_binary target (by simp : BinaryOp.logical op ≠ .subscript)]
  cases hv : a.operandValue target with
  | error e => rfl
  | ok v =>
      cases hw : b.operandValue target with
      | error e => rfl
      | ok w =>
          simp only [bind, Except.bind, Value.binary, isValid_of_operandValue hv,
            isValid_of_operandValue hw, Bool.and_self, ↓reduceIte]
          cases v.logical op w <;> rfl

/-- Where the left operand decides, the right one only has to have a value. -/
theorem eval_of_decidedBy {p : Bool} (hp : a.truthValue target = .ok p)
    (hop : op.decidedBy p = true) {w : Value} (hw : b.operandValue target = .ok w) :
    (binary (.logical op) a b).eval target = .ok (.ofBool p) := by
  obtain ⟨v, hv, hp⟩ := bind_eq_ok_iff.1 hp
  rw [eval_logical, hv, hw]
  simp only [bind, Except.bind, Value.logical_eq, hp, hop, ↓reduceIte, pure_eq_ok]

/-- Where the left operand does not decide, the truth of the right one is that of the result. -/
theorem eval_of_not_decidedBy {p : Bool} (hp : a.truthValue target = .ok p)
    (hop : op.decidedBy p = false) :
    (binary (.logical op) a b).eval target = (do return .ofBool (← b.truthValue target)) := by
  obtain ⟨v, hv, hp⟩ := bind_eq_ok_iff.1 hp
  rw [eval_logical, hv, truthValue]
  simp only [bind, Except.bind, Value.logical_eq, hp, hop]
  cases b.operandValue target <;> rfl

/-- An aggregate on the left is refused. -/
theorem eval_of_isAggregate {v w : Value} (hv : a.operandValue target = .ok v)
    (hw : b.operandValue target = .ok w) (h : v.IsAggregate) :
    FailsWith .invalidOperand ((binary (.logical op) a b).eval target) := by
  rw [eval_logical, hv, hw]
  exact h.logical op w

/-- A value has a truth or is an aggregate. -/
theorem truthValue_or_isAggregate {v : Value} (hv : a.operandValue target = .ok v) :
    (∃ p, a.truthValue target = .ok p) ∨ v.IsAggregate := by
  refine (Value.exists_toBool_or_isAggregate (isValid_of_operandValue hv)).imp_left ?_
  rintro ⟨p, hp⟩
  exact ⟨p, bind_eq_ok_iff.2 ⟨v, hv, hp⟩⟩

theorem not_isAggregate_of_truthValue {p : Bool} (hp : a.truthValue target = .ok p) {v : Value}
    (hv : a.operandValue target = .ok v) : ¬ v.IsAggregate := by
  intro h
  have hfails : FailsWith .invalidOperand (a.truthValue target) := by
    rw [truthValue, hv]
    exact h.toBool
  exact hfails.ne_ok p hp

/-- The value of a connective over operands that have a truth. -/
theorem eval_of_truthValue {p q : Bool} (hp : a.truthValue target = .ok p)
    (hq : b.truthValue target = .ok q) :
    (binary (.logical op) a b).eval target = .ok (.ofBool (op.combine p q)) := by
  obtain ⟨w, hw, -⟩ := bind_eq_ok_iff.1 hq
  cases hop : op.decidedBy p with
  | true => rw [eval_of_decidedBy hp hop hw, Connective.combine_of_decidedBy hop]
  | false =>
      rw [eval_of_not_decidedBy hp hop, hq, Connective.combine_of_not_decidedBy hop]
      rfl

/-- An aggregate is refused, unless it is overlooked. -/
theorem eval_of_not_overlooks (h : ¬ Overlooks target op a b) {v w : Value}
    (hv : a.operandValue target = .ok v) (hw : b.operandValue target = .ok w)
    (hvw : v.IsAggregate ∨ w.IsAggregate) :
    FailsWith .invalidOperand ((binary (.logical op) a b).eval target) := by
  obtain ⟨p, hp⟩ | hagg := truthValue_or_isAggregate hv
  · have hagg := hvw.resolve_left (not_isAggregate_of_truthValue hp hv)
    cases hop : op.decidedBy p with
    | true => exact (h ⟨p, w, hp, hop, hw, hagg⟩).elim
    | false =>
        rw [eval_of_not_decidedBy hp hop, truthValue, hw]
        exact FailsWith.bind_iff.2 (.inl hagg.toBool)
  · exact eval_of_isAggregate hv hw hagg

/-- A connective asks for the truth of both operands exactly if it overlooks none. -/
theorem asksBoth_iff : AsksBoth target op a b ↔ ¬ Overlooks target op a b := by
  constructor
  · rintro h ⟨p, w, hp, hop, hw, hagg⟩
    obtain ⟨v, hv, -⟩ := bind_eq_ok_iff.1 hp
    exact (h.refusal hv hw (.inr hagg)).ne_ok _ (eval_of_decidedBy hp hop hw)
  · intro h
    refine ⟨fun x => ⟨fun hx => ?_, ?_⟩, eval_of_not_overlooks h⟩
    · have hoperands := hx
      rw [eval_logical] at hoperands
      obtain ⟨v, hv, hoperands⟩ := bind_eq_ok_iff.1 hoperands
      obtain ⟨w, hw, -⟩ := bind_eq_ok_iff.1 hoperands
      have hnone : ¬ (v.IsAggregate ∨ w.IsAggregate) := fun hagg =>
        (eval_of_not_overlooks h hv hw hagg).ne_ok x hx
      obtain ⟨p, hp⟩ := (truthValue_or_isAggregate hv).resolve_right fun h => hnone (.inl h)
      obtain ⟨q, hq⟩ := (truthValue_or_isAggregate hw).resolve_right fun h => hnone (.inr h)
      rw [eval_of_truthValue hp hq] at hx
      exact ⟨p, q, hp, hq, (Except.ok.inj hx).symm⟩
    · rintro ⟨p, q, hp, hq, rfl⟩
      exact eval_of_truthValue hp hq

theorem not_overlooks_of_same {v : Value} (hv : a.operandValue target = .ok v)
    (h : SameUpToMessage ((binary (.logical op) a b).eval target)
      ((binary (.logical op) b a).eval target)) : ¬ Overlooks target op a b := by
  rintro ⟨p, w, hp, hop, hw, hagg⟩
  exact (h.failsWith (eval_of_isAggregate hw hv hagg)).ne_ok _ (eval_of_decidedBy hp hop hw)

/-- The operands of a connective that have values may be exchanged exactly if none is overlooked in
either order. -/
theorem eval_logical_same_comm_iff {v w : Value} (hv : a.operandValue target = .ok v)
    (hw : b.operandValue target = .ok w) :
    SameUpToMessage ((binary (.logical op) a b).eval target)
        ((binary (.logical op) b a).eval target) ↔
      ¬ Overlooks target op a b ∧ ¬ Overlooks target op b a := by
  constructor
  · exact fun h => ⟨not_overlooks_of_same hv h, not_overlooks_of_same hw h.symm⟩
  · rintro ⟨hab, hba⟩
    obtain ⟨p, hp⟩ | hagg := truthValue_or_isAggregate hv
    · obtain ⟨q, hq⟩ | hagg := truthValue_or_isAggregate hw
      · rw [eval_of_truthValue hp hq, eval_of_truthValue hq hp, Connective.combine_comm]
        exact .refl _
      · exact (eval_of_not_overlooks hab hv hw (.inr hagg)).same
          (eval_of_not_overlooks hba hw hv (.inl hagg))
    · exact (eval_of_not_overlooks hab hv hw (.inl hagg)).same
        (eval_of_not_overlooks hba hw hv (.inr hagg))

/-- A connective asks for the truth of both operands unless the left one decides and the right one is
an aggregate, which is then let pass. So operands that have values may be exchanged exactly if this
happens in neither order. -/
theorem connectives_ask_both_iff (target : Target) (op : Connective) (a b : Expr) :
    (AsksBoth target op a b ↔ ¬ Overlooks target op a b) ∧
    (Overlooks target op a b → ∀ p, a.truthValue target = .ok p →
      (binary (.logical op) a b).eval target = .ok (.ofBool p)) ∧
    (∀ v w, a.eval target = .ok v → b.eval target = .ok w →
      (SameUpToMessage ((binary (.logical op) a b).eval target)
          ((binary (.logical op) b a).eval target) ↔
        ¬ Overlooks target op a b ∧ ¬ Overlooks target op b a)) := by
  refine ⟨asksBoth_iff, ?_, fun v w hv hw =>
    eval_logical_same_comm_iff (operandValue_of_eval hv) (operandValue_of_eval hw)⟩
  rintro ⟨p', w, hp', hop, hw, -⟩ p hp
  obtain rfl := Except.ok.inj (hp'.symm.trans hp)
  exact eval_of_decidedBy hp' hop hw

/-- A record is passed over beside a false left operand of `&&`, and refused in its place. -/
theorem connective_overlooks_record :
    let record : Ty := .tagged ⟨"P", 8⟩ .none
    let target : Target :=
      { variableNamed? := fun n => if n = "p" then some ⟨n, record, 16⟩ else none
        types := fun _ => none
        field? := fun _ _ => none
        read? := fun _ _ => none }
    (name "p").eval target = .ok (.aggregate record 16) ∧
      (truth false).eval target = .ok (.ofBool false) ∧
      (binary (.logical .and) (truth false) (name "p")).eval target = .ok (.ofBool false) ∧
      (binary (.logical .and) (name "p") (truth false)).eval target =
        .error (.notBoolean (some record)) ∧
      ¬ AsksBoth target .and (truth false) (name "p") := by
  intro record target
  have hp : (name "p").eval target = .ok (.aggregate record 16) := by decide +kernel
  refine ⟨hp, rfl, by decide +kernel, by decide +kernel, fun h => asksBoth_iff.1 h ?_⟩
  exact ⟨false, _, rfl, rfl, operandValue_of_eval hp, record, 16, rfl⟩

end Expr

end WatchExpr
