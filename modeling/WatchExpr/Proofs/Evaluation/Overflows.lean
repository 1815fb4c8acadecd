import WatchExpr.Proofs.Evaluation.Results

/-!
# Evaluations that overflow

An evaluation stops without a report exactly if it comes to a difference of pointers that are too far
apart: both operands of an operator are evaluated, the left one first, and of the branches of a
conditional the selected one.
-/

namespace WatchExpr

namespace Target

variable {target : Target} {o : Operand}

theorem valueOf_not_stops : ¬Stops (target.valueOf o) := by
  cases o with
  | object p => exact (target.yields_load p.type p.address).not_stops
  | value v => exact not_stops_ok _

theorem decayedValueOf_not_stops : ¬Stops (target.decayedValueOf o) :=
  not_stops_bind valueOf_not_stops fun _ => not_stops_ok _

end Target

namespace Expr

variable (target : Target)

/-- Evaluating an expression comes to a difference of pointers that no 64-bit number is. -/
def Overflows : Expr → Prop
  | .poisoned _ | .truth _ | .number _ _ | .name _ => False
  | .cast _ e | .member e _ _ | .unary _ e => e.Overflows
  | .binary op e f =>
    e.Overflows ∨ ∃ v, e.operandValue target = .ok v ∧
      (f.Overflows ∨ ∃ w, f.operandValue target = .ok w ∧ op.Overflows v w)
  | .conditional c e f =>
    c.Overflows ∨ ∃ v, c.operandValue target = .ok v ∧
      ∃ b, v.toBool = .ok b ∧ if b then e.Overflows else f.Overflows

variable {target}

/-! ## What is not evaluated -/

theorem checkNames_not_stops (e : Expr) : ¬Stops (e.checkNames target) := by
  induction e with
  | poisoned d => exact not_stops_error nofun
  | truth b => exact not_stops_ok _
  | number v s => exact not_stops_ok _
  | name id => exact not_stops_bind (Target.yields_lookup id).not_stops fun _ => not_stops_ok _
  | cast t e ih => exact ih
  | member e access field ih => exact ih
  | binary op e f ihe ihf => exact not_stops_bind ihe fun _ => ihf
  | unary op e ih => exact ih
  | conditional c e f ihc ihe ihf => exact not_stops_bind ihc fun _ => not_stops_bind ihe fun _ => ihf

theorem besides_not_stops (e : Expr) (v : Value) : ¬Stops (e.besides target v) := by
  refine not_stops_bind e.checkNames_not_stops fun _ => ?_
  split
  · exact not_stops_ok _
  · split
    · rename_i hcode
      refine not_stops_error ?_
      rintro rfl
      cases hcode
    · exact not_stops_ok _

/-! ## Expressions -/

theorem operandValue_stops_iff {e : Expr} :
    Stops (e.operandValue target) ↔ Stops (e.reduce target) :=
  stops_bind_iff_of_not fun _ => Target.decayedValueOf_not_stops

theorem eval_stops_iff_reduce {e : Expr} : Stops (e.eval target) ↔ Stops (e.reduce target) :=
  stops_bind_iff_of_not fun _ => Target.valueOf_not_stops

/-- Reducing an expression stops exactly if it comes to such a difference. -/
theorem reduce_stops_iff {e : Expr} : Stops (e.reduce target) ↔ e.Overflows target := by
  induction e with
  | poisoned d => exact iff_of_false (not_stops_error nofun) id
  | truth b => exact iff_of_false (not_stops_ok _) id
  | number v s => exact iff_of_false (not_stops_ok _) id
  | name id =>
      exact iff_of_false ((Target.yields_lookup id).bind fun v _ => target.yields_object _ _).not_stops
        not_false
  | cast t e ih =>
      rw [reduce_cast, stops_bind_iff_of_not, operandValue_stops_iff, ih, Overflows]
      exact fun v => not_stops_bind (v.yields_cast t).not_stops fun _ => not_stops_ok _
  | member e access field ih =>
      cases access with
      | dot =>
          rw [reduce_dot, stops_bind_iff_of_not, eval_stops_iff_reduce, ih, Overflows]
          intro v
          split
          · exact (Target.yields_memberOf _ _ _).not_stops
          · exact not_stops_error nofun
      | arrow =>
          rw [reduce_arrow, stops_bind_iff_of_not, operandValue_stops_iff, ih, Overflows]
          intro v
          split
          · exact (Target.yields_memberOf _ _ _).not_stops
          · exact not_stops_error nofun
  | binary op e f ihe ihf =>
      by_cases hop : op = .subscript
      · subst hop
        rw [reduce_subscript, stops_bind_iff, operandValue_stops_iff, ihe, Overflows]
        refine or_congr_right (exists_congr fun v => and_congr_right fun _ => ?_)
        rw [stops_bind_iff_of_not fun w => (Target.yields_elementOf v w).not_stops,
          operandValue_stops_iff, ihf, or_iff_left]
        rintro ⟨_, -, ⟨⟩⟩
      · rw [reduce_binary target hop, stops_bind_iff, operandValue_stops_iff, ihe, Overflows]
        refine or_congr_right (exists_congr fun v => and_congr_right fun _ => ?_)
        rw [stops_bind_iff, operandValue_stops_iff, ihf]
        refine or_congr_right (exists_congr fun w => and_congr_right fun _ => ?_)
        exact (stops_bind_iff_of_not fun _ => not_stops_ok _).trans (v.binary_stopsIf op w).stops_iff
  | unary op e ih =>
      by_cases hd : op = .deref
      · subst hd
        rw [reduce_deref, stops_bind_iff_of_not, operandValue_stops_iff, ih, Overflows]
        exact fun v => (Target.yields_pointeeOf v).not_stops
      · by_cases ha : op = .addressOf
        · subst ha
          rw [reduce, stops_bind_iff_of_not, ih, Overflows]
          exact fun o => o.yields_addressOf.not_stops
        · rw [reduce_unary target hd ha, stops_bind_iff_of_not, operandValue_stops_iff, ih, Overflows]
          exact fun v => not_stops_bind (v.yields_unary op).not_stops fun _ => not_stops_ok _
  | conditional c e f ihc ihe ihf =>
      have hbranch (g h : Expr) :
          Stops (do return Operand.value (← g.besides target (← h.operandValue target))) ↔
            Stops (h.reduce target) := by
        rw [stops_bind_iff_of_not, operandValue_stops_iff]
        exact fun v => not_stops_bind (g.besides_not_stops v) fun _ => not_stops_ok _
      rw [reduce_conditional, stops_bind_iff, operandValue_stops_iff, ihc, Overflows]
      refine or_congr_right (exists_congr fun v => and_congr_right fun _ => ?_)
      rw [stops_bind_iff, or_iff_right v.yields_toBool.not_stops]
      refine exists_congr fun b => and_congr_right fun _ => ?_
      cases b with
      | true => exact (hbranch f e).trans ihe
      | false => exact (hbranch e f).trans ihf

theorem eval_stops_iff {e : Expr} : Stops (e.eval target) ↔ e.Overflows target :=
  eval_stops_iff_reduce.trans reduce_stops_iff

end Expr

end WatchExpr
