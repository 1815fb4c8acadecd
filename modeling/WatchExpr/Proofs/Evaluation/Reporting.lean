import WatchExpr.Proofs.Evaluation.Overflows
import WatchExpr.Proofs.Subexpressions
import WatchExpr.Snapshot

/-!
# Success and failure never mix

An evaluation that does not overflow either reports nothing and yields a value in range, or it reports a
failure under a code that tells so and yields no value. What has been reported before plays no part.
-/

namespace WatchExpr

/-- A computation stops, or it yields a result with a property, or it fails under a code that tells so. -/
def Settles {α : Type} (p : α → Prop) (x : Except EvalError α) : Prop :=
  Stops x ∨ Yields p x

namespace Settles

variable {α β : Type} {p : α → Prop} {q : β → Prop} {x : Except EvalError α}

theorem of_yields (h : Yields p x) : Settles p x := .inr h

theorem of_stopsIf {c : Prop} (h : StopsIf c p x) : Settles p x :=
  (em c).imp h.stops h.yields

theorem bind {f : α → Except EvalError β} (hx : Settles p x) (hf : ∀ a, p a → Settles q (f a)) :
    Settles q (x >>= f) := by
  obtain hx | hx := hx
  · exact .inl (stops_bind_iff.2 (.inl hx))
  · cases x with
    | ok a => exact hf a hx
    | error e => exact .inr hx

end Settles

namespace Expr

/-- What is asked of the leaves of an expression: a failure that stands for a subtree has a code that
tells so, and a constant is in range. -/
def HasSoundLeaves : Expr → Prop
  | .poisoned d => d.code ≠ .ok
  | .number v _ => v.InRange
  | _ => True

variable {target : Target}

theorem yields_checkNames {e : Expr} (he : e.Everywhere HasSoundLeaves) :
    Yields (fun _ => True) (e.checkNames target) := by
  induction e with
  | poisoned d => exact .error ⟨nofun, fun h => he (Option.some.inj h)⟩
  | truth b => trivial
  | number v s => trivial
  | name id => exact (Target.yields_lookup id).bind fun _ _ => trivial
  | cast t e ih => exact ih he.2
  | member e access field ih => exact ih he.2
  | binary op e f ihe ihf => exact (ihe he.2.1).bind fun _ _ => ihf he.2.2
  | unary op e ih => exact ih he.2
  | conditional c e f ihc ihe ihf =>
      exact (ihc he.2.1).bind fun _ _ => (ihe he.2.2.1).bind fun _ _ => ihf he.2.2.2

theorem yields_besides {e : Expr} (he : e.Everywhere HasSoundLeaves) {v : Value} (hv : v.Proper) :
    Yields Value.Proper (e.besides target v) := by
  refine (yields_checkNames he).bind fun _ _ => ?_
  split
  · exact hv.inCommonWith _
  · split
    · rename_i hcode
      simp [Yields, throw, throwThe, MonadExceptOf.throw, hcode]
    · exact hv

theorem settles_operandValue {e : Expr} (h : Settles Operand.Proper (e.reduce target)) :
    Settles Value.Proper (e.operandValue target) :=
  h.bind fun _ ho => .inr (Target.yields_decayedValueOf ho)

theorem settles_reduce {e : Expr} (he : e.Everywhere HasSoundLeaves) :
    Settles Operand.Proper (e.reduce target) := by
  induction e with
  | poisoned d => exact .inr ⟨nofun, fun h => he (Option.some.inj h)⟩
  | truth b => exact .inr (Value.proper_ofBool b)
  | number v s => exact .inr he
  | name id => exact .inr ((Target.yields_lookup id).bind fun v _ => target.yields_object _ _)
  | cast t e ih =>
      rw [reduce_cast]
      exact (settles_operandValue (ih he.2)).bind fun v _ =>
        .inr ((v.yields_cast t).bind fun _ hw => hw)
  | member e access field ih =>
      cases access with
      | dot =>
          rw [reduce_dot]
          refine ((ih he.2).bind fun _ ho => .inr (Target.yields_valueOf ho)).bind fun v _ => .inr ?_
          split
          · exact Target.yields_memberOf _ _ _
          · exact .error ⟨nofun, nofun⟩
      | arrow =>
          rw [reduce_arrow]
          refine (settles_operandValue (ih he.2)).bind fun v _ => .inr ?_
          split
          · exact Target.yields_memberOf _ _ _
          · exact .error ⟨nofun, nofun⟩
  | binary op e f ihe ihf =>
      have hv := settles_operandValue (ihe he.2.1)
      have hw := settles_operandValue (ihf he.2.2)
      by_cases hop : op = .subscript
      · subst hop
        rw [reduce_subscript]
        exact hv.bind fun v _ => hw.bind fun w _ => .inr (Target.yields_elementOf v w)
      · rw [reduce_binary target hop]
        exact hv.bind fun v _ => hw.bind fun w _ =>
          (Settles.of_stopsIf (v.binary_stopsIf op w)).bind fun _ hx => .inr hx
  | unary op e ih =>
      by_cases hd : op = .deref
      · subst hd
        rw [reduce_deref]
        exact (settles_operandValue (ih he.2)).bind fun v _ => .inr (Target.yields_pointeeOf v)
      · by_cases ha : op = .addressOf
        · subst ha
          exact (ih he.2).bind fun o _ => .inr o.yields_addressOf
        · rw [reduce_unary target hd ha]
          exact (settles_operandValue (ih he.2)).bind fun v _ =>
            .inr ((v.yields_unary op).bind fun _ hw => hw)
  | conditional c e f ihc ihe ihf =>
      rw [reduce_conditional]
      refine (settles_operandValue (ihc he.2.1)).bind fun v _ =>
        (Settles.of_yields v.yields_toBool).bind fun b _ => ?_
      split
      · exact (settles_operandValue (ihe he.2.2.1)).bind fun w hw =>
          .inr ((yields_besides he.2.2.2 hw).bind fun _ hx => hx)
      · exact (settles_operandValue (ihf he.2.2.2)).bind fun w hw =>
          .inr ((yields_besides he.2.2.1 hw).bind fun _ hx => hx)

theorem settles_eval {e : Expr} (he : e.Everywhere HasSoundLeaves) :
    Settles Value.Proper (e.eval target) :=
  (settles_reduce he).bind fun _ ho => .inr (Target.yields_valueOf ho)

/-- Evaluation that does not overflow leaves a value and no report, or a report and no value, whatever
was reported before. A scalar that it leaves is of a type that has values, and is one of them. An
evaluation that overflows leaves nothing: it does not come to an end that anyone is told of. -/
theorem evalReporting_value_or_report_unless_overflows {e : Expr} (he : e.Everywhere HasSoundLeaves) :
    (e.Overflows target → ∀ stale, (e.evalReporting target).run stale = none) ∧
      (¬e.Overflows target →
        ∃ v report, (∀ stale, (e.evalReporting target).run stale = some (v, report)) ∧
          ((report = .none ∧ v.isValid = true ∧
              ∀ s, v = .scalar s → (s.kind : ScalarKind) ≠ .void ∧ s.InRange) ∨
            (report.code ≠ .ok ∧ v = .invalid))) := by
  have h : Settles Value.Proper (e.eval target) := settles_eval he
  rw [← eval_stops_iff]
  unfold evalReporting
  constructor
  · intro hstops stale
    rw [show e.eval target = _ from hstops]
    rfl
  · intro hstops
    replace h : Yields Value.Proper (e.eval target) := h.resolve_left hstops
    cases hv : e.eval target with
    | ok v =>
        rw [hv] at h
        refine ⟨v, .none, fun _ => rfl, .inl ⟨rfl, ?_, ?_⟩⟩
        · cases v with
          | invalid => exact h.elim
          | _ => rfl
        · rintro s rfl
          exact ⟨nofun, h⟩
    | error failure =>
        rw [hv] at h
        obtain ⟨hcode, hne⟩ := h
        obtain ⟨code, hcode⟩ := Option.ne_none_iff_exists'.1 hcode
        refine ⟨.invalid, ⟨code, failure.message⟩, fun stale => ?_, .inr ⟨?_, rfl⟩⟩
        · simp only [EvalError.report?, hcode]
          rfl
        · rintro rfl
          exact hne hcode

/-- A cast to a narrower type, after a failure. -/
theorem evalReporting_value_or_report_unless_overflows_narrowed :
    let target : Target :=
      { variableNamed? := fun _ => none
        types := fun _ => none
        field? := fun _ _ => none
        read? := fun _ _ => none }
    let e : Expr :=
      .cast (.arithmetic (.integral .char)) (.number (.integral .int 200) "200")
    let v : Value := .scalar (.integral .char (-56))
    e.Everywhere HasSoundLeaves ∧ ¬e.Overflows target ∧
      (e.evalReporting target).run ⟨.unknown, "division by zero"⟩ = some (v, .none) ∧
      ∃ v report, (∀ stale, (e.evalReporting target).run stale = some (v, report)) ∧
        ((report = .none ∧ v.isValid = true ∧
            ∀ s, v = .scalar s → (s.kind : ScalarKind) ≠ .void ∧ s.InRange) ∨
          (report.code ≠ .ok ∧ v = .invalid)) := by
  intro target e v
  have hconstant : (Scalar.integral .int 200).InRange := by decide
  have he : e.Everywhere HasSoundLeaves := ⟨trivial, hconstant⟩
  have hfits : ¬e.Overflows target := id
  exact ⟨he, hfits, rfl, (evalReporting_value_or_report_unless_overflows he).2 hfits⟩

/-- The distance of two arrays of `2 ^ 64 - 1` bytes that are `2 ^ 63` bytes apart. -/
theorem evalReporting_leaves_nothing :
    let t : Ty := .array (.arithmetic (.integral .char)) 0xFFFFFFFFFFFFFFFF .none
    let s : Snapshot := (Snapshot.empty.addLocal ⟨"a", t, 0x8000000000000000⟩).addLocal ⟨"b", t, 0⟩
    let e : Expr :=
      .binary (.arith .sub) (.unary .addressOf (.name "a")) (.unary .addressOf (.name "b"))
    read s.target.types "&a - &b" = .ok e ∧ e.Everywhere HasSoundLeaves ∧
      ¬∃ v report, (e.evalReporting s.target).run .none = some (v, report) := by
  intro t s e
  have hread : read s.target.types "&a - &b" = .ok e := by decide +kernel
  have hnone : (e.evalReporting s.target).run .none = none := by decide +kernel
  refine ⟨hread, ⟨trivial, ⟨trivial, trivial⟩, trivial, trivial⟩, ?_⟩
  rintro ⟨v, report, hsome⟩
  cases hnone.symm.trans hsome

end Expr

end WatchExpr
