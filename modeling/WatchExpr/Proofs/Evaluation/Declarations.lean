import WatchExpr.Proofs.Evaluation.Overflows
import WatchExpr.Proofs.Frame.Loading
import WatchExpr.Proofs.Reduction
import WatchExpr.Proofs.Subexpressions

/-!
# Undeclared names are never lost

An expression has a value only if all of its names are declared, those included that are not
evaluated. Unless it overflows it reports a failure, and where one declaration is all that an expression
lacks, its failure tells the name.
-/

namespace WatchExpr

/-- A computation succeeds only under a condition. -/
def Needs {ε α : Type} (x : Except ε α) (p : Prop) : Prop :=
  ∀ a, x = .ok a → p

namespace Needs

variable {ε α β : Type} {x : Except ε α} {f : α → Except ε β} {p q : Prop}

theorem first (h : Needs x p) : Needs (x >>= f) p := by
  intro b hb
  obtain ⟨a, ha, -⟩ := bind_eq_ok_iff.1 hb
  exact h a ha

theorem next (h : ∀ a, Needs (f a) p) : Needs (x >>= f) p := by
  intro b hb
  obtain ⟨a, -, hb⟩ := bind_eq_ok_iff.1 hb
  exact h a b hb

theorem and (hp : Needs x p) (hq : Needs x q) : Needs x (p ∧ q) :=
  fun a ha => ⟨hp a ha, hq a ha⟩

end Needs

/-! ## Names that stand for nothing -/

namespace Expr

/-- What has no value: a failure in the place of an expression, or an undeclared name. -/
def IsUndeclared (target : Target) : Expr → Prop
  | .poisoned _ => True
  | .name id => target.variableNamed? id = none
  | _ => False

/-- Nothing in an expression is a failure or an undeclared name. -/
def IsDeclared (target : Target) (e : Expr) : Prop :=
  ¬e.Somewhere (IsUndeclared target)

variable {target : Target}

theorem isDeclared_of_lookup {id : String} {v : Variable} (h : target.lookup id = .ok v) :
    (name id).IsDeclared target := by
  intro hnone
  rw [Target.lookup, show target.variableNamed? id = none from hnone] at h
  cases h

theorem isDeclared_cast {t : Ty} {e : Expr} :
    (cast t e).IsDeclared target ↔ e.IsDeclared target := by
  simp only [IsDeclared, Somewhere, IsUndeclared, false_or]

theorem isDeclared_member {e : Expr} {access : MemberAccess} {field : String} :
    (member e access field).IsDeclared target ↔ e.IsDeclared target := by
  simp only [IsDeclared, Somewhere, IsUndeclared, false_or]

theorem isDeclared_unary {op : UnaryOp} {e : Expr} :
    (unary op e).IsDeclared target ↔ e.IsDeclared target := by
  simp only [IsDeclared, Somewhere, IsUndeclared, false_or]

theorem isDeclared_binary {op : BinaryOp} {e f : Expr} :
    (binary op e f).IsDeclared target ↔ e.IsDeclared target ∧ f.IsDeclared target := by
  simp only [IsDeclared, Somewhere, IsUndeclared, false_or, not_or]

theorem isDeclared_conditional {c e f : Expr} :
    (conditional c e f).IsDeclared target ↔
      c.IsDeclared target ∧ e.IsDeclared target ∧ f.IsDeclared target := by
  simp only [IsDeclared, Somewhere, IsUndeclared, false_or, not_or]

theorem checkNames_needs_isDeclared (e : Expr) :
    Needs (e.checkNames target) (e.IsDeclared target) := by
  induction e with
  | poisoned d => exact fun _ h => nomatch h
  | truth b => exact fun _ _ => id
  | number v s => exact fun _ _ => id
  | name id =>
      intro _ h
      cases hv : target.lookup id with
      | error e => rw [checkNames, hv] at h; cases h
      | ok v => exact isDeclared_of_lookup hv
  | cast t e ih => exact fun _ h => isDeclared_cast.2 (ih _ h)
  | member e access field ih => exact fun _ h => isDeclared_member.2 (ih _ h)
  | binary op e f ihe ihf =>
      rw [isDeclared_binary]
      exact .and ihe.first (.next fun _ => ihf)
  | unary op e ih => exact fun _ h => isDeclared_unary.2 (ih _ h)
  | conditional c e f ihc ihe ihf =>
      rw [isDeclared_conditional]
      exact .and ihc.first (.next fun _ => .and ihe.first (.next fun _ => ihf))

theorem besides_needs_isDeclared (e : Expr) (v : Value) :
    Needs (e.besides target v) (e.IsDeclared target) :=
  e.checkNames_needs_isDeclared.first

theorem operandValue_needs {e : Expr} {p : Prop} (h : Needs (e.reduce target) p) :
    Needs (e.operandValue target) p :=
  h.first

/-- Whatever reduces has only declared names, those in branches that are not selected included. -/
theorem reduce_needs_isDeclared (e : Expr) : Needs (e.reduce target) (e.IsDeclared target) := by
  induction e with
  | poisoned d => exact fun _ h => nomatch h
  | truth b => exact fun _ _ => id
  | number v s => exact fun _ _ => id
  | name id =>
      intro o h
      obtain ⟨v, hv, -⟩ := bind_eq_ok_iff.1 h
      exact isDeclared_of_lookup hv
  | cast t e ih =>
      rw [reduce_cast, isDeclared_cast]
      exact (operandValue_needs ih).first
  | member e access field ih =>
      rw [isDeclared_member]
      cases access with
      | dot =>
          rw [reduce_dot]
          exact ih.first.first
      | arrow =>
          rw [reduce_arrow]
          exact (operandValue_needs ih).first
  | binary op e f ihe ihf =>
      rw [isDeclared_binary]
      have hv := operandValue_needs ihe
      have hw := operandValue_needs ihf
      by_cases hop : op = .subscript
      · subst hop
        rw [reduce_subscript]
        exact .and hv.first (.next fun _ => hw.first)
      · rw [reduce_binary target hop]
        exact .and hv.first (.next fun _ => hw.first)
  | unary op e ih =>
      rw [isDeclared_unary]
      by_cases hd : op = .deref
      · subst hd
        rw [reduce_deref]
        exact (operandValue_needs ih).first
      · by_cases ha : op = .addressOf
        · subst ha
          exact ih.first
        · rw [reduce_unary target hd ha, ← bind_assoc]
          exact (operandValue_needs ih).first.first
  | conditional c e f ihc ihe ihf =>
      rw [reduce_conditional, isDeclared_conditional]
      refine .and (operandValue_needs ihc).first (.next fun _ => .next fun b => ?_)
      -- One branch is evaluated, and the other one is asked for its names.
      split
      · exact .and (operandValue_needs ihe).first (.next fun _ => (f.besides_needs_isDeclared _).first)
      · exact .and (.next fun _ => (e.besides_needs_isDeclared _).first) (operandValue_needs ihf).first

theorem eval_needs_isDeclared (e : Expr) : Needs (e.eval target) (e.IsDeclared target) :=
  e.reduce_needs_isDeclared.first

end Expr

/-! ## One declaration more -/

/-- A computation does what another one does where that succeeds, unless it fails for an undeclared
name. -/
def Misses {α : Type} (n : String) (x y : Except EvalError α) : Prop :=
  ∀ a, y = .ok a → x = .ok a ∨ x = .error (.undeclared n)

namespace Misses

variable {α β : Type} {n : String} {x y : Except EvalError α} {f g : α → Except EvalError β}

theorem refl (x : Except EvalError α) : Misses n x x := fun _ => .inl

theorem bind (hx : Misses n x y) (hf : ∀ a, Misses n (f a) (g a)) :
    Misses n (x >>= f) (y >>= g) := by
  intro b hb
  obtain ⟨a, ha, hb⟩ := bind_eq_ok_iff.1 hb
  obtain rfl | rfl := hx a ha
  · exact hf a b hb
  · exact .inr rfl

end Misses

/-- A target knows one name more than another one does, and nothing else. -/
structure Target.Declares (target target' : Target) (n : String) : Prop where
  undeclared : target.variableNamed? n = none
  others : ∀ m, m ≠ n → target'.variableNamed? m = target.variableNamed? m
  field? : target'.field? = target.field?
  read? : target'.read? = target.read?

namespace Target.Declares

variable {target target' : Target} {n : String}

theorem lookup_misses (h : target.Declares target' n) (id : String) :
    Misses n (target.lookup id) (target'.lookup id) := by
  by_cases hid : id = n
  · subst hid
    exact fun _ _ => .inr (by rw [lookup, h.undeclared])
  · rw [lookup, lookup, h.others id hid]
    exact .refl _

theorem lookup_eq (h : target.Declares target' n) {id : String} {v : Variable}
    (hv : target.lookup id = .ok v) : target'.lookup id = .ok v := by
  have hid : id ≠ n := by
    rintro rfl
    rw [lookup, h.undeclared] at hv
    cases hv
  rwa [lookup, h.others id hid]

theorem member_eq (h : target.Declares target' n) : target'.member = target.member := by
  funext t name
  unfold member
  rw [h.field?]

theorem readAddress_eq (h : target.Declares target' n) :
    target'.readAddress = target.readAddress := by
  funext a
  unfold readAddress read
  rw [h.read?]

theorem load_eq (h : target.Declares target' n) (t : Ty) (a : UInt64) :
    target'.load t a = target.load t a := by
  induction t generalizing a with
  | scalar k q =>
      cases k with
      | void => rfl
      | arithmetic k => rw [load, load, read, read, h.read?]
  | tagged r q => rfl
  | pointer t q ih => rw [load, load, h.readAddress_eq]
  | reference t q ih =>
      rw [load, load, h.readAddress_eq]
      exact congrArg _ (funext ih)
  | array t n q ih => rfl

theorem object_eq (h : target.Declares target' n) : target'.object = target.object := by
  funext t a
  unfold object follow
  rw [h.readAddress_eq]

theorem valueOf_eq (h : target.Declares target' n) : target'.valueOf = target.valueOf := by
  funext o
  cases o with
  | object p => exact h.load_eq p.type p.address
  | value v => rfl

theorem decayedValueOf_eq (h : target.Declares target' n) :
    target'.decayedValueOf = target.decayedValueOf := by
  funext o
  unfold decayedValueOf
  rw [h.valueOf_eq]

theorem memberOf_eq (h : target.Declares target' n) : target'.memberOf = target.memberOf := by
  funext t a name
  unfold memberOf
  rw [h.member_eq, h.object_eq]

theorem elementOf_eq (h : target.Declares target' n) : target'.elementOf = target.elementOf := by
  funext v w
  unfold elementOf
  rw [h.object_eq]

theorem pointeeOf_eq (h : target.Declares target' n) : target'.pointeeOf = target.pointeeOf := by
  funext v
  unfold pointeeOf
  rw [h.object_eq]

end Target.Declares

namespace Expr

variable {target target' : Target} {n : String}

theorem checkNames_misses (h : target.Declares target' n) (e : Expr) :
    Misses n (e.checkNames target) (e.checkNames target') := by
  induction e with
  | poisoned d => exact .refl _
  | truth b => exact .refl _
  | number v s => exact .refl _
  | name id => exact (h.lookup_misses id).bind fun _ => .refl _
  | cast t e ih => exact ih
  | member e access field ih => exact ih
  | binary op e f ihe ihf => exact ihe.bind fun _ => ihf
  | unary op e ih => exact ih
  | conditional c e f ihc ihe ihf => exact ihc.bind fun _ => ihe.bind fun _ => ihf

/-- Where all names are declared already, the types are known already. -/
theorem staticType_eq_of_checkNames (h : target.Declares target' n) {e : Expr}
    (he : e.checkNames target = .ok ()) : e.staticType target' = e.staticType target := by
  induction e with
  | poisoned d => rfl
  | truth b => rfl
  | number v s => rfl
  | name id =>
      cases hv : target.lookup id with
      | error failure => rw [checkNames, hv] at he; cases he
      | ok v => rw [staticType, staticType, hv, h.lookup_eq hv]
  | cast t e ih => rw [staticType, staticType, ih he]
  | member e access field ih => rw [staticType, staticType, ih he, h.member_eq]
  | binary op e f ihe ihf =>
      rw [checkNames] at he
      obtain ⟨_, he, hf⟩ := bind_eq_ok_iff.1 he
      by_cases hop : op = .subscript
      · subst hop
        rw [staticType, staticType, ihe he, ihf hf]
      · rw [staticType_binary target' hop, staticType_binary target hop, ihe he, ihf hf]
  | unary op e ih => rw [staticType, staticType, ih he]
  | conditional c e f ihc ihe ihf =>
      obtain ⟨_, hc, he⟩ := bind_eq_ok_iff.1 he
      obtain ⟨_, he, hf⟩ := bind_eq_ok_iff.1 he
      rw [staticType, staticType, ihc hc, ihe he, ihf hf]

theorem besides_misses (h : target.Declares target' n) (e : Expr) (v : Value) :
    Misses n (e.besides target v) (e.besides target' v) := by
  intro w hw
  obtain ⟨_, hnames, hw⟩ := bind_eq_ok_iff.1 hw
  obtain hok | hmissing := checkNames_misses h e () hnames
  · rw [staticType_eq_of_checkNames h hok] at hw
    exact .inl (bind_eq_ok_iff.2 ⟨(), hok, hw⟩)
  · exact .inr (by rw [besides, hmissing]; rfl)

theorem operandValue_misses (h : target.Declares target' n) {e : Expr}
    (he : Misses n (e.reduce target) (e.reduce target')) :
    Misses n (e.operandValue target) (e.operandValue target') := by
  unfold operandValue
  rw [h.decayedValueOf_eq]
  exact he.bind fun _ => .refl _

/-- With one declaration less an expression reduces to the same operand or fails for the name. -/
theorem reduce_misses (h : target.Declares target' n) (e : Expr) :
    Misses n (e.reduce target) (e.reduce target') := by
  induction e with
  | poisoned d => exact .refl _
  | truth b => exact .refl _
  | number v s => exact .refl _
  | name id =>
      rw [reduce, reduce, h.object_eq]
      exact (h.lookup_misses id).bind fun _ => .refl _
  | cast t e ih =>
      rw [reduce_cast, reduce_cast]
      exact (operandValue_misses h ih).bind fun _ => .refl _
  | member e access field ih =>
      cases access with
      | dot =>
          rw [reduce_dot, reduce_dot, eval, eval, h.valueOf_eq, h.memberOf_eq]
          exact (ih.bind fun _ => .refl _).bind fun _ => .refl _
      | arrow =>
          rw [reduce_arrow, reduce_arrow, h.memberOf_eq]
          exact (operandValue_misses h ih).bind fun _ => .refl _
  | binary op e f ihe ihf =>
      have hv := operandValue_misses h ihe
      have hw := operandValue_misses h ihf
      by_cases hop : op = .subscript
      · subst hop
        rw [reduce_subscript, reduce_subscript, h.elementOf_eq]
        exact hv.bind fun _ => hw.bind fun _ => .refl _
      · rw [reduce_binary target hop, reduce_binary target' hop]
        exact hv.bind fun _ => hw.bind fun _ => .refl _
  | unary op e ih =>
      by_cases hd : op = .deref
      · subst hd
        rw [reduce_deref, reduce_deref, h.pointeeOf_eq]
        exact (operandValue_misses h ih).bind fun _ => .refl _
      · by_cases ha : op = .addressOf
        · subst ha
          exact ih.bind fun _ => .refl _
        · rw [reduce_unary target hd ha, reduce_unary target' hd ha]
          exact (operandValue_misses h ih).bind fun _ => .refl _
  | conditional c e f ihc ihe ihf =>
      rw [reduce_conditional, reduce_conditional]
      refine (operandValue_misses h ihc).bind fun v => (Misses.refl _).bind fun b => ?_
      split
      · exact (operandValue_misses h ihe).bind fun w =>
          (besides_misses h f w).bind fun _ => .refl _
      · exact (operandValue_misses h ihf).bind fun w =>
          (besides_misses h e w).bind fun _ => .refl _

theorem eval_misses (h : target.Declares target' n) (e : Expr) :
    Misses n (e.eval target) (e.eval target') := by
  rw [eval, eval, h.valueOf_eq]
  exact (reduce_misses h e).bind fun _ => .refl _

end Expr

namespace Snapshot

/-- A local variable adds its name to those that stand for something, and changes nothing else. -/
theorem declares_addLocal {s : Snapshot} {v : Variable} (hnone : s.variableNamed? v.name = none) :
    s.target.Declares (s.addLocal v).target v.name := by
  obtain ⟨scopes, hscopes, -⟩ := s.exists_addLocal_eq v
  have hothers (m : String) (hm : m ≠ v.name) :
      (s.addLocal v).variableNamed? m = s.variableNamed? m := by
    cases hg : globalName? m with
    | some name => rw [variableNamed?, variableNamed?, hg, hscopes]
    | none =>
        rw [variableNamed?_eq_lookup _ hg, variableNamed?_eq_lookup _ hg, bindings_addLocal,
          List.lookup_cons, beq_false_of_ne hm]
  refine ⟨hnone, hothers, ?_, ?_⟩
  · rw [hscopes]
    rfl
  · rw [hscopes]
    rfl

end Snapshot

namespace Expr

/-- A failure in the place of an expression and an undeclared name are never lost: whatever contains one
has no value and reports a failure, unless it overflows, which stops it before it gets there. And if a
value is only a matter of declaring one local variable, then without it the expression fails for just the
name of that variable. -/
theorem undeclared_never_lost_unless_overflows (e : Expr) :
    (∀ target : Target, e.Somewhere (IsUndeclared target) →
        (e.Overflows target → Stops (e.eval target)) ∧
          (¬e.Overflows target →
            ∃ failure report, e.eval target = .error failure ∧ failure.report? = some report)) ∧
      ∀ (s : Snapshot) (n : String), s.variableNamed? n = none → e.Somewhere (· = .name n) →
        ∀ t a v, e.eval (s.addLocal ⟨n, t, a⟩).target = .ok v →
          ∃ failure, e.eval s.target = .error failure ∧
            failure.report? = some ⟨.undeclared, "use of undeclared identifier '" ++ n ++ "'"⟩ := by
  have hlost (target : Target) (h : e.Somewhere (IsUndeclared target)) (v : Value) :
      e.eval target ≠ .ok v := fun hv => e.eval_needs_isDeclared v hv h
  constructor
  · intro target h
    refine ⟨eval_stops_iff.2, fun hfits => ?_⟩
    cases hv : e.eval target with
    | error failure =>
        have hstops : failure ≠ .distanceOverflow := by
          rintro rfl
          exact hfits (eval_stops_iff.1 hv)
        obtain ⟨code, hcode⟩ := EvalError.exists_code? hstops
        exact ⟨failure, ⟨code, failure.message⟩, rfl, by rw [EvalError.report?, hcode]; rfl⟩
    | ok v => exact absurd hv (hlost target h v)
  · intro s n hnone hn t a v hv
    have hdeclares : s.target.Declares (s.addLocal ⟨n, t, a⟩).target n :=
      Snapshot.declares_addLocal hnone
    have hundeclared : e.Somewhere (IsUndeclared s.target) := by
      refine hn.mono fun e he => ?_
      subst he
      exact hnone
    obtain hok | hmissing := eval_misses hdeclares e v hv
    · exact absurd hok (hlost s.target hundeclared v)
    · exact ⟨.undeclared n, hmissing, rfl⟩

/-- A name in the branch that is not selected. -/
theorem undeclared_never_lost_unless_overflows_unselected :
    let s : Snapshot := .empty
    let e : Expr :=
      .conditional (.truth true) (.number (.integral .int 2) "2") (.unary .addressOf (.name "x"))
    s.variableNamed? "x" = none ∧ e.Somewhere (IsUndeclared s.target) ∧ ¬e.Overflows s.target ∧
      e.Somewhere (· = .name "x") ∧
      e.eval (s.addLocal ⟨"x", .arithmetic (.integral .int), 16⟩).target =
        .ok (.scalar (.integral .int 2)) ∧
      (∃ failure report, e.eval s.target = .error failure ∧ failure.report? = some report) ∧
      ∃ failure, e.eval s.target = .error failure ∧
        failure.report? = some ⟨.undeclared, "use of undeclared identifier 'x'"⟩ := by
  intro s e
  have hnone : s.variableNamed? "x" = none := rfl
  have hundeclared : e.Somewhere (IsUndeclared s.target) := .inr (.inr (.inr (.inr hnone)))
  have hfits : ¬e.Overflows s.target := by
    rintro (hcondition | ⟨v, -, b, -, hbranch⟩)
    · exact hcondition
    · cases b <;> exact hbranch
  have hx : e.Somewhere (· = .name "x") := .inr (.inr (.inr (.inr rfl)))
  have hv : e.eval (s.addLocal ⟨"x", .arithmetic (.integral .int), 16⟩).target =
      .ok (.scalar (.integral .int 2)) := by decide
  obtain ⟨hlost, htold⟩ := undeclared_never_lost_unless_overflows e
  exact ⟨hnone, hundeclared, hfits, hx, hv, (hlost s.target hundeclared).2 hfits,
    htold s "x" hnone hx _ _ _ hv⟩

/-- A name behind the distance of two arrays of `2 ^ 64 - 1` bytes that are `2 ^ 63` bytes apart. -/
theorem undeclared_lost_behind_overflow :
    let t : Ty := .array (.arithmetic (.integral .char)) 0xFFFFFFFFFFFFFFFF .none
    let s : Snapshot := (Snapshot.empty.addLocal ⟨"a", t, 0x8000000000000000⟩).addLocal ⟨"b", t, 0⟩
    let e : Expr :=
      .binary (.arith .add)
        (.binary (.arith .sub) (.unary .addressOf (.name "a")) (.unary .addressOf (.name "b")))
        (.name "nope")
    read s.target.types "(&a - &b) + nope" = .ok e ∧ e.Somewhere (IsUndeclared s.target) ∧
      ¬∃ failure report, e.eval s.target = .error failure ∧ failure.report? = some report := by
  intro t s e
  have hread : read s.target.types "(&a - &b) + nope" = .ok e := by decide +kernel
  have hstops : e.eval s.target = .error .distanceOverflow := by decide +kernel
  refine ⟨hread, .inr (.inr rfl), ?_⟩
  rintro ⟨failure, report, hfailure, hreport⟩
  rw [hstops] at hfailure
  cases hfailure
  cases hreport

end Expr

end WatchExpr
