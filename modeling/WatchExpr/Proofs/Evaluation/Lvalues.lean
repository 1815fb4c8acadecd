import WatchExpr.Proofs.Evaluation.Carried
import WatchExpr.Proofs.Evaluation.Codes

/-!
# Objects and their addresses

The operators that reach an object agree with each other where references stand only outermost in
types: `*&e` is `e`, `&*e` is `e`, `a[b]` is `*(a + b)` and `b[a]`, and `a->m` is `(*a).m`. Where
both sides fail they may say so differently, but under the same code.
-/

namespace WatchExpr

namespace Ty

/-- There is no reference in the type. -/
def ReferenceFree : Ty → Prop
  | .scalar _ _ | .tagged _ _ => True
  | .pointer t _ | .array t _ _ => t.ReferenceFree
  | .reference _ _ => False

theorem ReferenceFree.isReference {t : Ty} (h : t.ReferenceFree) : t.isReference = false := by
  cases t with
  | reference t q => exact h.elim
  | _ => rfl

theorem hereditary_referenceFree : Hereditary ReferenceFree where
  pointee h := h
  referent h := h.elim
  element h := h
  withCv {t} q h := by cases t <;> exact h

/-- The type is not `void`. -/
def NotVoid (t : Ty) : Prop := t.isVoid = false

theorem NotVoid.withCv {t : Ty} (q : Qualifiers) (h : t.NotVoid) : (t.withCv q).NotVoid := by
  cases t with
  | scalar k _ => cases k <;> exact h
  | _ => rfl

end Ty

open Ty (ReferenceFree NotVoid hereditary_referenceFree)

/-! ## Operations -/

/-- A sum of scalars is always defined. -/
theorem Scalar.exists_arith_add (a b : Scalar) : ∃ s, a.arith .add b = .ok s := by
  unfold arith
  split
  · exact ⟨_, rfl⟩
  · exact ⟨_, rfl⟩

theorem Pointer.advance_of_isToVoid {p : Pointer} (h : p.isToVoid = true) (n : Int) :
    p.advance n = .error (.incompletePointee p.pointee) := by
  obtain ⟨a, t⟩ := p
  unfold isToVoid Ty.isVoid at h
  split at h
  · rename_i ht
    subst ht
    rfl
  · cases h

namespace Value

variable {v w : Value}

theorem binary_arith {op : ArithOp} (hv : v.isValid = true) (hw : w.isValid = true) :
    v.binary (.arith op) w = v.arith op w := by
  simp only [binary, hv, hw, Bool.and_self, ↓reduceIte]

/-- Only an object in memory changes where arrays become pointers. -/
theorem decayed_arith {op : ArithOp} :
    Ensures (fun x => x.decayed = x) (v.arith op w) := by
  intro x h
  obtain ⟨_, _, _, -, -, -, rfl⟩ | ⟨_, _, _, _, -, -, -, -, rfl⟩ | ⟨_, _, _, _, -, -, -, -, rfl⟩ |
    ⟨_, _, _, _, -, -, -, -, rfl⟩ | ⟨_, _, _, -, -, -, -, rfl⟩ := arith_cases h
  all_goals rfl

end Value

namespace Target

variable {target : Target} {v w : Value}

theorem object_of_referenceFree {t : Ty} (h : t.ReferenceFree) (a : UInt64) :
    target.object t a = .ok (.object ⟨t, a⟩) :=
  object_of_isReference_eq_false h.isReference

/-- What a pointer with an offset points to, as an element and by way of the sum. -/
theorem element_same (p : Pointer) (n : Int) :
    SameUpToMessage
      (if p.isToVoid then .error .subscriptOfVoid
        else do let q ← p.advance n; target.object q.pointee q.address)
      (do
        let v ← (do return Value.pointer (← p.advance n))
        target.pointeeOf v) := by
  split
  · rename_i hvoid
    rw [Pointer.advance_of_isToVoid hvoid]
    exact .error rfl
  · rename_i hvoid
    rw [bind_assoc]
    refine .bind (.refl _) fun q hq => ?_
    have hq : q.isToVoid = false := by
      rw [Pointer.isToVoid, Pointer.pointee_advance hq]
      exact Bool.eq_false_iff.2 hvoid
    have hpointee : target.pointeeOf (.pointer q) = target.object q.pointee q.address :=
      if_neg (Bool.eq_false_iff.1 hq)
    exact hpointee ▸ .refl _

/-- An element is what the sum of base and index points to. -/
theorem elementOf_same_add (v w : Value) :
    SameUpToMessage (target.elementOf v w) (do target.pointeeOf (← v.arith .add w)) := by
  cases v with
  | invalid => cases w <;> exact .error rfl
  | scalar a =>
      cases w with
      | invalid => cases a <;> exact .error rfl
      | scalar b =>
          obtain ⟨s, hs⟩ := a.exists_arith_add b
          have hsum : (Value.scalar a).arith .add (.scalar b) = .ok (.scalar s) := by
            cases a <;> cases b <;> exact bind_eq_ok_iff.2 ⟨s, hs, rfl⟩
          rw [hsum]
          cases a <;> cases b <;> exact .error rfl
      | pointer p =>
          cases a with
          | integral k n => exact element_same p n
          | floating k x => exact .error rfl
      | aggregate t a' => cases a <;> exact .error rfl
  | pointer p =>
      cases w with
      | scalar b =>
          cases b with
          | integral k n => exact element_same p n
          | floating k x => exact .error rfl
      | _ => exact .error rfl
  | aggregate t a =>
      cases w with
      | scalar b => cases b <;> exact .error rfl
      | _ => exact .error rfl

/-- Base and index may be exchanged. -/
theorem elementOf_same_comm (v w : Value) :
    SameUpToMessage (target.elementOf v w) (target.elementOf w v) := by
  cases v with
  | invalid =>
      cases w with
      | scalar b => cases b <;> exact .error rfl
      | _ => exact .error rfl
  | scalar a =>
      cases w with
      | scalar b => cases a <;> cases b <;> exact .error rfl
      | pointer p =>
          cases a with
          | integral k n => exact .refl _
          | floating k x => exact .error rfl
      | _ => cases a <;> exact .error rfl
  | pointer p =>
      cases w with
      | scalar b =>
          cases b with
          | integral k n => exact .refl _
          | floating k x => exact .error rfl
      | _ => exact .error rfl
  | aggregate t a =>
      cases w with
      | scalar b => cases b <;> exact .error rfl
      | _ => exact .error rfl

/-- The object that is taken to be somewhere is there, unless nothing is known of it. -/
theorem pointeeOf_pointer {a : UInt64} {t : Ty} (h : t.ReferenceFree) (hvoid : t.NotVoid) :
    target.pointeeOf (.pointer ⟨a, t⟩) = .ok (.object ⟨t, a⟩) := by
  have hp : Pointer.isToVoid ⟨a, t⟩ = false := hvoid
  simp only [pointeeOf, hp]
  exact object_of_referenceFree h a

/-- A member of what a pointer points to is found by way of the object that lies there. -/
theorem memberOf_eq_ok_iff {p : Pointer} (h : p.pointee.ReferenceFree) (name : String)
    (o : Operand) :
    target.memberOf p.pointee p.address name = .ok o ↔
      (do
        match ← target.valueOf (← target.pointeeOf (.pointer p)) with
        | .aggregate t a => target.memberOf t a name
        | v => .error (.notARecord v.type?)) = .ok o := by
  obtain ⟨a, t⟩ := p
  -- Only a record has members, and only the object of a record or an array is left in memory.
  have hnone {x : Except EvalError Operand} (hx : Ensures (fun _ => False) x) :
      (.error (.notARecord (some t)) : Except EvalError Operand) = .ok o ↔ x = .ok o :=
    ⟨nofun, fun ho => (hx o ho).elim⟩
  cases t with
  | scalar k q =>
      cases k with
      | void => exact hnone (.error _)
      | arithmetic k =>
          rw [pointeeOf_pointer h rfl]
          refine hnone (Ensures.bind (p := fun v => ∃ s, v = Value.scalar s) ?_ ?_)
          · exact .next fun _ => .ok ⟨_, rfl⟩
          · rintro _ ⟨s, rfl⟩
            exact .error _
  | tagged r q => exact Iff.rfl
  | pointer u q =>
      rw [pointeeOf_pointer h rfl]
      refine hnone (Ensures.bind (p := fun v => ∃ q, v = Value.pointer q) ?_ ?_)
      · exact .next fun _ => .ok ⟨_, rfl⟩
      · rintro _ ⟨s, rfl⟩
        exact .error _
  | reference u q => exact h.elim
  | array u n q => exact hnone (.error _)

theorem object_isObject (t : Ty) (a : UInt64) :
    Ensures (fun o => ∃ place, o = .object place) (target.object t a) :=
  .next fun place => .ok ⟨place, rfl⟩

/-- Nothing that is selected by a subscript is of type `void`. -/
theorem notVoid_elementOf (hv : v.Carries ReferenceFree) (hw : w.Carries ReferenceFree) :
    Ensures (Operand.Carries NotVoid) (target.elementOf v w) := by
  intro o h
  obtain ⟨p, q, n, hp, hvoid, hq, ho⟩ := elementOf_cases h
  have hpointee := Pointer.pointee_advance hq
  have hfree : q.pointee.ReferenceFree := by
    rw [hpointee]
    obtain rfl | rfl := hp
    · exact hv
    · exact hw
  rw [object_of_referenceFree hfree] at ho
  cases ho
  rw [Operand.Carries, NotVoid, hpointee]
  exact hvoid

/-- Nothing that is pointed to is of type `void`. -/
theorem notVoid_pointeeOf (hv : v.Carries ReferenceFree) :
    Ensures (Operand.Carries NotVoid) (target.pointeeOf v) := by
  intro o h
  obtain ⟨p, rfl, hvoid, ho⟩ := pointeeOf_cases h
  rw [object_of_referenceFree hv] at ho
  cases ho
  exact hvoid

end Target

namespace Expr

variable {target : Target} {e a b : Expr}

/-- The expression is of a form that designates an object. -/
def IsLvalue : Expr → Prop
  | .name _ | .member _ _ _ | .binary .subscript _ _ | .unary .deref _ => True
  | _ => False

/-- What has a form that designates an object does designate one, if it reduces at all. -/
theorem IsLvalue.isObject (h : e.IsLvalue) :
    Ensures (fun o => ∃ place, o = .object place) (e.reduce target) := by
  cases e with
  | name id => exact .next fun v => Target.object_isObject _ _
  | member e access field =>
      cases access with
      | dot =>
          refine .next fun o => .next fun v => ?_
          split
          · exact .next fun f => Target.object_isObject _ _
          · exact .error _
      | arrow =>
          refine .next fun o => .next fun v => ?_
          split
          · exact .next fun f => Target.object_isObject _ _
          · exact .error _
  | binary op e f =>
      cases op with
      | subscript =>
          refine .next fun o => .next fun v => .next fun o' => .next fun w => ?_
          intro x hx
          obtain ⟨_, q, _, -, -, -, hx⟩ := Target.elementOf_cases hx
          exact Target.object_isObject _ _ x hx
      | _ => exact h.elim
  | unary op e =>
      cases op with
      | deref =>
          refine .next fun o => .next fun v => ?_
          intro x hx
          obtain ⟨p, -, -, hx⟩ := Target.pointeeOf_cases hx
          exact Target.object_isObject _ _ x hx
      | _ => exact h.elim
  | _ => exact h.elim

/-- Where no variable or member is of type `void`, no object is that an expression designates. -/
theorem IsLvalue.notVoid (ht : target.DeclaresOnly ReferenceFree)
    (hv : target.DeclaresOnly NotVoid) (he : e.Everywhere (CastsTo ReferenceFree))
    (h : e.IsLvalue) : Ensures (Operand.Carries NotVoid) (e.reduce target) := by
  have hoperand {e : Expr} (he : e.Everywhere (CastsTo ReferenceFree)) :
      Ensures (Value.Carries ReferenceFree) (e.operandValue target) :=
    carries_operandValue hereditary_referenceFree (carries_reduce hereditary_referenceFree ht he)
  cases e with
  | name id => exact Target.carries_variable hv id
  | member e access field => exact carries_member NotVoid.withCv hv e access field
  | binary op e f =>
      cases op with
      | subscript =>
          rw [reduce_subscript]
          exact (hoperand he.2.1).bind fun v hv => (hoperand he.2.2).bind fun w hw =>
            Target.notVoid_elementOf hv hw
      | _ => exact h.elim
  | unary op e =>
      cases op with
      | deref =>
          rw [reduce_deref]
          exact (hoperand he.2).bind fun v hv => Target.notVoid_pointeeOf hv
      | _ => exact h.elim
  | _ => exact h.elim

/-! ## Values -/

theorem eval_eq (e : Expr) : e.eval target = (do target.valueOf (← e.reduce target)) := rfl

/-- The address of an object is that at which the expression found it. -/
theorem operandValue_addressOf {place : Place} (h : e.reduce target = .ok (.object place)) :
    (unary .addressOf e).operandValue target = .ok (.pointer ⟨place.address, place.type⟩) := by
  rw [operandValue, reduce, h]
  rfl

/-- The sum of two operands, taken as an operand again. -/
theorem operandValue_arith (op : ArithOp) (a b : Expr) :
    (binary (.arith op) a b).operandValue target = (do
      let v ← a.operandValue target
      let w ← b.operandValue target
      v.arith op w) := by
  rw [operandValue, reduce_binary target (by simp : BinaryOp.arith op ≠ .subscript)]
  cases hv : a.operandValue target with
  | error e => rfl
  | ok v =>
      cases hw : b.operandValue target with
      | error e => rfl
      | ok w =>
          simp only [bind, Except.bind,
            Value.binary_arith (isValid_of_operandValue hv) (isValid_of_operandValue hw)]
          cases hx : v.arith op w with
          | error e => rfl
          | ok x => exact congrArg Except.ok (Value.decayed_arith x hx)

/-! ## Identities -/

/-- `*&e` is `e`, whatever its type is. -/
theorem reduce_deref_addressOf (ht : target.DeclaresOnly ReferenceFree)
    (hv : target.DeclaresOnly NotVoid) (he : e.Everywhere (CastsTo ReferenceFree))
    (h : e.IsLvalue) : (unary .deref (unary .addressOf e)).reduce target = e.reduce target := by
  rw [reduce_deref]
  cases hr : e.reduce target with
  | error failure =>
      rw [operandValue, reduce, hr]
      rfl
  | ok o =>
      obtain ⟨place, rfl⟩ := h.isObject o hr
      rw [operandValue_addressOf hr]
      exact Target.pointeeOf_pointer
        (carries_reduce hereditary_referenceFree ht he _ hr) (h.notVoid ht hv he _ hr)

/-- `*&e` is `e`, but an object of type `void` is refused for another reason. -/
theorem eval_deref_addressOf_same (ht : target.DeclaresOnly ReferenceFree)
    (he : e.Everywhere (CastsTo ReferenceFree)) (h : e.IsLvalue) :
    SameUpToMessage ((unary .deref (unary .addressOf e)).eval target) (e.eval target) := by
  rw [eval_eq, eval_eq, reduce_deref]
  cases hr : e.reduce target with
  | error failure =>
      rw [operandValue, reduce, hr]
      exact .refl _
  | ok o =>
      obtain ⟨⟨t, a⟩, rfl⟩ := h.isObject o hr
      rw [operandValue_addressOf hr]
      by_cases hvoid : t.isVoid = true
      · cases t with
        | scalar k q =>
            cases k with
            | void => exact .error rfl
            | arithmetic k => cases hvoid
        | _ => cases hvoid
      · have hpointee : target.pointeeOf (.pointer ⟨a, t⟩) = .ok (.object ⟨t, a⟩) :=
          Target.pointeeOf_pointer (carries_reduce hereditary_referenceFree ht he _ hr)
            (Bool.eq_false_iff.2 hvoid)
        exact congrArg (fun x => (x >>= target.valueOf).mapError EvalError.code?) hpointee

/-- `&*e` is `e` where this is a pointer. -/
theorem eval_addressOf_deref (ht : target.DeclaresOnly ReferenceFree)
    (he : e.Everywhere (CastsTo ReferenceFree)) {p : Pointer}
    (h : e.eval target = .ok (.pointer p)) (hvoid : p.isToVoid = false) :
    (unary .addressOf (unary .deref e)).eval target = .ok (.pointer p) := by
  have hv := operandValue_of_eval h
  have hfree : p.pointee.ReferenceFree :=
    carries_operandValue hereditary_referenceFree (carries_reduce hereditary_referenceFree ht he)
      _ hv
  have hr : (unary .deref e).reduce target = .ok (.object ⟨p.pointee, p.address⟩) := by
    rw [reduce_deref, hv]
    exact Target.pointeeOf_pointer hfree hvoid
  rw [eval_eq, reduce, hr]
  rfl

/-- `a[b]` is `*(a + b)`. -/
theorem eval_subscript_same_deref_add (a b : Expr) :
    SameUpToMessage ((binary .subscript a b).eval target)
      ((unary .deref (binary (.arith .add) a b)).eval target) := by
  rw [eval_eq, eval_eq, reduce_subscript, reduce_deref, operandValue_arith]
  refine .bind ?_ fun o _ => .refl _
  simp only [bind_assoc]
  exact .bind (.refl _) fun v _ => .bind (.refl _) fun w _ => Target.elementOf_same_add v w

/-- `a[b]` is `b[a]`. -/
theorem eval_subscript_same_comm {v w : Value} (ha : a.eval target = .ok v)
    (hb : b.eval target = .ok w) :
    SameUpToMessage ((binary .subscript a b).eval target)
      ((binary .subscript b a).eval target) := by
  rw [eval_eq, eval_eq, reduce_subscript, reduce_subscript, operandValue_of_eval ha,
    operandValue_of_eval hb]
  exact .bind (Target.elementOf_same_comm _ _) fun o _ => .refl _

/-- `a->m` is `(*a).m`. -/
theorem eval_arrow_eq_ok_iff (ht : target.DeclaresOnly ReferenceFree)
    (ha : a.Everywhere (CastsTo ReferenceFree)) (m : String) (v : Value) :
    (member a .arrow m).eval target = .ok v ↔
      (member (unary .deref a) .dot m).eval target = .ok v := by
  rw [eval_eq, eval_eq, reduce_arrow, reduce_dot, eval_eq, reduce_deref]
  cases hw : a.operandValue target with
  | error failure => exact Iff.rfl
  | ok w =>
      cases w with
      | pointer p =>
          have hfree : p.pointee.ReferenceFree :=
            carries_operandValue hereditary_referenceFree
              (carries_reduce hereditary_referenceFree ht ha) _ hw
          rw [bind_eq_ok_iff, bind_eq_ok_iff]
          simp only [bind_assoc]
          exact exists_congr fun o => and_congr_left' (Target.memberOf_eq_ok_iff hfree m o)
      | _ => exact ⟨nofun, nofun⟩

/-- How the operators that reach an object agree, where references stand only outermost in the
types that were declared or cast to. -/
theorem lvalue_identities (ht : target.DeclaresOnly ReferenceFree) :
    (∀ e : Expr, e.Everywhere (CastsTo ReferenceFree) → e.IsLvalue →
      SameUpToMessage ((unary .deref (unary .addressOf e)).eval target) (e.eval target) ∧
      (target.DeclaresOnly NotVoid →
        (unary .deref (unary .addressOf e)).eval target = e.eval target)) ∧
    (∀ (e : Expr) (p : Pointer), e.Everywhere (CastsTo ReferenceFree) →
      e.eval target = .ok (.pointer p) → p.isToVoid = false →
      (unary .addressOf (unary .deref e)).eval target = .ok (.pointer p)) ∧
    (∀ a b : Expr, SameUpToMessage ((binary .subscript a b).eval target)
      ((unary .deref (binary (.arith .add) a b)).eval target)) ∧
    (∀ (a b : Expr) (v w : Value), a.eval target = .ok v → b.eval target = .ok w →
      SameUpToMessage ((binary .subscript a b).eval target)
        ((binary .subscript b a).eval target)) ∧
    (∀ (a : Expr) (m : String) (v : Value), a.Everywhere (CastsTo ReferenceFree) →
      ((member a .arrow m).eval target = .ok v ↔
        (member (unary .deref a) .dot m).eval target = .ok v)) := by
  refine ⟨fun e he h => ⟨eval_deref_addressOf_same ht he h, fun hv => ?_⟩, ?_, ?_, ?_, ?_⟩
  · rw [eval_eq, eval_eq, reduce_deref_addressOf ht hv he h]
  · exact fun e p he => eval_addressOf_deref ht he
  · exact eval_subscript_same_deref_add
  · exact fun a b v w => eval_subscript_same_comm
  · exact fun a m v ha => eval_arrow_eq_ok_iff ht ha m v

/-- A member through a reference to a pointer, and an element of an array. -/
theorem lvalue_identities_record :
    let int : Ty := .arithmetic (.integral .int)
    let record : Ty := .tagged ⟨"P", 4⟩ .none
    let target : Target :=
      { variableNamed? := fun n =>
          if n = "q" then some ⟨n, .reference record.pointerTo .none, 8⟩
          else if n = "a" then some ⟨n, .array int 2 .none, 32⟩ else none
        types := fun _ => none
        field? := fun _ f => if f = "x" then some ⟨f, int, 0⟩ else none
        read? := fun a n =>
          if a = 8 ∧ n = 8 then some (Bytes.ofAddress 16)
          else if a = 16 ∧ n = 8 then some (Bytes.ofAddress 24)
          else if a = 24 ∧ n = 4 then some [7, 0, 0, 0]
          else if a = 36 ∧ n = 4 then some [9, 0, 0, 0] else none }
    let one : Expr := .number (.integral .int 1) "1"
    let x : Expr := .member (.name "q") .arrow "x"
    target.DeclaresOnly ReferenceFree ∧ target.DeclaresOnly NotVoid ∧
      x.Everywhere (CastsTo ReferenceFree) ∧ x.IsLvalue ∧
      x.eval target = .ok (.scalar (.integral .int 7)) ∧
      (unary .deref (unary .addressOf x)).eval target = x.eval target ∧
      (name "q").eval target = .ok (.pointer ⟨24, record⟩) ∧
      (unary .addressOf (unary .deref (.name "q"))).eval target = .ok (.pointer ⟨24, record⟩) ∧
      (binary .subscript (.name "a") one).eval target = .ok (.scalar (.integral .int 9)) ∧
      SameUpToMessage ((binary .subscript (.name "a") one).eval target)
        ((unary .deref (binary (.arith .add) (.name "a") one)).eval target) ∧
      SameUpToMessage ((binary .subscript (.name "a") one).eval target)
        ((binary .subscript one (.name "a")).eval target) ∧
      (member (unary .deref (.name "q")) .dot "x").eval target =
        .ok (.scalar (.integral .int 7)) := by
  intro int record target one x
  have hdeclares {p : Ty → Prop} (hr : p record.pointerTo) (ha : p (.array int 2 .none))
      (hx : p int) : target.DeclaresOnly p := by
    refine ⟨fun {name v} h => ?_, fun {r name f} h => ?_⟩
    · simp only [target] at h
      split at h
      · cases h
        exact hr
      · split at h
        · cases h
          exact ha
        · cases h
    · simp only [target] at h
      split at h
      · cases h
        exact hx
      · cases h
  have hfree : target.DeclaresOnly ReferenceFree := hdeclares trivial trivial trivial
  have hvoid : target.DeclaresOnly NotVoid := hdeclares rfl rfl rfl
  have hx : x.Everywhere (CastsTo ReferenceFree) := ⟨trivial, trivial⟩
  have hseven : x.eval target = .ok (.scalar (.integral .int 7)) := by decide +kernel
  have hq : (name "q").eval target = .ok (.pointer ⟨24, record⟩) := by decide +kernel
  have hnine : (binary .subscript (.name "a") one).eval target =
      .ok (.scalar (.integral .int 9)) := by decide +kernel
  have ha : (name "a").eval target = .ok (.aggregate (.array int 2 .none) 32) := by decide +kernel
  obtain ⟨hback, hforth, hsum, hswap, harrow⟩ := lvalue_identities hfree
  exact ⟨hfree, hvoid, hx, trivial, hseven, (hback x hx trivial).2 hvoid, hq,
    hforth (.name "q") ⟨24, record⟩ trivial hq rfl, hnine, hsum (.name "a") one,
    hswap (.name "a") one _ _ ha rfl, (harrow (.name "q") "x" _ trivial).1 hseven⟩

/-- A reference to `void` is refused in one way as an object and in another way as what an address
points to, though nothing is of type `void`. -/
theorem deref_addressOf_void_reference :
    let void : Ty := .scalar .void .none
    let target : Target :=
      { variableNamed? := fun n => if n = "r" then some ⟨n, .reference void .none, 8⟩ else none
        types := fun _ => none
        field? := fun _ _ => none
        read? := fun a n => if a = 8 ∧ n = 8 then some (Bytes.ofAddress 16) else none }
    let e : Expr := .name "r"
    target.DeclaresOnly ReferenceFree ∧
      (∀ n v, target.variableNamed? n = some v → v.type.isVoid = false) ∧
      (∀ r n f, target.field? r n = some f → f.type.isVoid = false) ∧
      e.Everywhere (CastsTo ReferenceFree) ∧ e.IsLvalue ∧
      e.eval target = .error .loadOfVoid ∧
      (unary .deref (unary .addressOf e)).eval target =
        .error (.indirectionOfVoid void.pointerTo) ∧
      (unary .deref (unary .addressOf e)).eval target ≠ e.eval target := by
  intro void target e
  have hr {n : String} {v : Variable} (h : target.variableNamed? n = some v) :
      v.type = .reference void .none := by
    simp only [target] at h
    split at h
    · cases h
      rfl
    · cases h
  have hload : e.eval target = .error .loadOfVoid := by decide +kernel
  have hderef : (unary .deref (unary .addressOf e)).eval target =
      .error (.indirectionOfVoid void.pointerTo) := by decide +kernel
  refine ⟨⟨fun h => ?_, nofun⟩, fun n v h => ?_, nofun, trivial, trivial, hload, hderef, ?_⟩
  · rw [hr h]
    trivial
  · rw [hr h]
    rfl
  · rw [hload, hderef]
    nofun

end Expr

end WatchExpr
