import WatchExpr.Proofs.Reduction
import WatchExpr.Proofs.Subexpressions
import WatchExpr.Proofs.Typing.Operations

/-!
# Types that values carry

A pointer and an object in memory carry the type of what lies there. An expression comes by types
through the variables and members that it names and through its casts, and by the parts of these
types: what they point to, refer to or are arrays of.
-/

namespace WatchExpr

/-- A property of types that passes to the parts of a type and does not depend on qualifiers. -/
structure Ty.Hereditary (p : Ty → Prop) : Prop where
  pointee : ∀ {t q}, p (.pointer t q) → p t
  referent : ∀ {t q}, p (.reference t q) → p t
  element : ∀ {t n q}, p (.array t n q) → p t
  withCv : ∀ {t} q, p t → p (t.withCv q)

theorem Ty.Hereditary.dereferenced {p : Ty → Prop} (hp : Hereditary p) {t : Ty} (h : p t) :
    p t.dereferenced := by
  cases t with
  | reference t q => exact hp.referent h
  | _ => exact h

/-- What the variables and members are declared to be has a property, references being followed. -/
structure Target.DeclaresOnly (target : Target) (p : Ty → Prop) : Prop where
  ofVariable : ∀ {name v}, target.variableNamed? name = some v → p v.type.dereferenced
  ofField : ∀ {r name f}, target.field? r name = some f → p f.type.dereferenced

/-- The type of a cast has a property, a reference being followed. -/
def Expr.CastsTo (p : Ty → Prop) : Expr → Prop
  | .cast t _ => p t.dereferenced
  | _ => True

/-- This is a value, and the type that it carries, if any, has a property. -/
def Value.Carries (p : Ty → Prop) : Value → Prop
  | .invalid => False
  | .scalar _ => True
  | .pointer q => p q.pointee
  | .aggregate t _ => p t

/-- The type that an operand carries has a property. -/
def Operand.Carries (p : Ty → Prop) : Operand → Prop
  | .object place => p place.type
  | .value v => v.Carries p

/-! ## Operations -/

theorem Pointer.carries_advance {p : Ty → Prop} {r : Pointer} (hr : p r.pointee) (n : Int) :
    Ensures (fun q : Pointer => p q.pointee) (r.advance n) := by
  intro q hq
  rw [pointee_advance hq]
  exact hr

namespace Value

variable {p : Ty → Prop} {v w : Value}

theorem Carries.isValid (h : v.Carries p) : v.isValid = true := by
  cases v with
  | invalid => exact h.elim
  | _ => rfl

theorem Carries.decayed (hp : Ty.Hereditary p) (h : v.Carries p) : v.decayed.Carries p := by
  unfold Value.decayed
  split
  · exact hp.element h
  · exact h

theorem Carries.unary (h : v.Carries p) (op : UnaryOp) :
    Ensures (Carries p) (v.unary op) := by
  unfold Value.unary
  split
  · exact .next fun _ => .ok trivial
  · exact .ok trivial
  · exact .ok h
  · exact .ok trivial
  · exact .ok trivial
  · exact .ok trivial
  · exact .error _
  · exact .error _
  · exact .error _

theorem Carries.arith (hv : v.Carries p) (hw : w.Carries p) (op : ArithOp) :
    Ensures (Carries p) (v.arith op w) := by
  unfold Value.arith
  split
  · exact (Pointer.carries_advance hv _).bind fun _ hr => .ok hr
  · exact (Pointer.carries_advance hw _).bind fun _ hr => .ok hr
  · exact (Pointer.carries_advance hv _).bind fun _ hr => .ok hr
  · exact .next fun _ => .ok trivial
  · exact .next fun _ => .ok trivial
  · exact .error _

theorem Carries.binary (hv : v.Carries p) (hw : w.Carries p) (op : BinaryOp) :
    Ensures (Carries p) (v.binary op w) := by
  unfold Value.binary
  split
  · cases op with
    | arith op => exact hv.arith hw op
    | shift op =>
        intro x hx
        obtain ⟨-, -, -, -, s, -, -, -, rfl⟩ := shift_cases hx
        trivial
    | compare op => exact .next fun _ => .ok trivial
    | logical op =>
        intro x hx
        obtain ⟨b, rfl⟩ := logical_cases hx
        trivial
    | subscript => exact .error _
  · exact .error _

theorem carries_cast (hp : Ty.Hereditary p) {t : Ty} (ht : p t.dereferenced) (v : Value) :
    Ensures (Carries p) (v.cast t) := by
  unfold cast
  split
  · exact .error _
  · exact .ok trivial
  · exact .ok trivial
  · exact .ok (hp.pointee ht)
  · exact .ok (hp.pointee ht)
  · exact .error _

theorem Carries.inCommonWith (h : v.Carries p) (t : Ty) : (v.inCommonWith t).Carries p := by
  unfold Value.inCommonWith
  split
  · split
    · exact h
    · trivial
  · exact h

end Value

/-! ## Reading memory -/

namespace Target

variable {target : Target} {p : Ty → Prop} {t : Ty} {a : UInt64}

theorem type_of_follow {place place' : Place} (h : target.follow place = .ok place') :
    place'.type = place.type.dereferenced := by
  obtain ⟨t, a⟩ := place
  cases t with
  | reference t q =>
      obtain ⟨b, -, hb⟩ := bind_eq_ok_iff.1 h
      cases hb
      rfl
  | _ =>
      cases h
      rfl

theorem carries_object (ht : p t.dereferenced) (a : UInt64) :
    Ensures (Operand.Carries p) (target.object t a) := by
  intro o ho
  obtain ⟨place, hplace, ho⟩ := bind_eq_ok_iff.1 ho
  cases ho
  rw [Operand.Carries, type_of_follow hplace]
  exact ht

theorem carries_load (hp : Ty.Hereditary p) (ht : p t) (a : UInt64) :
    Ensures (Value.Carries p) (target.load t a) := by
  induction t generalizing a with
  | scalar k q =>
      cases k with
      | void => exact .error _
      | arithmetic k => exact .next fun _ => .ok trivial
  | tagged r q => exact .ok ht
  | pointer t q ih => exact .next fun _ => .ok (hp.pointee ht)
  | reference t q ih => exact .next fun b => ih (hp.referent ht) b
  | array t n q ih => exact .ok ht

theorem carries_valueOf (hp : Ty.Hereditary p) {o : Operand} (ho : o.Carries p) :
    Ensures (Value.Carries p) (target.valueOf o) := by
  cases o with
  | object place => exact carries_load hp ho place.address
  | value v => exact .ok ho

theorem carries_memberOf (hcv : ∀ {t} q, p t → p (t.withCv q)) (ht : target.DeclaresOnly p)
    (record : Ty) (a : UInt64) (name : String) :
    Ensures (Operand.Carries p) (target.memberOf record a name) := by
  refine Ensures.bind (p := fun f => p f.type.dereferenced) ?_ fun f hf => ?_
  · intro f hf
    unfold member at hf
    split at hf
    · split at hf
      · cases hf
        exact ht.ofField ‹_›
      · cases hf
    · cases hf
  · split
    · exact carries_object hf _
    · rename_i href
      have href : f.type.isReference = false := by simpa using href
      rw [Ty.dereferenced_of_isReference_eq_false href] at hf
      refine carries_object ?_ _
      rw [Ty.dereferenced_of_isReference_eq_false ((Ty.isReference_congr (by simp)).trans href)]
      exact hcv _ hf

theorem carries_variable (ht : target.DeclaresOnly p) (name : String) :
    Ensures (Operand.Carries p) (do
      let v ← target.lookup name
      target.object v.type v.address) := by
  refine Ensures.bind (p := fun v => p v.type.dereferenced) ?_ fun v hv => carries_object hv _
  intro v hv
  unfold lookup at hv
  split at hv
  · cases hv
    exact ht.ofVariable ‹_›
  · cases hv

/-- An element is the object that a pointer, one of the operands, has moved to. -/
theorem elementOf_cases {v w : Value} {o : Operand} (h : target.elementOf v w = .ok o) :
    ∃ r q n, (v = .pointer r ∨ w = .pointer r) ∧ r.isToVoid = false ∧ r.advance n = .ok q ∧
      target.object q.pointee q.address = .ok o := by
  unfold elementOf at h
  split at h
  · split at h
    · cases h
    · rename_i hvoid
      obtain ⟨q, hq, ho⟩ := bind_eq_ok_iff.1 h
      exact ⟨_, q, _, .inl rfl, Bool.eq_false_iff.2 hvoid, hq, ho⟩
  · split at h
    · cases h
    · rename_i hvoid
      obtain ⟨q, hq, ho⟩ := bind_eq_ok_iff.1 h
      exact ⟨_, q, _, .inr rfl, Bool.eq_false_iff.2 hvoid, hq, ho⟩
  · cases h
  · cases h
  · cases h

/-- Only a pointer, and not one to `void`, points to an object. -/
theorem pointeeOf_cases {v : Value} {o : Operand} (h : target.pointeeOf v = .ok o) :
    ∃ r, v = .pointer r ∧ r.isToVoid = false ∧ target.object r.pointee r.address = .ok o := by
  unfold pointeeOf at h
  split at h
  · split at h
    · cases h
    · exact ⟨_, rfl, Bool.eq_false_iff.2 ‹_›, h⟩
  · cases h

theorem carries_elementOf (hp : Ty.Hereditary p) {v w : Value} (hv : v.Carries p)
    (hw : w.Carries p) : Ensures (Operand.Carries p) (target.elementOf v w) := by
  intro o h
  obtain ⟨r, q, n, hr, -, hq, ho⟩ := elementOf_cases h
  have hr : p r.pointee := by
    obtain rfl | rfl := hr
    · exact hv
    · exact hw
  exact carries_object (hp.dereferenced (Pointer.pointee_advance hq ▸ hr)) _ o ho

theorem carries_pointeeOf (hp : Ty.Hereditary p) {v : Value} (hv : v.Carries p) :
    Ensures (Operand.Carries p) (target.pointeeOf v) := by
  intro o h
  obtain ⟨r, rfl, -, ho⟩ := pointeeOf_cases h
  exact carries_object (hp.dereferenced hv) _ o ho

end Target

theorem Operand.Carries.addressOf {p : Ty → Prop} {o : Operand} (ho : o.Carries p) :
    Ensures (Operand.Carries p) o.addressOf := by
  cases o with
  | object place => exact .ok ho
  | value v => exact .error _

/-! ## Expressions -/

namespace Expr

variable {target : Target} {p : Ty → Prop} {e : Expr}

theorem carries_operandValue (hp : Ty.Hereditary p)
    (h : Ensures (Operand.Carries p) (e.reduce target)) :
    Ensures (Value.Carries p) (e.operandValue target) :=
  h.bind fun _ ho => (Target.carries_valueOf hp ho).bind fun _ hv => .ok (hv.decayed hp)

theorem carries_member (hcv : ∀ {t} q, p t → p (t.withCv q)) (ht : target.DeclaresOnly p)
    (e : Expr) (access : MemberAccess) (field : String) :
    Ensures (Operand.Carries p) ((member e access field).reduce target) := by
  cases access with
  | dot =>
      rw [reduce_dot]
      refine .next fun v => ?_
      split
      · exact Target.carries_memberOf hcv ht _ _ _
      · exact .error _
  | arrow =>
      rw [reduce_arrow]
      refine .next fun v => ?_
      split
      · exact Target.carries_memberOf hcv ht _ _ _
      · exact .error _

theorem carries_besides {v : Value} (hv : v.Carries p) (e : Expr) :
    Ensures (Value.Carries p) (e.besides target v) := by
  refine .next fun _ => ?_
  split
  · exact .ok (hv.inCommonWith _)
  · split
    · exact .error _
    · exact .ok hv

/-- What an expression reduces to carries only types that were declared or cast to, and parts of
them. -/
theorem carries_reduce (hp : Ty.Hereditary p) (ht : target.DeclaresOnly p)
    (he : e.Everywhere (CastsTo p)) : Ensures (Operand.Carries p) (e.reduce target) := by
  induction e with
  | poisoned d => exact .error _
  | truth b => exact .ok trivial
  | number v s => exact .ok trivial
  | name id => exact Target.carries_variable ht id
  | cast t e ih =>
      rw [reduce_cast]
      exact .next fun v => (v.carries_cast hp he.1).bind fun _ hw => .ok hw
  | member e access field ih => exact carries_member hp.withCv ht e access field
  | binary op e f ihe ihf =>
      have hv := carries_operandValue hp (ihe he.2.1)
      have hw := carries_operandValue hp (ihf he.2.2)
      by_cases hop : op = .subscript
      · subst hop
        rw [reduce_subscript]
        exact hv.bind fun v hv => hw.bind fun w hw => Target.carries_elementOf hp hv hw
      · rw [reduce_binary target hop]
        exact hv.bind fun v hv => hw.bind fun w hw => (hv.binary hw op).bind fun _ hx => .ok hx
  | unary op e ih =>
      have hv := carries_operandValue hp (ih he.2)
      by_cases hd : op = .deref
      · subst hd
        rw [reduce_deref]
        exact hv.bind fun v hv => Target.carries_pointeeOf hp hv
      · by_cases ha : op = .addressOf
        · subst ha
          exact (ih he.2).bind fun o ho => ho.addressOf
        · rw [reduce_unary target hd ha]
          exact hv.bind fun v hv => (hv.unary op).bind fun _ hw => .ok hw
  | conditional c e f ihc ihe ihf =>
      rw [reduce_conditional]
      refine .next fun v => .next fun b => ?_
      split
      · exact (carries_operandValue hp (ihe he.2.2.1)).bind fun w hw =>
          (carries_besides hw f).bind fun _ hx => .ok hx
      · exact (carries_operandValue hp (ihf he.2.2.2)).bind fun w hw =>
          (carries_besides hw e).bind fun _ hx => .ok hx

/-- Whatever an expression has as its value is one. -/
theorem isValid_of_operandValue {v : Value} (h : e.operandValue target = .ok v) :
    v.isValid = true := by
  have hp : Ty.Hereditary fun _ => True := ⟨id, id, id, fun _ => id⟩
  have ht : target.DeclaresOnly fun _ => True := ⟨fun _ => trivial, fun _ => trivial⟩
  have he : e.Everywhere (CastsTo fun _ => True) := everywhere_of_forall (fun e => by
    cases e <;> trivial) e
  exact (carries_operandValue hp (carries_reduce hp ht he) v h).isValid

end Expr

end WatchExpr
