import WatchExpr.Proofs.Evaluation.Connectives
import WatchExpr.Proofs.Evaluation.QualifiedPaths
import WatchExpr.Proofs.Typing.Evaluation

/-!
# Qualifiers of static types

In evaluation a member takes on the qualifiers of its record, in static typing it does not. So the
object that an expression designates may have qualifiers beside those of its static type, and an
address keeps them until they are lost in a load, in the decay of an array or in a cast.
-/

namespace WatchExpr

/-- The qualifiers that a member takes on from a record of the given static type, which itself has
some beside those of this type. A reference takes on none. -/
def Target.takenOn (target : Target) (record : Ty) (name : String) (q : Qualifiers) :
    Except EvalError Qualifiers := do
  let f ← target.member record name
  return if f.type.isReference then .none else record.cv.union q

namespace Expr

mutual

/-- The qualifiers that the object designated by an expression has acquired: those that evaluation
gives to it beside the ones of its static type. -/
def acquired (target : Target) : Expr → Except EvalError Qualifiers
  | .member e .dot field => do
    let record ← (← e.staticType target).dereferenced.accessed .dot
    target.takenOn record field (← e.acquired target)
  | .member e .arrow field => do
    let record ← (← e.staticType target).dereferenced.accessed .arrow
    target.takenOn record field (← e.pointeeAcquired target)
  | .unary .deref e => e.pointeeAcquired target
  | .binary .subscript e f => do
    match (← e.staticType target).decayed with
    | .pointer _ _ => e.pointeeAcquired target
    | _ => f.pointeeAcquired target
  | _ => return .none

/-- The qualifiers that the object behind a pointer, the value of an expression, has acquired. A
pointer that is read from memory knows of none. -/
def pointeeAcquired (target : Target) : Expr → Except EvalError Qualifiers
  | .unary .addressOf e => e.acquired target
  | .unary .plus e => e.pointeeAcquired target
  | .binary (.arith _) e f => do
    match (← e.staticType target).decayed with
    | .pointer _ _ => e.pointeeAcquired target
    | _ => f.pointeeAcquired target
  | _ => return .none

end

/-- No conditional, and no cast to a type in which a reference refers to a reference. -/
def IsStraight : Expr → Prop
  | .cast t _ => t.ReferencesFlat
  | .conditional _ _ _ => False
  | _ => True

/-- The object that an expression designates has the static type, with the acquired qualifiers. -/
def ObjectAcquires (target : Target) (e : Expr) : Prop :=
  ∀ place, e.reduce target = .ok (.object place) →
    ∃ t q, e.staticType target = .ok t ∧ e.acquired target = .ok q ∧ place.type = t.qualified q

/-- What a pointer points to has the type that the static type says, with the acquired
qualifiers. -/
def PointeeAcquires (target : Target) (e : Expr) : Prop :=
  ∀ p, e.operandValue target = .ok (.pointer p) →
    ∃ t u c q, e.staticType target = .ok t ∧ t.decayed = .pointer u c ∧
      e.pointeeAcquired target = .ok q ∧ p.pointee = u.qualified q ∧
        (u.isReference = true → q = .none)

end Expr

/-! ## Operations -/

theorem Ty.dereferenced_qualified {t : Ty} {q : Qualifiers}
    (h : t.isReference = true → q = .none) :
    (t.qualified q).dereferenced = t.dereferenced.qualified q := by
  cases t with
  | reference u c =>
      obtain rfl := h rfl
      rw [qualified_none, qualified_none]
  | _ => rfl

theorem Ty.qualified_eq_self_iff {t : Ty} {q : Qualifiers} :
    t.qualified q = t ↔ ∀ w, q.Has w → t.cv.Has w := by
  have hcv : t.qualified q = t ↔ t.cv.union q = t.cv := by
    cases t <;> simp [qualified, withCv, cv]
  rw [hcv]
  generalize t.cv = c
  constructor
  · intro h w hw
    rw [← h]
    exact Qualifiers.has_union.2 (.inr hw)
  · intro h
    have hconst := h .const
    have hvolatile := h .volatile
    obtain ⟨_ | _, _ | _⟩ := c <;> obtain ⟨_ | _, _ | _⟩ := q <;>
      simp_all [Qualifiers.union, Qualifiers.Has]

namespace Target

variable {target : Target} {t : Ty} {q : Qualifiers}

/-- A pointer that is read from an object points to what the static type says. -/
theorem decayed_of_decayedValueOf {place : Place} {p : Pointer} (htype : place.type = t.qualified q)
    (href : t.isReference = false)
    (h : target.decayedValueOf (.object place) = .ok (.pointer p)) :
    ∃ c, t.decayed = .pointer p.pointee c := by
  obtain ⟨type, a⟩ := place
  obtain rfl : type = t.qualified q := htype
  obtain ⟨v, hv, h⟩ := bind_eq_ok_iff.1 h
  cases t with
  | scalar k c =>
      cases k with
      | void => cases hv
      | arithmetic k =>
          obtain ⟨bytes, -, hv⟩ := bind_eq_ok_iff.1 hv
          cases hv
          cases h
  | tagged r c =>
      cases hv
      cases h
  | pointer u c =>
      obtain ⟨b, -, hv⟩ := bind_eq_ok_iff.1 hv
      cases hv
      cases h
      exact ⟨c, rfl⟩
  | reference u c => cases href
  | array u n c =>
      cases hv
      cases h
      exact ⟨.none, rfl⟩

/-- What a pointer points to as an object. -/
theorem type_of_object {u : Ty} {a : UInt64} {place : Place}
    (h : target.object u a = .ok (.object place)) : place.type = u.dereferenced := by
  obtain ⟨b, hb⟩ := object_dereferenced u a _ h
  cases hb
  rfl

theorem type_of_element {p : Pointer} {n : Int} {place : Place}
    (h : (do let q ← p.advance n; target.object q.pointee q.address) = .ok (.object place)) :
    place.type = p.pointee.dereferenced := by
  obtain ⟨q, hq, h⟩ := bind_eq_ok_iff.1 h
  rw [type_of_object h, Pointer.pointee_advance hq]

theorem type_of_load {u : Ty} {a b : UInt64} (href : t.isReference = false)
    (h : target.load t a = .ok (.aggregate u b)) : u = t := by
  cases t with
  | scalar k c =>
      cases k with
      | void => cases h
      | arithmetic k =>
          obtain ⟨bytes, -, h⟩ := bind_eq_ok_iff.1 h
          cases h
  | pointer t c =>
      obtain ⟨a', -, h⟩ := bind_eq_ok_iff.1 h
      cases h
  | reference t c => cases href
  | _ =>
      cases h
      rfl

theorem takenOn_of_memberOf {record : Ty} {a : UInt64} {name : String} {place : Place}
    (h : target.memberOf (record.qualified q) a name = .ok (.object place)) :
    ∃ f r, target.member record name = .ok f ∧ target.takenOn record name q = .ok r ∧
      place.type = f.type.dereferenced.qualified r := by
  obtain ⟨f, hf, h⟩ := bind_eq_ok_iff.1 h
  have hf : target.member record name = .ok f := by
    cases record with
    | tagged r c => exact hf
    | _ => cases hf
  cases href : f.type.isReference with
  | true =>
      rw [if_pos href] at h
      refine ⟨f, .none, hf, ?_, ?_⟩
      · simp [takenOn, hf, href, bind, Except.bind]
      · rw [type_of_object h, Ty.qualified_none]
  | false =>
      rw [if_neg (Bool.eq_false_iff.1 href)] at h
      refine ⟨f, record.cv.union q, hf, ?_, ?_⟩
      · simp [takenOn, hf, href, bind, Except.bind]
      · have hcv : (record.qualified q).cv = record.cv.union q := by cases record <;> rfl
        rw [type_of_object h, hcv]
        exact Ty.dereferenced_qualified fun h => by rw [href] at h; cases h

end Target

namespace Value

/-! ### Only objects are records -/

theorem not_isAggregate_unary (op : UnaryOp) (v : Value) :
    Ensures (fun x => ¬x.IsAggregate) (v.unary op) := by
  unfold unary
  split
  · exact .next fun _ => .ok nofun
  · exact .ok nofun
  · exact .ok nofun
  · exact .ok nofun
  · exact .ok nofun
  · exact .ok nofun
  · exact .error _
  · exact .error _
  · exact .error _

theorem not_isAggregate_cast (v : Value) (t : Ty) :
    Ensures (fun x => ¬x.IsAggregate) (v.cast t) := by
  unfold cast
  split
  · exact .error _
  · exact .ok nofun
  · exact .ok nofun
  · exact .ok nofun
  · exact .ok nofun
  · exact .error _

theorem not_isAggregate_binary (op : BinaryOp) (v w : Value) :
    Ensures (fun x => ¬x.IsAggregate) (v.binary op w) := by
  intro x h
  unfold binary at h
  split at h
  · cases op with
    | arith op =>
        obtain ⟨_, _, _, -, -, -, rfl⟩ | ⟨_, _, _, _, -, -, -, -, rfl⟩ |
          ⟨_, _, _, _, -, -, -, -, rfl⟩ | ⟨_, _, _, _, -, -, -, -, rfl⟩ |
          ⟨_, _, _, -, -, -, -, rfl⟩ := arith_cases h
        all_goals nofun
    | shift op =>
        obtain ⟨-, -, -, -, s, -, -, -, rfl⟩ := shift_cases h
        nofun
    | compare op =>
        obtain ⟨o, -, h⟩ := bind_eq_ok_iff.1 h
        cases h
        nofun
    | logical op =>
        obtain ⟨b, rfl⟩ := logical_cases h
        nofun
    | subscript => cases h
  · cases h

end Value

namespace Expr

variable {target : Target} {e f : Expr}

/-- What designates no object has a value that is no record, unless it is a conditional. -/
theorem value_of_reduce (he : e.Everywhere IsStraight) (hl : ¬e.IsLvalue) :
    Ensures (fun o => ∃ v, o = .value v ∧ ¬v.IsAggregate) (e.reduce target) := by
  cases e with
  | poisoned d => exact .error _
  | truth b => exact .ok ⟨_, rfl, nofun⟩
  | number s spelling => exact .ok ⟨_, rfl, nofun⟩
  | cast t e =>
      rw [reduce_cast]
      exact .next fun v => (v.not_isAggregate_cast t).bind fun x hx => .ok ⟨x, rfl, hx⟩
  | binary op e f =>
      have hop : op ≠ .subscript := by
        rintro rfl
        exact hl trivial
      rw [reduce_binary target hop]
      exact .next fun v => .next fun w => (Value.not_isAggregate_binary op v w).bind
        fun x hx => .ok ⟨x, rfl, hx⟩
  | unary op e =>
      have hd : op ≠ .deref := by
        rintro rfl
        exact hl trivial
      by_cases ha : op = .addressOf
      · subst ha
        refine .next fun o => ?_
        cases o with
        | object place => exact .ok ⟨_, rfl, nofun⟩
        | value v => exact .error _
      · rw [reduce_unary target hd ha]
        exact .next fun v => (v.not_isAggregate_unary op).bind fun x hx => .ok ⟨x, rfl, hx⟩
  | conditional c e f => exact he.1.elim
  | _ => exact absurd trivial hl

/-- Only an object is a record. -/
theorem not_isAggregate_of_reduce (he : e.Everywhere IsStraight) {v : Value}
    (h : e.reduce target = .ok (.value v)) : ¬v.IsAggregate := by
  by_cases hl : e.IsLvalue
  · obtain ⟨place, hplace⟩ := hl.isObject _ h
    cases hplace
  · obtain ⟨w, hw, haggregate⟩ := value_of_reduce he hl _ h
    cases hw
    exact haggregate

theorem objectAcquires_of_not_isLvalue (he : e.Everywhere IsStraight) (hl : ¬e.IsLvalue) :
    e.ObjectAcquires target := by
  intro place h
  obtain ⟨v, hv, -⟩ := value_of_reduce he hl _ h
  cases hv

theorem IsStraight.hasJoinableTypes (h : e.Everywhere IsStraight) :
    e.Everywhere (HasJoinableTypes target) := by
  refine h.mono fun e he => ?_
  cases e with
  | cast t e => exact he
  | conditional c e f => exact he.elim
  | _ => trivial

/-- What has a static type and reduces is of this type. -/
theorem typed_of_staticType (ht : target.ReferencesFlat) (he : e.Everywhere IsStraight) {t : Ty}
    {o : Operand} (hs : e.staticType target = .ok t) (ho : e.reduce target = .ok o) : o.Typed t := by
  obtain ⟨u, hu, h⟩ := reduce_typed ht (IsStraight.hasJoinableTypes he) o ho
  cases hs.symm.trans hu
  exact h

/-- An object that is read as a pointer has acquired nothing for what it points to. -/
theorem IsLvalue.pointeeAcquires (ht : target.ReferencesFlat) (he : e.Everywhere IsStraight)
    (hl : e.IsLvalue) (h : e.ObjectAcquires target) : e.PointeeAcquires target := by
  intro p hp
  obtain ⟨o, ho, hp⟩ := bind_eq_ok_iff.1 hp
  obtain ⟨place, rfl⟩ := hl.isObject o ho
  obtain ⟨t, q, hs, -, htype⟩ := h place ho
  have hobject := (typed_of_staticType ht he hs ho).isObject
  obtain ⟨c, hc⟩ := Target.decayed_of_decayedValueOf htype hobject.1 hp
  have hnone : e.pointeeAcquired target = .ok .none := by
    cases e with
    | binary op e f => cases op <;> first | rfl | exact hl.elim
    | unary op e => cases op <;> first | rfl | exact hl.elim
    | _ => rfl
  exact ⟨t, p.pointee, c, .none, hs, hc, hnone, (Ty.qualified_none _).symm, fun _ => rfl⟩

theorem name_objectAcquires (id : String) : (name id).ObjectAcquires target := by
  intro place h
  obtain ⟨v, hv, h⟩ := bind_eq_ok_iff.1 h
  refine ⟨v.type.dereferenced, .none, ?_, rfl, ?_⟩
  · rw [staticType, hv]
    rfl
  · rw [Target.type_of_object h, Ty.qualified_none]

/-- A member of a record of a static type, with what the record has acquired. -/
theorem acquires_of_memberOf {access : MemberAccess} {field : String} {t record : Ty}
    {q : Qualifiers} {a : UInt64} {place : Place} (hs : e.staticType target = .ok t)
    (hrecord : t.dereferenced.accessed access = .ok record)
    (h : target.memberOf (record.qualified q) a field = .ok (.object place)) :
    ∃ f r, (member e access field).staticType target = .ok f ∧
      target.takenOn record field q = .ok r ∧ place.type = f.qualified r := by
  obtain ⟨f, r, hf, hr, htype⟩ := Target.takenOn_of_memberOf h
  refine ⟨f.type.dereferenced, r, ?_, hr, htype⟩
  rw [staticType, hs]
  simp [bind, Except.bind, hrecord, hf]

/-- The static type of an operand is no reference, so that it is not dereferenced any further. -/
theorem dereferenced_of_staticType (ht : target.ReferencesFlat) (he : e.Everywhere IsStraight)
    {t : Ty} {v : Value} (hs : e.staticType target = .ok t) (hv : e.operandValue target = .ok v) :
    t.dereferenced = t := by
  obtain ⟨o, ho, -⟩ := bind_eq_ok_iff.1 hv
  exact (typed_of_staticType ht he hs ho).isObject.dereferenced_eq

theorem dot_objectAcquires (ht : target.ReferencesFlat) (he : e.Everywhere IsStraight)
    (hobject : e.ObjectAcquires target) (field : String) :
    (member e .dot field).ObjectAcquires target := by
  intro place h
  rw [reduce_dot] at h
  obtain ⟨v, hv, h⟩ := bind_eq_ok_iff.1 h
  obtain ⟨o, ho, hv⟩ := bind_eq_ok_iff.1 hv
  split at h
  · rename_i record a
    cases o with
    | value v =>
        cases hv
        exact absurd ⟨_, _, rfl⟩ (not_isAggregate_of_reduce he ho)
    | object base =>
        obtain ⟨t, q, hs, hq, htype⟩ := hobject base ho
        have hbase := (typed_of_staticType ht he hs ho).isObject
        have href : base.type.isReference = false := by
          rw [htype, Ty.isReference_congr (Ty.erased_qualified t q), hbase.1]
        rw [Target.type_of_load href hv, htype] at h
        have hrecord : t.dereferenced.accessed .dot = .ok t := congrArg _ hbase.dereferenced_eq
        obtain ⟨f, r, hf, hr, hplace⟩ := acquires_of_memberOf hs hrecord h
        refine ⟨f, r, hf, ?_, hplace⟩
        simp [acquired, hs, hrecord, hq, hr, bind, Except.bind]
  · cases h

theorem arrow_objectAcquires (hpointee : e.PointeeAcquires target) (field : String) :
    (member e .arrow field).ObjectAcquires target := by
  intro place h
  rw [reduce_arrow] at h
  obtain ⟨v, hv, h⟩ := bind_eq_ok_iff.1 h
  split at h
  · rename_i p
    obtain ⟨t, u, c, q, hs, hu, hq, htype, -⟩ := hpointee p hv
    rw [htype] at h
    have hrecord : t.dereferenced.accessed .arrow = .ok u := by
      rw [Ty.decayed] at hu
      cases hd : t.dereferenced <;> rw [hd] at hu <;> cases hu <;> rfl
    obtain ⟨f, r, hf, hr, hplace⟩ := acquires_of_memberOf hs hrecord h
    refine ⟨f, r, hf, ?_, hplace⟩
    simp [acquired, hs, hrecord, hq, hr, bind, Except.bind]
  · cases h

theorem deref_objectAcquires (ht : target.ReferencesFlat) (he : e.Everywhere IsStraight)
    (hpointee : e.PointeeAcquires target) : (unary .deref e).ObjectAcquires target := by
  intro place h
  rw [reduce_deref] at h
  obtain ⟨v, hv, h⟩ := bind_eq_ok_iff.1 h
  obtain ⟨p, rfl, -, h⟩ := Target.pointeeOf_cases h
  obtain ⟨t, u, c, q, hs, hu, hq, htype, href⟩ := hpointee p hv
  refine ⟨u.dereferenced, q, ?_, hq, ?_⟩
  · rw [staticType, hs]
    simp [Ty.underUnary, dereferenced_of_staticType ht he hs hv, hu, bind, Except.bind]
  · rw [Target.type_of_object h, htype, Ty.dereferenced_qualified href]

/-- What is known of a pointer and of a number beside it. -/
theorem pointer_beside_scalar (ht : target.ReferencesFlat) (hf : f.Everywhere IsStraight)
    (hpointee : e.PointeeAcquires target) {p : Pointer} {s : Scalar}
    (hp : e.operandValue target = .ok (.pointer p)) (hn : f.operandValue target = .ok (.scalar s)) :
    ∃ t t' u c k c' q, e.staticType target = .ok t ∧ f.staticType target = .ok t' ∧
      t.decayed = .pointer u c ∧ t'.decayed = .scalar k c' ∧ e.pointeeAcquired target = .ok q ∧
      p.pointee = u.qualified q ∧ (u.isReference = true → q = .none) := by
  obtain ⟨t, u, c, q, hs, hu, hq, htype, href⟩ := hpointee p hp
  obtain ⟨t', hs', hread⟩ :=
    operandValue_typed (reduce_typed ht (IsStraight.hasJoinableTypes hf)) hn
  cases hread with
  | scalar hk => exact ⟨t, _, u, c, _, _, q, hs, hs', hu, rfl, hq, htype, href⟩

theorem subscript_objectAcquires (ht : target.ReferencesFlat) (he : e.Everywhere IsStraight)
    (hf : f.Everywhere IsStraight) (hpe : e.PointeeAcquires target)
    (hpf : f.PointeeAcquires target) : (binary .subscript e f).ObjectAcquires target := by
  intro place h
  rw [reduce_subscript] at h
  obtain ⟨v, hv, h⟩ := bind_eq_ok_iff.1 h
  obtain ⟨w, hw, h⟩ := bind_eq_ok_iff.1 h
  unfold Target.elementOf at h
  split at h
  · split at h
    · cases h
    · obtain ⟨t, t', u, c, k, c', q, hs, hs', hu, hk, hq, htype, href⟩ :=
        pointer_beside_scalar ht hf hpe hv hw
      refine ⟨u.dereferenced, q, ?_, ?_, ?_⟩
      · simp [staticType, hs, hs', hu, hk, Ty.subscripted, bind, Except.bind]
      · simp [acquired, hs, hu, hq, bind, Except.bind]
      · rw [Target.type_of_element h, htype, Ty.dereferenced_qualified href]
  · split at h
    · cases h
    · obtain ⟨t, t', u, c, k, c', q, hs, hs', hu, hk, hq, htype, href⟩ :=
        pointer_beside_scalar ht he hpf hw hv
      refine ⟨u.dereferenced, q, ?_, ?_, ?_⟩
      · simp [staticType, hs, hs', hu, hk, Ty.subscripted, bind, Except.bind]
      · simp [acquired, hs', hk, hq, bind, Except.bind]
      · rw [Target.type_of_element h, htype, Ty.dereferenced_qualified href]
  · cases h
  · cases h
  · cases h

/-- A number that is added to a pointer or subtracted from it leaves what it points to. -/
theorem acquires_of_advance (ht : target.ReferencesFlat) (hf : f.Everywhere IsStraight)
    (hpe : e.PointeeAcquires target) {op : ArithOp} (hop : op = .add ∨ op = .sub) {r p : Pointer}
    {s : Scalar} {n : Int} (hv : e.operandValue target = .ok (.pointer r))
    (hw : f.operandValue target = .ok (.scalar s)) (hr : r.advance n = .ok p) :
    ∃ t u c q, (binary (.arith op) e f).staticType target = .ok t ∧ t.decayed = .pointer u c ∧
      (binary (.arith op) e f).pointeeAcquired target = .ok q ∧ p.pointee = u.qualified q ∧
        (u.isReference = true → q = .none) := by
  obtain ⟨t, t', u, c, k, c', q, hs, hs', hu, hk, hq, htype, href⟩ :=
    pointer_beside_scalar ht hf hpe hv hw
  refine ⟨u.pointerTo, u, .none, q, ?_, rfl, ?_, Pointer.pointee_advance hr ▸ htype, href⟩
  · rw [staticType_binary target (by simp), hs, hs']
    rcases hop with rfl | rfl <;> simp [hu, hk, BinaryOp.resultType, bind, Except.bind] <;> rfl
  · simp [pointeeAcquired, hs, hu, hq, bind, Except.bind]

theorem arith_pointeeAcquires (ht : target.ReferencesFlat) (he : e.Everywhere IsStraight)
    (hf : f.Everywhere IsStraight) (hpe : e.PointeeAcquires target)
    (hpf : f.PointeeAcquires target) (op : ArithOp) :
    (binary (.arith op) e f).PointeeAcquires target := by
  intro p h
  rw [operandValue_arith] at h
  obtain ⟨v, hv, h⟩ := bind_eq_ok_iff.1 h
  obtain ⟨w, hw, h⟩ := bind_eq_ok_iff.1 h
  obtain ⟨_, _, _, -, -, -, h⟩ | ⟨r, _, n, _, rfl, rfl, rfl, hr, h⟩ |
    ⟨r, _, n, _, rfl, rfl, rfl, hr, h⟩ | ⟨r, _, n, _, rfl, rfl, rfl, hr, h⟩ |
    ⟨_, _, _, -, -, -, -, h⟩ := Value.arith_cases h <;> cases h
  · exact acquires_of_advance ht hf hpe (.inl rfl) hv hw hr
  · obtain ⟨t, t', u, c, k, c', q, hs, hs', hu, hk, hq, htype, href⟩ :=
      pointer_beside_scalar ht he hpf hw hv
    refine ⟨u.pointerTo, u, .none, q, ?_, rfl, ?_, Pointer.pointee_advance hr ▸ htype, href⟩
    · simp [staticType_binary, hs, hs', hu, hk, BinaryOp.resultType, bind, Except.bind]
      rfl
    · simp [pointeeAcquired, hs', hk, hq, bind, Except.bind]
  · exact acquires_of_advance ht hf hpe (.inr rfl) hv hw hr

theorem addressOf_pointeeAcquires (ht : target.ReferencesFlat) (he : e.Everywhere IsStraight)
    (hobject : e.ObjectAcquires target) : (unary .addressOf e).PointeeAcquires target := by
  intro p h
  obtain ⟨o, ho, h⟩ := bind_eq_ok_iff.1 h
  obtain ⟨o', ho', ho⟩ := bind_eq_ok_iff.1 ho
  cases o' with
  | value v => cases ho
  | object place =>
      cases ho
      cases h
      obtain ⟨t, q, hs, hq, htype⟩ := hobject place ho'
      have ht := (typed_of_staticType ht he hs ho').isObject
      refine ⟨t.pointerTo, t, .none, q, ?_, rfl, hq, htype, fun h => ?_⟩
      · rw [staticType, hs]
        simp [ht.dereferenced_eq, Ty.underUnary, bind, Except.bind]
        rfl
      · rw [ht.1] at h
        cases h

theorem plus_pointeeAcquires (ht : target.ReferencesFlat) (he : e.Everywhere IsStraight)
    (hp : e.PointeeAcquires target) : (unary .plus e).PointeeAcquires target := by
  intro p h
  obtain ⟨o, ho, h⟩ := bind_eq_ok_iff.1 h
  rw [reduce_unary target (by simp) (by simp)] at ho
  obtain ⟨v, hv, ho⟩ := bind_eq_ok_iff.1 ho
  obtain ⟨x, hx, ho⟩ := bind_eq_ok_iff.1 ho
  cases ho
  cases v with
  | pointer r =>
      cases hx
      cases h
      obtain ⟨t, u, c, q, hs, hu, hq, htype, href⟩ := hp p hv
      have htype' : (unary .plus e).staticType target = .ok t.unqualified ∧
          t.unqualified.decayed = .pointer u .none := by
        rw [staticType, hs]
        cases t with
        | pointer t c' =>
            cases hu
            exact ⟨rfl, rfl⟩
        | array t n c' =>
            cases hu
            exact ⟨rfl, rfl⟩
        | reference t c' => cases dereferenced_of_staticType ht he hs hv
        | _ => cases hu
      exact ⟨t.unqualified, u, .none, q, htype'.1, htype'.2, hq, htype, href⟩
  | scalar s =>
      cases hx
      cases h
  | aggregate t a => cases hx
  | invalid => cases hx

theorem unary_pointeeAcquires {op : UnaryOp} (hplus : op ≠ .plus) (hderef : op ≠ .deref)
    (haddress : op ≠ .addressOf) : (unary op e).PointeeAcquires target := by
  intro p h
  obtain ⟨o, ho, h⟩ := bind_eq_ok_iff.1 h
  rw [reduce_unary target hderef haddress] at ho
  obtain ⟨v, hv, ho⟩ := bind_eq_ok_iff.1 ho
  obtain ⟨x, hx, ho⟩ := bind_eq_ok_iff.1 ho
  cases ho
  unfold Value.unary at hx
  split at hx
  · obtain ⟨b, -, hx⟩ := bind_eq_ok_iff.1 hx
    cases hx
    cases h
  · exact absurd rfl hplus
  · exact absurd rfl hplus
  · cases hx
    cases h
  · cases hx
    cases h
  · cases hx
    cases h
  · cases hx
  · cases hx
  · cases hx

theorem cast_pointeeAcquires (ht : target.ReferencesFlat) (he : e.Everywhere IsStraight) (t : Ty) :
    (cast t e).PointeeAcquires target := by
  intro p h
  obtain ⟨o, ho, h⟩ := bind_eq_ok_iff.1 h
  rw [reduce_cast] at ho
  obtain ⟨v, hv, ho⟩ := bind_eq_ok_iff.1 ho
  obtain ⟨x, hx, ho⟩ := bind_eq_ok_iff.1 ho
  cases ho
  obtain ⟨t', hs, -⟩ := operandValue_typed (reduce_typed ht (IsStraight.hasJoinableTypes he)) hv
  have hcast {u : Ty} {c : Qualifiers} (hp : p.pointee = u) :
      ∃ t u' c' q, (cast (.pointer u c) e).staticType target = .ok t ∧ t.decayed = .pointer u' c' ∧
        (cast (.pointer u c) e).pointeeAcquired target = .ok q ∧ p.pointee = u'.qualified q ∧
        (u'.isReference = true → q = .none) := by
    refine ⟨u.pointerTo, u, .none, .none, ?_, rfl, rfl, ?_, fun _ => rfl⟩
    · rw [staticType, hs]
      rfl
    · rw [hp, Ty.qualified_none]
  unfold Value.cast at hx
  split at hx
  · cases hx
  · cases hx
    cases h
  · cases hx
    cases h
  · cases hx
    cases h
    exact hcast rfl
  · cases hx
    cases h
    exact hcast rfl
  · cases hx

/-- A shift, a comparison and a connective yield no pointer. -/
theorem binary_pointeeAcquires {op : BinaryOp} (hop : op ≠ .subscript)
    (harith : ∀ op', op ≠ .arith op') : (binary op e f).PointeeAcquires target := by
  intro p h
  obtain ⟨o, ho, h⟩ := bind_eq_ok_iff.1 h
  rw [reduce_binary target hop] at ho
  obtain ⟨v, -, ho⟩ := bind_eq_ok_iff.1 ho
  obtain ⟨w, -, ho⟩ := bind_eq_ok_iff.1 ho
  obtain ⟨x, hx, ho⟩ := bind_eq_ok_iff.1 ho
  cases ho
  unfold Value.binary at hx
  split at hx
  · cases op with
    | arith op => exact absurd rfl (harith op)
    | shift op =>
        obtain ⟨-, -, -, -, s, -, -, -, rfl⟩ := Value.shift_cases hx
        cases h
    | compare op =>
        obtain ⟨o, -, hx⟩ := bind_eq_ok_iff.1 hx
        cases hx
        cases h
    | logical op =>
        obtain ⟨b, rfl⟩ := Value.logical_cases hx
        cases h
    | subscript => exact absurd rfl hop
  · cases hx

/-- Evaluation gives to objects their static types with the acquired qualifiers. -/
theorem acquires (ht : target.ReferencesFlat) (he : e.Everywhere IsStraight) :
    e.ObjectAcquires target ∧ e.PointeeAcquires target := by
  have hlvalue {e : Expr} (he : e.Everywhere IsStraight) (hl : e.IsLvalue)
      (ho : e.ObjectAcquires target) : e.ObjectAcquires target ∧ e.PointeeAcquires target :=
    ⟨ho, hl.pointeeAcquires ht he ho⟩
  have hvalue {e : Expr} (he : e.Everywhere IsStraight) (hl : ¬e.IsLvalue)
      (hp : e.PointeeAcquires target) : e.ObjectAcquires target ∧ e.PointeeAcquires target :=
    ⟨objectAcquires_of_not_isLvalue he hl, hp⟩
  induction e with
  | poisoned d => exact ⟨nofun, nofun⟩
  | truth b => exact ⟨nofun, nofun⟩
  | number v s => exact ⟨nofun, nofun⟩
  | name id => exact hlvalue he trivial (name_objectAcquires id)
  | cast t e ih => exact hvalue he id (cast_pointeeAcquires ht he.2 t)
  | member e access field ih =>
      cases access with
      | dot => exact hlvalue he trivial (dot_objectAcquires ht he.2 (ih he.2).1 field)
      | arrow => exact hlvalue he trivial (arrow_objectAcquires (ih he.2).2 field)
  | binary op e f ihe ihf =>
      have hpe := (ihe he.2.1).2
      have hpf := (ihf he.2.2).2
      cases op with
      | subscript =>
          exact hlvalue he trivial (subscript_objectAcquires ht he.2.1 he.2.2 hpe hpf)
      | arith op => exact hvalue he id (arith_pointeeAcquires ht he.2.1 he.2.2 hpe hpf op)
      | _ => exact hvalue he id (binary_pointeeAcquires (by simp) (by simp))
  | unary op e ih =>
      obtain ⟨ho, hp⟩ := ih he.2
      cases op with
      | deref => exact hlvalue he trivial (deref_objectAcquires ht he.2 hp)
      | addressOf => exact hvalue he id (addressOf_pointeeAcquires ht he.2 ho)
      | plus => exact hvalue he id (plus_pointeeAcquires ht he.2 hp)
      | _ => exact hvalue he id (unary_pointeeAcquires (by simp) (by simp) (by simp))
  | conditional c e f ihc ihe ihf => exact he.1.elim

/-- The pointer that is the address of an object points to the static type with the qualifiers that the
object has acquired. So the static type of the address is that of the pointer, qualifiers included,
exactly if the object has acquired none but declared ones. -/
theorem staticType_addressOf_eq_iff (ht : target.ReferencesFlat) (he : e.Everywhere IsStraight)
    {v : Value} (h : (unary .addressOf e).eval target = .ok v) :
    ∃ (p : Pointer) (t : Ty) (q : Qualifiers), v = .pointer p ∧
      (unary .addressOf e).staticType target = .ok t.pointerTo ∧ e.acquired target = .ok q ∧
      p.pointee = t.qualified q ∧
      ((unary .addressOf e).staticType target = .ok p.type ↔ ∀ w, q.Has w → t.cv.Has w) := by
  obtain ⟨o, ho, hv⟩ := bind_eq_ok_iff.1 h
  obtain ⟨o', ho', ho⟩ := bind_eq_ok_iff.1 ho
  cases o' with
  | value w => cases ho
  | object place =>
      cases ho
      cases hv
      obtain ⟨t, q, hs, hq, htype⟩ := (acquires ht he).1 place ho'
      have hstatic : (unary .addressOf e).staticType target = .ok t.pointerTo := by
        rw [staticType, hs]
        exact congrArg (fun u => Except.ok u.pointerTo)
          (typed_of_staticType ht he hs ho').isObject.dereferenced_eq
      refine ⟨_, t, q, rfl, hstatic, hq, htype, ?_⟩
      rw [hstatic, ← Ty.qualified_eq_self_iff, Pointer.type, htype, Except.ok.injEq,
        Ty.pointerTo, Ty.pointerTo, Ty.pointer.injEq, eq_comm, and_iff_left rfl]

/-- Behind a pointer to a constant record, a volatile member becomes constant as well, while an element
of an array member has the qualifiers of the element type. -/
theorem staticType_addressOf_eq_iff_members :
    let record : TaggedType := ⟨"S", 16⟩
    let int (isConst isVolatile : Bool) : Ty :=
      .scalar (.arithmetic (.integral .int)) ⟨isConst, isVolatile⟩
    let target : Target :=
      { variableNamed? := fun n =>
          if n = "p" then some ⟨n, .pointer (.tagged record ⟨true, false⟩) .none, 8⟩ else none
        types := fun _ => none
        field? := fun r f =>
          if r ≠ record then none
          else if f = "n" then some ⟨f, int false true, 0⟩
          else if f = "items" then some ⟨f, .array (int false false) 3 .none, 4⟩ else none
        read? := fun a n => if a = 8 ∧ n = 8 then some (Bytes.ofAddress 32) else none }
    let n : Expr := .member (.name "p") .arrow "n"
    let element : Expr := .binary .subscript (.member (.name "p") .arrow "items")
      (.number (.integral .int 1) "1")
    target.ReferencesFlat ∧ n.Everywhere IsStraight ∧ element.Everywhere IsStraight ∧
      (unary .addressOf n).eval target = .ok (.pointer ⟨32, int true true⟩) ∧
      (unary .addressOf n).staticType target ≠ .ok (int true true).pointerTo ∧
      (unary .addressOf element).eval target = .ok (.pointer ⟨40, int false false⟩) ∧
      (unary .addressOf element).staticType target = .ok (int false false).pointerTo := by
  intro record int target n element
  have hflat : target.ReferencesFlat := by
    refine ⟨fun {name v} h => ?_, fun {r name f} h => ?_⟩
    · simp only [target] at h
      split at h
      · cases h
        trivial
      · cases h
    · simp only [target] at h
      split at h
      · cases h
      · split at h
        · cases h
          trivial
        · split at h
          · cases h
            trivial
          · cases h
  have hn : n.Everywhere IsStraight := ⟨trivial, trivial⟩
  have helement : element.Everywhere IsStraight := ⟨trivial, hn, trivial⟩
  have hevaln : (unary .addressOf n).eval target = .ok (.pointer ⟨32, int true true⟩) := by
    decide +kernel
  have hevale : (unary .addressOf element).eval target =
      .ok (.pointer ⟨40, int false false⟩) := by
    decide +kernel
  refine ⟨hflat, hn, helement, hevaln, ?_, hevale, ?_⟩
  · obtain ⟨p, t, q, hp, hs, hq, -, hiff⟩ := staticType_addressOf_eq_iff hflat hn hevaln
    cases hp
    cases hs.symm.trans (show _ = .ok (int false true).pointerTo from rfl)
    cases hq.symm.trans (show _ = .ok ⟨true, false⟩ from rfl)
    exact fun hstatic => Bool.false_ne_true (hiff.1 hstatic .const rfl)
  · obtain ⟨p, t, q, hp, hs, hq, -, hiff⟩ := staticType_addressOf_eq_iff hflat helement hevale
    cases hp
    cases hq.symm.trans (show _ = .ok .none from rfl)
    exact hiff.2 fun w hw => by cases w <;> cases hw

/-- The address of a member of a constant record is a pointer to a constant, but its static type is
not. -/
theorem staticType_addressOf_lacks_const :
    let record : TaggedType := ⟨"S", 4⟩
    let int (isConst : Bool) : Ty := .scalar (.arithmetic (.integral .int)) ⟨isConst, false⟩
    let target : Target :=
      { variableNamed? := fun n =>
          if n = "s" then some ⟨n, .tagged record ⟨true, false⟩, 32⟩ else none
        types := fun _ => none
        field? := fun r f => if r = record ∧ f = "n" then some ⟨f, int false, 0⟩ else none
        read? := fun _ _ => none }
    let e : Expr := .member (.name "s") .dot "n"
    target.DeclaresOnly Ty.ReferenceFree ∧ e.IsLvalue ∧ e.Everywhere IsStraight ∧
      (unary .addressOf e).eval target = .ok (.pointer ⟨32, int true⟩) ∧
      (unary .addressOf e).staticType target = .ok (int false).pointerTo ∧
      (int false).pointerTo ≠ Pointer.type ⟨32, int true⟩ := by
  intro record int target e
  have hdeclares : target.DeclaresOnly Ty.ReferenceFree := by
    refine ⟨fun {name v} h => ?_, fun {r name f} h => ?_⟩
    · simp only [target] at h
      split at h
      · cases h
        trivial
      · cases h
    · simp only [target] at h
      split at h
      · cases h
        trivial
      · cases h
  exact ⟨hdeclares, trivial, ⟨trivial, trivial⟩, by decide +kernel, by decide +kernel, by decide⟩

end Expr

end WatchExpr
