import WatchExpr.Proofs.Subexpressions
import WatchExpr.Proofs.Typing.Operations
import WatchExpr.Proofs.Reduction

/-!
# Static types predict values

Evaluation reads memory and static typing does not, yet they agree: an expression that has a value
has a static type, and the type of the value is that type, decayed, up to qualifiers. Operands that
are still objects in memory keep the stronger relation that no array has decayed yet.
-/

namespace WatchExpr

/-- No declared type refers to a reference. -/
structure Target.ReferencesFlat (target : Target) : Prop where
  ofVariable : ∀ {name v}, target.variableNamed? name = some v → v.type.ReferencesFlat
  ofField : ∀ {r name f}, target.field? r name = some f → f.type.ReferencesFlat

/-- What an expression of a static type reduces to. -/
inductive Operand.Typed : Ty → Operand → Prop where
  | object {t : Ty} {p : Place} (hp : p.type.IsObject) (h : t.erased = p.type.erased) :
      Typed t (.object p)
  | value {t : Ty} {v : Value} (h : ReadsAs t v) : Typed t (.value v)

theorem Operand.Typed.congr {t u : Ty} {o : Operand} (he : t.erased = u.erased)
    (h : Operand.Typed t o) : Operand.Typed u o := by
  cases h with
  | object hp h => exact .object hp (he.symm.trans h)
  | value h => exact .value (h.congr he)

theorem Operand.Typed.isObject {t : Ty} {o : Operand} (h : Operand.Typed t o) : t.IsObject := by
  cases h with
  | object hp h => exact (Ty.isObject_congr h).2 hp
  | value h => exact h.isObject

theorem ReadsAs.value_decayed {t : Ty} {v : Value} (h : ReadsAs t v) : v.decayed = v := by
  cases h <;> rfl

namespace Target

variable {target : Target} {t u : Ty} {a : UInt64} {v w : Value} {o : Operand}

/-! ## Reading operands -/

/-- Reading an object does not change its type. -/
theorem load_typed (hu : u.IsObject) (he : t.erased = u.erased) (h : target.load u a = .ok v) :
    (∃ r, v.type? = some r ∧ u.erased = r.erased) ∧ ReadsAs t v.decayed := by
  cases u with
  | scalar k q =>
      cases k with
      | void => cases h
      | arithmetic k =>
          obtain ⟨bytes, -, hv⟩ := bind_eq_ok_iff.1 h
          cases hv
          refine ⟨⟨_, rfl, by simp [Ty.erased, Ty.arithmetic]⟩, .congr he.symm ?_⟩
          exact .scalar (Scalar.kind_ofBytes k bytes)
  | tagged r q =>
      cases h
      exact ⟨⟨_, rfl, rfl⟩, .congr he.symm .record⟩
  | pointer e q =>
      obtain ⟨b, -, hv⟩ := bind_eq_ok_iff.1 h
      cases hv
      exact ⟨⟨_, rfl, rfl⟩, .congr he.symm (.pointer hu.2 rfl)⟩
  | reference e q => exact absurd hu.1 (by simp [Ty.isReference])
  | array e n q =>
      cases h
      exact ⟨⟨_, rfl, rfl⟩, .congr he.symm (.array hu.2 rfl)⟩

theorem decayedValueOf_typed (ho : o.Typed t) (h : target.decayedValueOf o = .ok v) :
    ReadsAs t v := by
  obtain ⟨w, hw, hv⟩ := bind_eq_ok_iff.1 h
  cases hv
  cases ho with
  | object hp he => exact (load_typed hp he hw).2
  | value hr =>
      cases hw
      rwa [hr.value_decayed]

/-- The type of an operand, whether it is read or still in memory. -/
theorem type?_of_valueOf (ho : o.Typed t) (h : target.valueOf o = .ok v) :
    ∃ r, v.type? = some r ∧ t.decayed.erased = r.decayed.erased := by
  cases ho with
  | object hp he =>
      obtain ⟨r, hr, hpr⟩ := (load_typed hp he h).1
      exact ⟨r, hr, Ty.decayed_congr (he.trans hpr)⟩
  | value hr =>
      cases h
      obtain ⟨r, hv, he⟩ := hr.type?
      refine ⟨r, hv, ?_⟩
      cases hr <;> cases hv <;> exact he

/-! ## Objects -/

/-- What a declared type designates: references are followed. -/
theorem object_typed (hu : u.ReferencesFlat) (h : target.object u a = .ok o) :
    o.Typed u.dereferenced := by
  obtain ⟨p, hp, ho⟩ := bind_eq_ok_iff.1 h
  cases ho
  have htype : p.type = u.dereferenced := by
    unfold follow at hp
    cases u with
    | reference e q =>
        obtain ⟨b, -, hb⟩ := bind_eq_ok_iff.1 hp
        cases hb
        rfl
    | _ =>
        cases hp
        rfl
  exact .object (htype ▸ hu.isObject_dereferenced) (htype ▸ rfl)

theorem memberOf_typed {r : TaggedType} {p q : Qualifiers} {name : String}
    (ht : target.ReferencesFlat) (h : target.memberOf (.tagged r p) a name = .ok o) :
    ∃ f, target.member (.tagged r q) name = .ok f ∧ o.Typed f.type.dereferenced := by
  obtain ⟨f, hf, ho⟩ := bind_eq_ok_iff.1 h
  have hflat : f.type.ReferencesFlat := by
    simp only [member] at hf
    split at hf
    · cases hf
      exact ht.ofField ‹_›
    · cases hf
  refine ⟨f, hf, ?_⟩
  split at ho
  · exact object_typed hflat ho
  · have hcv : (f.type.qualified p).erased = f.type.erased := Ty.erased_qualified ..
    exact (object_typed ((Ty.referencesFlat_congr hcv).2 hflat) ho).congr
      (Ty.dereferenced_congr hcv)

theorem tagged_of_memberOf {name : String} (h : target.memberOf u a name = .ok o) :
    ∃ r q, u = .tagged r q := by
  obtain ⟨f, hf, -⟩ := bind_eq_ok_iff.1 h
  cases u with
  | tagged r q => exact ⟨r, q, rfl⟩
  | _ => cases hf

theorem pointeeOf_typed (hv : ReadsAs t v) (h : target.pointeeOf v = .ok o) :
    ∃ r, t.underUnary .deref = .ok r ∧ o.Typed r.dereferenced := by
  unfold pointeeOf at h
  split at h
  · split at h
    · cases h
    · cases hv with
      | pointer hp he =>
          exact ⟨_, rfl, (object_typed hp h).congr (Ty.dereferenced_congr he.symm)⟩
      | array hp he =>
          exact ⟨_, rfl, (object_typed hp h).congr (Ty.dereferenced_congr he.symm)⟩
  · cases h

/-- The element behind a pointer or in an array. -/
theorem element_typed {p : Pointer} {n : Int} (hv : ReadsAs t (.pointer p))
    (h : (do let q ← p.advance n; target.object q.pointee q.address) = .ok o) :
    ∃ r c, t.decayed = .pointer r c ∧ o.Typed r.dereferenced := by
  obtain ⟨q, hq, ho⟩ := bind_eq_ok_iff.1 h
  have hpointee := Pointer.pointee_advance hq
  cases hv with
  | pointer hp he =>
      refine ⟨_, _, rfl, (object_typed (hpointee ▸ hp) ho).congr (Ty.dereferenced_congr ?_)⟩
      rw [hpointee, he]
  | array hp he =>
      refine ⟨_, _, rfl, (object_typed (hpointee ▸ hp) ho).congr (Ty.dereferenced_congr ?_)⟩
      rw [hpointee, he]

theorem elementOf_typed (hv : ReadsAs t v) (hw : ReadsAs u w)
    (h : target.elementOf v w = .ok o) :
    ∃ r, t.decayed.subscripted u.decayed = .ok r ∧ o.Typed r.dereferenced := by
  unfold elementOf at h
  split at h
  · split at h
    · cases h
    · obtain ⟨r, c, hr, ho⟩ := element_typed hv h
      exact ⟨r, by rw [hr]; rfl, ho⟩
  · split at h
    · cases h
    · obtain ⟨r, c, hr, ho⟩ := element_typed hw h
      refine ⟨r, ?_, ho⟩
      rw [hr]
      cases hv with
      | scalar _ => rfl
  · cases h
  · cases h
  · cases h

end Target

theorem Operand.addressOf_typed {t : Ty} {o o' : Operand} (ho : o.Typed t)
    (h : o.addressOf = .ok o') : o'.Typed t.pointerTo := by
  cases ho with
  | object hp he =>
      cases h
      exact .value (.pointer hp.2 he)
  | value _ => cases h

namespace Expr

variable {target : Target}

/-- What is asked of the single nodes of an expression: a cast names no reference to a reference, and
the branches of a conditional have types that can be joined. -/
def HasJoinableTypes (target : Target) : Expr → Prop
  | .cast t _ => t.ReferencesFlat
  | .conditional _ e f =>
    ∃ t u, e.staticType target = .ok t ∧ f.staticType target = .ok u ∧ t.decayed.Joinable u.decayed
  | _ => True

/-- The selected branch of a conditional. -/
theorem besides_typed {other : Expr} {t u : Ty} {v w : Value} (hv : ReadsAs t v)
    (hu : other.staticType target = .ok u) (hj : t.decayed.Joinable u.decayed)
    (h : other.besides target v = .ok w) : ReadsAs (t.decayed.joined u.decayed) w := by
  obtain ⟨-, -, h⟩ := bind_eq_ok_iff.1 h
  rw [hu] at h
  cases h
  exact hv.decayed.inCommonWith hj

/-- Whatever an expression reduces to is of its static type. -/
def ReducesTyped (target : Target) (e : Expr) : Prop :=
  ∀ o, e.reduce target = .ok o → ∃ t, e.staticType target = .ok t ∧ o.Typed t

theorem operandValue_typed {e : Expr} {v : Value} (ih : e.ReducesTyped target)
    (h : e.operandValue target = .ok v) :
    ∃ t, e.staticType target = .ok t ∧ ReadsAs t v := by
  obtain ⟨o, ho, hv⟩ := bind_eq_ok_iff.1 h
  obtain ⟨t, ht, hto⟩ := ih o ho
  exact ⟨t, ht, Target.decayedValueOf_typed hto hv⟩

theorem reduce_dot_typed (ht : target.ReferencesFlat) {e : Expr} {field : String} {o : Operand}
    (ih : e.ReducesTyped target) (h : (member e .dot field).reduce target = .ok o) :
    ∃ s t f, e.staticType target = .ok s ∧ s.dereferenced.accessed .dot = .ok t ∧
      target.member t field = .ok f ∧ o.Typed f.type.dereferenced := by
  rw [reduce_dot] at h
  obtain ⟨v, hv, h⟩ := bind_eq_ok_iff.1 h
  obtain ⟨o', ho', hv⟩ := bind_eq_ok_iff.1 hv
  split at h
  · obtain ⟨r, q, rfl⟩ := Target.tagged_of_memberOf h
    obtain ⟨s, hs, hso⟩ := ih o' ho'
    have hread : ReadsAs s (.aggregate (.tagged r q) _) :=
      Target.decayedValueOf_typed hso (bind_eq_ok_iff.2 ⟨_, hv, rfl⟩)
    cases hread with
    | record =>
        obtain ⟨f, hf, ho⟩ := Target.memberOf_typed ht h
        exact ⟨_, _, f, hs, rfl, hf, ho⟩
  · cases h

theorem reduce_arrow_typed (ht : target.ReferencesFlat) {e : Expr} {field : String} {o : Operand}
    (ih : e.ReducesTyped target) (h : (member e .arrow field).reduce target = .ok o) :
    ∃ s t f, e.staticType target = .ok s ∧ s.dereferenced.accessed .arrow = .ok t ∧
      target.member t field = .ok f ∧ o.Typed f.type.dereferenced := by
  rw [reduce_arrow] at h
  obtain ⟨v, hv, h⟩ := bind_eq_ok_iff.1 h
  obtain ⟨s, hs, hvs⟩ := operandValue_typed ih hv
  split at h
  · obtain ⟨r, q, hr⟩ := Target.tagged_of_memberOf h
    rw [hr] at h
    cases hvs with
    | pointer hp he =>
        obtain ⟨q', rfl⟩ := Ty.eq_tagged_of_erased (hr ▸ he)
        obtain ⟨f, hf, ho⟩ := Target.memberOf_typed ht h
        exact ⟨_, _, f, hs, rfl, hf, ho⟩
    | array hp he =>
        obtain ⟨q', rfl⟩ := Ty.eq_tagged_of_erased (hr ▸ he)
        obtain ⟨f, hf, ho⟩ := Target.memberOf_typed ht h
        exact ⟨_, _, f, hs, rfl, hf, ho⟩
  · cases h

theorem reduce_unary_typed {op : UnaryOp} {e : Expr} {o : Operand} (ih : e.ReducesTyped target)
    (h : (unary op e).reduce target = .ok o) :
    ∃ t r, e.staticType target = .ok t ∧ t.dereferenced.underUnary op = .ok r ∧
      o.Typed r.dereferenced := by
  by_cases ha : op = .addressOf
  · subst ha
    obtain ⟨o', ho', h⟩ := bind_eq_ok_iff.1 h
    obtain ⟨t, ht, hto⟩ := ih o' ho'
    have hobject : t.IsObject := hto.isObject
    exact ⟨t, _, ht, rfl, hobject.dereferenced_eq.symm ▸ Operand.addressOf_typed hto h⟩
  · by_cases hd : op = .deref
    · subst hd
      rw [reduce_deref] at h
      obtain ⟨v, hv, h⟩ := bind_eq_ok_iff.1 h
      obtain ⟨t, ht, hvt⟩ := operandValue_typed ih hv
      obtain ⟨r, hr, ho⟩ := Target.pointeeOf_typed hvt h
      exact ⟨t, r, ht, hvt.isObject.dereferenced_eq.symm ▸ hr, ho⟩
    · rw [reduce_unary target hd ha] at h
      obtain ⟨v, hv, h⟩ := bind_eq_ok_iff.1 h
      obtain ⟨w, hw, h⟩ := bind_eq_ok_iff.1 h
      cases h
      obtain ⟨t, ht, hvt⟩ := operandValue_typed ih hv
      obtain ⟨r, hr, hwr⟩ := hvt.unary hw
      refine ⟨t, r, ht, hvt.isObject.dereferenced_eq.symm ▸ hr, ?_⟩
      rw [hwr.isObject.dereferenced_eq]
      exact .value hwr

theorem name_reducesTyped (ht : target.ReferencesFlat) (id : String) :
    (name id).ReducesTyped target := by
  intro o h
  obtain ⟨v, hv, ho⟩ := bind_eq_ok_iff.1 h
  have hflat : v.type.ReferencesFlat := by
    unfold Target.lookup at hv
    split at hv
    · cases hv
      exact ht.ofVariable ‹_›
    · cases hv
  refine ⟨v.type.dereferenced, ?_, Target.object_typed hflat ho⟩
  rw [staticType, hv]
  rfl

theorem cast_reducesTyped {t : Ty} {e : Expr} (hflat : t.ReferencesFlat)
    (ih : e.ReducesTyped target) : (cast t e).ReducesTyped target := by
  intro o h
  rw [reduce_cast] at h
  obtain ⟨v, hv, h⟩ := bind_eq_ok_iff.1 h
  obtain ⟨w, hw, h⟩ := bind_eq_ok_iff.1 h
  cases h
  obtain ⟨u, hu, -⟩ := operandValue_typed ih hv
  have hr : ReadsAs t.unqualified w := .congr (by simp) (ReadsAs.cast hflat hw)
  refine ⟨t.unqualified, ?_, .value hr⟩
  rw [staticType, hu]
  exact congrArg Except.ok hr.isObject.dereferenced_eq

theorem member_reducesTyped (ht : target.ReferencesFlat) {e : Expr} (ih : e.ReducesTyped target)
    (access : MemberAccess) (field : String) : (member e access field).ReducesTyped target := by
  intro o h
  have hmember : ∃ s t f, e.staticType target = .ok s ∧ s.dereferenced.accessed access = .ok t ∧
      target.member t field = .ok f ∧ o.Typed f.type.dereferenced := by
    cases access with
    | dot => exact reduce_dot_typed ht ih h
    | arrow => exact reduce_arrow_typed ht ih h
  obtain ⟨s, t, f, hs, ha, hf, ho⟩ := hmember
  refine ⟨f.type.dereferenced, ?_, ho⟩
  rw [staticType, hs]
  simp only [bind, Except.bind, ha, hf]
  rfl

theorem subscript_reducesTyped {e f : Expr} (ihe : e.ReducesTyped target)
    (ihf : f.ReducesTyped target) : (binary .subscript e f).ReducesTyped target := by
  intro o h
  rw [reduce_subscript] at h
  obtain ⟨v, hv, h⟩ := bind_eq_ok_iff.1 h
  obtain ⟨w, hw, h⟩ := bind_eq_ok_iff.1 h
  obtain ⟨t, ht, hvt⟩ := operandValue_typed ihe hv
  obtain ⟨u, hu, hwu⟩ := operandValue_typed ihf hw
  obtain ⟨r, hr, ho⟩ := Target.elementOf_typed hvt hwu h
  refine ⟨_, ?_, ho⟩
  rw [staticType, ht, hu]
  simp only [bind, Except.bind, hr]
  rfl

theorem binary_reducesTyped {op : BinaryOp} (hop : op ≠ .subscript) {e f : Expr}
    (ihe : e.ReducesTyped target) (ihf : f.ReducesTyped target) :
    (binary op e f).ReducesTyped target := by
  intro o h
  rw [reduce_binary target hop] at h
  obtain ⟨v, hv, h⟩ := bind_eq_ok_iff.1 h
  obtain ⟨w, hw, h⟩ := bind_eq_ok_iff.1 h
  obtain ⟨x, hx, h⟩ := bind_eq_ok_iff.1 h
  cases h
  obtain ⟨t, ht, hvt⟩ := operandValue_typed ihe hv
  obtain ⟨u, hu, hwu⟩ := operandValue_typed ihf hw
  obtain ⟨r, hr, hxr⟩ := hvt.binary hwu hx
  refine ⟨r, ?_, .value hxr⟩
  rw [staticType_binary target hop, ht, hu]
  simp only [bind, Except.bind, hr, hxr.isObject.dereferenced_eq]
  rfl

theorem unary_reducesTyped (op : UnaryOp) {e : Expr} (ih : e.ReducesTyped target) :
    (unary op e).ReducesTyped target := by
  intro o h
  obtain ⟨t, r, hs, hr, ho⟩ := reduce_unary_typed ih h
  refine ⟨r.dereferenced, ?_, ho⟩
  rw [staticType, hs]
  simp only [bind, Except.bind, hr]
  rfl

theorem conditional_reducesTyped {c e f : Expr} {t u : Ty} (hte : e.staticType target = .ok t)
    (huf : f.staticType target = .ok u) (hj : t.decayed.Joinable u.decayed)
    (ihc : c.ReducesTyped target) (ihe : e.ReducesTyped target) (ihf : f.ReducesTyped target) :
    (conditional c e f).ReducesTyped target := by
  intro o h
  rw [reduce_conditional] at h
  obtain ⟨v, hv, h⟩ := bind_eq_ok_iff.1 h
  obtain ⟨b, -, h⟩ := bind_eq_ok_iff.1 h
  obtain ⟨s, hs, -⟩ := operandValue_typed ihc hv
  -- The other branch is not reduced: only its static type takes part in the result.
  have hread : ∃ w, o = .value w ∧ ReadsAs (t.decayed.joined u.decayed) w := by
    cases b with
    | true =>
        obtain ⟨w, hw, h⟩ := bind_eq_ok_iff.1 h
        obtain ⟨x, hx, h⟩ := bind_eq_ok_iff.1 h
        cases h
        obtain ⟨t', ht', hwt⟩ := operandValue_typed ihe hw
        obtain rfl := Except.ok.inj (hte.symm.trans ht')
        exact ⟨x, rfl, besides_typed hwt huf hj hx⟩
    | false =>
        obtain ⟨w, hw, h⟩ := bind_eq_ok_iff.1 h
        obtain ⟨x, hx, h⟩ := bind_eq_ok_iff.1 h
        cases h
        obtain ⟨u', hu', hwu⟩ := operandValue_typed ihf hw
        obtain rfl := Except.ok.inj (huf.symm.trans hu')
        exact ⟨x, rfl, (besides_typed hwu hte hj.symm hx).congr hj.symm.erased_joined_comm⟩
  obtain ⟨w, rfl, hw⟩ := hread
  refine ⟨t.decayed.joined u.decayed, ?_, .value hw⟩
  rw [staticType, hs, hte, huf]
  exact congrArg Except.ok hw.isObject.dereferenced_eq

/-- An expression that reduces has a static type, and what it reduces to is of that type. -/
theorem reduce_typed (ht : target.ReferencesFlat) {e : Expr}
    (he : e.Everywhere (HasJoinableTypes target)) : e.ReducesTyped target := by
  induction e with
  | poisoned d =>
      intro o h
      cases h
  | truth b =>
      intro o h
      cases h
      exact ⟨_, rfl, .value (.ofBool b)⟩
  | number v s =>
      intro o h
      cases h
      exact ⟨_, rfl, .value (.scalar rfl)⟩
  | name id => exact name_reducesTyped ht id
  | cast t e ih => exact cast_reducesTyped he.1 (ih he.2)
  | member e access field ih => exact member_reducesTyped ht (ih he.2) access field
  | binary op e f ihe ihf =>
      by_cases hop : op = .subscript
      · subst hop
        exact subscript_reducesTyped (ihe he.2.1) (ihf he.2.2)
      · exact binary_reducesTyped hop (ihe he.2.1) (ihf he.2.2)
  | unary op e ih => exact unary_reducesTyped op (ih he.2)
  | conditional c e f ihc ihe ihf =>
      obtain ⟨⟨t, u, hte, huf, hj⟩, hc, he, hf⟩ := he
      exact conditional_reducesTyped hte huf hj (ihc hc) (ihe he) (ihf hf)

/-- An expression that has a value has a static type, and the value is of that type. -/
theorem eval_typed (ht : target.ReferencesFlat) {e : Expr}
    (he : e.Everywhere (HasJoinableTypes target)) {v : Value} (h : e.eval target = .ok v) :
    ∃ t u, e.staticType target = .ok t ∧ v.type? = some u ∧
      t.decayed.erased = u.decayed.erased := by
  obtain ⟨o, ho, hv⟩ := bind_eq_ok_iff.1 h
  obtain ⟨t, hte, hto⟩ := reduce_typed ht he o ho
  obtain ⟨u, hu, htu⟩ := Target.type?_of_valueOf hto hv
  exact ⟨t, u, hte, hu, htu⟩

/-- The static type of a conditional does not depend on its condition. -/
theorem staticType_conditional_unique {c d e f : Expr} {t u : Ty}
    (ht : (conditional c e f).staticType target = .ok t)
    (hu : (conditional d e f).staticType target = .ok u) : t = u := by
  obtain ⟨-, -, ht⟩ := bind_eq_ok_iff.1 ht
  obtain ⟨-, -, hu⟩ := bind_eq_ok_iff.1 hu
  exact Except.ok.inj (ht.symm.trans hu)

/-- The static type of an expression foretells the type of its value. In particular a conditional has
values of one kind, whichever branch is selected. -/
theorem staticType_foretells_eval (ht : target.ReferencesFlat) :
    (∀ (e : Expr) (v : Value), e.Everywhere (HasJoinableTypes target) → e.eval target = .ok v →
      ∃ t u, e.staticType target = .ok t ∧ v.type? = some u ∧
        t.decayed.erased = u.decayed.erased) ∧
    (∀ (c d e f : Expr) (r s : Scalar), (conditional c e f).Everywhere (HasJoinableTypes target) →
      (conditional d e f).Everywhere (HasJoinableTypes target) →
      (conditional c e f).eval target = .ok (.scalar r) →
      (conditional d e f).eval target = .ok (.scalar s) → r.kind = s.kind) := by
  refine ⟨fun e v he h => eval_typed ht he h, fun c d e f r s hc hd hr hs => ?_⟩
  obtain ⟨t, t', ht₁, hr', htr⟩ := eval_typed ht hc hr
  obtain ⟨u, u', hu₁, hs', hus⟩ := eval_typed ht hd hs
  obtain rfl := staticType_conditional_unique ht₁ hu₁
  cases hr'
  cases hs'
  obtain ⟨hk, -⟩ := Ty.scalar.inj (htr.symm.trans hus)
  exact ScalarKind.arithmetic.inj hk

/-- An element of an array that is reached through a reference, beside a constant of another type. -/
theorem staticType_foretells_eval_referenced_array :
    let chars : Ty := .array (.arithmetic (.integral .char)) 2 .none
    let target : Target :=
      { variableNamed? := fun n => if n = "r" then some ⟨n, .reference chars .none, 8⟩ else none
        types := fun _ => none
        field? := fun _ _ => none
        read? := fun a n =>
          if a = 8 ∧ n = 8 then some (Bytes.ofAddress 16)
          else if a = 17 ∧ n = 1 then some [65] else none }
    let one : Expr := .number (.integral .long 1) "1l"
    let element : Expr := .binary .subscript (.name "r") one
    let e : Expr := .conditional element element one
    target.ReferencesFlat ∧ e.Everywhere (HasJoinableTypes target) ∧
      e.eval target = .ok (.scalar (.integral .long 65)) ∧
      ∃ t u, e.staticType target = .ok t ∧
        Value.type? (.scalar (.integral .long 65)) = some u ∧
        t.decayed.erased = u.decayed.erased := by
  intro chars target one element e
  have hflat : target.ReferencesFlat := by
    refine ⟨fun {name v} h => ?_, fun h => by cases h⟩
    simp only [target] at h
    split at h
    · cases h
      exact ⟨rfl, trivial⟩
    · cases h
  have helement : element.staticType target = .ok (.arithmetic (.integral .char)) := rfl
  have he : e.Everywhere (HasJoinableTypes target) := by
    refine ⟨⟨_, _, helement, rfl, .inl ⟨_, _, _, _, rfl, rfl⟩⟩, ?_, ?_, trivial⟩ <;>
      exact ⟨trivial, trivial, trivial⟩
  have heval : e.eval target = .ok (.scalar (.integral .long 65)) := by decide +kernel
  exact ⟨hflat, he, heval, (staticType_foretells_eval hflat).1 e _ he heval⟩

end Expr

end WatchExpr
