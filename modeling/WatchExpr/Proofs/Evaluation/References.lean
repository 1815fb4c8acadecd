import WatchExpr.Proofs.Reduction

/-!
# References stand for what they refer to

A name may be replaced by another that designates the same object, wherever it stands in an
expression. A reference and the variable it refers to are two such names.
-/

namespace WatchExpr

namespace Expr

/-- The expression with other names in the places of its names. -/
def rename (f : String → String) : Expr → Expr
  | .poisoned d => .poisoned d
  | .truth b => .truth b
  | .number v s => .number v s
  | .name id => .name (f id)
  | .cast t e => .cast t (e.rename f)
  | .member e access field => .member (e.rename f) access field
  | .binary op e g => .binary op (e.rename f) (g.rename f)
  | .unary op e => .unary op (e.rename f)
  | .conditional c e g => .conditional (c.rename f) (e.rename f) (g.rename f)

end Expr

/-- Two names for one object: as expressions they have the same type and reduce to the same operand,
or they fail in the same way. -/
structure Target.Coincide (target : Target) (m n : String) : Prop where
  staticType : (Expr.name m).staticType target = (Expr.name n).staticType target
  reduce : (Expr.name m).reduce target = (Expr.name n).reduce target

namespace Target.Coincide

variable {target : Target}

theorem refl (m : String) : target.Coincide m m := ⟨rfl, rfl⟩

theorem checkNames {m n : String} (h : target.Coincide m n) :
    (Expr.name m).checkNames target = (Expr.name n).checkNames target := by
  have hcheck (id : String) : (Expr.name id).checkNames target =
      ((Expr.name id).staticType target).map fun _ => () := by
    rw [Expr.checkNames, Expr.staticType]
    cases target.lookup id <;> rfl
  rw [hcheck, hcheck, h.staticType]

end Target.Coincide

namespace Expr

variable {target : Target} {f : String → String}

theorem checkNames_rename (h : ∀ id, target.Coincide id (f id)) (e : Expr) :
    (e.rename f).checkNames target = e.checkNames target := by
  induction e with
  | poisoned d => rfl
  | truth b => rfl
  | number v s => rfl
  | name id => exact (h id).checkNames.symm
  | cast t e ih => exact ih
  | member e access field ih => exact ih
  | binary op e g ihe ihg => rw [rename, checkNames, ihe, ihg, checkNames]
  | unary op e ih => exact ih
  | conditional c e g ihc ihe ihg => rw [rename, checkNames, ihc, ihe, ihg, checkNames]

theorem staticType_rename (h : ∀ id, target.Coincide id (f id)) (e : Expr) :
    (e.rename f).staticType target = e.staticType target := by
  induction e with
  | poisoned d => rfl
  | truth b => rfl
  | number v s => rfl
  | name id => exact (h id).staticType.symm
  | cast t e ih => rw [rename, staticType, ih, staticType]
  | member e access field ih => rw [rename, staticType, ih, staticType]
  | binary op e g ihe ihg =>
      by_cases hop : op = .subscript
      · subst hop
        rw [rename, staticType, ihe, ihg, staticType]
      · rw [rename, staticType_binary target hop, ihe, ihg, staticType_binary target hop]
  | unary op e ih => rw [rename, staticType, ih, staticType]
  | conditional c e g ihc ihe ihg => rw [rename, staticType, ihc, ihe, ihg, staticType]

theorem besides_rename (h : ∀ id, target.Coincide id (f id)) (e : Expr) (v : Value) :
    (e.rename f).besides target v = e.besides target v := by
  simp only [besides, checkNames_rename h, staticType_rename h]

theorem reduce_rename (h : ∀ id, target.Coincide id (f id)) (e : Expr) :
    (e.rename f).reduce target = e.reduce target := by
  have operand {e : Expr} (ih : (e.rename f).reduce target = e.reduce target) :
      (e.rename f).operandValue target = e.operandValue target := by
    rw [operandValue, ih, operandValue]
  induction e with
  | poisoned d => rfl
  | truth b => rfl
  | number v s => rfl
  | name id => exact (h id).reduce.symm
  | cast t e ih => rw [rename, reduce_cast, operand ih, reduce_cast]
  | member e access field ih =>
      cases access with
      | dot => rw [rename, reduce_dot, eval, ih, reduce_dot, eval]
      | arrow => rw [rename, reduce_arrow, operand ih, reduce_arrow]
  | binary op e g ihe ihg =>
      by_cases hop : op = .subscript
      · subst hop
        rw [rename, reduce_subscript, operand ihe, operand ihg, reduce_subscript]
      · rw [rename, reduce_binary target hop, operand ihe, operand ihg, reduce_binary target hop]
  | unary op e ih =>
      by_cases hd : op = .deref
      · subst hd
        rw [rename, reduce_deref, operand ih, reduce_deref]
      · by_cases ha : op = .addressOf
        · subst ha
          rw [rename, reduce, ih, reduce]
        · rw [rename, reduce_unary target hd ha, operand ih, reduce_unary target hd ha]
  | conditional c e g ihc ihe ihg =>
      -- The branch that is not selected is renamed as well, and only asked for names and a type.
      simp only [rename, reduce_conditional, operand ihc, operand ihe, operand ihg,
        besides_rename h]

/-- Names that designate the same objects can be put for the names of an expression. -/
theorem eval_rename (h : ∀ id, target.Coincide id (f id)) (e : Expr) :
    (e.rename f).eval target = e.eval target := by
  rw [eval, reduce_rename h, eval]

end Expr

namespace Target

variable {target : Target}

/-- A reference coincides with a variable that lies where it refers to. -/
theorem coincide_of_reference {r v m n : String} {t : Ty} {q : Qualifiers} {a b : UInt64}
    (hr : target.variableNamed? r = some ⟨m, .reference t q, a⟩)
    (hv : target.variableNamed? v = some ⟨n, t, b⟩) (ht : t.isReference = false)
    (ha : target.read? a 8 = some (Bytes.ofAddress b)) : target.Coincide r v := by
  constructor
  · rw [Expr.staticType, Expr.staticType, lookup_eq_ok hr, lookup_eq_ok hv]
    cases t with
    | reference t q => cases ht
    | _ => rfl
  · rw [Expr.reduce, Expr.reduce, lookup_eq_ok hr, lookup_eq_ok hv]
    exact (object_reference ha).trans (object_of_isReference_eq_false ht).symm

end Target

namespace Expr

variable {target : Target}

/-- A reference behaves as the variable that lies where it refers to: wherever its name stands in an
expression, that of the variable can be put, and the expression has the same value, or fails for the
same reason, and has the same static type. -/
theorem reference_behaves_as_referent {r v m n : String} {t : Ty} {q : Qualifiers} {a b : UInt64}
    (hr : target.variableNamed? r = some ⟨m, .reference t q, a⟩) (ht : t.isReference = false)
    (ha : target.read? a 8 = some (Bytes.ofAddress b))
    (hv : target.variableNamed? v = some ⟨n, t, b⟩) (e : Expr) :
    e.eval target = (e.rename (Function.update id r v)).eval target ∧
      e.staticType target = (e.rename (Function.update id r v)).staticType target := by
  have hsame (id' : String) : target.Coincide id' (Function.update id r v id') := by
    by_cases h : id' = r
    · subst h
      rw [Function.update_self]
      exact Target.coincide_of_reference hr hv ht ha
    · rw [Function.update_of_ne h]
      exact .refl id'
  exact ⟨(eval_rename hsame e).symm, (staticType_rename hsame e).symm⟩

/-- The address of a record, and a member of it, through a reference. -/
theorem reference_behaves_as_referent_record :
    let record : Ty := .tagged ⟨"P", 4⟩ .none
    let target : Target :=
      { variableNamed? := fun n =>
          if n = "r" then some ⟨n, .reference record .none, 8⟩
          else if n = "p" then some ⟨n, record, 16⟩ else none
        types := fun _ => none
        field? := fun _ f => if f = "x" then some ⟨f, .arithmetic (.integral .int), 0⟩ else none
        read? := fun a n =>
          if a = 8 ∧ n = 8 then some (Bytes.ofAddress 16)
          else if a = 16 ∧ n = 4 then some [7, 0, 0, 0] else none }
    let through (id : String) : Expr :=
      .conditional (.unary .addressOf (.name id)) (.member (.name id) .dot "x") (.name id)
    target.variableNamed? "r" = some ⟨"r", .reference record .none, 8⟩ ∧
      record.isReference = false ∧ target.read? 8 8 = some (Bytes.ofAddress 16) ∧
      target.variableNamed? "p" = some ⟨"p", record, 16⟩ ∧
      (through "r").rename (Function.update id "r" "p") = through "p" ∧
      (through "r").eval target = .ok (.scalar (.integral .int 7)) ∧
      (through "r").eval target = (through "p").eval target ∧
      (through "r").staticType target = (through "p").staticType target := by
  intro record target through
  have hr : target.variableNamed? "r" = some ⟨"r", .reference record .none, 8⟩ := by decide
  have hp : target.variableNamed? "p" = some ⟨"p", record, 16⟩ := by decide
  have ha : target.read? 8 8 = some (Bytes.ofAddress 16) := by decide
  have hrename : (through "r").rename (Function.update id "r" "p") = through "p" := by
    simp [through, rename]
  have hsame := reference_behaves_as_referent hr rfl ha hp (through "r")
  rw [hrename] at hsame
  exact ⟨hr, rfl, ha, hp, hrename, by decide +kernel, hsame⟩

end Expr

end WatchExpr
