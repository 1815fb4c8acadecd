import WatchExpr.Proofs.Evaluation.Lvalues

/-!
# Qualifiers along access paths

A path leads from an object through members and array elements to an object inside it. Members take on
the qualifiers of the object that they belong to. Elements do not: what is selected from an array has
the qualifiers of the element type alone, so a path through an array forgets those that the array had
from the outside.
-/

namespace WatchExpr

/-! ## Qualified types -/

/-- One of the two qualifiers. -/
inductive Qualifier where
  | const | volatile
deriving DecidableEq, Repr

/-- The qualifier is among those of one level. -/
def Qualifiers.Has (q : Qualifiers) : Qualifier → Prop
  | .const => q.isConst = true
  | .volatile => q.isVolatile = true

/-- An object of the type has the qualifier. An array has it as well where its elements do. -/
def Ty.IsQualified (w : Qualifier) : Ty → Prop
  | .array t _ q => q.Has w ∨ t.IsQualified w
  | .scalar _ q | .tagged _ q | .pointer _ q | .reference _ q => q.Has w

variable {w : Qualifier}

theorem Qualifiers.has_union {p q : Qualifiers} : (p.union q).Has w ↔ p.Has w ∨ q.Has w := by
  cases w with
  | const => exact Bool.or_eq_true_iff
  | volatile => exact Bool.or_eq_true_iff

theorem Qualifiers.union_none (q : Qualifiers) : q.union .none = q := by
  obtain ⟨c, v⟩ := q
  cases c <;> cases v <;> rfl

theorem Ty.qualified_none (t : Ty) : t.qualified .none = t := by
  cases t <;> simp only [qualified, cv, withCv, Qualifiers.union_none]

theorem Ty.isQualified_qualified {t : Ty} {q : Qualifiers} :
    (t.qualified q).IsQualified w ↔ t.IsQualified w ∨ q.Has w := by
  cases t with
  | array t n p =>
      show (p.union q).Has w ∨ t.IsQualified w ↔ (p.Has w ∨ t.IsQualified w) ∨ q.Has w
      rw [Qualifiers.has_union, or_assoc, or_assoc, or_comm (b := t.IsQualified w)]
  | scalar k p => exact Qualifiers.has_union
  | tagged r p => exact Qualifiers.has_union
  | pointer t p => exact Qualifiers.has_union
  | reference t p => exact Qualifiers.has_union

/-! ## Paths -/

/-- A step into an object, with the declared type of what it leads to. -/
inductive AccessStep where
  | member (declared : Ty)
  | element (declared : Ty)

/-- The declared type of what a step leads to. -/
def AccessStep.declared : AccessStep → Ty
  | .member t | .element t => t

/-- The expression is a path from an object of the first type, through the steps, to an object declared
with the second type. It starts at a variable or at what a pointer points to, and goes on through
members and array elements, none of which is a reference. -/
inductive AccessPath (target : Target) : Ty → Expr → List AccessStep → Ty → Prop where
  | variable {name : String} {v : Variable} (hv : target.variableNamed? name = some v) :
      AccessPath target v.type.dereferenced (.name name) [] v.type.dereferenced
  | pointee {e : Expr} {p : Pointer} (hp : e.operandValue target = .ok (.pointer p)) :
      AccessPath target p.pointee.dereferenced (.unary .deref e) [] p.pointee.dereferenced
  | arrow {e : Expr} {a : UInt64} {r : TaggedType} {q : Qualifiers} {name : String} {f : Field}
      (hp : e.operandValue target = .ok (.pointer ⟨a, .tagged r q⟩))
      (hf : target.field? r name = some f) (href : f.type.isReference = false) :
      AccessPath target (.tagged r q) (.member e .arrow name) [.member f.type] f.type
  | member {start : Ty} {e : Expr} {steps : List AccessStep} {r : TaggedType} {q : Qualifiers}
      {name : String} {f : Field} (h : AccessPath target start e steps (.tagged r q))
      (hf : target.field? r name = some f) (href : f.type.isReference = false) :
      AccessPath target start (.member e .dot name) (steps ++ [.member f.type]) f.type
  | element {start : Ty} {e index : Expr} {steps : List AccessStep} {t : Ty} {n : UInt64}
      {q : Qualifiers} (h : AccessPath target start e steps (.array t n q))
      (href : t.isReference = false) :
      AccessPath target start (.binary .subscript e index) (steps ++ [.element t]) t

/-- A path forgets a qualifier: it selects an array element of a type without it, and no type that it
leads to from there on has it. -/
def Forgets (w : Qualifier) (steps : List AccessStep) : Prop :=
  ∃ before t after, steps = before ++ .element t :: after ∧ ¬t.IsQualified w ∧
    ∀ s ∈ after, ¬s.declared.IsQualified w

variable {steps : List AccessStep} {s : AccessStep} {t : Ty}

theorem not_forgets_nil : ¬Forgets w [] := by
  rintro ⟨before, t, after, h, -⟩
  exact absurd h.symm (List.append_ne_nil_of_right_ne_nil _ (List.cons_ne_nil _ _))

/-- What the last step of a path does to a qualifier. -/
theorem forgets_append_singleton :
    Forgets w (steps ++ [s]) ↔
      ¬s.declared.IsQualified w ∧ (Forgets w steps ∨ ∃ t, s = .element t) := by
  constructor
  · rintro ⟨before, t, after, h, ht, hafter⟩
    obtain rfl | ⟨after, x, rfl⟩ := List.eq_nil_or_concat after
    · obtain ⟨rfl, hs⟩ := List.append_inj' h rfl
      cases hs
      exact ⟨ht, .inr ⟨t, rfl⟩⟩
    · rw [List.concat_eq_append] at h hafter
      rw [← List.cons_append, ← List.append_assoc] at h
      obtain ⟨rfl, hs⟩ := List.append_inj' h rfl
      cases hs
      refine ⟨hafter _ (by simp), .inl ⟨before, t, after, rfl, ht, fun s hs => hafter s ?_⟩⟩
      exact List.mem_append_left _ hs
  · rintro ⟨hs, ⟨before, t, after, rfl, ht, hafter⟩ | ⟨t, rfl⟩⟩
    · refine ⟨before, t, after ++ [s], by simp, ht, fun x hx => ?_⟩
      cases List.mem_append.1 hx with
      | inl hx => exact hafter x hx
      | inr hx =>
          rw [List.mem_singleton.1 hx]
          exact hs
    · exact ⟨steps, t, [], rfl, hs, nofun⟩

theorem forgets_member : Forgets w (steps ++ [.member t]) ↔ ¬t.IsQualified w ∧ Forgets w steps := by
  rw [forgets_append_singleton]
  exact and_congr_right' (or_iff_left nofun)

theorem forgets_element : Forgets w (steps ++ [.element t]) ↔ ¬t.IsQualified w := by
  rw [forgets_append_singleton]
  exact and_iff_left (.inr ⟨t, rfl⟩)

/-! ## Objects on a path -/

namespace Target

variable {target : Target}

theorem object_dereferenced (t : Ty) (a : UInt64) :
    Ensures (fun o => ∃ b, o = .object ⟨t.dereferenced, b⟩) (target.object t a) := by
  intro o ho
  obtain ⟨⟨u, b⟩, hplace, ho⟩ := bind_eq_ok_iff.1 ho
  cases ho
  have hu : u = t.dereferenced := type_of_follow hplace
  exact ⟨b, by rw [hu]⟩

/-- A member takes on the qualifiers of its record. -/
theorem memberOf_tagged {r : TaggedType} {q : Qualifiers} {name : String} {f : Field}
    (hf : target.field? r name = some f) (href : f.type.isReference = false) (a : UInt64) :
    target.memberOf (.tagged r q) a name =
      .ok (.object ⟨f.type.qualified q, a + f.offset⟩) := by
  have hmember : target.member (.tagged r q) name = .ok f := by simp only [member, hf]
  have hqualified : (f.type.qualified q).isReference = false := by
    rw [Ty.isReference_congr (Ty.erased_qualified _ _), href]
  rw [memberOf, hmember]
  simp only [bind, Except.bind, href, Bool.false_eq_true, ↓reduceIte]
  exact object_of_isReference_eq_false hqualified

/-- An element has the qualifiers of the element type. -/
theorem elementOf_pointer {p : Pointer} (h : p.pointee.isReference = false) (v : Value) :
    Ensures (fun o => ∃ b, o = .object ⟨p.pointee, b⟩) (target.elementOf (.pointer p) v) := by
  have helement (n : Int) : Ensures (fun o => ∃ b, o = .object ⟨p.pointee, b⟩)
      (if p.isToVoid then .error .subscriptOfVoid
        else do let q ← p.advance n; target.object q.pointee q.address) := by
    split
    · exact .error _
    · intro o ho
      obtain ⟨q, hq, ho⟩ := bind_eq_ok_iff.1 ho
      rw [Pointer.pointee_advance hq, object_of_isReference_eq_false h] at ho
      cases ho
      exact ⟨_, rfl⟩
  cases v with
  | scalar s =>
      cases s with
      | integral k n => exact helement n
      | floating k x => exact .error _
  | _ => exact .error _

end Target

namespace AccessPath

variable {target : Target} {start t : Ty} {e : Expr} {steps : List AccessStep}

/-- What a path reduces to is an object of the type that it leads to, with some qualifiers added. It
has a qualifier of the object where the path starts unless the path forgets it. -/
theorem reduces (h : AccessPath target start e steps t) :
    Ensures (fun o => ∃ q a, o = .object ⟨t.qualified q, a⟩ ∧
      (start.IsQualified w → ((t.qualified q).IsQualified w ↔ ¬Forgets w steps)))
      (e.reduce target) := by
  induction h with
  | @«variable» name v hv =>
      intro o ho
      rw [Expr.reduce, Target.lookup_eq_ok hv] at ho
      obtain ⟨a, rfl⟩ := Target.object_dereferenced _ _ o ho
      refine ⟨.none, a, by rw [Ty.qualified_none], fun hstart => ?_⟩
      rw [Ty.qualified_none]
      exact iff_of_true hstart not_forgets_nil
  | @pointee e p hp =>
      intro o ho
      rw [Expr.reduce_deref, hp] at ho
      replace ho : target.pointeeOf (.pointer p) = .ok o := ho
      obtain ⟨r, hr, -, ho⟩ := Target.pointeeOf_cases ho
      cases hr
      obtain ⟨a, rfl⟩ := Target.object_dereferenced _ _ o ho
      refine ⟨.none, a, by rw [Ty.qualified_none], fun hstart => ?_⟩
      rw [Ty.qualified_none]
      exact iff_of_true hstart not_forgets_nil
  | @arrow e a r q name f hp hf href =>
      intro o ho
      rw [Expr.reduce_arrow, hp] at ho
      cases (Target.memberOf_tagged hf href a).symm.trans ho
      refine ⟨q, a + f.offset, rfl, fun hstart => ?_⟩
      have hnone : ¬Forgets w ([] ++ [.member f.type]) := fun hforgets =>
        not_forgets_nil (forgets_member.1 hforgets).2
      exact iff_of_true (Ty.isQualified_qualified.2 (.inr hstart)) hnone
  | @member start e steps r q name f h hf href ih =>
      intro o ho
      rw [Expr.reduce_dot] at ho
      obtain ⟨v, hv, ho⟩ := bind_eq_ok_iff.1 ho
      obtain ⟨_, hreduce, hv⟩ := bind_eq_ok_iff.1 hv
      obtain ⟨q', a, rfl, hkept⟩ := ih _ hreduce
      cases hv
      cases (Target.memberOf_tagged hf href a).symm.trans ho
      refine ⟨q.union q', a + f.offset, rfl, fun hstart => ?_⟩
      have hrecord : (q.union q').Has w ↔ ¬Forgets w steps := hkept hstart
      rw [Ty.isQualified_qualified, hrecord, forgets_member, not_and_or, not_not]
  | @element start e index steps t n q h href ih =>
      intro o ho
      rw [Expr.reduce_subscript] at ho
      obtain ⟨v, hv, ho⟩ := bind_eq_ok_iff.1 ho
      obtain ⟨i, -, ho⟩ := bind_eq_ok_iff.1 ho
      obtain ⟨_, hreduce, hv⟩ := bind_eq_ok_iff.1 hv
      obtain ⟨q', a, rfl, -⟩ := ih _ hreduce
      -- The array becomes a pointer to its elements, whose type says nothing of the array.
      cases hv
      obtain ⟨b, rfl⟩ := @Target.elementOf_pointer target ⟨a, t⟩ href i o ho
      refine ⟨.none, b, by rw [Ty.qualified_none], fun _ => ?_⟩
      rw [Ty.qualified_none, forgets_element, not_not]

end AccessPath

/-- The address of what a path leads to points to an object with a qualifier of the object where the path
starts, unless the path forgets the qualifier at an array. -/
theorem Expr.path_qualified_iff {target : Target} {start t : Ty} {e : Expr}
    {steps : List AccessStep} (h : AccessPath target start e steps t) (w : Qualifier)
    (hstart : start.IsQualified w) {v : Value}
    (hv : (unary .addressOf e).eval target = .ok v) :
    ∃ p, v = .pointer p ∧ (p.pointee.IsQualified w ↔ ¬Forgets w steps) := by
  obtain ⟨o, ho, hv⟩ := bind_eq_ok_iff.1 hv
  obtain ⟨o', hreduce, ho⟩ := bind_eq_ok_iff.1 ho
  obtain ⟨q, a, rfl, hkept⟩ := h.reduces _ hreduce
  cases ho
  cases hv
  exact ⟨_, rfl, hkept hstart⟩

/-- In a `const volatile` record, the elements of an array of `const` elements are `const`, but not
`volatile`. -/
theorem Expr.path_qualified_iff_elements :
    let record : TaggedType := ⟨"S", 16⟩
    let element : Ty := .scalar (.arithmetic (.integral .int)) ⟨true, false⟩
    let start : Ty := .tagged record ⟨true, true⟩
    let target : Target :=
      { variableNamed? := fun n => if n = "s" then some ⟨n, start, 32⟩ else none
        types := fun _ => none
        field? := fun r f =>
          if r = record ∧ f = "items" then some ⟨f, .array element 4 .none, 0⟩ else none
        read? := fun _ _ => none }
    let path : Expr :=
      .binary .subscript (.member (.name "s") .dot "items") (.number (.integral .int 1) "1")
    ∃ p, (unary .addressOf path).eval target = .ok (.pointer p) ∧ p.address = 36 ∧
      p.pointee.IsQualified .const ∧ ¬p.pointee.IsQualified .volatile := by
  intro record element start target path
  have hs : AccessPath target start (.name "s") [] start :=
    .variable (v := ⟨"s", start, 32⟩) rfl
  have hitems : AccessPath target start (.member (.name "s") .dot "items") _ _ :=
    hs.member (f := ⟨"items", .array element 4 .none, 0⟩) rfl rfl
  have h : AccessPath target start path _ element := hitems.element rfl
  have hv : (unary .addressOf path).eval target = .ok (.pointer ⟨36, element⟩) := by
    decide +kernel
  have hvolatile : ¬element.IsQualified .volatile := Bool.false_ne_true
  obtain ⟨p, hp, hconst⟩ := path_qualified_iff h .const rfl hv
  obtain ⟨p', hp', hforgets⟩ := path_qualified_iff h .volatile rfl hv
  cases hp
  cases hp'
  refine ⟨_, hv, rfl, hconst.2 fun h => ?_, fun h => ?_⟩
  · exact forgets_element.1 h rfl
  · exact hforgets.1 h (forgets_element.2 hvolatile)

/-- What is selected from an array member of a `const` record is not `const`. -/
theorem Expr.path_loses_const :
    let record : TaggedType := ⟨"S", 16⟩
    let int : Ty := .arithmetic (.integral .int)
    let start : Ty := .tagged record ⟨true, false⟩
    let target : Target :=
      { variableNamed? := fun n => if n = "s" then some ⟨n, start, 32⟩ else none
        types := fun _ => none
        field? := fun r f =>
          if r = record ∧ f = "items" then some ⟨f, .array int 4 .none, 0⟩ else none
        read? := fun _ _ => none }
    let path : Expr :=
      .binary .subscript (.member (.name "s") .dot "items") (.number (.integral .int 1) "1")
    AccessPath target start path [.member (.array int 4 .none), .element int] int ∧
      start.IsQualified .const ∧
      (unary .addressOf path).eval target = .ok (.pointer ⟨36, int⟩) ∧
      ¬int.IsQualified .const := by
  intro record int start target path
  have hs : AccessPath target start (.name "s") [] start :=
    .variable (v := ⟨"s", start, 32⟩) rfl
  have hitems : AccessPath target start (.member (.name "s") .dot "items") _ _ :=
    hs.member (f := ⟨"items", .array int 4 .none, 0⟩) rfl rfl
  exact ⟨hitems.element rfl, rfl, by decide +kernel, Bool.false_ne_true⟩

end WatchExpr
