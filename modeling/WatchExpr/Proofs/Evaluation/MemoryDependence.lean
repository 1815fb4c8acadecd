import WatchExpr.Proofs.Failure
import WatchExpr.Proofs.Reduction

/-!
# What evaluation needs of memory

Types and names are found without memory. Values are found in any memory in which the reads that are
made succeed with the same bytes, and those that a conditional makes are the reads of its condition
and of its selected branch.
-/

namespace WatchExpr

variable {ε α β : Type}

/-- Whatever the first computation yields, the second yields too. -/
def ExtendedBy (x y : Except ε α) : Prop :=
  ∀ a, x = .ok a → y = .ok a

namespace ExtendedBy

theorem refl (x : Except ε α) : ExtendedBy x x := fun _ h => h

theorem bind {x y : Except ε α} {f g : α → Except ε β} (hxy : ExtendedBy x y)
    (hfg : ∀ a, ExtendedBy (f a) (g a)) : ExtendedBy (x >>= f) (y >>= g) := by
  intro b hb
  obtain ⟨a, ha, hb⟩ := bind_eq_ok_iff.1 hb
  exact bind_eq_ok_iff.2 ⟨a, hxy a ha, hfg a b hb⟩

/-- The steps behind a computation may be the same ones. -/
theorem before {x y : Except ε α} (h : ExtendedBy x y) (f : α → Except ε β) :
    ExtendedBy (x >>= f) (y >>= f) :=
  h.bind fun a => refl (f a)

end ExtendedBy

namespace Target

/-- The same variables, types and members over another memory. -/
def withMemory (target : Target) (memory : UInt64 → Nat → Option (List UInt8)) : Target :=
  { target with read? := memory }

variable {target : Target} {memory : UInt64 → Nat → Option (List UInt8)}

theorem member_withMemory (record : Ty) (name : String) :
    (target.withMemory memory).member record name = target.member record name := rfl

/-! ## Reading more memory -/

/-- Every read that succeeds also succeeds in the other memory, with the same bytes. -/
def ReadsWithin (target : Target) (memory : UInt64 → Nat → Option (List UInt8)) : Prop :=
  ∀ a size bytes, target.read? a size = some bytes → memory a size = some bytes

namespace ReadsWithin

theorem read (h : target.ReadsWithin memory) (a : UInt64) (size : Nat) :
    ExtendedBy (target.read a size) ((target.withMemory memory).read a size) := by
  intro bytes hread
  unfold Target.read at hread
  split at hread
  · rename_i found hfound
    cases hread
    obtain ⟨hfound, hlen⟩ := Option.filter_eq_some_iff.1 hfound
    exact read_eq_ok (h a size bytes hfound) (of_decide_eq_true hlen)
  · cases hread

theorem readAddress (h : target.ReadsWithin memory) (a : UInt64) :
    ExtendedBy (target.readAddress a) ((target.withMemory memory).readAddress a) :=
  (h.read a 8).before _

theorem load (h : target.ReadsWithin memory) (t : Ty) (a : UInt64) :
    ExtendedBy (target.load t a) ((target.withMemory memory).load t a) := by
  induction t generalizing a with
  | scalar k q =>
      cases k with
      | void => exact .refl _
      | arithmetic k => exact (h.read a k.size).before _
  | tagged r q => exact .refl _
  | pointer t q ih => exact (h.readAddress a).before _
  | reference t q ih => exact (h.readAddress a).bind ih
  | array t n q ih => exact .refl _

theorem object (h : target.ReadsWithin memory) (t : Ty) (a : UInt64) :
    ExtendedBy (target.object t a) ((target.withMemory memory).object t a) := by
  refine ExtendedBy.before ?_ _
  cases t with
  | reference t q => exact (h.readAddress a).before _
  | _ => exact .refl _

theorem valueOf (h : target.ReadsWithin memory) (o : Operand) :
    ExtendedBy (target.valueOf o) ((target.withMemory memory).valueOf o) := by
  cases o with
  | object place => exact h.load place.type place.address
  | value v => exact .refl _

theorem memberOf (h : target.ReadsWithin memory) (record : Ty) (a : UInt64) (name : String) :
    ExtendedBy (target.memberOf record a name)
      ((target.withMemory memory).memberOf record a name) :=
  (ExtendedBy.refl _).bind fun _ => h.object _ _

theorem elementOf (h : target.ReadsWithin memory) (base index : Value) :
    ExtendedBy (target.elementOf base index)
      ((target.withMemory memory).elementOf base index) := by
  unfold Target.elementOf
  split
  · split
    · exact .refl _
    · exact (ExtendedBy.refl _).bind fun q => h.object q.pointee q.address
  · split
    · exact .refl _
    · exact (ExtendedBy.refl _).bind fun q => h.object q.pointee q.address
  · exact .refl _
  · exact .refl _
  · exact .refl _

theorem pointeeOf (h : target.ReadsWithin memory) (v : Value) :
    ExtendedBy (target.pointeeOf v) ((target.withMemory memory).pointeeOf v) := by
  unfold Target.pointeeOf
  split
  · split
    · exact .refl _
    · exact h.object _ _
  · exact .refl _

end ReadsWithin

end Target

namespace Expr

variable {target : Target} {memory : UInt64 → Nat → Option (List UInt8)}

/-! ## What needs no memory -/

theorem checkNames_withMemory (e : Expr) :
    e.checkNames (target.withMemory memory) = e.checkNames target := by
  induction e with
  | poisoned d => rfl
  | truth b => rfl
  | number v s => rfl
  | name id => rfl
  | cast t e ih => exact ih
  | member e access field ih => exact ih
  | binary op e f ihe ihf => rw [checkNames, ihe, ihf, checkNames]
  | unary op e ih => exact ih
  | conditional c e f ihc ihe ihf => rw [checkNames, ihc, ihe, ihf, checkNames]

theorem staticType_withMemory (e : Expr) :
    e.staticType (target.withMemory memory) = e.staticType target := by
  induction e with
  | poisoned d => rfl
  | truth b => rfl
  | number v s => rfl
  | name id => rfl
  | cast t e ih => rw [staticType, ih, staticType]
  | member e access field ih => simp only [staticType, ih, Target.member_withMemory]
  | binary op e f ihe ihf =>
      by_cases hop : op = .subscript
      · subst hop
        rw [staticType, ihe, ihf, staticType]
      · rw [staticType_binary _ hop, ihe, ihf, staticType_binary _ hop]
  | unary op e ih => rw [staticType, ih, staticType]
  | conditional c e f ihc ihe ihf => rw [staticType, ihc, ihe, ihf, staticType]

theorem besides_withMemory (e : Expr) (v : Value) :
    e.besides (target.withMemory memory) v = e.besides target v := by
  simp only [besides, checkNames_withMemory, staticType_withMemory]

/-! ## Reduction over more memory -/

theorem operandValue_extendedBy (h : target.ReadsWithin memory) {e : Expr}
    (he : ExtendedBy (e.reduce target) (e.reduce (target.withMemory memory))) :
    ExtendedBy (e.operandValue target) (e.operandValue (target.withMemory memory)) :=
  he.bind fun o => (h.valueOf o).before _

theorem eval_extendedBy (h : target.ReadsWithin memory) {e : Expr}
    (he : ExtendedBy (e.reduce target) (e.reduce (target.withMemory memory))) :
    ExtendedBy (e.eval target) (e.eval (target.withMemory memory)) :=
  he.bind h.valueOf

theorem reduce_extendedBy (h : target.ReadsWithin memory) (e : Expr) :
    ExtendedBy (e.reduce target) (e.reduce (target.withMemory memory)) := by
  induction e with
  | poisoned d => exact .refl _
  | truth b => exact .refl _
  | number v s => exact .refl _
  | name id => exact (ExtendedBy.refl _).bind fun v => h.object v.type v.address
  | cast t e ih =>
      rw [reduce_cast, reduce_cast]
      exact (operandValue_extendedBy h ih).before _
  | member e access field ih =>
      cases access with
      | dot =>
          rw [reduce_dot, reduce_dot]
          refine (eval_extendedBy h ih).bind fun v => ?_
          cases v with
          | aggregate t a => exact h.memberOf t a field
          | _ => exact .refl _
      | arrow =>
          rw [reduce_arrow, reduce_arrow]
          refine (operandValue_extendedBy h ih).bind fun v => ?_
          cases v with
          | pointer p => exact h.memberOf p.pointee p.address field
          | _ => exact .refl _
  | binary op e f ihe ihf =>
      by_cases hop : op = .subscript
      · subst hop
        rw [reduce_subscript, reduce_subscript]
        exact (operandValue_extendedBy h ihe).bind fun v =>
          (operandValue_extendedBy h ihf).bind fun w => h.elementOf v w
      · rw [reduce_binary _ hop, reduce_binary _ hop]
        exact (operandValue_extendedBy h ihe).bind fun v =>
          (operandValue_extendedBy h ihf).before _
  | unary op e ih =>
      by_cases hd : op = .deref
      · subst hd
        rw [reduce_deref, reduce_deref]
        exact (operandValue_extendedBy h ih).bind h.pointeeOf
      · by_cases ha : op = .addressOf
        · subst ha
          exact ih.before _
        · rw [reduce_unary _ hd ha, reduce_unary _ hd ha]
          exact (operandValue_extendedBy h ih).before _
  | conditional c e f ihc ihe ihf =>
      rw [reduce_conditional, reduce_conditional]
      refine (operandValue_extendedBy h ihc).bind fun v => (ExtendedBy.refl _).bind fun b => ?_
      simp only [besides_withMemory]
      cases b with
      | true => exact (operandValue_extendedBy h ihe).before _
      | false => exact (operandValue_extendedBy h ihf).before _

/-! ## Conditionals -/

theorem operandValue_withMemory {e : Expr}
    (h : e.eval (target.withMemory memory) = e.eval target) :
    e.operandValue (target.withMemory memory) = e.operandValue target := by
  rw [operandValue_eq_eval, h, operandValue_eq_eval]

/-- A conditional asks nothing of memory but its condition and its selected branch. -/
theorem eval_conditional_withMemory {c e f : Expr}
    (hc : c.eval (target.withMemory memory) = c.eval target)
    (hselected : ∀ v b, c.eval target = .ok v → v.decayed.toBool = .ok b →
      (if b then e else f).eval (target.withMemory memory) = (if b then e else f).eval target) :
    (conditional c e f).eval (target.withMemory memory) = (conditional c e f).eval target := by
  rw [eval_conditional_eq_bind, eval_conditional_eq_bind, operandValue_withMemory hc]
  refine bind_congr_of_ok fun v hv => bind_congr_of_ok fun b hb => ?_
  rw [operandValue_eq_eval] at hv
  obtain ⟨w, hw, hv⟩ := bind_eq_ok_iff.1 hv
  cases hv
  have hbranch := operandValue_withMemory (hselected w b hw hb)
  simp only [besides_withMemory]
  cases b with
  | true => exact congrArg (· >>= f.besides target) hbranch
  | false => exact congrArg (· >>= e.besides target) hbranch

/-- Types need no memory. A value is found in every memory in which the reads of another one succeed
with the same bytes. A conditional has the same value, or fails for the same reason, over any two
memories that its condition and its selected branch do not tell apart. -/
theorem memory_matters_where_selected (target : Target)
    (memory : UInt64 → Nat → Option (List UInt8)) :
    (∀ e : Expr, e.staticType (target.withMemory memory) = e.staticType target) ∧
      (target.ReadsWithin memory →
        ∀ (e : Expr) (v : Value), e.eval target = .ok v →
          e.eval (target.withMemory memory) = .ok v) ∧
      ∀ c e f : Expr, c.eval (target.withMemory memory) = c.eval target →
        (∀ v b, c.eval target = .ok v → v.decayed.toBool = .ok b →
          (if b then e else f).eval (target.withMemory memory) =
            (if b then e else f).eval target) →
        (conditional c e f).eval (target.withMemory memory) = (conditional c e f).eval target :=
  ⟨staticType_withMemory, fun h e v => eval_extendedBy h (reduce_extendedBy h e) v,
    fun _ _ _ => eval_conditional_withMemory⟩

/-- A conditional whose unselected branch is an object that cannot be read, that can be read, or
that holds something else. -/
theorem memory_matters_where_selected_object :
    let int : Ty := .arithmetic (.integral .int)
    let bytes (n : UInt8) : Option (List UInt8) := some [n, 0, 0, 0]
    let target : Target :=
      { variableNamed? := fun id =>
          if id = "c" then some ⟨id, int, 0⟩
          else if id = "x" then some ⟨id, int, 4⟩
          else if id = "y" then some ⟨id, int, 8⟩ else none
        types := fun _ => none
        field? := fun _ _ => none
        read? := fun a n =>
          if n ≠ 4 then none else if a = 0 then bytes 1 else if a = 4 then bytes 7 else none }
    let memory (y : UInt8) (a : UInt64) (n : Nat) : Option (List UInt8) :=
      if a = 8 ∧ n = 4 then bytes y else target.read? a n
    let e : Expr := .conditional (.name "c") (.name "x") (.name "y")
    target.ReadsWithin (memory 2) ∧ (name "y").eval target = .error (.unreadable 8) ∧
      e.eval target = .ok (.scalar (.integral .int 7)) ∧
      e.eval (target.withMemory (memory 2)) = .ok (.scalar (.integral .int 7)) ∧
      (name "y").eval ((target.withMemory (memory 2)).withMemory (memory 3)) ≠
        (name "y").eval (target.withMemory (memory 2)) ∧
      e.eval ((target.withMemory (memory 2)).withMemory (memory 3)) =
        e.eval (target.withMemory (memory 2)) ∧
      e.staticType (target.withMemory (memory 3)) = e.staticType target := by
  intro int bytes target memory e
  have hwithin : target.ReadsWithin (memory 2) := by
    intro a n found h
    by_cases hy : a = 8 ∧ n = 4
    · obtain ⟨rfl, rfl⟩ := hy
      cases h
    · exact (if_neg hy).trans h
  have hvalue : e.eval target = .ok (.scalar (.integral .int 7)) := by decide +kernel
  have hc : (name "c").eval (target.withMemory (memory 2)) = .ok (.scalar (.integral .int 1)) := by
    decide +kernel
  have hselected := (memory_matters_where_selected (target.withMemory (memory 2)) (memory 3)).2.2
    (.name "c") (.name "x") (.name "y") (by decide +kernel) (by
      intro v b hv hb
      cases hv.symm.trans hc
      cases hb.symm.trans (show _ = .ok true by decide)
      decide +kernel)
  exact ⟨hwithin, by decide +kernel, hvalue,
    (memory_matters_where_selected target (memory 2)).2.1 hwithin e _ hvalue, by decide +kernel,
    hselected, (memory_matters_where_selected target (memory 3)).1 e⟩

end Expr

end WatchExpr
