import WatchExpr.Proofs.Reduction
import WatchExpr.Proofs.Typing.Operations
import WatchExpr.Proofs.Values.PointerArithmetic
import WatchExpr.Proofs.Values.Ranges

/-!
# What single steps yield

A step of an evaluation yields a value that is one, or it fails and reports so. Only a difference of
pointers can stop the evaluation without a report.
-/

namespace WatchExpr

variable {α β : Type}

/-- A computation yields a result with a property, or it fails under a code that tells so. -/
def Yields (p : α → Prop) : Except EvalError α → Prop
  | .ok a => p a
  | .error e => e.code? ≠ none ∧ e.code? ≠ some .ok

/-- Every failure but an overflow is reported. -/
theorem EvalError.exists_code? {e : EvalError} (h : e ≠ .distanceOverflow) :
    ∃ code, e.code? = some code := by
  cases e with
  | distanceOverflow => exact absurd rfl h
  | _ => exact ⟨_, rfl⟩

/-- A computation stops and reports nothing. -/
def Stops (x : Except EvalError α) : Prop :=
  x = .error .distanceOverflow

namespace Yields

variable {p : α → Prop} {q : β → Prop}

theorem ok {a : α} (h : p a) : Yields p (.ok a) := h

theorem error {e : EvalError} (h : e.code? ≠ none ∧ e.code? ≠ some .ok) : Yields p (.error e) := h

theorem bind {x : Except EvalError α} {f : α → Except EvalError β} (hx : Yields p x)
    (hf : ∀ a, p a → Yields q (f a)) : Yields q (x >>= f) := by
  cases x with
  | ok a => exact hf a hx
  | error e => exact hx

theorem not_stops {x : Except EvalError α} (h : Yields p x) : ¬Stops x := by
  rintro rfl
  exact h.1 rfl

end Yields

/-! ## Computations that stop -/

variable {x : Except EvalError α} {f : α → Except EvalError β}

/-- A step stops, or it succeeds and what follows it stops. -/
theorem stops_bind_iff : Stops (x >>= f) ↔ Stops x ∨ ∃ a, x = .ok a ∧ Stops (f a) := by
  cases x with
  | error e => simp [Stops, bind, Except.bind]
  | ok a => simp [Stops, bind, Except.bind]

/-- What never stops may follow. -/
theorem stops_bind_iff_of_not (hf : ∀ a, ¬Stops (f a)) : Stops (x >>= f) ↔ Stops x := by
  rw [stops_bind_iff, or_iff_left]
  rintro ⟨a, -, h⟩
  exact hf a h

theorem not_stops_bind (hx : ¬Stops x) (hf : ∀ a, ¬Stops (f a)) : ¬Stops (x >>= f) :=
  fun h => hx ((stops_bind_iff_of_not hf).1 h)

/-- A computation stops on a condition. Otherwise it yields a result with a property, or it fails under a
code that tells so. -/
structure StopsIf (c : Prop) (p : α → Prop) (x : Except EvalError α) : Prop where
  stops : c → Stops x
  yields : ¬c → Yields p x

namespace StopsIf

variable {c : Prop} {p : α → Prop} {q : β → Prop}

theorem bind (h : StopsIf c p x) (hf : ∀ a, p a → Yields q (f a)) : StopsIf c q (x >>= f) :=
  ⟨fun hc => stops_bind_iff.2 (.inl (h.stops hc)), fun hc => (h.yields hc).bind hf⟩

theorem congr {c' : Prop} (h : StopsIf c p x) (hc : c ↔ c') : StopsIf c' p x :=
  ⟨fun hc' => h.stops (hc.2 hc'), fun hc' => h.yields (hc' ∘ hc.1)⟩

theorem of_yields (h : Yields p x) (hc : ¬c) : StopsIf c p x :=
  ⟨fun h => absurd h hc, fun _ => h⟩

theorem stops_iff (h : StopsIf c p x) : Stops x ↔ c :=
  ⟨fun hx => not_not.1 fun hc => (h.yields hc).not_stops hx, h.stops⟩

end StopsIf

theorem not_stops_ok (a : α) : ¬Stops (.ok a : Except EvalError α) := nofun

theorem not_stops_error {e : EvalError} (h : e ≠ .distanceOverflow) :
    ¬Stops (.error e : Except EvalError α) :=
  fun hstops => h (Except.error.inj hstops)

/-! ## Operations on values -/

/-- A value that is one, and if it is a scalar is in range. -/
def Value.Proper : Value → Prop
  | .invalid => False
  | .scalar s => s.InRange
  | .pointer _ | .aggregate _ _ => True

theorem Value.proper_scalar {s : Scalar} (h : s.InRange) : (Value.scalar s).Proper := h

namespace Scalar

theorem yields_arith (op : ArithOp) (a b : Scalar) : Yields InRange (a.arith op b) := by
  unfold arith
  split
  · split
    · exact .ok (inRange_ofBinary _ _)
    · exact .error ⟨nofun, nofun⟩
  · dsimp only
    split
    · exact .error ⟨nofun, nofun⟩
    · exact .ok (inRange_ofInt _ _)

theorem yields_shift (op : ShiftOp) (k : IntegralKind) (n count : Int) :
    Yields InRange (shift op k n count) := by
  unfold shift
  dsimp only
  split
  · exact .error ⟨nofun, nofun⟩
  · exact .ok (inRange_ofInt _ _)

end Scalar

namespace Pointer

theorem yields_elementSize (p : Pointer) : Yields (fun _ => True) p.elementSize := by
  unfold elementSize
  split
  · split
    · exact .error ⟨nofun, nofun⟩
    · trivial
  · exact .error ⟨nofun, nofun⟩

theorem size?_of_elementSize {p : Pointer} {size : UInt64} (h : p.elementSize = .ok size) :
    p.pointee.size? = some size := by
  unfold elementSize at h
  split at h
  · split at h <;> cases h
    assumption
  · cases h

theorem yields_advance (p : Pointer) (n : Int) : Yields (fun _ => True) (p.advance n) :=
  p.yields_elementSize.bind fun _ _ => trivial

/-- The distance between two pointers is `2 ^ 63` elements, one more than a 64-bit number can be: they
are `2 ^ 63` bytes apart, and the elements have `2 ^ 64 - 1` bytes, which is `-1` in two's complement. -/
structure TooFar (p q : Pointer) : Prop where
  pointee : p.pointee.unqualified = q.pointee.unqualified
  size : p.pointee.size? = some 0xFFFFFFFFFFFFFFFF
  distance : p.address - q.address = 0x8000000000000000

/-- A difference of pointers stops exactly if its quotient overflows. -/
theorem difference_stopsIf (p q : Pointer) :
    StopsIf (p.TooFar q) (fun _ => True) (p.difference q) := by
  unfold difference
  split
  · rename_i hpointee
    exact .of_yields (Yields.error ⟨nofun, nofun⟩) fun h => hpointee h.pointee
  · rename_i hpointee
    cases hsize : p.elementSize with
    | error e =>
        have herror := p.yields_elementSize
        rw [hsize] at herror
        refine .of_yields (Yields.error herror) fun h => ?_
        rw [elementSize, h.size] at hsize
        cases hsize
    | ok size =>
        have hpointed : p.pointee.size? = some size := size?_of_elementSize hsize
        dsimp only [bind, Except.bind]
        split
        · rename_i hoverflow
          obtain ⟨hdistance, rfl⟩ := sdivOverflow_iff.1 hoverflow
          exact ⟨fun _ => rfl, fun h => absurd ⟨not_not.1 hpointee, hpointed, hdistance⟩ h⟩
        · rename_i hfits
          refine .of_yields trivial fun h => hfits (sdivOverflow_iff.2 ⟨h.distance, ?_⟩)
          exact Option.some.inj (hpointed.symm.trans h.size)

end Pointer

/-- Two values are too far apart for an operator. Only a difference of pointers asks how far. -/
inductive BinaryOp.Overflows : BinaryOp → Value → Value → Prop where
  | difference {p q : Pointer} (h : p.TooFar q) : Overflows (.arith .sub) (.pointer p) (.pointer q)

namespace Value

theorem yields_toBool (v : Value) : Yields (fun _ => True) v.toBool := by
  cases v with
  | invalid => exact .error ⟨nofun, nofun⟩
  | scalar s => trivial
  | pointer p => trivial
  | aggregate t a => exact .error ⟨nofun, nofun⟩

theorem proper_ofBool (b : Bool) : (ofBool b).Proper := Scalar.inRange_ofBool b

theorem yields_unary (op : UnaryOp) (v : Value) : Yields Proper (v.unary op) := by
  unfold unary
  split
  · exact v.yields_toBool.bind fun b _ => proper_ofBool _
  · exact .ok (proper_scalar (Scalar.inRange_convert _ _))
  · trivial
  · exact .ok (proper_scalar (Scalar.inRange_ofBinary _ _))
  · exact .ok (proper_scalar (Scalar.inRange_ofInt _ _))
  · exact .ok (proper_scalar (Scalar.inRange_ofInt _ _))
  · exact .error ⟨nofun, nofun⟩
  · exact .error ⟨nofun, nofun⟩
  · exact .error ⟨nofun, nofun⟩

theorem yields_order (op : Comparison) (v w : Value) : Yields (fun _ => True) (v.order op w) := by
  unfold order
  split
  · trivial
  · split
    · trivial
    · exact .error ⟨nofun, nofun⟩
  · trivial
  · trivial
  · exact .error ⟨nofun, nofun⟩

theorem arith_stopsIf (op : ArithOp) (v w : Value) :
    StopsIf ((BinaryOp.arith op).Overflows v w) Proper (v.arith op w) := by
  unfold arith
  split
  · exact .of_yields ((Pointer.yields_advance _ _).bind fun _ _ => trivial) nofun
  · exact .of_yields ((Pointer.yields_advance _ _).bind fun _ _ => trivial) nofun
  · exact .of_yields ((Pointer.yields_advance _ _).bind fun _ _ => trivial) nofun
  · rename_i p q
    exact ((p.difference_stopsIf q).bind fun _ _ => .ok (proper_scalar (Scalar.inRange_ofInt _ _))).congr
      ⟨.difference, fun | .difference h => h⟩
  · exact .of_yields ((Scalar.yields_arith _ _ _).bind fun _ h => h) nofun
  · rename_i hother
    exact .of_yields (Yields.error ⟨nofun, nofun⟩) fun | .difference _ => hother _ _ rfl rfl rfl

theorem yields_shift (op : ShiftOp) (v w : Value) : Yields Proper (v.shift op w) := by
  unfold shift
  split
  · exact (Scalar.yields_shift _ _ _ _).bind fun _ h => h
  · exact .error ⟨nofun, nofun⟩

theorem yields_logical (op : Connective) (v w : Value) : Yields Proper (v.logical op w) := by
  refine v.yields_toBool.bind fun b _ => ?_
  split
  · exact w.yields_toBool.bind fun b _ => proper_ofBool b
  · exact w.yields_toBool.bind fun b _ => proper_ofBool b
  · exact proper_ofBool false
  · exact proper_ofBool true

theorem binary_stopsIf (op : BinaryOp) (v w : Value) :
    StopsIf (op.Overflows v w) Proper (v.binary op w) := by
  unfold binary
  split
  · cases op with
    | arith op => exact arith_stopsIf op v w
    | shift op => exact .of_yields (yields_shift op v w) nofun
    | compare op => exact .of_yields ((yields_order op v w).bind fun o _ => proper_ofBool _) nofun
    | logical op => exact .of_yields (yields_logical op v w) nofun
    | subscript => exact .of_yields (Yields.error ⟨nofun, nofun⟩) nofun
  · rename_i hinvalid
    exact .of_yields (Yields.error ⟨nofun, nofun⟩) fun | .difference _ => hinvalid rfl

theorem yields_cast (v : Value) (t : Ty) : Yields Proper (v.cast t) := by
  unfold cast
  split
  · exact .error ⟨nofun, nofun⟩
  · exact .ok (proper_scalar (Scalar.inRange_convert _ _))
  · exact .ok (proper_scalar (Scalar.inRange_ofInt _ _))
  · trivial
  · trivial
  · exact .error ⟨nofun, nofun⟩

theorem Proper.decayed {v : Value} (h : v.Proper) : v.decayed.Proper := by
  unfold Value.decayed
  split
  · trivial
  · exact h

theorem Proper.inCommonWith {v : Value} (h : v.Proper) (t : Ty) : (v.inCommonWith t).Proper := by
  unfold Value.inCommonWith
  split
  · split
    · exact h
    · exact Scalar.inRange_convert _ _
  · exact h

end Value

/-! ## Reading memory -/

/-- An operand whose value, if it has been read, is proper. -/
def Operand.Proper : Operand → Prop
  | .object _ => True
  | .value v => v.Proper

namespace Target

variable (target : Target)

theorem yields_read (a : UInt64) (size : Nat) : Yields (fun _ => True) (target.read a size) := by
  unfold read
  split
  · trivial
  · exact .error ⟨nofun, nofun⟩

theorem yields_readAddress (a : UInt64) : Yields (fun _ => True) (target.readAddress a) :=
  (target.yields_read a 8).bind fun _ _ => trivial

theorem yields_load (t : Ty) (a : UInt64) : Yields Value.Proper (target.load t a) := by
  induction t generalizing a with
  | scalar k q =>
      cases k with
      | void => exact .error ⟨nofun, nofun⟩
      | arithmetic k =>
          exact (target.yields_read a k.size).bind fun bytes _ => Scalar.inRange_ofBytes k bytes
  | tagged r q => trivial
  | pointer t q ih => exact (target.yields_readAddress a).bind fun _ _ => trivial
  | reference t q ih => exact (target.yields_readAddress a).bind fun b _ => ih b
  | array t n q ih => trivial

theorem yields_object (t : Ty) (a : UInt64) : Yields Operand.Proper (target.object t a) := by
  refine Yields.bind (p := fun _ => True) ?_ fun _ _ => trivial
  unfold follow
  split
  · exact (target.yields_readAddress a).bind fun _ _ => trivial
  · trivial

variable {target}

theorem yields_valueOf {o : Operand} (ho : o.Proper) : Yields Value.Proper (target.valueOf o) := by
  cases o with
  | object p => exact target.yields_load p.type p.address
  | value v => exact ho

theorem yields_decayedValueOf {o : Operand} (ho : o.Proper) :
    Yields Value.Proper (target.decayedValueOf o) :=
  (yields_valueOf ho).bind fun _ hv => hv.decayed

theorem yields_lookup (id : String) : Yields (fun _ => True) (target.lookup id) := by
  unfold lookup
  split
  · trivial
  · exact .error ⟨nofun, nofun⟩

theorem yields_memberOf (t : Ty) (a : UInt64) (field : String) :
    Yields Operand.Proper (target.memberOf t a field) := by
  refine Yields.bind (p := fun _ => True) ?_ fun f _ => target.yields_object _ _
  unfold member
  split
  · split
    · trivial
    · exact .error ⟨nofun, nofun⟩
  · exact .error ⟨nofun, nofun⟩

theorem yields_elementOf (v w : Value) : Yields Operand.Proper (target.elementOf v w) := by
  have helement (p : Pointer) (n : Int) : Yields Operand.Proper
      (do let q ← p.advance n; target.object q.pointee q.address) :=
    (p.yields_advance n).bind fun q _ => target.yields_object _ _
  unfold elementOf
  split
  · split
    · exact .error ⟨nofun, nofun⟩
    · exact helement _ _
  · split
    · exact .error ⟨nofun, nofun⟩
    · exact helement _ _
  · exact .error ⟨nofun, nofun⟩
  · exact .error ⟨nofun, nofun⟩
  · exact .error ⟨nofun, nofun⟩

theorem yields_pointeeOf (v : Value) : Yields Operand.Proper (target.pointeeOf v) := by
  unfold pointeeOf
  split
  · split
    · exact .error ⟨nofun, nofun⟩
    · exact target.yields_object _ _
  · exact .error ⟨nofun, nofun⟩

end Target

theorem Operand.yields_addressOf (o : Operand) : Yields Operand.Proper o.addressOf := by
  cases o with
  | object p => trivial
  | value v => exact Yields.error ⟨nofun, nofun⟩

end WatchExpr
