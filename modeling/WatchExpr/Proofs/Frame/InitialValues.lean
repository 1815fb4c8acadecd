import WatchExpr.Proofs.Frame.Loading
import WatchExpr.Proofs.Memory.ByteMap
import WatchExpr.Proofs.Reduction
import WatchExpr.Proofs.Typing.Operations
import WatchExpr.Proofs.Values.ObjectBytes

/-!
# Initial values are what evaluation reads

A variable of a loaded frame has its initial value, as far as no variable that is loaded later writes
over it.
-/

namespace WatchExpr

namespace InitialValue

theorem storable_toScalar (k : ArithmeticKind) (v : InitialValue) : (v.toScalar k).Storable := by
  cases v with
  | bool b => exact Scalar.storable_ofInt k _
  | integer n => exact Scalar.storable_ofInt k n
  | floating x => exact Scalar.storable_ofBinary k x

theorem kind_toScalar (k : ArithmeticKind) (v : InitialValue) : (v.toScalar k).kind = k := by
  cases v with
  | bool b => exact Scalar.kind_convert (.ofBool b) k
  | integer n => exact Scalar.kind_ofInt k n
  | floating x => exact Scalar.kind_ofBinary k x

/-- What has an initial value is a scalar, or holds an address. -/
theorem bytes_cases {t : Ty} {v : InitialValue} {bytes : List UInt8} (h : v.bytes t = .ok bytes) :
    (∃ k q, t = .scalar (.arithmetic k) q ∧ bytes = (v.toScalar k).toBytes) ∨
    (∃ u q n, (t = .pointer u q ∨ t = .reference u q) ∧ v = .integer n ∧
      bytes = Bytes.ofAddress (wordOfInt n)) := by
  unfold InitialValue.bytes at h
  split at h
  · cases h
    exact .inl ⟨_, _, rfl, rfl⟩
  · cases h
    exact .inr ⟨_, _, _, .inl rfl, rfl, rfl⟩
  · cases h
    exact .inr ⟨_, _, _, .inr rfl, rfl, rfl⟩
  all_goals cases h

/-- The initial value fills the variable. -/
theorem length_bytes {t : Ty} {v : InitialValue} {bytes : List UInt8} (h : v.bytes t = .ok bytes) :
    ∃ size, t.size? = some size ∧ bytes.length = size.toNat := by
  obtain ⟨k, q, rfl, rfl⟩ | ⟨u, q, n, rfl | rfl, rfl, rfl⟩ := bytes_cases h
  · refine ⟨UInt64.ofNat k.size, rfl, ?_⟩
    rw [Scalar.length_toBytes, kind_toScalar]
    cases k with
    | integral k => cases k <;> rfl
    | floating k => cases k <;> rfl
  · exact ⟨8, rfl, Bytes.length_ofNat _ _⟩
  · exact ⟨8, rfl, Bytes.length_ofNat _ _⟩

end InitialValue

/-- The addresses at which a variable has bytes of its initial value. They may lie past the end of the
address space. -/
def VariableDef.Occupies (types : TypeNames) (d : VariableDef) (x : Nat) : Prop :=
  d.value.isSome ∧ ∃ t size, Ty.read types d.type = .ok t ∧ t.size? = some size ∧
    d.address.toNat ≤ x ∧ x < d.address.toNat + size.toNat

namespace VariableDef

variable {types : TypeNames} {d : VariableDef} {t : Ty} {r : Region}

theorem occupies_iff {size : UInt64} (hv : d.value.isSome) (ht : Ty.read types d.type = .ok t)
    (hsize : t.size? = some size) (x : Nat) :
    d.Occupies types x ↔ d.address.toNat ≤ x ∧ x < d.address.toNat + size.toNat := by
  constructor
  · rintro ⟨-, t', size', ht', hsize', hx⟩
    obtain rfl := Except.ok.inj (ht.symm.trans ht')
    obtain rfl := Option.some.inj (hsize.symm.trans hsize')
    exact hx
  · exact fun hx => ⟨hv, t, size, ht, hsize, hx⟩

/-- A region that is written for a variable covers what the variable occupies. -/
theorem Writes.covers_iff (hw : d.Writes t [r]) (ht : Ty.read types d.type = .ok t) (x : Nat) :
    r.Covers x ↔ d.Occupies types x := by
  cases hw with
  | initial hv hbytes =>
      obtain ⟨size, hsize, hlen⟩ := InitialValue.length_bytes hbytes
      rw [occupies_iff (by simp [hv]) ht hsize, Region.Covers, hlen]

end VariableDef

namespace Target

variable {target : Target}

/-- The value of a variable whose bytes in memory are those of an initial value. -/
theorem eval_name_of_read {id : String} {x : Variable} {v : InitialValue} {bytes : List UInt8}
    (hx : target.variableNamed? id = some x) (hbytes : v.bytes x.type = .ok bytes)
    (hread : target.read? x.address bytes.length = some bytes) :
    (∀ k q, x.type = .scalar (.arithmetic k) q →
        (Expr.name id).eval target = .ok (.scalar (v.toScalar k))) ∧
      (∀ t q, x.type = .pointer t q → ∃ n, v = .integer n ∧
        (Expr.name id).eval target = .ok (.pointer ⟨wordOfInt n, t⟩)) := by
  obtain ⟨m, u, a⟩ := x
  constructor
  · rintro k q rfl
    obtain ⟨k', q', ht, rfl⟩ | ⟨u, q', n, ht | ht, -⟩ := InitialValue.bytes_cases hbytes
    · cases ht
      have hlen : (v.toScalar k).toBytes.length = k.size := by
        rw [Scalar.length_toBytes, InitialValue.kind_toScalar]
      have hback : Scalar.ofBytes k (v.toScalar k).toBytes = v.toScalar k := by
        have h := Scalar.ofBytes_toBytes (v.storable_toScalar k)
        rwa [InitialValue.kind_toScalar] at h
      rw [hlen] at hread
      rw [Expr.eval_name target hx rfl, load, read_eq_ok hread hlen]
      exact congrArg (fun s => Except.ok (Value.scalar s)) hback
    · cases ht
    · cases ht
  · rintro t q rfl
    obtain ⟨k', q', ht, -⟩ | ⟨u, q', n, ht | ht, rfl, rfl⟩ := InitialValue.bytes_cases hbytes
    · cases ht
    · refine ⟨n, rfl, ?_⟩
      rw [Bytes.ofAddress, Bytes.length_ofNat] at hread
      rw [Expr.eval_name target hx rfl, load, readAddress_eq_ok hread]
      rfl
    · cases ht

end Target

namespace Snapshot

/-- A variable of a loaded frame evaluates to its initial value, converted to its type, whatever else
the frame holds, unless the variable shares its name with another one or has bytes that a later one
writes. -/
theorem eval_initialValue {frame : Frame} {s : Snapshot} {before after : List VariableDef}
    {d : VariableDef} {v : InitialValue} {t : Ty} (hs : ofFrame frame = .ok s)
    (hd : frame.globals ++ frame.scopes.flatten = before ++ d :: after)
    (hname : globalName? d.name = none) (hother : ∀ d' ∈ before ++ after, d'.name ≠ d.name)
    (hv : d.value = some v) (ht : Ty.read s.type? d.type = .ok t)
    (hinside : ∀ x, d.Occupies s.type? x → x < UInt64.size)
    (hdisjoint : ∀ d' ∈ after, ∀ x, d.Occupies s.type? x → ¬d'.Occupies s.type? x) :
    (∀ k q, t = .scalar (.arithmetic k) q →
        (Expr.name d.name).eval s.target = .ok (.scalar (v.toScalar k))) ∧
      (∀ u q, t = .pointer u q → ∃ n, v = .integer n ∧
        (Expr.name d.name).eval s.target = .ok (.pointer ⟨wordOfInt n, u⟩)) := by
  obtain ⟨s₀, hempty, hloads⟩ := loads_of_ofFrame hs
  rw [hd] at hloads
  obtain ⟨s₁, s₂, t', hbefore, hself, hafter⟩ := hloads.split
  obtain ⟨hbeforeNames, hafterNames⟩ := List.forall_mem_append.1 hother
  have htypes₁ : s₁.type? = s.type? :=
    type?_congr (hself.types.symm.trans hafter.types.symm)
  have htypes₂ : s₂.type? = s.type? := type?_congr hafter.types.symm
  obtain rfl : t' = t := Except.ok.inj ((htypes₁ ▸ hself.reads).symm.trans ht)
  have hvariable : s.target.variableNamed? d.name = some ⟨d.name, t', d.address⟩ := by
    have hnew : s₁.bindings.lookup d.name = none := by
      rw [hbefore.lookup_of_ne hbeforeNames, hempty, List.lookup_nil]
    exact (s.variableNamed?_eq_lookup hname).trans
      ((hafter.lookup_of_ne hafterNames).trans (hself.lookup_self hnew))
  -- What is loaded later lies in front of the region of the variable and covers none of it.
  obtain ⟨later, hregions, hlater⟩ := hafter.regions
  obtain ⟨written, hw, hregions₂⟩ := hself.writes
  cases hw with
  | nothing h => simp [hv] at h
  | @initial v' bytes h hbytes =>
      obtain rfl : v' = v := Option.some.inj (h.symm.trans hv)
      have hcovers := (VariableDef.Writes.initial h hbytes).covers_iff ht
      have hread : s.memory.read? d.address bytes.length = some bytes := by
        rw [hregions₂] at hregions
        refine Memory.read?_of_not_covered (r := ⟨d.address, bytes⟩) hregions ?_ ?_
        · by_contra hlt
          have haddress : d.address.toNat < UInt64.size := d.address.toNat_lt
          have hlast : (Region.mk d.address bytes).Covers UInt64.size :=
            ⟨haddress.le, Nat.not_le.1 hlt⟩
          exact absurd (hinside _ ((hcovers _).1 hlast)) (Nat.lt_irrefl _)
        · intro r hr x hx hx'
          obtain ⟨d', hd', t, ht', hw'⟩ := hlater r hr
          rw [htypes₂] at ht'
          exact hdisjoint d' hd' x ((hcovers x).1 hx) ((hw'.covers_iff ht' x).1 hx')
      exact Target.eval_name_of_read hvariable hbytes hread

/-- A local variable of a named type, on top of known memory and in front of another variable. -/
theorem eval_initialValue_typedef :
    let d : VariableDef := ⟨"c", "Count", 16, some (.integer (-1))⟩
    let p : VariableDef := ⟨"p", "const Count *", 24, some (.integer 16)⟩
    let b : VariableDef := ⟨"b", "bool", 18, some (.bool true)⟩
    let frame : Frame :=
      { function := "main", file := none, line := none, records := []
        typedefs := [⟨"Count", "unsigned short"⟩]
        globals := [p], scopes := [[d, b]], memory := [⟨16, [1, 2, 3]⟩] }
    let count : Ty := .arithmetic (.integral .unsignedShort)
    ∃ s, ofFrame frame = .ok s ∧ frame.globals ++ frame.scopes.flatten = [p] ++ d :: [b] ∧
      globalName? d.name = none ∧ (∀ d' ∈ [p] ++ [b], d'.name ≠ d.name) ∧
      d.value = some (.integer (-1)) ∧ Ty.read s.type? d.type = .ok count ∧
      (∀ x, d.Occupies s.type? x → x < UInt64.size) ∧
      (∀ d' ∈ [b], ∀ x, d.Occupies s.type? x → ¬d'.Occupies s.type? x) ∧
      (Expr.name d.name).eval s.target = .ok (.scalar (.integral .unsignedShort 65535)) := by
  intro d p b frame count
  let s : Snapshot :=
    { function := "main"
      scopes := [[("b", ⟨"b", .bool, 18⟩), ("c", ⟨"c", count, 16⟩)]]
      globals := [("p", ⟨"p", .pointer (count.withCv ⟨true, false⟩) .none, 24⟩)]
      types := [("Count", count)]
      memory := ⟨[⟨18, [1]⟩, ⟨16, [255, 255]⟩, ⟨24, Bytes.ofAddress 16⟩, ⟨16, [1, 2, 3]⟩]⟩ }
  have hs : ofFrame frame = .ok s := by decide +kernel
  have hsplit : frame.globals ++ frame.scopes.flatten = [p] ++ d :: [b] := rfl
  have hname : globalName? d.name = none := by decide
  have hother : ∀ d' ∈ [p] ++ [b], d'.name ≠ d.name := by simp [p, b, d]
  have ht : Ty.read s.type? d.type = .ok count := by decide +kernel
  have htb : Ty.read s.type? b.type = .ok .bool := by decide +kernel
  have hd (x : Nat) : d.Occupies s.type? x ↔ 16 ≤ x ∧ x < 18 := d.occupies_iff rfl ht rfl x
  have hb (x : Nat) : b.Occupies s.type? x ↔ 18 ≤ x ∧ x < 19 := b.occupies_iff rfl htb rfl x
  have hinside (x : Nat) (hx : d.Occupies s.type? x) : x < UInt64.size :=
    ((hd x).1 hx).2.trans (by decide)
  have hdisjoint : ∀ d' ∈ [b], ∀ x, d.Occupies s.type? x → ¬d'.Occupies s.type? x := by
    intro d' hd' x hx hx'
    obtain rfl := List.mem_singleton.1 hd'
    exact absurd ((hb x).1 hx').1 (Nat.not_le.2 ((hd x).1 hx).2)
  have heval := (eval_initialValue hs hsplit hname hother rfl ht hinside hdisjoint).1
    (.integral .unsignedShort) .none rfl
  exact ⟨s, hs, hsplit, hname, hother, rfl, ht, hinside, hdisjoint, heval⟩

end Snapshot

end WatchExpr
