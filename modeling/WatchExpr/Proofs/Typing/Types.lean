import WatchExpr.Ty.Basic
import Mathlib.Tactic.Common

/-!
# Types up to qualifiers

Erasing the qualifiers of all levels commutes with following references and with the decay of
arrays.
-/

namespace WatchExpr

namespace Ty

/-- The type without the qualifiers of any level. -/
def erased : Ty → Ty
  | .scalar k _ => .scalar k .none
  | .tagged r _ => .tagged r .none
  | .pointer t _ => .pointer t.erased .none
  | .reference t _ => .reference t.erased .none
  | .array t n _ => .array t.erased n .none

/-- No reference in the type refers to a reference. -/
def ReferencesFlat : Ty → Prop
  | .scalar _ _ | .tagged _ _ => True
  | .pointer t _ | .array t _ _ => t.ReferencesFlat
  | .reference t _ => t.isReference = false ∧ t.ReferencesFlat

/-- The type of an object: itself no reference, and no reference in it refers to one. -/
def IsObject (t : Ty) : Prop :=
  t.isReference = false ∧ t.ReferencesFlat

@[simp] theorem erased_withCv (t : Ty) (q : Qualifiers) : (t.withCv q).erased = t.erased := by
  cases t <;> rfl

@[simp] theorem erased_unqualified (t : Ty) : t.unqualified.erased = t.erased :=
  erased_withCv t _

@[simp] theorem erased_qualified (t : Ty) (q : Qualifiers) :
    (t.qualified q).erased = t.erased :=
  erased_withCv t _

@[simp] theorem isReference_erased (t : Ty) : t.erased.isReference = t.isReference := by
  cases t <;> rfl

@[simp] theorem referencesFlat_erased (t : Ty) : t.erased.ReferencesFlat ↔ t.ReferencesFlat := by
  induction t with
  | scalar k q => exact Iff.rfl
  | tagged r q => exact Iff.rfl
  | pointer t q ih => exact ih
  | reference t q ih => simp only [erased, ReferencesFlat, isReference_erased, ih]
  | array t n q ih => exact ih

theorem erased_dereferenced (t : Ty) : t.dereferenced.erased = t.erased.dereferenced := by
  cases t <;> rfl

theorem erased_decayed (t : Ty) : t.decayed.erased = t.erased.decayed := by
  cases t with
  | reference t q => cases t <;> rfl
  | _ => rfl

/-! ## Types with the same erasure -/

variable {t u : Ty}

theorem isReference_congr (h : t.erased = u.erased) : t.isReference = u.isReference := by
  rw [← isReference_erased t, h, isReference_erased]

theorem referencesFlat_congr (h : t.erased = u.erased) : t.ReferencesFlat ↔ u.ReferencesFlat := by
  rw [← referencesFlat_erased t, h, referencesFlat_erased]

theorem isObject_congr (h : t.erased = u.erased) : t.IsObject ↔ u.IsObject := by
  simp only [IsObject, isReference_congr h, referencesFlat_congr h]

theorem dereferenced_congr (h : t.erased = u.erased) :
    t.dereferenced.erased = u.dereferenced.erased := by
  rw [erased_dereferenced, erased_dereferenced, h]

theorem decayed_congr (h : t.erased = u.erased) : t.decayed.erased = u.decayed.erased := by
  rw [erased_decayed, erased_decayed, h]

/-! ## Objects -/

theorem dereferenced_of_isReference_eq_false (h : t.isReference = false) : t.dereferenced = t := by
  cases t with
  | reference t q => cases h
  | _ => rfl

/-- What a declared type designates is an object. -/
theorem ReferencesFlat.isObject_dereferenced (h : t.ReferencesFlat) : t.dereferenced.IsObject := by
  cases t with
  | reference t q => exact h
  | _ => exact ⟨rfl, h⟩

theorem IsObject.dereferenced_eq (h : t.IsObject) : t.dereferenced = t :=
  dereferenced_of_isReference_eq_false h.1

theorem eq_tagged_of_erased {r : TaggedType} {q : Qualifiers}
    (h : t.erased = (Ty.tagged r q).erased) : ∃ p, t = .tagged r p := by
  cases t <;> simp only [erased, reduceCtorEq, tagged.injEq] at h
  exact ⟨_, by rw [h.1]⟩

end Ty

end WatchExpr
