import WatchExpr.Proofs.Frame.Types
import WatchExpr.Proofs.Grammar.Casts
import WatchExpr.Proofs.Printing.TypeTexts

/-!
# Texts of types of loaded frames

The record at the core of a type of a loaded frame is what its name stands for, however many names
for types lie between: the names in front of it were read when they were loaded, and none of those
behind it is that of a record. So the text of the type is read with the names it was printed for.
-/

namespace WatchExpr

namespace Ty

/-- The record at the core of the type. -/
def record? : Ty → Option TaggedType
  | .scalar _ _ => none
  | .tagged r _ => some r
  | .pointer t _ | .reference t _ | .array t _ _ => t.record?

/-- Neither an array nor a reference in the type has qualifiers. -/
def QualifiersShown : Ty → Prop
  | .scalar _ _ | .tagged _ _ => True
  | .pointer t _ => t.QualifiersShown
  | .reference t q | .array t _ q => q = .none ∧ t.QualifiersShown

/-- No pointer in the type points to a reference. -/
def PointersToObjects : Ty → Prop
  | .scalar _ _ | .tagged _ _ => True
  | .pointer t _ => t.isReference = false ∧ t.PointersToObjects
  | .reference t _ | .array t _ _ => t.PointersToObjects

variable {types : TypeNames} {t u b : Ty}

@[simp] theorem record?_withCv (t : Ty) (q : Qualifiers) : (t.withCv q).record? = t.record? := by
  cases t <;> rfl

@[simp] theorem record?_arrays (t : Ty) (bounds : List UInt64) :
    (t.arrays bounds).record? = t.record? := by
  induction bounds with
  | nil => rfl
  | cons n bounds ih => exact ih

theorem record?_foldlM {signs : List DeclaratorSign}
    (h : signs.foldlM TypeId.applySign b = .ok t) : t.record? = b.record? := by
  refine foldlM_invariant (p := fun u : Ty => u.record? = b.record?) (fun t s u ht hu => ?_) rfl h
  cases s with
  | pointer q =>
      cases hu
      exact ht
  | reference =>
      obtain ⟨-, -, rfl⟩ := TypeId.applySign_reference_eq_ok hu
      exact ht

/-- A type that may be formed shows what it is if its qualifiers do and its core is read as itself. -/
theorem isShown (hflat : t.ReferencesFlat) (hvoid : t.VoidPointedTo) (hcv : t.QualifiersShown)
    (hobjects : t.PointersToObjects)
    (hrecord : ∀ r ∈ t.record?,
      Grammar.IsTypeName r.name ∧ ∃ q, types r.name = some (.tagged r q)) :
    t.IsShown types := by
  induction t with
  | scalar k q => exact hvoid
  | tagged r q => exact hrecord r rfl
  | pointer t q ih =>
      exact ⟨hobjects.1, hvoid.imp_right fun hvoid => ih hflat hvoid hcv hobjects.2 hrecord⟩
  | reference t q ih => exact ⟨hcv.1, hflat.1, ih hflat.2 hvoid hcv.2 hobjects hrecord⟩
  | array t n q ih => exact ⟨hcv.1, ih hflat hvoid hcv.2 hobjects hrecord⟩

end Ty

/-! ## Names in type-ids -/

namespace Grammar

variable {finish : EndMark} {d d' : TypeId} {ts rest : List Token} {name key : String}

/-- A name is looked up without the `::` in front. -/
theorem Spells.getD_globalName? (h : Spells name key) : (globalName? name).getD name = key := by
  obtain ⟨hkey, rfl | rfl⟩ := h
  · obtain ⟨c, cs, hname, hc⟩ := hkey.starts
    rw [globalName?_of_startsWord hname hc, Option.getD_none]
  · rw [globalName?_qualified, Option.getD_some]

theorem isCut_of_typeName (hts : ∀ t ∈ ts, t.IsCut) (h : typeName finish ts = .ok name rest) :
    ∀ t ∈ rest, t.IsCut :=
  fun t ht => hts t ((typeName_isSuffix_of_ok h).subset ht)

theorem addName_spelled (hts : ∀ t ∈ ts, t.IsCut) (h : typeName finish ts = .ok name rest) :
    ∀ n ∈ (d.addName name).name?, ∃ k, Spells n k := by
  intro n hn
  cases hn
  exact typeName_spelled hts h

theorem specifiers_spelled (hts : ∀ t ∈ ts, t.IsCut) (hd : ∀ n ∈ d.name?, ∃ k, Spells n k)
    (h : specifiers finish d ts = .ok d' rest) : ∀ n ∈ d'.name?, ∃ k, Spells n k := by
  fun_induction specifiers finish d ts with
  | case1 => cases h; exact hd
  | case2 => cases h; exact hd
  | case3 _ _ _ _ _ ih => exact ih (List.forall_mem_cons.1 hts).2 hd h
  | case4 _ _ _ _ ih => exact ih (List.forall_mem_cons.1 hts).2 hd h
  | case5 _ _ _ _ ih => exact ih (List.forall_mem_cons.1 hts).2 hd h
  | case6 _ _ _ _ _ _ hname ih =>
      have hus := (List.forall_mem_cons.1 hts).2
      exact ih (isCut_of_typeName hus hname) (addName_spelled hus hname) h
  | case7 => cases h
  | case8 => cases h; exact hd
  | case9 _ _ _ _ _ _ _ hname ih =>
      exact ih (isCut_of_typeName hts hname) (addName_spelled hts hname) h
  | case10 => cases h

/-- The name in a type-id is one that was read. -/
theorem typeId_spelled (hts : ∀ t ∈ ts, t.IsCut) (h : typeId finish ts = .ok d rest) :
    ∀ n ∈ d.name?, ∃ k, Spells n k := by
  obtain ⟨d', us, hd', h⟩ := Outcome.andThen_eq_ok_iff.1 h
  have hspelled := specifiers_spelled hts (fun n hn => by cases hn) hd'
  split at h
  · cases h
    rw [declaratorSigns_name?]
    exact hspelled
  · cases h

end Grammar

/-! ## Records -/

namespace Snapshot

open Grammar

variable {frame : Frame} {s s' : Snapshot} {text : String} {t : Ty} {r : TaggedType}

/-- A record of the frame that has a name which is read, and that is what the name stands for. -/
structure Recorded (frame : Frame) (s : Snapshot) (r : TaggedType) : Prop where
  declared : ∃ d ∈ frame.records, d.name = r.name
  spelled : SpellsName r.name
  stands : s.types.lookup r.name = some (.tagged r .none)

/-- Names that are read stand for types with recorded cores. -/
def RecordedCores (frame : Frame) (s : Snapshot) : Prop :=
  ∀ name t, s.types.lookup name = some t → SpellsName name → ∀ r ∈ t.record?, Recorded frame s r

theorem RecordedCores.record?_read (h : RecordedCores frame s) (ht : Ty.read s.type? text = .ok t) :
    ∀ r ∈ t.record?, Recorded frame s r := by
  obtain ⟨d, b, bounds, hwrites⟩ := writes_of_read ht
  obtain ⟨us, rest, hd, -⟩ := hwrites.reads
  obtain ⟨u, hu, rfl⟩ := hwrites.resolves
  rw [Ty.record?_arrays, Ty.record?_foldlM hu.signs]
  have hbase := hu.base
  unfold TypeId.base at hbase
  split at hbase
  · rename_i n hn
    obtain ⟨k, hk⟩ := typeId_spelled (fun t ht => Tokens.isCut_of_mem ht) hd n hn
    split at hbase
    · rename_i t₀ ht₀
      cases hbase
      replace ht₀ : s.types.lookup ((globalName? n).getD n) = some t₀ := ht₀
      rw [hk.getD_globalName?] at ht₀
      rw [Ty.record?_withCv]
      exact h k t₀ ht₀ hk.spelled
    · cases hbase
  · split at hbase
    · cases hbase
      exact fun r hr => by cases hr
    · cases hbase

theorem recordedCores_ofRecords (frame : Frame) : RecordedCores frame (ofRecords frame) := by
  intro name t ht hname r hr
  obtain ⟨d, hd, rfl, rfl⟩ := lookup_ofRecords ht
  cases hr
  exact ⟨⟨d, hd, rfl⟩, hname, ht⟩

theorem Recorded.addType {name : String} (h : Recorded frame s r)
    (hname : ∀ d ∈ frame.records, name ≠ d.name) (t : Ty) : Recorded frame (s.addType name t) r := by
  obtain ⟨d, hd, hrecord⟩ := h.declared
  have hne : (r.name == name) = false := beq_false_of_ne (hrecord ▸ (hname d hd).symm)
  exact ⟨h.declared, h.spelled, by rw [Snapshot.addType, List.lookup_cons, hne]; exact h.stands⟩

theorem RecordedCores.step {d : TypedefDef} (h : RecordedCores frame s)
    (hname : ∀ r ∈ frame.records, d.name ≠ r.name) (hs' : s.loadTypedef d = .ok s') :
    RecordedCores frame s' := by
  obtain ⟨u, hu, rfl⟩ := loadTypedef_cases hs'
  intro name t ht hspelled r hr
  obtain ⟨rfl, rfl⟩ | ht := lookup_cons_cases ht
  · rw [Ty.unqualified, Ty.record?_withCv] at hr
    exact (h.record?_read hu r hr).addType hname u
  · exact (h name t ht hspelled r hr).addType hname u

theorem RecordedCores.steps {ds : List TypedefDef} (h : RecordedCores frame s)
    (hnames : ∀ d ∈ ds, ∀ r ∈ frame.records, d.name ≠ r.name)
    (hs' : ds.foldlM loadTypedef s = .ok s') : RecordedCores frame s' := by
  induction ds generalizing s with
  | nil =>
      cases hs'
      exact h
  | cons d ds ih =>
      rw [List.foldlM_cons] at hs'
      obtain ⟨s₁, hs₁, hs'⟩ := bind_eq_ok_iff.1 hs'
      obtain ⟨hd, hds⟩ := List.forall_mem_cons.1 hnames
      exact ih (h.step hd hs₁) hds hs'

/-- No name for a type hides the record at the core of a type that is read. -/
theorem record?_read (hs : ofFrame frame = .ok s)
    (hnames : ∀ r ∈ frame.records, ∀ d ∈ frame.typedefs, d.name ≠ r.name)
    (ht : Ty.read s.type? text = .ok t) : ∀ r ∈ t.record?, Recorded frame s r := by
  obtain ⟨named, fields, hstages⟩ := stages_of_ofFrame hs
  have hnamed : RecordedCores frame named :=
    (recordedCores_ofRecords frame).steps (fun d hd r hr => hnames r hr d hd) hstages.typedefs
  rw [type?_congr hstages.types] at ht
  intro r hr
  have hrecorded := hnamed.record?_read ht r hr
  exact ⟨hrecorded.declared, hrecorded.spelled, hstages.types ▸ hrecorded.stands⟩

theorem Recorded.type? (h : Recorded frame s r) : s.type? r.name = some (.tagged r .none) := by
  have hspells : Spells r.name r.name := ⟨h.spelled, .inl rfl⟩
  rw [Snapshot.type?, hspells.getD_globalName?, h.stands]

/-- A name without template arguments is read as itself. -/
theorem Recorded.isTypeName (h : Recorded frame s r)
    (hname : '<' ∈ r.name.toList → IsTypeName r.name) : IsTypeName r.name := by
  by_cases htemplate : '<' ∈ r.name.toList
  · exact hname htemplate
  · exact (h.spelled.isScopedName htemplate).isTypeName

/-! ## Round trip -/

/-- The text of a type that was read with the names of a loaded frame is read as the same type exactly
if no pointer or reference in the type is one to an array: such an array is printed in parentheses,
which are no part of a type-id. Left aside are types whose text shows less than they are, for an array
or a reference got qualifiers through a name or there is a pointer to a reference, and template
arguments in the name of a record that are not spelled as they are read. -/
theorem types_read_back_iff (hs : ofFrame frame = .ok s)
    (hnames : ∀ r ∈ frame.records, ∀ d ∈ frame.typedefs, d.name ≠ r.name)
    (ht : Ty.read s.type? text = .ok t) (hcv : t.QualifiersShown) (hobjects : t.PointersToObjects)
    (hrecord : ∀ r ∈ t.record?, '<' ∈ r.name.toList → IsTypeName r.name) :
    Ty.read s.type? t.text = .ok t ↔ t.ArraysOutermost := by
  have hsound : TypeNames.Sound s.type? := by
    obtain ⟨named, fields, hstages⟩ := stages_of_ofFrame hs
    exact type?_congr hstages.types ▸ sound_of_typedefs hstages.typedefs
  have hforms := hsound.formed ht
  refine Ty.IsShown.read_text_iff (Ty.isShown hforms.referencesFlat hforms.voidPointedTo hcv hobjects
    fun r hr => ?_)
  have hrecorded := record?_read hs hnames ht r hr
  exact ⟨hrecorded.isTypeName (hrecord r hr), .none, hrecorded.type?⟩

/-- Arrays of arrays, the inner ones under a name, of pointers to a record with template arguments. -/
theorem types_read_back_iff_nested :
    let frame : Frame :=
      { function := "f", file := none, line := none
        records := [⟨"ns::Map<int, char>", 8, []⟩]
        typedefs := [⟨"Row", "::ns::Map<int,char> const * volatile [2]"⟩]
        globals := [], scopes := [], memory := [] }
    let r : TaggedType := ⟨"ns::Map<int, char>", 8⟩
    let t : Ty := .array (.array (.pointer (.tagged r ⟨true, false⟩) ⟨false, true⟩) 2 .none) 3 .none
    t.text = "const ns::Map<int, char>* volatile[3][2]" ∧
      ∃ s, ofFrame frame = .ok s ∧ Ty.read s.type? "Row [3]" = .ok t ∧
        Ty.read s.type? t.text = .ok t := by
  intro frame r t
  let row : Ty := .array (.pointer (.tagged r ⟨true, false⟩) ⟨false, true⟩) 2 .none
  let s : Snapshot :=
    { function := "f"
      types := [("Row", row), (r.name, .tagged r .none)]
      fields := [(r.name, [])] }
  have hs : ofFrame frame = .ok s := by decide +kernel
  have ht : Ty.read s.type? "Row [3]" = .ok t := by decide +kernel
  refine ⟨by decide +kernel, s, hs, ht, (types_read_back_iff hs (by decide) ht ?_ ?_ ?_).2 ?_⟩
  · exact ⟨rfl, rfl, trivial⟩
  · exact ⟨rfl, trivial⟩
  · intro r' hr _
    cases hr
    decide +kernel
  · decide

/-- Pointers and references to an array are not read back, nor are the types left aside. -/
theorem types_not_read_back :
    let frame : Frame :=
      { function := "f", file := none, line := none
        records := [⟨"V<x.5>", 8, []⟩]
        typedefs := [⟨"A", "int[3]"⟩, ⟨"R", "int&"⟩]
        globals := [], scopes := [], memory := [] }
    let int : Ty := .arithmetic (.integral .int)
    let read : List (String × Ty × String) :=
      [("A*", .pointer (.array int 3 .none) .none, "int (*)[3]"),
        ("A&", .reference (.array int 3 .none) .none, "int (&)[3]"),
        ("const A", .array int 3 ⟨true, false⟩, "int[3]"),
        ("const R", .reference int ⟨true, false⟩, "int&"),
        ("R*", .pointer (.reference int .none) .none, "int&*"),
        ("V<x . 5>", .tagged ⟨"V<x.5>", 8⟩ .none, "V<x.5>")]
    ∃ s, ofFrame frame = .ok s ∧ ∀ p ∈ read, Ty.read s.type? p.1 = .ok p.2.1 ∧
      p.2.1.text = p.2.2 ∧ Ty.read s.type? p.2.2 ≠ .ok p.2.1 := by
  intro frame int read
  let s : Snapshot :=
    { function := "f"
      types := [("R", .reference int .none), ("A", .array int 3 .none),
        ("V<x.5>", .tagged ⟨"V<x.5>", 8⟩ .none)]
      fields := [("V<x.5>", [])] }
  have hs : ofFrame frame = .ok s := by decide +kernel
  exact ⟨s, hs, by decide +kernel⟩

end Snapshot

end WatchExpr
