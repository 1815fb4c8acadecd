import WatchExpr.Proofs.Frame.Loading
import WatchExpr.Proofs.Grammar.Formation

/-!
# The types of loaded frames

Every type of a loaded frame was read from a text: those of its variables and members with all names
for types, and those that names stand for with the names in front of them. So all of them keep what
reading keeps, and what reading lets through can be found in one of the texts.
-/

namespace WatchExpr

/-- The tokens start with a type. In a type that is read references are flat and `void` is only pointed
to; besides, it is as well-formed as the type at its core, unless something is put on a reference. -/
structure Grammar.Forms (types : TypeNames) (finish : EndMark) (ts : List Token) (t : Ty) : Prop where
  referencesFlat : t.ReferencesFlat
  voidPointedTo : t.VoidPointedTo
  wellFormed_iff : ∃ d b bounds, Writes ⟨types, finish⟩ ts d b bounds t ∧
    (t.WellFormed ↔ b.NothingOnReferences ∧ ¬d.OnReference b bounds)

/-- A text that is a type. -/
abbrev Ty.Formed (types : TypeNames) (text : String) (t : Ty) : Prop :=
  Grammar.Forms types (Tokens.lex text).finish (Tokens.lex text).body t

/-- Names that stand for sound types. -/
def TypeNames.Sound (types : TypeNames) : Prop :=
  ∀ name t, types name = some t → t.Sound

namespace TypeNames

open Grammar

variable {types : TypeNames} {d : TypeId} {b t : Ty} {bounds : List UInt64} {finish : EndMark}
  {ts : List Token} {text : String}

theorem Sound.base (h : types.Sound) (hb : d.base types = .ok b) : b.Sound := by
  unfold TypeId.base at hb
  split at hb
  · split at hb
    · rename_i ht
      cases hb
      exact (h _ _ ht).withCv d.cv
    · cases hb
  · split at hb
    · cases hb
      exact Ty.sound_scalar _ _
    · cases hb

theorem Sound.forms (h : types.Sound) (ht : Writes ⟨types, finish⟩ ts d b bounds t) :
    Forms types finish ts t := by
  obtain ⟨u, hu, rfl⟩ := ht.resolves
  obtain ⟨hflat, hvoid⟩ := hu.sound (h.base hu.base) bounds
  exact ⟨hflat, hvoid, d, b, bounds, ht,
    ⟨fun hwell => ht.nothingOnReferences_iff.1 hwell.nothingOnReferences,
      fun hb => ⟨hflat, hvoid, ht.nothingOnReferences_iff.2 hb⟩⟩⟩

theorem Sound.formed (h : types.Sound) (ht : Ty.read types text = .ok t) :
    Ty.Formed types text t := by
  obtain ⟨d, b, bounds, hwrites⟩ := writes_of_read ht
  exact h.forms hwrites

end TypeNames

theorem Grammar.Forms.sound {types : TypeNames} {finish : EndMark} {ts : List Token} {t : Ty}
    (h : Forms types finish ts t) : t.Sound :=
  ⟨h.referencesFlat, .inr h.voidPointedTo⟩

namespace Snapshot

variable {frame : Frame} {s s' : Snapshot}

theorem lookup_cons_cases {α : Type} {l : Bindings α} {key name : String} {a b : α}
    (h : ((key, a) :: l).lookup name = some b) : name = key ∧ b = a ∨ l.lookup name = some b := by
  rw [List.lookup_cons] at h
  split at h
  · cases h
    exact .inl ⟨eq_of_beq ‹_›, rfl⟩
  · exact .inr h

/-! ## Names for types -/

/-- The snapshot that has the records of a frame and nothing else. -/
def ofRecords (frame : Frame) : Snapshot :=
  frame.records.foldl (fun s d => s.addRecord ⟨d.name, d.size⟩ []) { function := frame.function }

/-- A record of a frame is what its name stands for. -/
theorem lookup_ofRecords {name : String} {t : Ty} (h : (ofRecords frame).types.lookup name = some t) :
    ∃ d ∈ frame.records, d.name = name ∧ t = .tagged ⟨d.name, d.size⟩ .none := by
  refine List.foldlRecOn (motive := fun s : Snapshot => ∀ name t, s.types.lookup name = some t →
    ∃ d ∈ frame.records, d.name = name ∧ t = .tagged ⟨d.name, d.size⟩ .none)
    frame.records _ (fun name t h => ?_) (fun s hs d hd name t h => ?_) name t h
  · cases h
  · obtain ⟨rfl, rfl⟩ | h := lookup_cons_cases h
    · exact ⟨d, hd, rfl, rfl⟩
    · exact hs name t h

theorem loadTypedef_cases {d : TypedefDef} (h : s.loadTypedef d = .ok s') :
    ∃ t, Ty.read s.type? d.type = .ok t ∧ s' = s.addType d.name t := by
  obtain ⟨t, ht, h⟩ := bind_eq_ok_iff.1 h
  cases h
  exact ⟨t, mapError_eq_ok_iff.1 ht, rfl⟩

/-- What a name stands for it stood for before, or it has been read as a type since then. -/
theorem lookup_foldlM_loadTypedef {ds : List TypedefDef} (h : ds.foldlM loadTypedef s = .ok s')
    {name : String} {t : Ty} (ht : s'.types.lookup name = some t) :
    s.types.lookup name = some t ∨
      ∃ before d after s₁ u, ds = before ++ d :: after ∧ before.foldlM loadTypedef s = .ok s₁ ∧
        d.name = name ∧ Ty.read s₁.type? d.type = .ok u ∧ t = u.unqualified := by
  induction ds generalizing s with
  | nil =>
      cases h
      exact .inl ht
  | cons d ds ih =>
      rw [List.foldlM_cons] at h
      obtain ⟨s₁, hs₁, h⟩ := bind_eq_ok_iff.1 h
      obtain hs | ⟨before, d', after, s₂, u, rfl, hbefore, hd'⟩ := ih h
      · obtain ⟨u, hu, rfl⟩ := loadTypedef_cases hs₁
        obtain ⟨rfl, rfl⟩ | hs := lookup_cons_cases hs
        · exact .inr ⟨[], d, ds, s, u, rfl, rfl, rfl, hu, rfl⟩
        · exact .inl hs
      · refine .inr ⟨d :: before, d', after, s₂, u, rfl, ?_, hd'⟩
        rw [List.foldlM_cons, hs₁]
        exact hbefore

theorem sound_of_lookup (h : ∀ name t, s.types.lookup name = some t → t.Sound) :
    TypeNames.Sound s.type? :=
  fun _ _ ht => h _ _ ht

/-- Names for types stay sound while further ones are loaded. -/
theorem sound_of_typedefs {ds : List TypedefDef} (h : ds.foldlM loadTypedef (ofRecords frame) = .ok s) :
    TypeNames.Sound s.type? := by
  refine sound_of_lookup (foldlM_invariant
    (p := fun s : Snapshot => ∀ name t, s.types.lookup name = some t → t.Sound)
    (fun s d s' hs hd name t ht => ?_) (fun name t ht => ?_) h)
  · obtain ⟨u, hu, rfl⟩ := loadTypedef_cases hd
    obtain ⟨-, rfl⟩ | ht := lookup_cons_cases ht
    · exact ((sound_of_lookup hs).formed hu).sound.withCv _
    · exact hs name t ht
  · obtain ⟨d, -, -, rfl⟩ := lookup_ofRecords ht
    exact ⟨trivial, .inr trivial⟩

/-! ## Stages -/

theorem fields_loadVariable {d : VariableDef} {v : Variable} (h : s.loadVariable d = .ok (v, s')) :
    s'.fields = s.fields := by
  obtain ⟨t, written, -, -, -, rfl⟩ := loadVariable_cases h
  rfl

theorem fields_loadGlobal {d : VariableDef} (h : s.loadGlobal d = .ok s') : s'.fields = s.fields := by
  obtain ⟨⟨v, s₁⟩, hv, h⟩ := bind_eq_ok_iff.1 h
  cases h
  rw [← fields_loadVariable hv]
  rfl

theorem fields_loadLocal {d : VariableDef} (h : s.loadLocal d = .ok s') : s'.fields = s.fields := by
  obtain ⟨⟨v, s₁⟩, hv, h⟩ := bind_eq_ok_iff.1 h
  cases h
  obtain ⟨scopes, hscopes, -⟩ := s₁.exists_addLocal_eq v
  rw [hscopes, ← fields_loadVariable hv]

theorem fields_foldlM {α : Type} {f : Snapshot → α → Except LoadError Snapshot}
    (hf : ∀ s a s', f s a = .ok s' → s'.fields = s.fields) {as : List α}
    (h : as.foldlM f s = .ok s') : s'.fields = s.fields :=
  foldlM_invariant (p := fun s' => s'.fields = s.fields) (fun _ _ _ hs h => (hf _ _ _ h).trans hs)
    rfl h

theorem fields_loadScope {ds : List VariableDef} (h : s.loadScope ds = .ok s') :
    s'.fields = s.fields :=
  fields_foldlM (s := s.pushScope) (fun _ _ _ => fields_loadLocal) h

/-- The stages of loading: the names for types, the members of the records, the variables. -/
structure Stages (frame : Frame) (s named : Snapshot) (fields : List (List (String × Field))) :
    Prop where
  typedefs : frame.typedefs.foldlM loadTypedef (ofRecords frame) = .ok named
  members : frame.records.mapM named.readFields = .ok fields
  types : s.types = named.types
  fields : s.fields =
    (fields.flatten.foldl (fun s (record, f) => s.addField record f) named).fields
  loads : ∃ s₀ : Snapshot, s₀.bindings = [] ∧
    Loads s₀ (frame.globals ++ frame.scopes.flatten) s

theorem stages_of_ofFrame (h : ofFrame frame = .ok s) : ∃ named fields, Stages frame s named fields := by
  have hloads := loads_of_ofFrame h
  obtain ⟨named, hnamed, h⟩ := bind_eq_ok_iff.1 h
  obtain ⟨fields, hfields, h⟩ := bind_eq_ok_iff.1 h
  obtain ⟨s₂, hs₂, h⟩ := bind_eq_ok_iff.1 h
  refine ⟨named, fields, hnamed, hfields, ?_, ?_, hloads⟩
  · rw [(loads_of_scopes h).types, (loads_of_foldlM declares_of_loadGlobal hs₂).types]
    rw [foldl_keeps types (by intros; rfl), foldl_keeps types (by intros; rfl)]
  · rw [fields_foldlM (fun _ _ _ => fields_loadScope) h,
      fields_foldlM (fun _ _ _ => fields_loadGlobal) hs₂]
    exact foldl_keeps Snapshot.fields (by intros; rfl) _ _

/-! ## Variables and members -/

/-- Every variable is one that was there or one of those that were loaded. -/
theorem Loads.variable_cases {ds : List VariableDef} (h : Loads s ds s') {name : String} {v : Variable}
    (hv : (name, v) ∈ s'.bindings) :
    (name, v) ∈ s.bindings ∨
      ∃ d ∈ ds, d.name = name ∧ v.name = name ∧ Ty.read s.type? d.type = .ok v.type := by
  induction h with
  | nil s => exact .inl hv
  | @cons s s₁ s' d ds t hd _ ih =>
      obtain hv | ⟨d', hd', hname, hv, hread⟩ := ih hv
      · obtain ⟨inner, outer, hs, hs₁⟩ := hd.binds
        rw [hs₁] at hv
        rw [hs]
        simp only [List.mem_append, List.mem_cons, Prod.mk.injEq] at hv ⊢
        obtain hv | ⟨rfl, rfl⟩ | hv := hv
        · exact .inl (.inl hv)
        · exact .inr ⟨d, .inl rfl, rfl, rfl, hd.reads⟩
        · exact .inl (.inr hv)
      · exact .inr ⟨d', List.mem_cons_of_mem d hd', hname, hv, type?_congr hd.types ▸ hread⟩
  | block _ ih => exact ih hv

theorem mem_of_lookup {α : Type} {l : Bindings α} {name : String} {a : α}
    (h : l.lookup name = some a) : (name, a) ∈ l := by
  obtain ⟨before, after, rfl, -⟩ := List.lookup_eq_some_iff.1 h
  simp

theorem mem_bindings_of_variableNamed? {name : String} {v : Variable}
    (h : s.variableNamed? name = some v) : ∃ key, (key, v) ∈ s.bindings := by
  cases hglobal : globalName? name with
  | none =>
      rw [s.variableNamed?_eq_lookup hglobal] at h
      exact ⟨name, mem_of_lookup h⟩
  | some key =>
      rw [variableNamed?, hglobal] at h
      exact ⟨key, List.mem_append_right _ (mem_of_lookup h)⟩

/-- The members of records come from their declarations. -/
theorem mem_readFields {fields : List (List (String × Field))} {record : String} {f : Field}
    (h : frame.records.mapM s.readFields = .ok fields) (hf : (record, f) ∈ fields.flatten) :
    ∃ r ∈ frame.records, ∃ d ∈ r.fields, r.name = record ∧ d.name = f.name ∧
      Ty.read s.type? d.type = .ok f.type := by
  obtain ⟨fs, hfs, hf⟩ := List.mem_flatten.1 hf
  obtain ⟨r, hr, hread⟩ := exists_of_mem_mapM h hfs
  obtain ⟨d, hd, hread⟩ := exists_of_mem_mapM hread hf
  obtain ⟨g, hg, hread⟩ := bind_eq_ok_iff.1 hread
  cases hread
  obtain ⟨t, ht, hg⟩ := bind_eq_ok_iff.1 hg
  cases hg
  exact ⟨r, hr, d, hd, rfl, rfl, mapError_eq_ok_iff.1 ht⟩

/-- A record has the members that are added to it. -/
theorem mem_fields_foldl {added : List (String × Field)} {record : String} {fs : List Field} {f : Field}
    (h : (added.foldl (fun s (record, f) => s.addField record f) s).fields.lookup record = some fs)
    (hf : f ∈ fs) :
    (record, f) ∈ added ∨ ∃ fs, s.fields.lookup record = some fs ∧ f ∈ fs := by
  induction added generalizing s with
  | nil => exact .inr ⟨fs, h, hf⟩
  | cons a added ih =>
      obtain ⟨record', g⟩ := a
      obtain hmem | ⟨fs', hfs', hf⟩ := ih h
      · exact .inl (List.mem_cons_of_mem _ hmem)
      · obtain ⟨rfl, rfl⟩ | hs := lookup_cons_cases hfs'
        · obtain hf | hf := List.mem_append.1 hf
          · cases hold : s.fields.lookup record with
            | none => simp [hold] at hf
            | some old => exact .inr ⟨old, rfl, by simpa [hold] using hf⟩
          · exact .inl (by simp [List.mem_singleton.1 hf])
        · exact .inr ⟨fs', hs, hf⟩

theorem fields_ofRecords {record : String} {fs : List Field}
    (h : (ofRecords frame).fields.lookup record = some fs) : fs = [] := by
  refine List.foldlRecOn
    (motive := fun s : Snapshot => ∀ record fs, s.fields.lookup record = some fs → fs = [])
    frame.records _ (fun record fs h => ?_) (fun s hs d _ record fs h => ?_) record fs h
  · cases h
  · obtain ⟨-, rfl⟩ | h := lookup_cons_cases h
    · rfl
    · exact hs record fs h

/-- Before its members are read no record has any. -/
theorem fields_eq_nil_of_typedefs {ds : List TypedefDef}
    (h : ds.foldlM loadTypedef (ofRecords frame) = .ok s) {record : String} {fs : List Field}
    (hfs : s.fields.lookup record = some fs) : fs = [] := by
  refine foldlM_invariant (p := fun s : Snapshot => ∀ record fs, s.fields.lookup record = some fs → fs = [])
    (fun s d s' hs hd => ?_) (fun _ _ => fields_ofRecords) h record fs hfs
  obtain ⟨t, -, rfl⟩ := loadTypedef_cases hd
  exact hs

/-! ## All types -/

/-- No type of a loaded frame, and none that is read with its names, has a reference to a reference, or
`void` but under a pointer, whatever names it is built through. It is well-formed exactly if the type
at its core has nothing on a reference and its text puts neither a pointer on a name for a reference
nor a bound on any reference. A name stands for a record or for a type that was read in this way with
the names in front of it. -/
theorem types_formed (hs : ofFrame frame = .ok s) :
    (∀ text t, Ty.read s.type? text = .ok t → Ty.Formed s.type? text t) ∧
      (∀ text e, Expr.read s.type? text = .ok e → e.Everywhere fun e => ∀ t f, e = .cast t f →
        ∃ ts, Grammar.Forms s.type? (Tokens.lex text).finish ts t) ∧
      (∀ name v, s.variableNamed? name = some v →
        ∃ d ∈ frame.globals ++ frame.scopes.flatten,
          d.name = v.name ∧ Ty.Formed s.type? d.type v.type) ∧
      (∀ record name f, s.field? record name = some f →
        ∃ r ∈ frame.records, ∃ d ∈ r.fields,
          r.name = record.name ∧ d.name = name ∧ Ty.Formed s.type? d.type f.type) ∧
      ∀ name t, s.types.lookup name = some t →
        (∃ d ∈ frame.records, d.name = name ∧ t = .tagged ⟨d.name, d.size⟩ .none) ∨
          ∃ before d after s₁ u, frame.typedefs = before ++ d :: after ∧
            before.foldlM loadTypedef (ofRecords frame) = .ok s₁ ∧ d.name = name ∧
              Ty.Formed s₁.type? d.type u ∧ t = u.unqualified := by
  obtain ⟨named, fields, hstages⟩ := stages_of_ofFrame hs
  have htypes : s.type? = named.type? := type?_congr hstages.types
  have hsound : TypeNames.Sound s.type? := htypes ▸ sound_of_typedefs hstages.typedefs
  refine ⟨fun text t ht => hsound.formed ht, fun text e he => ?_, fun name v hv => ?_,
    fun record name f hf => ?_, fun name t ht => ?_⟩
  · refine (Grammar.castsRead_of_read he).mono fun e he t f hcast => ?_
    obtain ⟨ts, rest, ht⟩ := he t f hcast
    obtain ⟨d, b, hwrites⟩ := Grammar.writes_of_castType ht
    exact ⟨ts, hsound.forms hwrites⟩
  · obtain ⟨s₀, hempty, hloads⟩ := hstages.loads
    obtain ⟨key, hmem⟩ := mem_bindings_of_variableNamed? hv
    obtain hmem | ⟨d, hd, hkey, hname, hread⟩ := hloads.variable_cases hmem
    · simp [hempty] at hmem
    · rw [← type?_congr hloads.types] at hread
      exact ⟨d, hd, hkey.trans hname.symm, hsound.formed hread⟩
  · obtain ⟨fs, hfs, hfind⟩ := Option.bind_eq_some_iff.1 hf
    have hname : f.name = name := by simpa using List.find?_some hfind
    rw [hstages.fields] at hfs
    obtain hmem | ⟨old, hold, hmem⟩ := mem_fields_foldl hfs (List.mem_of_find?_eq_some hfind)
    · obtain ⟨r, hr, d, hd, hrecord, hfield, hread⟩ := mem_readFields hstages.members hmem
      rw [← htypes] at hread
      exact ⟨r, hr, d, hd, hrecord, hfield.trans hname, hsound.formed hread⟩
    · rw [fields_eq_nil_of_typedefs hstages.typedefs hold] at hmem
      cases hmem
  · rw [hstages.types] at ht
    obtain ht | ⟨before, d, after, s₁, u, hds, hbefore, hd, hu, rfl⟩ :=
      lookup_foldlM_loadTypedef hstages.typedefs ht
    · exact .inl (lookup_ofRecords ht)
    · exact .inr ⟨before, d, after, s₁, u, hds, hbefore, hd,
        (sound_of_typedefs hbefore).formed hu, rfl⟩

/-- A name for references, used by another name, a member, a variable and a cast. -/
theorem types_formed_named_reference :
    let frame : Frame :=
      { function := "f", file := none, line := none
        records := [⟨"S", 8, [⟨"m", "R", 0⟩]⟩]
        typedefs := [⟨"R", "int &"⟩, ⟨"Q", "R *"⟩]
        globals := [⟨"q", "Q", 16, none⟩], scopes := [], memory := [] }
    let r : Ty := .reference (.arithmetic (.integral .int)) .none
    ∃ s, ofFrame frame = .ok s ∧ Ty.Formed s.type? "R [2]" (.array r 2 .none) ∧
      (∃ ts, Grammar.Forms s.type? (Tokens.lex "(Q) q").finish ts (.pointer r .none)) ∧
      (∃ d ∈ frame.globals, Ty.Formed s.type? d.type (.pointer r .none)) ∧
      (∃ d : FieldDef, d.name = "m" ∧ Ty.Formed s.type? d.type r) ∧
      ∃ (d : TypedefDef) (s₁ : Snapshot) (u : Ty), d.name = "Q" ∧
        Ty.Formed s₁.type? d.type u ∧ .pointer r .none = u.unqualified := by
  intro frame r
  let record : Ty := .tagged ⟨"S", 8⟩ .none
  let s : Snapshot :=
    { function := "f"
      globals := [("q", ⟨"q", .pointer r .none, 16⟩)]
      types := [("Q", .pointer r .none), ("R", r), ("S", record)]
      fields := [("S", [⟨"m", r, 0⟩]), ("S", [])] }
  have hs : ofFrame frame = .ok s := by decide +kernel
  obtain ⟨hread, hcast, hvariable, hfield, hname⟩ := types_formed hs
  refine ⟨s, hs, hread _ _ (by decide +kernel), ?_, ?_, ?_, ?_⟩
  · exact (hcast "(Q) q" (.cast (.pointer r .none) (.name "q")) (by decide +kernel)).1 _ _ rfl
  · obtain ⟨d, hd, -, h⟩ := hvariable "q" ⟨"q", .pointer r .none, 16⟩ (by decide)
    exact ⟨d, by simpa [frame] using hd, h⟩
  · obtain ⟨-, -, d, -, -, hd, h⟩ := hfield ⟨"S", 8⟩ "m" ⟨"m", r, 0⟩ (by decide)
    exact ⟨d, hd, h⟩
  · obtain ⟨d, -, -, h⟩ | ⟨-, d, -, s₁, u, -, -, hd, h, hu⟩ :=
      hname "Q" (.pointer r .none) (by decide)
    · cases h
    · exact ⟨d, s₁, u, hd, h, hu⟩

/-- A pointer to a reference and an array of references are accepted, though neither is a type. -/
theorem read_ill_formed :
    let frame : Frame :=
      { function := "f", file := none, line := none, records := []
        typedefs := [⟨"R", "int&"⟩], globals := [], scopes := [], memory := [] }
    let r : Ty := .reference (.arithmetic (.integral .int)) .none
    ∃ s, ofFrame frame = .ok s ∧ Ty.read s.type? "R*" = .ok (.pointer r .none) ∧
      ¬(Ty.pointer r .none).WellFormed ∧ Ty.read s.type? "int&[2]" = .ok (.array r 2 .none) ∧
      ¬(Ty.array r 2 .none).WellFormed := by
  intro frame r
  let s : Snapshot := { function := "f", types := [("R", r)] }
  have hs : ofFrame frame = .ok s := by decide +kernel
  exact ⟨s, hs, by decide +kernel, fun h => absurd h.nothingOnReferences.1 (by decide),
    by decide +kernel, fun h => absurd h.nothingOnReferences.1 (by decide)⟩

end Snapshot

end WatchExpr
