import WatchExpr.Proofs.Frame.Types

/-!
# The order of records

All records are declared before any type is read, and a record gets no members but its own. So the
order in which a frame describes its records makes no difference.
-/

namespace WatchExpr

namespace Snapshot

variable {s s' : Snapshot} {frame : Frame}

/-- Where each name is bound once the order of the bindings does not matter. -/
theorem lookup_perm {α : Type} {l l' : Bindings α} (h : l.Perm l')
    (hnames : (l.map Prod.fst).Nodup) (name : String) : l.lookup name = l'.lookup name := by
  induction h with
  | nil => rfl
  | cons b _ ih =>
      rw [List.map_cons, List.nodup_cons] at hnames
      rw [List.lookup_cons, List.lookup_cons, ih hnames.2]
  | swap b c l =>
      have hne : b.1 ≠ c.1 := by
        rw [List.map_cons, List.map_cons, List.nodup_cons] at hnames
        exact fun heq => hnames.1 (heq ▸ List.mem_cons_self)
      by_cases hb : name = b.1
      · subst hb
        rw [List.lookup_cons, beq_false_of_ne hne, List.lookup_cons_self, List.lookup_cons_self]
      · rw [List.lookup_cons, List.lookup_cons, List.lookup_cons, List.lookup_cons, beq_false_of_ne hb]
  | trans hfirst _ ih ih' => exact (ih hnames).trans (ih' ((hfirst.map _).nodup_iff.1 hnames))

/-! ## Members -/

/-- The members that are added to a record. -/
def membersAdded (record : String) (added : List (String × Field)) : List Field :=
  (added.filter (·.1 = record)).map Prod.snd

theorem membersAdded_append (record : String) (added more : List (String × Field)) :
    membersAdded record (added ++ more) = membersAdded record added ++ membersAdded record more := by
  simp [membersAdded]

/-- The members that a record has. -/
def members (s : Snapshot) (record : String) : List Field :=
  (s.fields.lookup record).getD []

theorem field?_eq_find? (s : Snapshot) (record : TaggedType) (name : String) :
    s.field? record name = (s.members record.name).find? (·.name = name) := by
  rw [field?, members]
  cases s.fields.lookup record.name <;> rfl

theorem members_addField (s : Snapshot) (record key : String) (f : Field) :
    (s.addField key f).members record = s.members record ++ membersAdded record [(key, f)] := by
  rw [members, members, addField]
  by_cases h : record = key
  · subst h
    simp [membersAdded]
  · have hne : key ≠ record := Ne.symm h
    rw [List.lookup_cons, beq_false_of_ne h]
    simp [membersAdded, hne]

theorem members_addFields (s : Snapshot) (record : String) (added : List (String × Field)) :
    (added.foldl (fun s (key, f) => s.addField key f) s).members record =
      s.members record ++ membersAdded record added := by
  induction added generalizing s with
  | nil => simp [membersAdded]
  | cons a added ih =>
      obtain ⟨key, f⟩ := a
      rw [List.foldl_cons, ih, members_addField, List.append_assoc, ← membersAdded_append]
      rfl

/-- What is read of a record is added to this record only. -/
theorem membersAdded_readFields {d : RecordDef} {fields : List (String × Field)} {record : String}
    (h : s.readFields d = .ok fields) (hne : d.name ≠ record) : membersAdded record fields = [] := by
  rw [membersAdded, List.map_eq_nil_iff, List.filter_eq_nil_iff]
  intro f hf
  obtain ⟨g, -, hg⟩ := exists_of_mem_mapM h hf
  obtain ⟨t, -, hg⟩ := bind_eq_ok_iff.1 hg
  cases hg
  simpa using hne

/-- Records are read or refused in any order, and each of them gets the same members. -/
theorem mapM_readFields_perm {records records' : List RecordDef} (h : records.Perm records')
    (hnames : (records.map (·.name)).Nodup) (s : Snapshot) :
    EndAlike (fun fields fields' => ∀ record,
        membersAdded record fields.flatten = membersAdded record fields'.flatten)
      (records.mapM s.readFields) (records'.mapM s.readFields) := by
  induction h with
  | nil => exact .ok fun _ => rfl
  | cons d _ ih =>
      rw [List.map_cons, List.nodup_cons] at hnames
      rw [List.mapM_cons, List.mapM_cons]
      refine .next fun fs _ => (ih hnames.2).bind fun fields fields' hfields => .ok fun record => ?_
      rw [List.flatten_cons, List.flatten_cons, membersAdded_append, membersAdded_append, hfields]
  | swap d e records =>
      have hne : d.name ≠ e.name := by
        rw [List.map_cons, List.map_cons, List.nodup_cons] at hnames
        exact fun heq => hnames.1 (heq ▸ List.mem_cons_self)
      simp only [List.mapM_cons, bind_assoc]
      refine .exchange fun fs gs hfs hgs => .next fun fields _ => .ok fun record => ?_
      simp only [List.flatten_cons, membersAdded_append]
      -- one of the two records is not the one asked for
      by_cases hd : d.name = record
      · rw [membersAdded_readFields hfs (hd ▸ hne.symm), List.nil_append, List.nil_append]
      · rw [membersAdded_readFields hgs hd, List.nil_append, List.nil_append]
  | trans hfirst _ ih ih' =>
      refine ((ih hnames).trans (ih' ((hfirst.map _).nodup_iff.1 hnames))).mono ?_
      rintro fields fields' ⟨between, h, h'⟩ record
      exact (h record).trans (h' record)

/-! ## Snapshots that answer alike -/

/-- Snapshots that answer all questions alike, and go on to do so whatever is loaded into both. -/
structure Alike (s s' : Snapshot) : Prop where
  scopes : s.scopes = s'.scopes
  globals : s.globals = s'.globals
  types : ∀ name, s.types.lookup name = s'.types.lookup name
  members : ∀ record, s.members record = s'.members record
  memory : s.memory = s'.memory

namespace Alike

theorem type? (h : Alike s s') : s.type? = s'.type? :=
  funext fun _ => h.types _

theorem target (h : Alike s s') : s.target = s'.target := by
  have hvariables : s.variableNamed? = s'.variableNamed? := by
    funext name
    rw [variableNamed?, variableNamed?, h.scopes, h.globals]
  have hfields : s.field? = s'.field? := by
    funext record name
    rw [field?_eq_find?, field?_eq_find?, h.members]
  rw [Snapshot.target, Snapshot.target, hvariables, h.type?, hfields, h.memory]

theorem readType (h : Alike s s') : s.readType = s'.readType := by
  funext failed text
  rw [Snapshot.readType, Snapshot.readType, h.type?]

theorem readFields (h : Alike s s') : s.readFields = s'.readFields := by
  funext d
  simp only [Snapshot.readFields, readField, h.readType]

/-! ### Steps of loading -/

theorem addType (h : Alike s s') (name : String) (t : Ty) :
    Alike (s.addType name t) (s'.addType name t) where
  scopes := h.scopes
  globals := h.globals
  types key := by rw [Snapshot.addType, Snapshot.addType, List.lookup_cons, List.lookup_cons, h.types]
  members := h.members
  memory := h.memory

theorem addFields (h : Alike s s') {added added' : List (String × Field)}
    (hadded : ∀ record, membersAdded record added = membersAdded record added') :
    Alike (added.foldl (fun s (key, f) => s.addField key f) s)
      (added'.foldl (fun s (key, f) => s.addField key f) s') where
  scopes := by
    rw [foldl_keeps Snapshot.scopes (by intros; rfl), foldl_keeps Snapshot.scopes (by intros; rfl),
      h.scopes]
  globals := by
    rw [foldl_keeps Snapshot.globals (by intros; rfl), foldl_keeps Snapshot.globals (by intros; rfl),
      h.globals]
  types name := by
    rw [foldl_keeps Snapshot.types (by intros; rfl), foldl_keeps Snapshot.types (by intros; rfl),
      h.types]
  members record := by rw [members_addFields, members_addFields, h.members, hadded]
  memory := by
    rw [foldl_keeps Snapshot.memory (by intros; rfl), foldl_keeps Snapshot.memory (by intros; rfl),
      h.memory]

theorem write (h : Alike s s') (address : UInt64) (bytes : List UInt8) :
    Alike (s.write address bytes) (s'.write address bytes) :=
  { h with memory := by rw [Snapshot.write, Snapshot.write, h.memory] }

theorem writeAll (h : Alike s s') (regions : List Region) :
    Alike (regions.foldl (fun s r => s.write r.address r.bytes) s)
      (regions.foldl (fun s r => s.write r.address r.bytes) s') := by
  induction regions generalizing s s' with
  | nil => exact h
  | cons r regions ih => exact ih (h.write r.address r.bytes)

theorem pushScope (h : Alike s s') : Alike s.pushScope s'.pushScope :=
  { h with scopes := by rw [Snapshot.pushScope, Snapshot.pushScope, h.scopes] }

theorem addGlobal (h : Alike s s') (v : Variable) : Alike (s.addGlobal v) (s'.addGlobal v) :=
  { h with globals := by rw [Snapshot.addGlobal, Snapshot.addGlobal, h.globals] }

theorem addLocal (h : Alike s s') (v : Variable) : Alike (s.addLocal v) (s'.addLocal v) := by
  rw [Snapshot.addLocal, Snapshot.addLocal, h.scopes]
  split
  · exact { h with scopes := rfl }
  · exact { h with scopes := rfl }

theorem loadTypedef (h : Alike s s') (d : TypedefDef) :
    EndAlike Alike (s.loadTypedef d) (s'.loadTypedef d) := by
  rw [Snapshot.loadTypedef, Snapshot.loadTypedef, h.readType]
  exact .next fun t _ => .ok (h.addType d.name t)

theorem loadVariable (h : Alike s s') (d : VariableDef) :
    EndAlike (fun (v, s) (v', s') => v = v' ∧ Alike s s') (s.loadVariable d) (s'.loadVariable d) := by
  rw [Snapshot.loadVariable, Snapshot.loadVariable, h.readType]
  refine .next fun t _ => ?_
  split
  · exact .ok ⟨rfl, h⟩
  · exact .next fun bytes _ => .ok ⟨rfl, h.write d.address bytes⟩

theorem loadGlobal (h : Alike s s') (d : VariableDef) :
    EndAlike Alike (s.loadGlobal d) (s'.loadGlobal d) := by
  refine (h.loadVariable d).bind ?_
  rintro ⟨v, s⟩ ⟨_, s'⟩ ⟨rfl, h⟩
  exact .ok (h.addGlobal v)

theorem loadLocal (h : Alike s s') (d : VariableDef) :
    EndAlike Alike (s.loadLocal d) (s'.loadLocal d) := by
  refine (h.loadVariable d).bind ?_
  rintro ⟨v, s⟩ ⟨_, s'⟩ ⟨rfl, h⟩
  exact .ok (h.addLocal v)

theorem loadScope (h : Alike s s') (ds : List VariableDef) :
    EndAlike Alike (s.loadScope ds) (s'.loadScope ds) :=
  .foldlM (fun _ _ d h => h.loadLocal d) h.pushScope ds

end Alike

/-! ## Frames -/

theorem types_ofRecords_perm (frame : Frame) :
    (ofRecords frame).types.Perm
      (frame.records.map fun d => (d.name, .tagged ⟨d.name, d.size⟩ .none)) := by
  have hfold (ds : List RecordDef) (s : Snapshot) :
      (ds.foldl (fun s d => s.addRecord ⟨d.name, d.size⟩ []) s).types.Perm
        ((ds.map fun d => (d.name, .tagged ⟨d.name, d.size⟩ .none)) ++ s.types) := by
    induction ds generalizing s with
    | nil => exact .refl _
    | cons d ds ih => exact (ih _).trans List.perm_middle
  exact (hfold frame.records _).trans (.of_eq (List.append_nil _))

theorem members_ofRecords (frame : Frame) (record : String) :
    (ofRecords frame).members record = [] := by
  rw [members]
  cases h : (ofRecords frame).fields.lookup record with
  | none => rfl
  | some fields => exact fields_ofRecords h

theorem alike_ofRecords {records : List RecordDef} (hperm : frame.records.Perm records)
    (hnames : (frame.records.map (·.name)).Nodup) :
    Alike (ofRecords frame) (ofRecords { frame with records }) where
  scopes := by
    rw [ofRecords, ofRecords, foldl_keeps scopes (by intros; rfl), foldl_keeps scopes (by intros; rfl)]
  globals := by
    rw [ofRecords, ofRecords, foldl_keeps globals (by intros; rfl), foldl_keeps globals (by intros; rfl)]
  types name := by
    have hperm' := (types_ofRecords_perm frame).trans
      ((hperm.map _).trans (types_ofRecords_perm { frame with records }).symm)
    refine lookup_perm hperm' (((types_ofRecords_perm frame).map _).nodup_iff.2 ?_) name
    rw [List.map_map]
    exact hnames
  members record := by rw [members_ofRecords, members_ofRecords]
  memory := by
    rw [ofRecords, ofRecords, foldl_keeps memory (by intros; rfl), foldl_keeps memory (by intros; rfl)]

/-- Records that have names of their own may be described in any order: the frame is loaded or refused
alike, and the snapshots are the same target. -/
theorem record_order_irrelevant (frame : Frame) {records : List RecordDef}
    (hperm : frame.records.Perm records) (hnames : (frame.records.map (·.name)).Nodup) :
    EndAlike (fun s s' => s.target = s'.target) (ofFrame frame) (ofFrame { frame with records }) := by
  refine EndAlike.mono (r := Alike) ?_ fun _ _ h => h.target
  refine (EndAlike.foldlM (fun _ _ d h => h.loadTypedef d) (alike_ofRecords hperm hnames)
    frame.typedefs).bind fun named named' hnamed => ?_
  rw [← hnamed.readFields]
  refine (mapM_readFields_perm hperm hnames named).bind fun fields fields' hfields => ?_
  have hmemory := (hnamed.addFields hfields).writeAll frame.memory
  exact (EndAlike.foldlM (fun _ _ d h => h.loadGlobal d) hmemory frame.globals).bind
    fun s s' hs => .foldlM (fun _ _ ds h => h.loadScope ds) hs frame.scopes

/-- Two records with pointers to each other, one of them through a name for a type. -/
theorem record_order_irrelevant_mutual :
    let a : RecordDef := ⟨"A", 8, [⟨"b", "B *", 0⟩]⟩
    let b : RecordDef := ⟨"B", 16, [⟨"a", "Q", 0⟩, ⟨"next", "const B *", 8⟩]⟩
    let frame : Frame :=
      { function := "f", file := none, line := none, records := [a, b], typedefs := [⟨"Q", "A *"⟩]
        globals := [⟨"x", "B", 16, none⟩], scopes := [], memory := [] }
    ∃ s s', ofFrame frame = .ok s ∧ ofFrame { frame with records := [b, a] } = .ok s' ∧
      s ≠ s' ∧ s.target = s'.target := by
  intro a b frame
  let ta : Ty := .tagged ⟨"A", 8⟩ .none
  let tb : Ty := .tagged ⟨"B", 16⟩ .none
  let q : Ty := .pointer ta .none
  let fa : List Field := [⟨"b", .pointer tb .none, 0⟩]
  let fb : List Field := [⟨"a", q, 0⟩, ⟨"next", .pointer (.tagged ⟨"B", 16⟩ ⟨true, false⟩) .none, 8⟩]
  let s : Snapshot :=
    { function := "f", globals := [("x", ⟨"x", tb, 16⟩)], types := [("Q", q), ("B", tb), ("A", ta)]
      fields := [("B", fb), ("B", fb.take 1), ("A", fa), ("B", []), ("A", [])] }
  let s' : Snapshot :=
    { s with
      types := [("Q", q), ("A", ta), ("B", tb)]
      fields := [("A", fa), ("B", fb), ("B", fb.take 1), ("A", []), ("B", [])] }
  have hs : ofFrame frame = .ok s := by decide +kernel
  have hs' : ofFrame { frame with records := [b, a] } = .ok s' := by decide +kernel
  have halike := record_order_irrelevant frame (.swap b a []) (by decide)
  rw [hs, hs'] at halike
  cases halike with
  | ok h => exact ⟨s, s', hs, hs', by decide, h⟩

end Snapshot

end WatchExpr
