import WatchExpr.Frame.Loading
import WatchExpr.Proofs.Failure
import Mathlib.Tactic.Common

/-!
# Loading variables

Each variable of a frame adds one binding and at most one region to the snapshot. What a run over
several variables keeps follows from what each of them keeps.
-/

namespace WatchExpr

/-- What a variable of a given type writes: its initial value, if it has one. -/
inductive VariableDef.Writes (d : VariableDef) (t : Ty) : List Region → Prop where
  | nothing (h : d.value = none) : d.Writes t []
  | initial {v : InitialValue} {bytes : List UInt8} (h : d.value = some v)
      (hbytes : v.bytes t = .ok bytes) : d.Writes t [⟨d.address, bytes⟩]

theorem globalName?_qualified (name : String) : globalName? ("::" ++ name) = some name := by
  rw [globalName?, String.toList_append]
  simp

theorem globalName?_eq_none_iff {name : String} :
    globalName? name = none ↔ ¬[':', ':'] <+: name.toList := by
  rw [globalName?]
  split
  · rename_i rest h
    simp [h]
  · rename_i h
    refine iff_of_true rfl ?_
    rintro ⟨rest, hrest⟩
    exact h rest hrest.symm

theorem globalName?_of_startsWord {name : String} {c : Char} {cs : List Char}
    (h : name.toList = c :: cs) (hc : Lexeme.startsWord c) : globalName? name = none := by
  rw [globalName?_eq_none_iff, h, List.cons_prefix_cons]
  rintro ⟨rfl, -⟩
  cases hc

namespace Snapshot

/-- The variables that a name without qualifiers may stand for, the innermost ones in front. -/
def bindings (s : Snapshot) : Bindings Variable :=
  s.scopes.flatten ++ s.globals

theorem variableNamed?_eq_lookup (s : Snapshot) {name : String} (h : globalName? name = none) :
    s.variableNamed? name = s.bindings.lookup name := by
  have hscopes (scopes : List (Bindings Variable)) :
      scopes.findSome? (·.lookup name) = scopes.flatten.lookup name := by
    induction scopes with
    | nil => rfl
    | cons scope outer ih =>
        rw [List.findSome?_cons, List.flatten_cons, List.lookup_append, ih]
        cases scope.lookup name <;> rfl
  rw [variableNamed?, h, bindings, List.lookup_append]
  exact congrArg (Option.or · _) (hscopes s.scopes)

theorem type?_congr {s s' : Snapshot} (h : s.types = s'.types) : s.type? = s'.type? := by
  funext name
  rw [type?, type?, h]

/-! ## One variable -/

/-- What loading a variable does to a snapshot. -/
structure Declares (s : Snapshot) (d : VariableDef) (t : Ty) (s' : Snapshot) : Prop where
  reads : Ty.read s.type? d.type = .ok t
  types : s'.types = s.types
  binds : ∃ inner outer, s.bindings = inner ++ outer ∧
    s'.bindings = inner ++ (d.name, ⟨d.name, t, d.address⟩) :: outer
  writes : ∃ written, d.Writes t written ∧ s'.memory.regions = written ++ s.memory.regions

theorem loadVariable_cases {s s' : Snapshot} {d : VariableDef} {v : Variable}
    (h : s.loadVariable d = .ok (v, s')) :
    ∃ t written, Ty.read s.type? d.type = .ok t ∧ v = ⟨d.name, t, d.address⟩ ∧
      d.Writes t written ∧ s' = { s with memory := ⟨written ++ s.memory.regions⟩ } := by
  obtain ⟨t, ht, h⟩ := bind_eq_ok_iff.1 h
  have hread : Ty.read s.type? d.type = .ok t := mapError_eq_ok_iff.1 ht
  refine ⟨t, ?_⟩
  split at h
  · cases h
    exact ⟨[], hread, rfl, .nothing ‹_›, rfl⟩
  · obtain ⟨bytes, hbytes, h⟩ := bind_eq_ok_iff.1 h
    cases h
    exact ⟨[⟨d.address, bytes⟩], hread, rfl, .initial ‹_› (mapError_eq_ok_iff.1 hbytes), rfl⟩

/-- A local variable is put in front of those of all blocks, and nothing else changes. -/
theorem exists_addLocal_eq (s : Snapshot) (v : Variable) :
    ∃ scopes, s.addLocal v = { s with scopes } ∧
      scopes.flatten = (v.name, v) :: s.scopes.flatten := by
  unfold addLocal
  split
  · rename_i h
    exact ⟨_, rfl, by simp [h]⟩
  · rename_i h
    exact ⟨_, rfl, by simp [h]⟩

theorem bindings_addLocal (s : Snapshot) (v : Variable) :
    (s.addLocal v).bindings = (v.name, v) :: s.bindings := by
  obtain ⟨scopes, hscopes, hflatten⟩ := s.exists_addLocal_eq v
  rw [hscopes, bindings, hflatten]
  rfl

theorem declares_of_loadGlobal {s s' : Snapshot} {d : VariableDef} (h : s.loadGlobal d = .ok s') :
    ∃ t, s.Declares d t s' := by
  obtain ⟨⟨v, s₁⟩, hv, h⟩ := bind_eq_ok_iff.1 h
  obtain ⟨t, written, ht, rfl, hw, rfl⟩ := loadVariable_cases hv
  cases h
  exact ⟨t, ht, rfl, ⟨s.scopes.flatten, s.globals, rfl, rfl⟩, written, hw, rfl⟩

theorem declares_of_loadLocal {s s' : Snapshot} {d : VariableDef} (h : s.loadLocal d = .ok s') :
    ∃ t, s.Declares d t s' := by
  obtain ⟨⟨v, s₁⟩, hv, h⟩ := bind_eq_ok_iff.1 h
  obtain ⟨t, written, ht, rfl, hw, rfl⟩ := loadVariable_cases hv
  cases h
  obtain ⟨scopes, hscopes, -⟩ :=
    exists_addLocal_eq { s with memory := ⟨written ++ s.memory.regions⟩ } ⟨d.name, t, d.address⟩
  exact ⟨t, ht, by rw [hscopes], ⟨[], s.bindings, rfl, bindings_addLocal _ _⟩, written, hw,
    by rw [hscopes]⟩

namespace Declares

variable {s s' : Snapshot} {d : VariableDef} {t : Ty}

theorem lookup_of_ne (h : s.Declares d t s') {name : String} (hne : d.name ≠ name) :
    s'.bindings.lookup name = s.bindings.lookup name := by
  obtain ⟨inner, outer, hs, hs'⟩ := h.binds
  have hbeq : (name == d.name) = false := beq_false_of_ne hne.symm
  rw [hs, hs', List.lookup_append, List.lookup_append, List.lookup_cons, hbeq]

theorem lookup_self (h : s.Declares d t s') (hnew : s.bindings.lookup d.name = none) :
    s'.bindings.lookup d.name = some ⟨d.name, t, d.address⟩ := by
  obtain ⟨inner, outer, hs, hs'⟩ := h.binds
  rw [hs, List.lookup_append, Option.or_eq_none_iff] at hnew
  rw [hs', List.lookup_append, hnew.1, Option.none_or, List.lookup_cons_self]

end Declares

/-! ## Runs -/

/-- Loading variables one after the other; blocks may be opened in between. -/
inductive Loads : Snapshot → List VariableDef → Snapshot → Prop where
  | nil (s : Snapshot) : Loads s [] s
  | cons {s s₁ s' : Snapshot} {d : VariableDef} {ds : List VariableDef} {t : Ty}
      (h : s.Declares d t s₁) (hs : Loads s₁ ds s') : Loads s (d :: ds) s'
  | block {s s' : Snapshot} {ds : List VariableDef} (hs : Loads s.pushScope ds s') : Loads s ds s'

theorem loads_of_foldlM {f : Snapshot → VariableDef → Except LoadError Snapshot}
    (hf : ∀ {s d s'}, f s d = .ok s' → ∃ t, s.Declares d t s') {ds : List VariableDef}
    {s s' : Snapshot} (h : ds.foldlM f s = .ok s') : Loads s ds s' := by
  induction ds generalizing s with
  | nil =>
      cases h
      exact .nil _
  | cons d ds ih =>
      rw [List.foldlM_cons] at h
      obtain ⟨s₁, hs₁, h⟩ := bind_eq_ok_iff.1 h
      obtain ⟨t, ht⟩ := hf hs₁
      exact .cons ht (ih h)

namespace Loads

variable {s s₁ s' : Snapshot} {ds es : List VariableDef}

theorem append (h : Loads s ds s₁) (h' : Loads s₁ es s') : Loads s (ds ++ es) s' := by
  induction h with
  | nil s => exact h'
  | cons hd _ ih => exact .cons hd (ih h')
  | block _ ih => exact .block (ih h')

/-- A run comes past each of its variables. -/
theorem split {before after : List VariableDef} {d : VariableDef}
    (h : Loads s (before ++ d :: after) s') :
    ∃ s₁ s₂ t, Loads s before s₁ ∧ s₁.Declares d t s₂ ∧ Loads s₂ after s' := by
  generalize hds : before ++ d :: after = ds at h
  induction h generalizing before with
  | nil s => simp at hds
  | cons hd hs ih =>
      cases before with
      | nil =>
          cases hds
          exact ⟨_, _, _, .nil _, hd, hs⟩
      | cons b before =>
          cases hds
          obtain ⟨s₁, s₂, t, hbefore, h, hafter⟩ := ih rfl
          exact ⟨s₁, s₂, t, .cons hd hbefore, h, hafter⟩
  | block _ ih =>
      obtain ⟨s₁, s₂, t, hbefore, h, hafter⟩ := ih hds
      exact ⟨s₁, s₂, t, .block hbefore, h, hafter⟩

theorem types (h : Loads s ds s') : s'.types = s.types := by
  induction h with
  | nil s => rfl
  | cons hd _ ih => exact ih.trans hd.types
  | block _ ih => exact ih

/-- A name that none of the variables has stands for what it stood for. -/
theorem lookup_of_ne (h : Loads s ds s') {name : String} (hne : ∀ d ∈ ds, d.name ≠ name) :
    s'.bindings.lookup name = s.bindings.lookup name := by
  induction h with
  | nil s => rfl
  | cons hd _ ih =>
      obtain ⟨hhead, htail⟩ := List.forall_mem_cons.1 hne
      exact (ih htail).trans (hd.lookup_of_ne hhead)
  | block _ ih => exact ih hne

/-- All regions that are added come from initial values. -/
theorem regions (h : Loads s ds s') :
    ∃ written, s'.memory.regions = written ++ s.memory.regions ∧
      ∀ r ∈ written, ∃ d ∈ ds, ∃ t, Ty.read s.type? d.type = .ok t ∧ d.Writes t [r] := by
  induction h with
  | nil s => exact ⟨[], rfl, by simp⟩
  | @cons s s₁ s' d ds t hd _ ih =>
      obtain ⟨later, hs', hlater⟩ := ih
      obtain ⟨written, hw, hs₁⟩ := hd.writes
      refine ⟨later ++ written, by rw [hs', hs₁, List.append_assoc], fun r hr => ?_⟩
      obtain hr | hr := List.mem_append.1 hr
      · obtain ⟨d', hd', t', ht', hw'⟩ := hlater r hr
        exact ⟨d', List.mem_cons_of_mem _ hd', t', type?_congr hd.types ▸ ht', hw'⟩
      · cases hw with
        | nothing h => cases hr
        | initial h hbytes =>
            obtain rfl := List.mem_singleton.1 hr
            exact ⟨d, List.mem_cons_self, t, hd.reads, .initial h hbytes⟩
  | block _ ih => exact ih

end Loads

/-! ## Frames -/

theorem loads_of_scopes {scopes : List (List VariableDef)} {s s' : Snapshot}
    (h : scopes.foldlM loadScope s = .ok s') : Loads s scopes.flatten s' := by
  induction scopes generalizing s with
  | nil =>
      cases h
      exact .nil _
  | cons scope scopes ih =>
      rw [List.foldlM_cons] at h
      obtain ⟨s₁, hs₁, h⟩ := bind_eq_ok_iff.1 h
      exact (Loads.block (loads_of_foldlM declares_of_loadLocal hs₁)).append (ih h)

/-- What each step leaves as it is all of them do. -/
theorem foldl_keeps {α β : Type} (g : Snapshot → β) {f : Snapshot → α → Snapshot}
    (hf : ∀ s a, g (f s a) = g s) (as : List α) (s : Snapshot) : g (as.foldl f s) = g s := by
  induction as generalizing s with
  | nil => rfl
  | cons a as ih => rw [List.foldl_cons, ih, hf]

/-- The variables of a frame are loaded into a snapshot that has none yet, the global ones first. -/
theorem loads_of_ofFrame {frame : Frame} {s : Snapshot} (h : ofFrame frame = .ok s) :
    ∃ s₀ : Snapshot, s₀.bindings = [] ∧
      Loads s₀ (frame.globals ++ frame.scopes.flatten) s := by
  obtain ⟨s₁, hs₁, h⟩ := bind_eq_ok_iff.1 h
  obtain ⟨fields, -, h⟩ := bind_eq_ok_iff.1 h
  obtain ⟨s₂, hs₂, h⟩ := bind_eq_ok_iff.1 h
  refine ⟨_, ?_, (loads_of_foldlM declares_of_loadGlobal hs₂).append (loads_of_scopes h)⟩
  have hrecords : s₁.bindings = [] := by
    refine foldlM_invariant (p := fun s => s.bindings = []) (fun s d s' hs hd => ?_) ?_ hs₁
    · obtain ⟨t, -, hd⟩ := bind_eq_ok_iff.1 hd
      cases hd
      exact hs
    · exact foldl_keeps bindings (by intros; rfl) _ _
  rw [foldl_keeps bindings (by intros; rfl), foldl_keeps bindings (by intros; rfl), hrecords]

end Snapshot

end WatchExpr
