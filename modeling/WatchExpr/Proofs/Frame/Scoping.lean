import WatchExpr.Proofs.Frame.Loading
import Mathlib.Data.List.Induction

/-!
# Scoping

A name stands for its latest declaration in a block, and if there is none for its latest global one;
a globally qualified name does not see the blocks. Blocks are only opened, so that whatever is
declared stands in front of all that was declared before.
-/

namespace WatchExpr

open Snapshot (ofFrame)

/-- A step that changes what the names of variables stand for. -/
inductive Declaration where
  | openBlock
  /-- A variable of the innermost block. -/
  | inBlock (v : Variable)
  | global (v : Variable)

namespace Declaration

/-- What is declared latest under a name in one of the two ways, if anything is. -/
inductive Latest (way : Variable → Declaration) (ds : List Declaration) (name : String) :
    Option Variable → Prop where
  | declared {v : Variable} {before after : List Declaration} (h : ds = before ++ way v :: after)
      (hname : v.name = name) (hafter : ∀ w, way w ∈ after → w.name ≠ name) :
      Latest way ds name (some v)
  | undeclared (h : ∀ w, way w ∈ ds → w.name ≠ name) : Latest way ds name none

variable {way : Variable → Declaration} {ds : List Declaration} {d : Declaration} {name : String}
  {found : Option Variable} {v w : Variable} {bound : Bindings Variable}

theorem latest_self (way : Variable → Declaration) (ds : List Declaration) (v : Variable) :
    Latest way (ds ++ [way v]) v.name (some v) :=
  .declared rfl rfl nofun

/-- A step that declares nothing under the name, or in the other way, changes nothing for it. -/
theorem Latest.other (h : Latest way ds name found) (hd : ∀ w, d = way w → w.name ≠ name) :
    Latest way (ds ++ [d]) name found := by
  cases h with
  | @declared v before after hds hname hafter =>
      have hmore : ds ++ [d] = before ++ way v :: (after ++ [d]) := by simp [hds]
      refine .declared hmore hname fun w hw => ?_
      obtain hw | hw := List.mem_append.1 hw
      · exact hafter w hw
      · exact hd w (List.mem_singleton.1 hw).symm
  | undeclared h =>
      refine .undeclared fun w hw => ?_
      obtain hw | hw := List.mem_append.1 hw
      · exact h w hw
      · exact hd w (List.mem_singleton.1 hw).symm

/-- Of two variables that are declared latest neither is declared behind the other. -/
theorem Latest.declared_unique (hway : Function.Injective way) (hv : Latest way ds name (some v))
    (hw : Latest way ds name (some w)) : v = w := by
  obtain ⟨rfl, hv, hafter⟩ := hv
  obtain ⟨hds, hw, hafter'⟩ := hw
  obtain ⟨between, -, hback⟩ | ⟨between, -, hback⟩ := List.append_eq_append_iff.1 hds
  · cases between with
    | nil => exact hway (List.cons.inj hback).1
    | cons b between =>
        obtain ⟨-, rfl⟩ := List.cons.inj hback
        exact absurd hw (hafter w (by simp))
  · cases between with
    | nil => exact (hway (List.cons.inj hback).1).symm
    | cons b between =>
        obtain ⟨-, rfl⟩ := List.cons.inj hback
        exact absurd hv (hafter' v (by simp))

/-- There is one answer to what is declared latest. -/
theorem Latest.unique {found' : Option Variable} (hway : Function.Injective way)
    (h : Latest way ds name found) (h' : Latest way ds name found') : found = found' := by
  cases h with
  | declared hds hname hafter =>
      cases h' with
      | declared hds' hname' hafter' =>
          exact congrArg some
            (declared_unique hway (.declared hds hname hafter) (.declared hds' hname' hafter'))
      | undeclared h' => exact absurd hname (h' _ (by simp [hds]))
  | undeclared h =>
      cases h' with
      | declared hds' hname' hafter' => exact absurd hname' (h _ (by simp [hds']))
      | undeclared h' => rfl

/-- Bindings in which each name stands for what is declared latest under it in one of the ways. -/
def BoundToLatest (way : Variable → Declaration) (ds : List Declaration)
    (bound : Bindings Variable) : Prop :=
  ∀ name, Latest way ds name (bound.lookup name)

theorem boundToLatest_nil (way : Variable → Declaration) : BoundToLatest way [] [] :=
  fun _ => .undeclared nofun

theorem BoundToLatest.declare (h : BoundToLatest way ds bound) (hway : Function.Injective way)
    (v : Variable) : BoundToLatest way (ds ++ [way v]) ((v.name, v) :: bound) := by
  intro name
  by_cases hname : name = v.name
  · subst hname
    rw [List.lookup_cons_self]
    exact latest_self way ds v
  · rw [List.lookup_cons, beq_false_of_ne hname]
    refine (h name).other fun w hw => ?_
    obtain rfl := hway hw
    exact Ne.symm hname

theorem BoundToLatest.skip (h : BoundToLatest way ds bound) (hd : ∀ w, d ≠ way w) :
    BoundToLatest way (ds ++ [d]) bound :=
  fun name => (h name).other fun w hw => absurd hw (hd w)

theorem inBlock_injective : Function.Injective inBlock :=
  fun _ _ => inBlock.inj

theorem global_injective : Function.Injective global :=
  fun _ _ => global.inj

end Declaration

namespace Snapshot

open Declaration (Latest BoundToLatest)

/-- Takes a step. -/
def declare (s : Snapshot) : Declaration → Snapshot
  | .openBlock => s.pushScope
  | .inBlock v => s.addLocal v
  | .global v => s.addGlobal v

/-- Takes steps one after another. -/
def declareAll (s : Snapshot) (ds : List Declaration) : Snapshot :=
  ds.foldl declare s

/-- A snapshot in which no variable has been declared: one that knows nothing, or a frame that has been
loaded and has no variables. -/
inductive Undeclared : Snapshot → Prop where
  | empty : Undeclared .empty
  | loaded {frame : Frame} {s : Snapshot} (hs : ofFrame frame = .ok s)
      (hglobals : frame.globals = []) (hscopes : ∀ scope ∈ frame.scopes, scope = []) : Undeclared s

variable {s s' : Snapshot} {ds : List Declaration}

theorem Loads.bindings_of_nil (h : Loads s [] s') : s'.bindings = s.bindings := by
  generalize hds : [] = ds at h
  induction h with
  | nil s => rfl
  | cons => cases hds
  | block _ ih => exact ih hds

theorem Undeclared.bindings (h : s.Undeclared) : s.bindings = [] := by
  cases h with
  | empty => rfl
  | loaded hs hglobals hscopes =>
      obtain ⟨s₀, hempty, hloads⟩ := loads_of_ofFrame hs
      rw [hglobals, List.flatten_eq_nil_iff.2 hscopes] at hloads
      exact hloads.bindings_of_nil.trans hempty

/-- The variables of all blocks together, and apart from them the global ones, are bound to what is
declared latest. -/
structure Remembers (s : Snapshot) (ds : List Declaration) : Prop where
  inBlock : BoundToLatest .inBlock ds s.scopes.flatten
  global : BoundToLatest .global ds s.globals

theorem Remembers.declare (h : s.Remembers ds) (d : Declaration) :
    (s.declare d).Remembers (ds ++ [d]) := by
  cases d with
  | openBlock => exact ⟨h.inBlock.skip nofun, h.global.skip nofun⟩
  | inBlock v =>
      obtain ⟨scopes, hscopes, hflatten⟩ := s.exists_addLocal_eq v
      rw [Snapshot.declare, hscopes]
      exact ⟨hflatten ▸ h.inBlock.declare Declaration.inBlock_injective v, h.global.skip nofun⟩
  | global v => exact ⟨h.inBlock.skip nofun, h.global.declare Declaration.global_injective v⟩

theorem Undeclared.remembers (hs : s.Undeclared) (ds : List Declaration) :
    (s.declareAll ds).Remembers ds := by
  induction ds using List.reverseRecOn with
  | nil =>
      obtain ⟨hscopes, hglobals⟩ := List.append_eq_nil_iff.1 hs.bindings
      exact ⟨hscopes ▸ Declaration.boundToLatest_nil _, hglobals ▸ Declaration.boundToLatest_nil _⟩
  | append_singleton ds d ih =>
      rw [declareAll, List.foldl_append]
      exact ih.declare d

/-- A name stands for its latest declaration in a block if there is one, otherwise for its latest global
declaration if there is one, and otherwise for nothing. Globally qualified it stands for its latest
global declaration, whatever is declared in blocks. -/
theorem latest_declaration_wins (hs : s.Undeclared) (ds : List Declaration) {name : String}
    (hname : ¬[':', ':'] <+: name.toList) :
    ∃ inner outer, Latest .inBlock ds name inner ∧ Latest .global ds name outer ∧
      (s.declareAll ds).variableNamed? name = inner.or outer ∧
      (s.declareAll ds).variableNamed? ("::" ++ name) = outer := by
  have hremembers := hs.remembers ds
  refine ⟨_, _, hremembers.inBlock name, hremembers.global name, ?_, ?_⟩
  · rw [variableNamed?_eq_lookup _ (globalName?_eq_none_iff.2 hname), bindings, List.lookup_append]
  · rw [variableNamed?, globalName?_qualified]

/-- A name that is declared twice in one block and twice globally, once of these behind the block, on
top of a loaded frame that has a block of its own. -/
theorem latest_declaration_wins_shadowed :
    let frame : Frame :=
      { function := "f", file := none, line := none, records := [⟨"S", 8, []⟩], typedefs := []
        globals := [], scopes := [[]], memory := [] }
    let x (a : UInt64) : Variable := ⟨"x", .bool, a⟩
    let ds : List Declaration :=
      [.global (x 1), .inBlock (x 2), .inBlock (x 3), .openBlock, .global (x 4),
        .inBlock ⟨"y", .bool, 5⟩]
    ∃ s, ofFrame frame = .ok s ∧ s.Undeclared ∧ ¬[':', ':'] <+: "x".toList ∧
      (s.declareAll ds).variableNamed? "x" = some (x 3) ∧
      (s.declareAll ds).variableNamed? ("::" ++ "x") = some (x 4) := by
  intro frame x ds
  let s : Snapshot :=
    { function := "f", scopes := [[]], types := [("S", .tagged ⟨"S", 8⟩ .none)], fields := [("S", [])] }
  have hs : ofFrame frame = .ok s := by decide +kernel
  have hundeclared : s.Undeclared := .loaded hs rfl (by simp [frame])
  have hname : ¬[':', ':'] <+: "x".toList := by decide
  have hinner : Latest .inBlock ds "x" (some (x 3)) :=
    .declared (show ds = [.global (x 1), .inBlock (x 2)] ++ _ :: _ from rfl) rfl (by simp)
  have houter : Latest .global ds "x" (some (x 4)) :=
    .declared (show ds = [.global (x 1), .inBlock (x 2), .inBlock (x 3), .openBlock] ++ _ :: _ from rfl)
      rfl (by simp)
  obtain ⟨inner, outer, hinner', houter', hlookup, hqualified⟩ :=
    latest_declaration_wins hundeclared ds hname
  obtain rfl := hinner'.unique Declaration.inBlock_injective hinner
  obtain rfl := houter'.unique Declaration.global_injective houter
  exact ⟨s, hs, hundeclared, hname, hlookup, hqualified⟩

end Snapshot

end WatchExpr
