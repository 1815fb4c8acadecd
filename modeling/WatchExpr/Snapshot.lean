import WatchExpr.Eval.Basic
import WatchExpr.Memory

/-!
# Snapshots

A target that is held in memory: the variables in scope, the types and their members, and the bytes
that are known. The latest declaration of a name counts.
-/

namespace WatchExpr

/-- Names with what was declared for them, the latest declaration in front. -/
abbrev Bindings (α : Type) := List (String × α)

/-- What a globally qualified name is qualified from: the name behind its leading `::`. -/
def globalName? (name : String) : Option String :=
  match name.toList with
  | ':' :: ':' :: rest => some (String.ofList rest)
  | _ => none

/-- A target held in memory. -/
structure Snapshot where
  /-- The function that the inspected program has stopped in. -/
  function : String := ""
  /-- The variables of the blocks around the current place, those of the innermost block first. -/
  scopes : List (Bindings Variable) := []
  globals : Bindings Variable := []
  types : Bindings Ty := []
  fields : Bindings (List Field) := []
  memory : Memory := {}
deriving DecidableEq

namespace Snapshot

/-- Nothing is known. -/
def empty : Snapshot := {}

/-! ## Declarations -/

/-- Opens a block. -/
def pushScope (s : Snapshot) : Snapshot :=
  { s with scopes := [] :: s.scopes }

/-- Declares a variable in the innermost block; outside of every block it opens one. -/
def addLocal (s : Snapshot) (v : Variable) : Snapshot :=
  match s.scopes with
  | [] => { s with scopes := [[(v.name, v)]] }
  | scope :: outer => { s with scopes := ((v.name, v) :: scope) :: outer }

/-- Declares a global variable. -/
def addGlobal (s : Snapshot) (v : Variable) : Snapshot :=
  { s with globals := (v.name, v) :: s.globals }

/-- Makes a name stand for a type. -/
def addType (s : Snapshot) (name : String) (t : Ty) : Snapshot :=
  { s with types := (name, t.unqualified) :: s.types }

/-- Declares a record with given members. -/
def addRecord (s : Snapshot) (record : TaggedType) (fields : List Field) : Snapshot :=
  { s with
    types := (record.name, .tagged record .none) :: s.types
    fields := (record.name, fields) :: s.fields }

/-- Adds a member to a record, behind those that it has. -/
def addField (s : Snapshot) (record : String) (f : Field) : Snapshot :=
  { s with fields := (record, (s.fields.lookup record).getD [] ++ [f]) :: s.fields }

/-! ## Writing memory -/

/-- Writes bytes. -/
def write (s : Snapshot) (address : UInt64) (bytes : List UInt8) : Snapshot :=
  { s with memory := s.memory.write address bytes }

/-- Writes the bytes of a scalar. -/
def writeScalar (s : Snapshot) (address : UInt64) (v : Scalar) : Snapshot :=
  s.write address v.toBytes

/-- Writes the bytes of an address. -/
def writeAddress (s : Snapshot) (address value : UInt64) : Snapshot :=
  s.write address (Bytes.ofAddress value)

/-! ## Questions -/

/-- The variable that a name stands for: the innermost one, the global one last. A globally
qualified name stands for a global variable. -/
def variableNamed? (s : Snapshot) (name : String) : Option Variable :=
  match globalName? name with
  | some name => s.globals.lookup name
  | none => (s.scopes.findSome? (·.lookup name)).or (s.globals.lookup name)

/-- The type that a name stands for; all types are global. -/
def type? (s : Snapshot) (name : String) : Option Ty :=
  s.types.lookup ((globalName? name).getD name)

/-- The first member with a given name that a record has. -/
def field? (s : Snapshot) (record : TaggedType) (name : String) : Option Field :=
  (s.fields.lookup record.name).bind fun fs => fs.find? (·.name = name)

/-- The snapshot as a target. -/
def target (s : Snapshot) : Target where
  variableNamed? := s.variableNamed?
  types := s.type?
  field? := s.field?
  read? := s.memory.read?

end Snapshot

end WatchExpr
