import WatchExpr.Frame.Basic
import WatchExpr.Snapshot

/-!
# Loading frames

A frame becomes a snapshot in stages: all records are declared before any type is read, then the
names for types, in order, then the members of the records. Memory comes before the variables, whose
initial values are written on top of it.
-/

namespace WatchExpr

/-- Why a variable cannot be given its initial value. -/
inductive InitialValueError where
  | boolForAddress (type : Ty) (value : Bool)
  | floatingForAddress (type : Ty) (value : Binary64)
  | notInitializable (type : Ty)
deriving DecidableEq

/-- Why a frame cannot be loaded. -/
inductive LoadError where
  | notAFrame
  | typedef (name : String) (failure : ParseError)
  | field (name record : String) (failure : ParseError)
  | variable (name : String) (failure : ParseError)
  | initialValue (name : String) (failure : InitialValueError)
deriving DecidableEq

/-- The text of the failure. -/
def InitialValueError.message : InitialValueError → String
  | .boolForAddress t b =>
    "expected an address for type '" ++ t.text ++ "', got Bool(" ++
      (if b then "true" else "false") ++ ")"
  | .floatingForAddress t x =>
    "expected an address for type '" ++ t.text ++ "', got Float(" ++
      String.ofList (x.textBy Decimal.general) ++ ")"
  | .notInitializable t => "type '" ++ t.text ++ "' cannot be initialized from a value"

/-- The text of the failure: what was being loaded, then what was wrong with it. -/
def LoadError.message : LoadError → String
  | .notAFrame => "Failed to parse frame snapshot JSON"
  | .typedef n e => "typedef '" ++ n ++ "': " ++ e.text
  | .field n r e => "field '" ++ n ++ "' of struct '" ++ r ++ "': " ++ e.text
  | .variable n e => "variable '" ++ n ++ "': " ++ e.text
  | .initialValue n e => "initial value of variable '" ++ n ++ "': " ++ e.message

namespace InitialValue

/-- The initial value as a scalar of a given type. -/
def toScalar (k : ArithmeticKind) : InitialValue → Scalar
  | .bool b => (Scalar.ofBool b).convert k
  | .integer n => .ofInt k n
  | .floating x => .ofBinary k x

/-- The bytes of a variable of a given type that holds the initial value. -/
def bytes (t : Ty) (v : InitialValue) : Except InitialValueError (List UInt8) :=
  match t, v with
  | .scalar (.arithmetic k) _, v => .ok (v.toScalar k).toBytes
  | .pointer _ _, .integer n | .reference _ _, .integer n => .ok (Bytes.ofAddress (wordOfInt n))
  | .pointer _ _, .bool b | .reference _ _, .bool b => .error (.boolForAddress t b)
  | .pointer _ _, .floating x | .reference _ _, .floating x => .error (.floatingForAddress t x)
  | _, _ => .error (.notInitializable t)

end InitialValue

namespace Snapshot

/-- Reads the text of a type, a failure being reported as one of what is being loaded. -/
def readType (s : Snapshot) (failed : ParseError → LoadError) (text : String) :
    Except LoadError Ty :=
  (Ty.read s.type? text).mapError failed

/-- Loads the name for a type. -/
def loadTypedef (s : Snapshot) (d : TypedefDef) : Except LoadError Snapshot := do
  return s.addType d.name (← s.readType (.typedef d.name) d.type)

/-- Reads the type of a record member. -/
def readField (s : Snapshot) (record : String) (d : FieldDef) : Except LoadError Field := do
  return ⟨d.name, ← s.readType (.field d.name record) d.type, d.offset⟩

/-- Reads the types of the members of a record. -/
def readFields (s : Snapshot) (d : RecordDef) : Except LoadError (List (String × Field)) :=
  d.fields.mapM fun f => do return (d.name, ← s.readField d.name f)

/-- Reads the type of a variable and writes its initial value. -/
def loadVariable (s : Snapshot) (d : VariableDef) : Except LoadError (Variable × Snapshot) := do
  let t ← s.readType (.variable d.name) d.type
  match d.value with
  | none => return (⟨d.name, t, d.address⟩, s)
  | some v =>
    let bytes ← (v.bytes t).mapError (.initialValue d.name)
    return (⟨d.name, t, d.address⟩, s.write d.address bytes)

/-- Loads a global variable. -/
def loadGlobal (s : Snapshot) (d : VariableDef) : Except LoadError Snapshot := do
  let (v, s) ← s.loadVariable d
  return s.addGlobal v

/-- Loads a variable of the innermost block. -/
def loadLocal (s : Snapshot) (d : VariableDef) : Except LoadError Snapshot := do
  let (v, s) ← s.loadVariable d
  return s.addLocal v

/-- Loads the variables of a block. -/
def loadScope (s : Snapshot) (ds : List VariableDef) : Except LoadError Snapshot :=
  ds.foldlM loadLocal s.pushScope

/-- Loads a frame. -/
def ofFrame (frame : Frame) : Except LoadError Snapshot := do
  let s : Snapshot := { function := frame.function }
  let s := frame.records.foldl (fun s d => s.addRecord ⟨d.name, d.size⟩ []) s
  let s ← frame.typedefs.foldlM loadTypedef s
  let fields ← frame.records.mapM s.readFields
  let s := fields.flatten.foldl (fun s (record, f) => s.addField record f) s
  let s := frame.memory.foldl (fun s r => s.write r.address r.bytes) s
  let s ← frame.globals.foldlM loadGlobal s
  frame.scopes.foldlM loadScope s

/-- Reads and loads the text of a frame. -/
def ofText (text : String) : Except LoadError Snapshot :=
  match Frame.read? text with
  | some frame => ofFrame frame
  | none => .error .notAFrame

end Snapshot

end WatchExpr
