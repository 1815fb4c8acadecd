import WatchExpr.Json.Reader
import WatchExpr.Memory

/-!
# Frames

The description of a stopped frame: the types and variables that it declares, by the text of their
types, and the bytes of memory that are known.
-/

namespace WatchExpr

/-- A record member as it is declared. -/
structure FieldDef where
  name : String
  type : String
  offset : UInt64

/-- A record as it is declared. -/
structure RecordDef where
  name : String
  size : UInt64
  fields : List FieldDef

/-- A name for a type as it is declared. -/
structure TypedefDef where
  name : String
  type : String

/-- What a variable holds when the frame is loaded. -/
inductive InitialValue where
  | bool (value : Bool)
  | integer (value : Int)
  | floating (value : Binary64)

/-- A variable as it is declared. -/
structure VariableDef where
  name : String
  type : String
  address : UInt64
  value : Option InitialValue

/-- A frame. -/
structure Frame where
  function : String
  file : Option String
  line : Option Nat
  records : List RecordDef
  typedefs : List TypedefDef
  globals : List VariableDef
  /-- The variables of the blocks around the current place, those of the outermost block first. -/
  scopes : List (List VariableDef)
  memory : List Region

namespace Frame

open Json (required? optional? nullable? list?)

/-- Reads the declaration of a record member. -/
def fieldDef? (j : Json) : Option FieldDef := do
  let ms ← j.members? ["name", "type", "offset"]
  return {
    name := ← required? ms "name" Json.text?
    type := ← required? ms "type" Json.text?
    offset := ← required? ms "offset" Json.word? }

/-- Reads the declaration of a record. -/
def recordDef? (j : Json) : Option RecordDef := do
  let ms ← j.members? ["name", "size", "fields"]
  return {
    name := ← required? ms "name" Json.text?
    size := ← required? ms "size" Json.word?
    fields := ← optional? ms "fields" [] (list? fieldDef?) }

/-- Reads the declaration of a name for a type. -/
def typedefDef? (j : Json) : Option TypedefDef := do
  let ms ← j.members? ["name", "type"]
  return {
    name := ← required? ms "name" Json.text?
    type := ← required? ms "type" Json.text? }

/-- Reads an initial value. A number is an integer if it can be. -/
def initialValue? : Json → Option InitialValue
  | .bool b => some (.bool b)
  | .number n =>
    match n.integer? with
    | some i => some (.integer i)
    | none => n.binary?.map .floating
  | _ => none

/-- Reads the declaration of a variable. -/
def variableDef? (j : Json) : Option VariableDef := do
  let ms ← j.members? ["name", "type", "address", "value"]
  return {
    name := ← required? ms "name" Json.text?
    type := ← required? ms "type" Json.text?
    address := ← required? ms "address" Json.word?
    value := ← optional? ms "value" none (nullable? initialValue?) }

/-- Reads a region of memory. -/
def region? (j : Json) : Option Region := do
  let ms ← j.members? ["address", "bytes"]
  return {
    address := ← required? ms "address" Json.word?
    bytes := ← required? ms "bytes" (list? fun b => (b.natural? 256).map UInt8.ofNat) }

/-- Reads a frame. Only the function must be there; what is not known is not looked at. -/
def ofJson? (j : Json) : Option Frame := do
  let ms ← j.members?
    ["function", "file", "line", "structs", "typedefs", "globals", "scopes", "memory"]
  return {
    function := ← required? ms "function" Json.text?
    file := ← optional? ms "file" none (nullable? Json.text?)
    line := ← optional? ms "line" none (nullable? (Json.natural? UInt32.size))
    records := ← optional? ms "structs" [] (list? recordDef?)
    typedefs := ← optional? ms "typedefs" [] (list? typedefDef?)
    globals := ← optional? ms "globals" [] (list? variableDef?)
    scopes := ← optional? ms "scopes" [] (list? (list? variableDef?))
    memory := ← optional? ms "memory" [] (list? region?) }

/-- Reads the text of a frame. -/
def read? (text : String) : Option Frame :=
  (Json.read? text).bind ofJson?

end Frame

end WatchExpr
