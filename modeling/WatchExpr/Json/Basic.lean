import WatchExpr.Binary.Decimal

/-!
# Documents

Values of the JSON format. Numbers and strings are kept so that a use may still refuse them: a
number may be no integer or too large for one, and a string may hold half a surrogate pair.
-/

namespace WatchExpr

/-- A number as it is written. -/
inductive JsonNumber where
  /-- A number without fraction and exponent. -/
  | integer (negative : Bool) (magnitude : Nat)
  | decimal (negative : Bool) (value : Decimal)
deriving DecidableEq

/-- A document. A string or a key that is no Unicode text is `none`. -/
inductive Json where
  | null
  | bool (value : Bool)
  | number (value : JsonNumber)
  | string (value : Option String)
  | array (items : List Json)
  | object (members : List (Option String × Json))

namespace JsonNumber

/-- The number as an integer of 64 bits, signed or not. A negative zero is no integer. -/
def integer? : JsonNumber → Option Int
  | .integer false n => if n < UInt64.size then some n else none
  | .integer true n => if n ≠ 0 ∧ n ≤ UInt64.size / 2 then some (-n) else none
  | .decimal _ _ => none

/-- The number as a natural number below a bound. -/
def natural? (bound : Nat) (n : JsonNumber) : Option Nat :=
  match n.integer? with
  | some (.ofNat m) => if m < bound then some m else none
  | _ => none

/-- The number in binary64, unless it is too large for that. -/
def binary? (n : JsonNumber) : Option Binary64 :=
  let x : Binary64 := match n with
    | .integer s m => Decimal.toBinary s ⟨m, 0⟩
    | .decimal s d => d.toBinary s
  match x.value with
  | .finite .. => some x
  | _ => none

end JsonNumber

namespace Json

/-- The members of an object whose keys are all texts, if no key of a given list is repeated. -/
def members? (known : List String) : Json → Option (List (String × Json))
  | .object ms => do
    let ms ← ms.mapM fun (key, v) => key.map fun key => (key, v)
    if known.all fun key => (ms.filter (·.1 = key)).length ≤ 1 then some ms else none
  | _ => none

/-- The text that a document is. -/
def text? : Json → Option String
  | .string s => s
  | _ => none

/-- The natural number below a bound that a document is. -/
def natural? (bound : Nat) : Json → Option Nat
  | .number n => n.natural? bound
  | _ => none

/-- The 64-bit word that a document is. -/
def word? (j : Json) : Option UInt64 :=
  (j.natural? UInt64.size).map UInt64.ofNat

/-- The items of an array, each read by a given reader. -/
def list? {α : Type} (item? : Json → Option α) : Json → Option (List α)
  | .array items => items.mapM item?
  | _ => none

/-- A document that may be null. -/
def nullable? {α : Type} (read? : Json → Option α) : Json → Option (Option α)
  | .null => some none
  | j => (read? j).map some

/-- Reads a member that must be there. -/
def required? {α : Type} (ms : List (String × Json)) (key : String) (read? : Json → Option α) :
    Option α :=
  (ms.lookup key).bind read?

/-- Reads a member that may be missing. -/
def optional? {α : Type} (ms : List (String × Json)) (key : String) (default : α)
    (read? : Json → Option α) : Option α :=
  match ms.lookup key with
  | some j => read? j
  | none => some default

end Json

end WatchExpr
