import WatchExpr.Diagnostic
import WatchExpr.Token.Keyword
import WatchExpr.Ty.Declarator

/-!
# Type-ids

A type as it is written, before the names in it are looked up, and the type it stands for.
-/

namespace WatchExpr

/-- The types that names stand for. Qualifiers of a named type are those of its use. -/
abbrev TypeNames := String → Option Ty

/-- One sign of a declarator. -/
inductive DeclaratorSign where
  | pointer (cv : Qualifiers)
  | reference
deriving DecidableEq, Repr

/-- A type as it is written. -/
structure TypeId where
  /-- The builtin words, in the order in which they stand. -/
  words : List BuiltinWord := []
  /-- The name of a user-defined type. -/
  name? : Option String := none
  /-- The qualifiers of the named type. -/
  cv : Qualifiers := {}
  signs : List DeclaratorSign := []
  /-- Whether the words or signs break a rule of the grammar. -/
  illFormed : Bool := false
deriving DecidableEq, Repr

/-- Why a type-id stands for no type. -/
inductive TypeError where
  | notAType (spelling : String)
  | unknownName (name : String)
  | referenceToVoid
  | referenceToReference
  | voidValue (type : Ty)
deriving DecidableEq, Repr

namespace TypeError

/-- The code under which the failure is reported. -/
def code : TypeError → Code
  | .notAType _ | .referenceToReference => .illFormed
  | .unknownName _ => .undeclared
  | .referenceToVoid | .voidValue _ => .invalidOperand

/-- The text of the failure. -/
def message : TypeError → String
  | .notAType s => "'" ++ s ++ "' is not a valid type"
  | .unknownName n => "unknown type name '" ++ n ++ "'"
  | .referenceToVoid => "cannot form a reference to 'void'"
  | .referenceToReference => "'&' cannot be applied to a reference type"
  | .voidValue t => "'" ++ t.text ++ "' cannot be used as a value type"

end TypeError

namespace BuiltinWord

/-- The words that name a type by themselves, as opposed to a sign or a size. -/
def isBase : BuiltinWord → Bool
  | .signed | .unsigned | .short | .long => false
  | _ => true

/-- The integer type with a given number of `short` and `long`. -/
def sized? : (shorts longs : Nat) → Option IntegralKind
  | 1, 0 => some .short
  | 0, 0 => some .int
  | 0, 1 => some .long
  | 0, 2 => some .longLong
  | _, _ => none

/-- The type that a combination of builtin words stands for, in whatever order they are. -/
def kind? (words : List BuiltinWord) : Option ScalarKind :=
  let signed := words.count .signed
  let unsigned := words.count .unsigned
  let shorts := words.count .short
  let longs := words.count .long
  if 1 < signed + unsigned then none
  else
    let isBare := signed + unsigned + shorts + longs = 0
    let integer : Option ScalarKind := (sized? shorts longs).map fun k =>
      .arithmetic (.integral (if 0 < unsigned then k.toUnsigned else k))
    match words.filter isBase with
    | [] => if isBare then none else integer
    | [.int] => integer
    | [.void] => if isBare then some .void else none
    | [.bool] => if isBare then some (.arithmetic (.integral .bool)) else none
    | [.float] => if isBare then some (.arithmetic (.floating .float)) else none
    | [.double] => if isBare then some (.arithmetic (.floating .double)) else none
    | [.char] =>
      if shorts + longs = 0 then
        some (.arithmetic (.integral
          (if 0 < signed then .signedChar else if 0 < unsigned then .unsignedChar else .char)))
      else none
    | _ => none

end BuiltinWord

namespace TypeId

/-- Whether the type-id says what it is about. -/
def hasSpecifier (d : TypeId) : Bool :=
  !d.words.isEmpty || d.name?.isSome

/-- Adds a builtin word; none may follow a name. -/
def addWord (d : TypeId) (w : BuiltinWord) : TypeId :=
  { d with words := d.words ++ [w], illFormed := d.illFormed || d.name?.isSome }

/-- Adds `const`, which may stand only once. -/
def addConst (d : TypeId) : TypeId :=
  { d with cv := { d.cv with isConst := true }, illFormed := d.illFormed || d.cv.isConst }

/-- Adds `volatile`, which may stand only once. -/
def addVolatile (d : TypeId) : TypeId :=
  { d with cv := { d.cv with isVolatile := true }, illFormed := d.illFormed || d.cv.isVolatile }

/-- Adds a name, which must be the only specifier. -/
def addName (d : TypeId) (name : String) : TypeId :=
  { d with name? := some name, illFormed := d.illFormed || d.hasSpecifier }

/-- Adds a sign of the declarator; none may follow a reference. -/
def addSign (d : TypeId) (s : DeclaratorSign) : TypeId :=
  { d with
    signs := d.signs ++ [s]
    illFormed := d.illFormed || d.signs.getLast? = some .reference }

/-- Qualifiers, builtin words and name, separated by spaces. -/
def spelling (d : TypeId) : String :=
  " ".intercalate (d.cv.words ++ d.words.map BuiltinWord.spelling ++ d.name?.toList)

/-- Puts one sign of a declarator to a type. -/
def applySign (t : Ty) : DeclaratorSign → Except TypeError Ty
  | .pointer cv => .ok (.pointer t cv)
  | .reference =>
    if t.isVoid then .error .referenceToVoid
    else if t.isReference then .error .referenceToReference
    else .ok (.reference t .none)

/-- The type that the words or the name stand for. -/
def base (types : TypeNames) (d : TypeId) : Except TypeError Ty :=
  match d.name? with
  | some n =>
    match types n with
    | some t => .ok (t.withCv d.cv)
    | none => .error (.unknownName n)
  | none =>
    match BuiltinWord.kind? d.words with
    | some k => .ok (.scalar k d.cv)
    | none => .error (.notAType d.spelling)

/-- The type that a type-id stands for; it is never `void` itself. -/
def resolve (types : TypeNames) (d : TypeId) : Except TypeError Ty := do
  if d.illFormed || !d.hasSpecifier then throw (.notAType d.spelling)
  let t ← d.signs.foldlM applySign (← d.base types)
  if t.isVoid then throw (.voidValue t)
  return t

end TypeId

end WatchExpr
