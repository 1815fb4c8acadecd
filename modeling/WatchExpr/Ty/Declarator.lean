import WatchExpr.Text.Numeral
import WatchExpr.Ty.Basic

/-!
# Declarators

The text of a type: the named type at its core, then one sign for each level around it. Parentheses
keep a pointer or reference to an array apart from an array of pointers or references.
-/

namespace WatchExpr

/-- The qualifiers, separated by a space. -/
def Qualifiers.text (q : Qualifiers) : List Char :=
  (" ".intercalate q.words).toList

namespace Ty

/-- A named type in front of the signs of the levels around it. -/
def named (name : String) (q : Qualifiers) (inner : List Char) : List Char :=
  (if q = .none then name.toList else q.text ++ ' ' :: name.toList) ++
    (if inner.head? = some '(' then ' ' :: inner else inner)

/-- The text of a type, `inner` being that of the levels around it. -/
def declarator : Ty → List Char → List Char
  | .scalar k q, inner => named k.name q inner
  | .tagged r q, inner => named r.name q inner
  | .pointer t q, inner =>
    t.declarator ('*' :: ((if q = .none then [] else ' ' :: q.text) ++ inner))
  | .reference t _, inner => t.declarator ('&' :: inner)
  | .array t n _, inner =>
    let inner :=
      if inner.head? = some '*' ∨ inner.head? = some '&' then '(' :: (inner ++ [')']) else inner
    t.declarator (inner ++ '[' :: (Text.decimal n.toNat ++ [']']))

/-- The text of a type. -/
def text (t : Ty) : String :=
  String.ofList (t.declarator [])

end Ty

end WatchExpr
