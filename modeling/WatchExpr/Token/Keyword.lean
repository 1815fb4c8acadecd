/-!
# Keywords

The reserved words of the expression language, grouped by what they may start.
-/

namespace WatchExpr

/-- The words that a builtin type is spelled with. -/
inductive BuiltinWord where
  | void | bool | char | short | int | long | signed | unsigned | float | double
deriving DecidableEq, Repr

namespace BuiltinWord

/-- Every builtin word. -/
def all : List BuiltinWord :=
  [.void, .bool, .char, .short, .int, .long, .signed, .unsigned, .float, .double]

/-- The word as it is written. -/
def spelling : BuiltinWord → String
  | .void => "void"
  | .bool => "bool"
  | .char => "char"
  | .short => "short"
  | .int => "int"
  | .long => "long"
  | .signed => "signed"
  | .unsigned => "unsigned"
  | .float => "float"
  | .double => "double"

end BuiltinWord

/-- The words that announce a user-defined type. -/
inductive TagWord where
  | structTag | classTag | unionTag | enumTag
deriving DecidableEq, Repr

/-- The word as it is written. -/
def TagWord.spelling : TagWord → String
  | .structTag => "struct"
  | .classTag => "class"
  | .unionTag => "union"
  | .enumTag => "enum"

/-- A reserved word. -/
inductive Keyword where
  | truth (value : Bool)
  | const
  | volatile
  | builtin (word : BuiltinWord)
  | tag (word : TagWord)
deriving DecidableEq, Repr

namespace Keyword

/-- Every reserved word. -/
def all : List Keyword :=
  [.truth true, .truth false, .const, .volatile] ++ BuiltinWord.all.map .builtin ++
    [.tag .structTag, .tag .classTag, .tag .unionTag, .tag .enumTag]

/-- The word as it is written. -/
def spelling : Keyword → String
  | .truth true => "true"
  | .truth false => "false"
  | .const => "const"
  | .volatile => "volatile"
  | .builtin w => w.spelling
  | .tag w => w.spelling

/-- The reserved word with a given spelling. -/
def ofSpelling? (s : String) : Option Keyword :=
  all.find? fun k => k.spelling == s

theorem mem_all (k : Keyword) : k ∈ all := by
  rcases k with ⟨⟨⟩⟩ | _ | _ | ⟨⟨⟩⟩ | ⟨⟨⟩⟩ <;> decide

/-- The name of the keyword in diagnostics. -/
def name (k : Keyword) : String :=
  "kw_" ++ k.spelling

end Keyword

end WatchExpr
