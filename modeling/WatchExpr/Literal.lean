import WatchExpr.Diagnostic
import WatchExpr.Scalar

/-!
# Numeric literals

The value and the type of a numeric constant, from its digits, its magnitude and its suffix.
-/

namespace WatchExpr

open Text

/-- Why a numeric constant denotes no value. -/
inductive LiteralError where
  /-- A constant without any text. It is not reported: reading stops altogether. -/
  | noSpelling
  | hexadecimalFloating
  | invalidFloating (spelling : String)
  | invalidOctalDigit (digit : Char)
  | invalidSuffix (suffix : String)
  | tooLarge
deriving DecidableEq, Repr

namespace LiteralError

/-- The code under which the failure is reported, if it is. -/
def code? : LiteralError → Option Code
  | .noSpelling => none
  | .hexadecimalFloating => some .unsupported
  | _ => some .illFormed

/-- The text of the failure; there is none where none is reported. -/
def message : LiteralError → String
  | .noSpelling => ""
  | .hexadecimalFloating => "hexadecimal floating literals are not supported"
  | .invalidFloating s => "invalid floating literal '" ++ s ++ "'"
  | .invalidOctalDigit d => "invalid digit '" ++ d.toString ++ "' in octal constant"
  | .invalidSuffix s => "invalid suffix '" ++ s ++ "' on integer constant"
  | .tooLarge => "integer literal is too large to be represented in any integer type"

end LiteralError

namespace Literal

/-! ## Integers -/

/-- What the suffix of an integer constant asks for. -/
structure Suffix where
  isUnsigned : Bool
  /-- Number of the letter `l`. -/
  longs : Nat
deriving DecidableEq, Repr

/-- Splits off a leading `u` of either case. -/
def splitUnsigned : List Char → Bool × List Char
  | 'u' :: cs | 'U' :: cs => (true, cs)
  | cs => (false, cs)

/-- Splits off one leading `l` of either case, or two of the same case. -/
def splitLongs : List Char → Nat × List Char
  | 'l' :: 'l' :: cs | 'L' :: 'L' :: cs => (2, cs)
  | 'l' :: cs | 'L' :: cs => (1, cs)
  | cs => (0, cs)

/-- Reads a suffix: `u` at most once, in front of the `l` or behind them. -/
def suffix? (cs : List Char) : Option Suffix :=
  let (before, cs) := splitUnsigned cs
  let (longs, cs) := splitLongs cs
  let (behind, cs) := if before then (false, cs) else splitUnsigned cs
  if cs.isEmpty then some ⟨before || behind, longs⟩ else none

/-- The types that a constant may have, in order of preference. -/
def candidates (suffix : Suffix) (isDecimal : Bool) : List IntegralKind :=
  let kinds : List IntegralKind :=
    [.int, .unsignedInt, .long, .unsignedLong, .longLong, .unsignedLongLong]
  kinds.filter fun k =>
    (if suffix.isUnsigned then !k.isSigned else !isDecimal || k.isSigned) &&
      (IntegralKind.rank .int + suffix.longs ≤ k.rank)

/-- The first candidate that can hold a value; a value too large for all of them is taken as
`unsigned long long`. -/
def kindFor (suffix : Suffix) (isDecimal : Bool) (value : Nat) : IntegralKind :=
  ((candidates suffix isDecimal).find? fun k => (value : Int) ≤ k.greatest).getD .unsignedLongLong

/-- The base of an integer constant, and its digits and suffix without the sign of the base. A
leading zero is itself an octal digit. -/
def splitBase : List Char → Nat × List Char
  | '0' :: 'x' :: cs | '0' :: 'X' :: cs => (16, cs)
  | '0' :: 'b' :: cs | '0' :: 'B' :: cs => (2, cs)
  | '0' :: c :: cs => (8, '0' :: c :: cs)
  | cs => (10, cs)

/-- Reads an integer constant. -/
def readInteger (cs : List Char) : Except LiteralError Scalar :=
  let (radix, numeral) := splitBase cs
  let digits := numeral.takeWhile (isDigitIn radix)
  let rest := numeral.dropWhile (isDigitIn radix)
  let misplaced := rest.head?.filter fun c => radix = 8 ∧ c.isDigit
  match misplaced, suffix? rest with
  | some c, _ => .error (.invalidOctalDigit c)
  | none, none => .error (.invalidSuffix (String.ofList rest))
  | none, some suffix =>
    if digits.isEmpty then
      match cs with
      | [] => .error .noSpelling
      | _ :: cs => .error (.invalidSuffix (String.ofList cs))
    else
      let value := numeralValue radix digits
      if UInt64.size ≤ value then .error .tooLarge
      else .ok (.ofInt (.integral (kindFor suffix (radix = 10) value)) value)

/-! ## Floating-point numbers -/

/-- Splits a sign off. -/
def splitSign : List Char → Bool × List Char
  | '-' :: cs => (true, cs)
  | '+' :: cs => (false, cs)
  | cs => (false, cs)

/-- Reads the exponent behind the digits of a number: nothing, or a letter `e` with a signed run of
digits. -/
def exponent? : List Char → Option Int
  | [] => some 0
  | c :: cs =>
    if c = 'e' ∨ c = 'E' then
      let (negative, digits) := splitSign cs
      if digits.isEmpty || !digits.all Char.isDigit then none
      else
        let n : Int := numeralValue 10 digits
        some (if negative then -n else n)
    else none

/-- Reads a decimal number: digits with at most one point, at least one digit in all, and an
exponent. -/
def unsignedDecimal? (cs : List Char) : Option Decimal :=
  let whole := cs.takeWhile Char.isDigit
  let rest := cs.dropWhile Char.isDigit
  let (fraction, rest) := match rest with
    | '.' :: more => (more.takeWhile Char.isDigit, more.dropWhile Char.isDigit)
    | _ => ([], rest)
  if (whole ++ fraction).isEmpty then none
  else (exponent? rest).map fun e => ⟨numeralValue 10 (whole ++ fraction), e - fraction.length⟩

/-- Reads a decimal number with a sign. -/
def binary? (cs : List Char) : Option Binary64 :=
  let (negative, cs) := splitSign cs
  (unsignedDecimal? cs).map (·.toBinary negative)

/-- The type that the last letter of a floating constant asks for, and the text in front of it.
`long double` is taken as `double`. -/
def splitFloatSuffix (cs : List Char) : FloatingKind × List Char :=
  match cs.getLast? with
  | some 'f' | some 'F' => (.float, cs.dropLast)
  | some 'l' | some 'L' => (.double, cs.dropLast)
  | _ => (.double, cs)

/-- Reads a floating constant. -/
def readFloating (cs : List Char) : Except LiteralError Scalar :=
  let (kind, body) := splitFloatSuffix cs
  match binary? body with
  | some x => .ok (.ofBinary (.floating kind) x)
  | none => .error (.invalidFloating (String.ofList cs))

/-! ## Constants -/

/-- Whether a character is a given lower-case letter in either case. -/
def isLetter (letter c : Char) : Bool :=
  c.toLower = letter

/-- Reads a numeric constant. A point or an exponent makes it a floating one, unless it starts with
the sign of a base other than ten. -/
def read (spelling : String) : Except LiteralError Scalar :=
  let cs := spelling.toList
  let radix := (splitBase cs).1
  if radix = 16 ∧ cs.any (isLetter 'p') then .error .hexadecimalFloating
  else if radix ≠ 16 ∧ radix ≠ 2 ∧ cs.any (fun c => c = '.' || isLetter 'e' c) then readFloating cs
  else readInteger cs

end Literal

end WatchExpr
