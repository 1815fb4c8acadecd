import WatchExpr.Json.Basic

/-!
# Reading documents

A text is cut into signs, numbers and strings, and a machine with a stack of open arrays and objects
puts them together.
-/

namespace WatchExpr

open Text

/-- A piece of the text of a document. -/
inductive JsonToken where
  | openArray | closeArray | openObject | closeObject | comma | colon
  /-- A document that is not built from others. -/
  | leaf (value : Json)

namespace JsonToken

/-! ## Strings -/

/-- The character that a letter behind a backslash stands for. -/
def escaped? : Char → Option Char
  | '"' => some '"'
  | '\\' => some '\\'
  | '/' => some '/'
  | 'b' => some '\x08'
  | 'f' => some '\x0c'
  | 'n' => some '\n'
  | 'r' => some '\r'
  | 't' => some '\t'
  | _ => none

/-- Reads a string behind its opening quote. An escape may give any UTF-16 unit, so the result is a
list of code points among which there may be surrogates. -/
def codePoints? : List Char → Option (List Nat × List Char)
  | [] => none
  | '"' :: cs => some ([], cs)
  | '\\' :: 'u' :: a :: b :: c :: d :: cs =>
    if [a, b, c, d].all (isDigitIn 16) then
      (codePoints? cs).map fun (us, rest) => (numeralValue 16 [a, b, c, d] :: us, rest)
    else none
  | '\\' :: c :: cs =>
    (escaped? c).bind fun e => (codePoints? cs).map fun (us, rest) => (e.toNat :: us, rest)
  | c :: cs =>
    if c.toNat < 0x20 ∨ c = '\\' then none
    else (codePoints? cs).map fun (us, rest) => (c.toNat :: us, rest)

/-- Joins surrogate pairs; half a pair is no text. -/
def joinSurrogates? : List Nat → Option (List Char)
  | [] => some []
  | u :: us =>
    if 0xD800 ≤ u ∧ u < 0xDC00 then
      match us with
      | v :: us =>
        if 0xDC00 ≤ v ∧ v < 0xE000 then
          (joinSurrogates? us).map
            (Char.ofNat (0x10000 + (u - 0xD800) * 0x400 + (v - 0xDC00)) :: ·)
        else none
      | [] => none
    else if 0xDC00 ≤ u ∧ u < 0xE000 then none
    else (joinSurrogates? us).map (Char.ofNat u :: ·)

/-! ## Numbers -/

/-- Reads a run of digits, which must not be empty. -/
def digits? (cs : List Char) : Option (List Char × List Char) :=
  let ds := cs.takeWhile Char.isDigit
  if ds.isEmpty then none else some (ds, cs.dropWhile Char.isDigit)

/-- Reads the digits in front of the point. A leading zero stands alone. -/
def whole? : List Char → Option (List Char × List Char)
  | '0' :: cs => some (['0'], cs)
  | cs => digits? cs

/-- Reads the digits behind the point, if there is one. -/
def fraction? : List Char → Option (Option (List Char) × List Char)
  | '.' :: cs => (digits? cs).map fun (ds, rest) => (some ds, rest)
  | cs => some (none, cs)

/-- Reads an exponent, if there is one. -/
def exponent? : List Char → Option (Option Int × List Char)
  | c :: cs =>
    if c = 'e' ∨ c = 'E' then
      let (negative, cs) := match cs with
        | '-' :: cs => (true, cs)
        | '+' :: cs => (false, cs)
        | cs => (false, cs)
      (digits? cs).map fun (ds, rest) =>
        let n : Int := numeralValue 10 ds
        (some (if negative then -n else n), rest)
    else some (none, c :: cs)
  | [] => some (none, [])

/-- Reads a number. -/
def number? (cs : List Char) : Option (JsonNumber × List Char) := do
  let (negative, cs) := match cs with
    | '-' :: cs => (true, cs)
    | cs => (false, cs)
  let (whole, cs) ← whole? cs
  let (fraction, cs) ← fraction? cs
  let (exponent, cs) ← exponent? cs
  match fraction, exponent with
  | none, none => some (.integer negative (numeralValue 10 whole), cs)
  | fraction, exponent =>
    let places := fraction.getD []
    some (.decimal negative
      ⟨numeralValue 10 (whole ++ places), exponent.getD 0 - places.length⟩, cs)

/-! ## Pieces -/

/-- The blanks of the format. -/
def isSpace (c : Char) : Bool :=
  c = ' ' || c = '\t' || c = '\n' || c = '\r'

/-- Reads a piece of text that starts with a character other than a blank. -/
def piece? (c : Char) (cs : List Char) : Option (JsonToken × List Char) :=
  match c, cs with
  | '[', cs => some (.openArray, cs)
  | ']', cs => some (.closeArray, cs)
  | '{', cs => some (.openObject, cs)
  | '}', cs => some (.closeObject, cs)
  | ',', cs => some (.comma, cs)
  | ':', cs => some (.colon, cs)
  | '"', cs =>
    (codePoints? cs).map fun (us, rest) =>
      (.leaf (.string ((joinSurrogates? us).map String.ofList)), rest)
  | 'n', 'u' :: 'l' :: 'l' :: cs => some (.leaf .null, cs)
  | 't', 'r' :: 'u' :: 'e' :: cs => some (.leaf (.bool true), cs)
  | 'f', 'a' :: 'l' :: 's' :: 'e' :: cs => some (.leaf (.bool false), cs)
  | c, cs => (number? (c :: cs)).map fun (n, rest) => (.leaf (.number n), rest)

/-- Cuts a text into pieces. Each piece takes at least one character, so that as many steps as there
are characters suffice. -/
def cut? : (steps : Nat) → List Char → Option (List JsonToken)
  | _, [] => some []
  | 0, _ :: _ => none
  | steps + 1, c :: cs =>
    if isSpace c then cut? steps cs
    else do
      let (t, rest) ← piece? c cs
      return t :: (← cut? steps rest)

end JsonToken

namespace Json

/-! ## The machine -/

/-- An array or an object whose items are still being read, the last one in front. -/
inductive Open where
  | array (items : List Json)
  | object (members : List (Option String × Json)) (key : Option String)

/-- What may come next. -/
inductive Expected where
  | value
  /-- A value or the end of an array that has just been opened. -/
  | valueOrEnd
  | key (members : List (Option String × Json))
  /-- A key or the end of an object that has just been opened. -/
  | keyOrEnd
  | colon (members : List (Option String × Json)) (key : Option String)
  /-- A comma, a closing bracket or the end of the text, behind a value. -/
  | next (value : Json)

/-- A state of the machine: what is open, the innermost first, and what may come next. -/
structure Reading where
  stack : List Open
  expected : Expected

/-- Closes the innermost array or object behind its last value. -/
def Open.close : Open → JsonToken → Json → Option Json
  | .array items, .closeArray, v => some (.array (v :: items).reverse)
  | .object ms key, .closeObject, v => some (.object ((key, v) :: ms).reverse)
  | _, _, _ => none

/-- Takes a piece of text where a value may come. -/
def Reading.start (stack : List Open) : JsonToken → Option Reading
  | .leaf v => some ⟨stack, .next v⟩
  | .openArray => some ⟨.array [] :: stack, .valueOrEnd⟩
  | .openObject => some ⟨stack, .keyOrEnd⟩
  | _ => none

/-- Takes a piece of text. -/
def Reading.step? (r : Reading) (t : JsonToken) : Option Reading :=
  match r.expected, t with
  | .value, t => Reading.start r.stack t
  | .valueOrEnd, .closeArray => r.stack.tail?.map fun stack => ⟨stack, .next (.array [])⟩
  | .valueOrEnd, t => Reading.start r.stack t
  | .keyOrEnd, .closeObject => some ⟨r.stack, .next (.object [])⟩
  | .keyOrEnd, .leaf (.string key) => some ⟨r.stack, .colon [] key⟩
  | .key ms, .leaf (.string key) => some ⟨r.stack, .colon ms key⟩
  | .colon ms key, .colon => some ⟨.object ms key :: r.stack, .value⟩
  | .next v, .comma =>
    match r.stack with
    | .array items :: stack => some ⟨.array (v :: items) :: stack, .value⟩
    | .object ms key :: stack => some ⟨stack, .key ((key, v) :: ms)⟩
    | [] => none
  | .next v, t =>
    match r.stack with
    | o :: stack => (o.close t v).map fun v => ⟨stack, .next v⟩
    | [] => none
  | _, _ => none

/-- Reads a text as one document. -/
def read? (text : String) : Option Json := do
  let pieces ← JsonToken.cut? text.length text.toList
  let final ← pieces.foldlM Reading.step? ⟨[], .value⟩
  match final with
  | ⟨[], .next v⟩ => some v
  | _ => none

end Json

end WatchExpr
