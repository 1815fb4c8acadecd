import WatchExpr.Token.Keyword
import WatchExpr.Token.Punctuator

/-!
# Tokens

A token is a category, the text it was read from and the place of that text.
-/

namespace WatchExpr

/-- A place in an expression text. -/
structure Location where
  /-- Bytes of UTF-8 before the place. -/
  offset : Nat
  line : Nat
  /-- Characters since the start of the line, counted from one. -/
  column : Nat
deriving DecidableEq, Repr

namespace Location

/-- The start of a text. -/
def start : Location := ⟨0, 1, 1⟩

/-- The place behind a character. -/
def step (here : Location) (c : Char) : Location :=
  if c = '\n' then ⟨here.offset + c.utf8Size, here.line + 1, 1⟩
  else ⟨here.offset + c.utf8Size, here.line, here.column + 1⟩

/-- The place behind a run of characters. -/
def advance (here : Location) (cs : List Char) : Location :=
  cs.foldl step here

/-- Line and column, as diagnostics show them. -/
def text (here : Location) : String :=
  toString here.line ++ ":" ++ toString here.column

end Location

/-- The category of a token. -/
inductive TokenKind where
  | eof
  | unknown
  | identifier
  | number
  | keyword (word : Keyword)
  | punct (mark : Punctuator)
deriving DecidableEq, Repr

/-- The name of the category in diagnostics. -/
def TokenKind.name : TokenKind → String
  | .eof => "eof"
  | .unknown => "unknown"
  | .identifier => "identifier"
  | .number => "numeric_constant"
  | .keyword k => k.name
  | .punct p => p.name

/-- A token. -/
structure Token where
  kind : TokenKind
  spelling : String
  location : Location
deriving DecidableEq, Repr

namespace Token

/-- The token as diagnostics show it. -/
def text (t : Token) : String :=
  "<'" ++ t.spelling ++ "' (" ++ t.kind.name ++ ")>"

/-- Tokens that need a space between them to stay apart. -/
def isWord (t : Token) : Bool :=
  t.kind = .identifier || t.kind = .number || (Keyword.ofSpelling? t.spelling).isSome

end Token

/-- The mark behind the last token. -/
structure EndMark where
  spelling : String
  location : Location
deriving DecidableEq, Repr

/-- The mark as a token. -/
def EndMark.token (e : EndMark) : Token :=
  ⟨.eof, e.spelling, e.location⟩

/-- A text cut into tokens: those before the end mark, and the mark. -/
structure Tokens where
  body : List Token
  finish : EndMark
deriving DecidableEq, Repr

namespace Tokens

/-- All tokens, the end mark last. -/
def toList (ts : Tokens) : List Token :=
  ts.body ++ [ts.finish.token]

/-- Puts a token in front. -/
def cons (t : Token) (ts : Tokens) : Tokens :=
  ⟨t :: ts.body, ts.finish⟩

/-- Takes a list of tokens as it is; if it does not end in an end mark, one is put right behind the
last token. -/
def ofList (ts : List Token) : Tokens :=
  match ts.getLast? with
  | none => ⟨[], "", 0, 0, 0⟩
  | some t =>
    if t.kind = .eof then ⟨ts.dropLast, t.spelling, t.location⟩
    else
      ⟨ts, "", t.location.offset + t.spelling.utf8ByteSize, t.location.line,
        t.location.column + t.spelling.length⟩

end Tokens

end WatchExpr
