import WatchExpr.Token.Lexer

/-!
# Token streams

Tokens with a current position. The position may be set back to any earlier one, and it never moves
past the end mark.
-/

namespace WatchExpr

/-- Tokens and the number of them that have been consumed. -/
structure TokenStream where
  tokens : Tokens
  position : Nat
deriving DecidableEq

namespace TokenStream

/-- A stream at the start of given tokens. -/
def ofTokens (ts : Tokens) : TokenStream := ⟨ts, 0⟩

/-- A stream at the start of a text. -/
def ofText (text : String) : TokenStream := ofTokens (.lex text)

/-- The tokens not yet consumed, without the end mark. -/
def rest (s : TokenStream) : List Token :=
  s.tokens.body.drop s.position

/-- The current token; at the end it is the end mark. -/
def current (s : TokenStream) : Token :=
  s.rest.head?.getD s.tokens.finish.token

/-- Moves to a position, at most to the end mark. -/
def reset (s : TokenStream) (position : Nat) : TokenStream :=
  { s with position := min position s.tokens.body.length }

/-- Moves on by one token; at the end mark it stays. -/
def advance (s : TokenStream) : TokenStream :=
  s.reset (s.position + 1)

/-- Moves to the place where a given rest of the tokens begins. -/
def atRest (s : TokenStream) (rest : List Token) : TokenStream :=
  { s with position := s.tokens.body.length - rest.length }

end TokenStream

end WatchExpr
