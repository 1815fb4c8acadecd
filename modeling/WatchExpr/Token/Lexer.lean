import WatchExpr.Token.Basic
import WatchExpr.Text.Blank

/-!
# Lexer

Cuts a text into tokens. At each place that is no blank the longest word, number or punctuator is
taken; a character that starts none of them is a token of its own.
-/

namespace WatchExpr

/-- A piece of text with its category. -/
structure Lexeme where
  kind : TokenKind
  chars : List Char
deriving DecidableEq

namespace Lexeme

/-- Characters that a word starts with; words are ASCII. -/
def startsWord (c : Char) : Bool :=
  c.isAlpha || c = '_'

/-- Characters that a word goes on with. -/
def continuesWord (c : Char) : Bool :=
  c.isAlphanum || c = '_'

/-- Whether a number starts at a character, given the text behind it. -/
def startsNumber (c : Char) (rest : List Char) : Bool :=
  c.isDigit || (c = '.' && (rest.head?.any Char.isDigit))

/-- Whether a number goes on with a character; a sign only right behind an exponent letter. -/
def continuesNumber (previous c : Char) : Bool :=
  c.isAlphanum || c = '.' || c = '_' ||
    ((c = '+' || c = '-') &&
      (previous = 'e' || previous = 'E' || previous = 'p' || previous = 'P'))

/-- Splits off what continues a number whose last character so far is `previous`. -/
def splitNumber (previous : Char) : List Char → List Char × List Char
  | [] => ([], [])
  | c :: cs =>
    if continuesNumber previous c then
      let (more, rest) := splitNumber c cs
      (c :: more, rest)
    else ([], c :: cs)

/-- The category of a word. -/
def wordKind (word : List Char) : TokenKind :=
  match Keyword.ofSpelling? (String.ofList word) with
  | some k => .keyword k
  | none => .identifier

/-- Splits off the piece that starts with a character that is no blank. -/
def split (c : Char) (cs : List Char) : Lexeme × List Char :=
  if startsWord c then
    let word := c :: cs.takeWhile continuesWord
    (⟨wordKind word, word⟩, cs.dropWhile continuesWord)
  else if startsNumber c cs then
    let (more, rest) := splitNumber c cs
    (⟨.number, c :: more⟩, rest)
  else match Punctuator.longest? (c :: cs) with
    | some p => (⟨.punct p, p.chars⟩, (c :: cs).drop p.chars.length)
    | none => (⟨.unknown, [c]⟩, cs)

theorem splitNumber_append (previous : Char) (cs : List Char) :
    (splitNumber previous cs).1 ++ (splitNumber previous cs).2 = cs := by
  induction cs generalizing previous with
  | nil => rfl
  | cons c cs ih =>
    simp only [splitNumber]
    split
    · simp [ih]
    · rfl

/-- Nothing is lost: the piece and the rest make up the text. -/
theorem split_append (c : Char) (cs : List Char) :
    (split c cs).1.chars ++ (split c cs).2 = c :: cs := by
  unfold split
  split
  · simp [List.takeWhile_append_dropWhile]
  · split
    · simp [splitNumber_append]
    · split
      · rename_i p hp
        have hstart : p.chars <+: c :: cs := by
          have := List.find?_some hp
          simpa using this
        obtain ⟨rest, hrest⟩ := hstart
        simp [← hrest]
      · rfl

theorem split_chars_ne_nil (c : Char) (cs : List Char) : (split c cs).1.chars ≠ [] := by
  unfold split
  split
  · simp
  · split
    · simp
    · split
      · exact Punctuator.chars_ne_nil _
      · simp

/-- A piece is never empty, so the rest is shorter than the text. -/
theorem split_rest_length_le (c : Char) (cs : List Char) :
    (split c cs).2.length ≤ cs.length := by
  have happ := congrArg List.length (split_append c cs)
  have hpos := List.length_pos_iff.2 (split_chars_ne_nil c cs)
  simp only [List.length_append, List.length_cons] at happ
  omega

end Lexeme

namespace Tokens

/-- Cuts up the text that stands at `here`. -/
def lexFrom (here : Location) : List Char → Tokens
  | [] => ⟨[], "", here⟩
  | c :: cs =>
    if Text.isBlank c then lexFrom (here.step c) cs
    else
      let piece := Lexeme.split c cs
      cons ⟨piece.1.kind, String.ofList piece.1.chars, here⟩
        (lexFrom (here.advance piece.1.chars) piece.2)
termination_by cs => cs.length
decreasing_by
  · simp
  · have := Lexeme.split_rest_length_le c cs
    simp only [List.length_cons]
    omega

/-- Cuts a text into tokens. -/
def lex (text : String) : Tokens :=
  lexFrom .start text.toList

end Tokens

end WatchExpr
