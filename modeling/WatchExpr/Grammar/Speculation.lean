import WatchExpr.Grammar.Reading

/-!
# Speculative reading

Steps on a stream, some of them within regions that are kept or undone as a whole. Undoing a region
sets the position back to where the region was opened.
-/

namespace WatchExpr

/-- A step on a stream. -/
inductive ReadingStep where
  | advance
  | expression
  | type
  /-- Steps that are undone at their end unless they are kept. -/
  | region (keep : Bool) (steps : List ReadingStep)

/-- What a step yielded. -/
inductive ReadingEvent where
  | advanced
  | expression (result : Except ParseError Expr)
  | type (result : Except ParseError Ty)
  | closed (kept : Bool)

/-- What a step yielded, and where it left the stream. -/
structure ReadingRecord where
  event : ReadingEvent
  position : Nat
  current : Token

/-- The record of an event that left a stream as it is. -/
def TokenStream.record (s : TokenStream) (event : ReadingEvent) : ReadingRecord :=
  ⟨event, s.position, s.current⟩

mutual

/-- Takes a step. The records of the steps within a region stand in front of its own. -/
def ReadingStep.perform (types : TypeNames) (s : TokenStream) :
    ReadingStep → List ReadingRecord × TokenStream
  | .advance => ([s.advance.record .advanced], s.advance)
  | .expression =>
    let (result, s) := s.readExpr types
    ([s.record (.expression result)], s)
  | .type =>
    let (result, s) := s.readType types
    ([s.record (.type result)], s)
  | .region keep steps =>
    let (records, inner) := performAll types s steps
    let after := if keep then inner else inner.reset s.position
    (records ++ [after.record (.closed keep)], after)

/-- Takes steps one after another. They are of no account behind a reading that stops without a report,
but on the tokens of a text none does. -/
def ReadingStep.performAll (types : TypeNames) (s : TokenStream) :
    List ReadingStep → List ReadingRecord × TokenStream
  | [] => ([], s)
  | step :: steps =>
    let (records, s) := step.perform types s
    let (more, s) := performAll types s steps
    (records ++ more, s)

end

end WatchExpr
