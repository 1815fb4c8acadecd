import WatchExpr.Eval.Basic
import WatchExpr.Proofs.Grammar.Layout

/-!
# The places of failures

A text that cannot be read fails at one of its tokens, under a code that tells of a failure. Whoever
evaluates the text is told the code and the place.
-/

namespace WatchExpr

open Grammar

/-- The failure is reported under a code that tells so and stands at a token of the text, which may be
the end mark. -/
structure ParseError.PointsInto (e : ParseError) (text : String) : Prop where
  code : ∃ code, e.code? = some code ∧ code ≠ .ok
  token : ∃ t ∈ (Tokens.lex text).toList, t.location = e.location
  offset : e.location.offset ≤ text.utf8ByteSize

variable {α : Type} {rule : Env → List Token → Outcome α} {types : TypeNames} {text : String}
  {e : ParseError}

theorem LiteralError.code?_ne_ok (e : LiteralError) : e.code? ≠ some .ok := by
  cases e <;> nofun

theorem TypeError.code_ne_ok (e : TypeError) : e.code ≠ .ok := by
  cases e <;> nofun

theorem ParseError.code?_ne_ok (e : ParseError) : e.code? ≠ some .ok := by
  obtain ⟨cause, place⟩ := e
  cases cause with
  | literal failure => exact failure.code?_ne_ok
  | type failure => exact fun h => failure.code_ne_ok (Option.some.inj h)
  | _ => nofun

/-- Every number of a text is spelled out, so that reading a text comes to a report. -/
theorem Grammar.Outcome.Leaves.not_stops {o : Outcome α} (h : o.Leaves (Tokens.lex text).body) :
    ¬o.Stops := by
  intro hstops
  obtain ⟨t, ht, hsuffix⟩ := h.unspelled hstops
  exact Tokens.spelling_ne_empty_of_mem (hsuffix.subset List.mem_cons_self) ht.spelling

/-- A reading that looks at no places and leaves the end of the tokens fails at one of them. -/
theorem Grammar.Relocates.pointsInto (h : Relocates rule)
    (hleaves : ∀ env ts, (rule env ts).Leaves ts)
    (he : (rule ⟨types, (Tokens.lex text).finish⟩ (Tokens.lex text).body).toExcept = .error e) :
    e.PointsInto text := by
  obtain ⟨rest, he⟩ := Outcome.toExcept_eq_error_iff.1 he
  obtain ⟨t, ht, hplace⟩ := List.mem_map.1 (h.location_mem he)
  have hreported : e.code? ≠ none := by
    have hstops := (hleaves ⟨types, (Tokens.lex text).finish⟩ (Tokens.lex text).body).not_stops
    rwa [he] at hstops
  obtain ⟨code, hcode⟩ := Option.ne_none_iff_exists'.1 hreported
  refine ⟨⟨code, hcode, ?_⟩, ⟨t, ht, hplace⟩, ?_⟩
  · rintro rfl
    exact e.code?_ne_ok hcode
  · rw [← hplace]
    exact (Nat.le_add_right _ _).trans (Tokens.end_le_of_mem_lex ht)

/-- Whatever the text and the target: a failure to read it as an expression or as a type is reported and
stands at one of its tokens. Evaluation fails where reading the expression does, under the same code and
with line and column of that token in front of the message. -/
theorem failures_point_into_text (target : Target) (text : String) :
    (∀ e, Expr.read target.types text = .error e →
      e.PointsInto text ∧ ∃ code, e.code? = some code ∧
        evaluate target text = some (.error ⟨code,
          toString e.location.line ++ ":" ++ toString e.location.column ++ ": " ++ e.message⟩)) ∧
      ∀ e, Ty.read target.types text = .error e → e.PointsInto text := by
  refine ⟨fun e he => ?_, fun e he => wholeType_relocates.pointsInto wholeType_leaves he⟩
  have hpoints : e.PointsInto text := wholeExpression_relocates.pointsInto wholeExpression_leaves he
  obtain ⟨code, hcode, -⟩ := hpoints.code
  refine ⟨hpoints, code, hcode, ?_⟩
  rw [evaluate, he]
  dsimp only
  rw [ParseError.report?, hcode]
  rfl

/-- A cast to an unknown type, reported where its type starts. Read as a type, the same text is a
template argument list that its end breaks off. -/
theorem failures_point_into_text_unknown_type :
    let target : Target := ⟨fun _ => none, fun _ => none, fun _ _ => none, fun _ _ => none⟩
    let text := "x <\n (const S) y"
    ∃ e f, Expr.read target.types text = .error e ∧ e.location = ⟨6, 2, 3⟩ ∧ e.PointsInto text ∧
      evaluate target text = some (.error ⟨.undeclared, "2:3: unknown type name 'S'"⟩) ∧
      Ty.read target.types text = .error f ∧ f.location = ⟨16, 2, 13⟩ ∧ f.PointsInto text := by
  intro target text
  let finish : EndMark := ⟨"", 16, 2, 13⟩
  let e : ParseError := ⟨.type (.unknownName "S"), 6, 2, 3⟩
  let f : ParseError := ⟨.expected (.punct .greater) finish.token, finish.location⟩
  have he : Expr.read target.types text = .error e := by decide +kernel
  have hf : Ty.read target.types text = .error f := by decide +kernel
  obtain ⟨hexpr, htype⟩ := failures_point_into_text target text
  obtain ⟨hpoints, code, hcode, hevaluate⟩ := hexpr e he
  obtain rfl : Code.undeclared = code := Option.some.inj hcode
  exact ⟨e, f, he, rfl, hpoints, hevaluate.trans (by decide +kernel), hf, rfl, htype f hf⟩

end WatchExpr
