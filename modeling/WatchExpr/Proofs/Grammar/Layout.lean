import WatchExpr.Proofs.Grammar.Relocation
import WatchExpr.Proofs.Lexing.Layout

/-!
# The layout of a text does not matter

What is read depends on the categories and the texts of the tokens only. Blanks tell no more than where
a failure is reported, and it is reported at the same one of the tokens.
-/

namespace WatchExpr

variable {α : Type}

/-- Two readings end alike: with the same value, or with failures of the same code and message at tokens
that have the same number among the others. -/
inductive Agree (ts us : List Token) : Except ParseError α → Except ParseError α → Prop where
  | value (a : α) : Agree ts us (.ok a) (.ok a)
  | failure {e f : ParseError} (i : Nat) (hcode : e.code? = f.code?) (hmessage : e.message = f.message)
      (hts : ts[i]?.map Token.location = some e.location)
      (hus : us[i]?.map Token.location = some f.location) : Agree ts us (.error e) (.error f)

namespace ParseError

variable {m : Location → Location} (e : ParseError)

theorem code?_moved : (e.moved m).code? = e.code? := by
  obtain ⟨c, place⟩ := e
  cases c <;> rfl

theorem message_moved : (e.moved m).message = e.message := by
  obtain ⟨c, place⟩ := e
  cases c <;> rfl

end ParseError

namespace Tokens

/-- Lexemes as tokens that are numbered by their offsets. -/
def numbered (ls : List Lexeme) (finish : String) : Tokens where
  body := ls.mapIdx fun i l => ⟨l.kind, String.ofList l.chars, ⟨i, 0, 0⟩⟩
  finish := ⟨finish, ⟨ls.length, 0, 0⟩⟩

/-- The place of the token of a given number. -/
def placeOf (ts : Tokens) (number : Location) : Location :=
  (ts.toList[number.offset]?).elim number Token.location

theorem numbered_body_moved (ts : Tokens) :
    (numbered (ts.body.map Token.lexeme) ts.finish.spelling).body.map (Token.moved ts.placeOf) =
      ts.body := by
  refine List.ext_getElem (by simp [numbered]) fun i hi hts => ?_
  have hplace : ts.toList[i]? = some ts.body[i] := by
    rw [toList, List.getElem?_append_left hts, List.getElem?_eq_getElem hts]
  simp [numbered, Token.moved, placeOf, hplace, Token.lexeme]

theorem numbered_finish_moved (ts : Tokens) :
    (numbered (ts.body.map Token.lexeme) ts.finish.spelling).finish.moved ts.placeOf = ts.finish := by
  have hplace : ts.toList[ts.body.length]? = some ts.finish.token := by
    simp [toList]
  simp [numbered, EndMark.moved, placeOf, hplace, EndMark.token]

theorem exists_number {ls : List Lexeme} {finish : String} {place : Location}
    (h : place ∈ (numbered ls finish).toList.map Token.location) :
    ∃ i ≤ ls.length, place = ⟨i, 0, 0⟩ := by
  obtain ⟨t, ht, rfl⟩ := List.mem_map.1 h
  obtain ht | ht := List.mem_append.1 ht
  · obtain ⟨i, hi, rfl⟩ := List.mem_mapIdx.1 ht
    exact ⟨i, hi.le, rfl⟩
  · rw [List.mem_singleton.1 ht]
    exact ⟨ls.length, Nat.le_refl _, rfl⟩

theorem placeOf_number {ts : Tokens} {i : Nat} (hi : i ≤ ts.body.length) :
    ts.toList[i]?.map Token.location = some (ts.placeOf ⟨i, 0, 0⟩) := by
  have hlt : i < ts.toList.length := by
    rw [toList, List.length_append]
    exact Nat.lt_succ_of_le hi
  rw [placeOf, List.getElem?_eq_getElem hlt]
  rfl

end Tokens

namespace Grammar

variable {rule : Env → List Token → Outcome α}

/-- A failure is reported at one of the tokens. -/
theorem Relocates.location_mem (h : Relocates rule) {types : TypeNames} {ts : Tokens} {e : ParseError}
    {rest : List Token} (he : rule ⟨types, ts.finish⟩ ts.body = .error e rest) :
    e.location ∈ ts.toList.map Token.location := by
  -- Moving all places but those of the tokens changes nothing.
  let m : Location → Location := fun l =>
    if l ∈ ts.toList.map Token.location then l else { l with offset := l.offset + 1 }
  have hmoved : ∀ t ∈ ts.toList, t.moved m = t := fun t ht => by
    have hm : m t.location = t.location := if_pos (List.mem_map_of_mem ht)
    rw [Token.moved, hm]
  have hbody : ts.body.map (Token.moved m) = ts.body :=
    (List.map_congr_left fun t ht => hmoved t (List.mem_append_left _ ht)).trans (List.map_id _)
  have hfinish : ts.finish.moved m = ts.finish := by
    have htoken := congrArg Token.location
      (hmoved ts.finish.token (List.mem_append_right _ (List.mem_singleton_self _)))
    exact congrArg (EndMark.mk _) htoken
  have hsame := h m ⟨types, ts.finish⟩ ts.body
  rw [Env.moved, hbody, hfinish, he] at hsame
  have hlocation : e.location = m e.location := congrArg ParseError.location (Outcome.error.inj hsame).1
  by_contra hnot
  rw [show m e.location = { e.location with offset := e.location.offset + 1 } from if_neg hnot]
    at hlocation
  have hoffset := congrArg Location.offset hlocation
  simp at hoffset

/-- Tokens with the same texts are read alike. -/
theorem Relocates.agree (h : Relocates rule) (types : TypeNames) {ts us : Tokens}
    (htexts : ts.toList.map Token.lexeme = us.toList.map Token.lexeme) :
    Agree ts.toList us.toList (rule ⟨types, ts.finish⟩ ts.body).toExcept
      (rule ⟨types, us.finish⟩ us.body).toExcept := by
  rw [Tokens.toList, Tokens.toList, List.map_append, List.map_append] at htexts
  obtain ⟨hbody, hend⟩ := List.append_inj' htexts rfl
  have hfinish : ts.finish.spelling = us.finish.spelling :=
    (Token.of_lexeme (List.singleton_inj.1 hend)).2
  have hlength : ts.body.length = us.body.length := by simpa using congrArg List.length hbody
  -- Both token lists are the numbered one, moved.
  have hread (vs : Tokens) :
      (rule ⟨types, vs.finish⟩ vs.body) =
        (rule ⟨types, (Tokens.numbered (vs.body.map Token.lexeme) vs.finish.spelling).finish⟩
          (Tokens.numbered (vs.body.map Token.lexeme) vs.finish.spelling).body).moved vs.placeOf := by
    rw [← h, vs.numbered_body_moved, Env.moved, vs.numbered_finish_moved]
  rw [hread ts, hread us, hbody, hfinish]
  generalize hnumbered : Tokens.numbered (us.body.map Token.lexeme) us.finish.spelling = ns
  cases hrule : rule ⟨types, ns.finish⟩ ns.body with
  | ok a rest => exact .value a
  | error e rest =>
      have hmem := h.location_mem hrule
      rw [← hnumbered] at hmem
      obtain ⟨i, hi, hplace⟩ := Tokens.exists_number hmem
      rw [List.length_map] at hi
      refine .failure i ?_ ?_ ?_ ?_
      · rw [ParseError.code?_moved, ParseError.code?_moved]
      · rw [ParseError.message_moved, ParseError.message_moved]
      · rw [Tokens.placeOf_number (hlength ▸ hi), ← hplace]
        rfl
      · rw [Tokens.placeOf_number hi, ← hplace]
        rfl

end Grammar

open Grammar

/-- Joining the tokens of a text with single spaces changes no token, and texts with the same tokens are
read alike, as expressions and as types. -/
theorem layout_irrelevant (text : String) :
    ((Tokens.lex (Tokens.joined (Tokens.lex text).body)).toList.map Token.lexeme =
        (Tokens.lex text).toList.map Token.lexeme ∧
      (Tokens.lex (Tokens.joined (Tokens.lex text).toList)).toList.map Token.lexeme =
        (Tokens.lex text).toList.map Token.lexeme) ∧
    ∀ (types : TypeNames) (text' : String),
      (Tokens.lex text).toList.map Token.lexeme = (Tokens.lex text').toList.map Token.lexeme →
      Agree (Tokens.lex text).toList (Tokens.lex text').toList (Expr.read types text)
          (Expr.read types text') ∧
        Agree (Tokens.lex text).toList (Tokens.lex text').toList (Ty.read types text)
          (Ty.read types text') := by
  have hlist {cs : String} (h : Tokens.lexemes cs.toList = Tokens.lexemes text.toList) :
      (Tokens.lex cs).toList.map Token.lexeme = (Tokens.lex text).toList.map Token.lexeme := by
    have hbody : (Tokens.lex cs).body.map Token.lexeme = (Tokens.lex text).body.map Token.lexeme := h
    rw [Tokens.toList, Tokens.toList, List.map_append, List.map_append, hbody, Tokens.lex_finish,
      Tokens.lex_finish]
    rfl
  obtain ⟨hjoined, hjoined'⟩ := Tokens.lexemes_joined text
  refine ⟨⟨hlist hjoined, hlist hjoined'⟩, fun types text' htexts => ⟨?_, ?_⟩⟩
  · exact wholeExpression_relocates.agree types htexts
  · exact wholeType_relocates.agree types htexts

theorem layout_irrelevant_line_break :
    (Tokens.lex "a->b+)").toList.map Token.lexeme =
        (Tokens.lex "a -> b\n  +\t)").toList.map Token.lexeme ∧
      Agree (Tokens.lex "a->b+)").toList (Tokens.lex "a -> b\n  +\t)").toList
        (Expr.read (fun _ => none) "a->b+)") (Expr.read (fun _ => none) "a -> b\n  +\t)") := by
  have htexts : (Tokens.lex "a->b+)").toList.map Token.lexeme =
      (Tokens.lex "a -> b\n  +\t)").toList.map Token.lexeme := by decide +kernel
  exact ⟨htexts, ((layout_irrelevant "a->b+)").2 _ _ htexts).1⟩

end WatchExpr
