import WatchExpr.Grammar.Reading
import WatchExpr.Proofs.Grammar.Completeness
import WatchExpr.Proofs.Grammar.Soundness
import WatchExpr.Proofs.Lexing.Lexemes

/-!
# Recognition

Where no type is known, reading an expression accepts exactly the sentences of the grammar without
casts and template arguments, and returns the tree of the sentence.
-/

namespace WatchExpr

namespace Grammar

variable {env : Env} {inner : Parenthesised} {Q : List Token → Prop} {ts : List Token} {e : Expr}

/-- Without known types every attempt to read a cast in plain tokens fails. -/
theorem castFree_told (htypes : ∀ n, env.types n = none) :
    Parenthesised.castFree.Told env Plain where
  tail h := h.tail
  plainNames h := h.noTemplateScope.plainNames
  typeId h := h.elim
  group {ts r rest} _ hr hts := by
    have hstart : startsType (current env.finish (ts ++ r :: rest)).kind = false := by
      cases ts with
      | nil => simp [hr, startsType, specifierStart?]
      | cons t ts =>
          rw [List.cons_append, current_cons, startsType_eq_isTypeKeyword]
          exact hts.noTypeKeyword t (by simp)
    exact ⟨hstart, fun t more => castType_ne_ok htypes hstart⟩

/-- A whole expression is read from the phrases that nothing follows. -/
theorem wholeExpression_complete (hQ : inner.Told env Q) (hts : Q ts)
    (h : Derives inner .expression ts e) : wholeExpression env ts = .ok e [] := by
  have hrun : run env .expression (ts ++ []) = .ok e [] :=
    run_complete hQ h [] (by rwa [List.append_nil]) fun t ht => by cases ht
  rw [List.append_nil] at hrun
  rw [wholeExpression, show (parse env .expression ts).val = _ from hrun, Outcome.ok_andThen,
    (expect_eof_eq_ok_iff fun u hu => by cases hu).2 ⟨rfl, rfl, rfl⟩]
  rfl

theorem wholeExpression_sound (htypes : ∀ n, env.types n = none) (hts : Plain ts)
    (heof : ∀ t ∈ ts, t.kind ≠ .eof) {rest : List Token}
    (h : wholeExpression env ts = .ok e rest) : Derives .castFree .expression ts e := by
  obtain ⟨f, ms, hf, hend⟩ := Outcome.andThen_eq_ok_iff.1 h
  obtain ⟨t, hexpect, rfl⟩ := Outcome.map_eq_ok_iff.1 hend
  obtain ⟨us, rfl, hus⟩ := run_sound htypes .expression hts f ms hf
  obtain ⟨rfl, -, -⟩ :=
    (expect_eof_eq_ok_iff fun u hu => heof u (List.mem_append_right us hu)).1 hexpect
  rwa [List.append_nil]

end Grammar

namespace Expr

open Grammar

variable {types : TypeNames} {text : String}

theorem read_eq_ok_iff {e : Expr} :
    read types text = .ok e ↔ ∃ rest,
      wholeExpression ⟨types, (Tokens.lex text).finish⟩ (Tokens.lex text).body = .ok e rest :=
  Outcome.toExcept_eq_ok_iff

/-- Where no type is known, in a text without type keywords and without a closing angle bracket in
front of `::`, the expressions that are read are the trees of the cast-free grammar. There is at most
one tree. -/
theorem read_eq_ok_iff_derives (htypes : ∀ n, types n = none)
    (hplain : Plain (Tokens.lex text).body) :
    (∀ e, read types text = .ok e ↔
      Derives .castFree .expression (Tokens.lex text).body e) ∧
    ∀ e f, Derives .castFree .expression (Tokens.lex text).body e →
      Derives .castFree .expression (Tokens.lex text).body f → e = f := by
  have hcomplete : ∀ e, Derives .castFree .expression (Tokens.lex text).body e →
      read types text = .ok e := fun e he =>
    read_eq_ok_iff.2 ⟨[], wholeExpression_complete (castFree_told htypes) hplain he⟩
  refine ⟨fun e => ⟨fun h => ?_, hcomplete e⟩, fun e f he hf => ?_⟩
  · obtain ⟨rest, hwhole⟩ := read_eq_ok_iff.1 h
    exact wholeExpression_sound htypes hplain (Tokens.lexFrom_kind_ne_eof _ _) hwhole
  · exact Except.ok.inj ((hcomplete e he).symm.trans (hcomplete f hf))

/-- The parenthesis is tried as a cast and the angle brackets as a template argument list. -/
theorem read_eq_ok_iff_derives_comparisons :
    let text := "a < (b) > c"
    let e : Expr := .binary (.compare .gt) (.binary (.compare .lt) (.name "a") (.name "b")) (.name "c")
    Plain (Tokens.lex text).body ∧ read (fun _ => none) text = .ok e ∧
      Derives .castFree .expression (Tokens.lex text).body e := by
  intro text e
  have hplain : Plain (Tokens.lex text).body :=
    ⟨by decide +kernel, by unfold NoTemplateScope; decide +kernel⟩
  have hread : read (fun _ => none) text = .ok e := by decide +kernel
  exact ⟨hplain, hread, ((read_eq_ok_iff_derives (fun _ => rfl) hplain).1 e).1 hread⟩

end Expr

end WatchExpr
