import WatchExpr.Proofs.Grammar.TemplateNames
import WatchExpr.Proofs.Printing.RoundTrip

/-!
# Globally qualified names

The right operand of `>` or `>>` may start with `::`. If the tokens in front of it happen to be a
template argument list, then the whole is read as a name, for the printer puts parentheses by
precedence alone. Apart from such names the text of names and binary operators is read back.
-/

namespace WatchExpr

open Lexeme Grammar

/-- A name, possibly with `::` in front. -/
inductive IsQualifiedName : String → Prop where
  | nested {name : String} (h : IsScopedName name) : IsQualifiedName name
  | global {name : String} (h : IsScopedName name) : IsQualifiedName ("::" ++ name)

variable {name : String} {rest : List Char} {types : TypeNames} {e : Expr}

/-! ## Names -/

theorem untemplated_scope : Untemplated "::" := by
  unfold Untemplated
  decide

theorem IsIdentifier.untemplated (h : IsIdentifier name) : Untemplated name := by
  obtain ⟨c, cs, hcs, hc, hrest⟩ := h.1
  rw [Untemplated, hcs, List.mem_cons, not_or]
  refine ⟨?_, fun hmem => absurd (hrest _ hmem) (by decide)⟩
  rintro rfl
  cases hc

theorem IsScopedName.untemplated (h : IsScopedName name) : Untemplated name := by
  induction h with
  | last hs => exact hs.untemplated
  | scope hs _ ih =>
      exact untemplated_append.2 ⟨untemplated_append.2 ⟨hs.untemplated, untemplated_scope⟩, ih⟩

namespace IsQualifiedName

theorem untemplated (h : IsQualifiedName name) : Untemplated name := by
  cases h with
  | nested h => exact h.untemplated
  | global h => exact untemplated_append.2 ⟨untemplated_scope, h.untemplated⟩

theorem toList_global : ("::" ++ name).toList = ':' :: ':' :: name.toList := by
  simp

theorem lexemes_append (h : IsQualifiedName name)
    (hrest : ∀ d ∈ rest.head?, continuesWord d = false) :
    Tokens.lexemes (name.toList ++ rest) = Tokens.lexemes name.toList ++ Tokens.lexemes rest := by
  cases h with
  | nested h => exact h.lexemes_append hrest
  | global h =>
      rw [toList_global, List.cons_append, List.cons_append, Tokens.lexemes_colonColon,
        Tokens.lexemes_colonColon, h.lexemes_append hrest, List.cons_append]

end IsQualifiedName

/-! ## Trees of names and binary operators -/

namespace Expr

theorem isCut_of_joinsNames (h : e.JoinsNames IsQualifiedName) : e.IsCut := by
  induction e with
  | name id => exact fun rest hrest => IsQualifiedName.lexemes_append h fun d hd => (hrest d hd).1
  | binary op e f ihe ihf => exact binary_isCut op (ihe h.1) (ihf h.2)
  | _ => exact h.elim

end Expr

namespace Grammar

theorem globalName_isPhrase (h : IsScopedName name) :
    IsPhrase true types (.name ("::" ++ name)) := by
  intro ts hts
  rw [Expr.lexemes, IsQualifiedName.toList_global, Tokens.lexemes_colonColon] at hts
  obtain ⟨s, us, rfl, hs, hus⟩ := exists_mark hts
  have hname := h.nestedName hus
  exact {
    derives := .name (.global hs hname)
    ahead := .leave (by rw [hs]; rfl)
    angles := .cons (by rw [hs]; rfl) (.of_forall hname.not_closesTemplate)
    start := .inr ⟨_, rfl, .global hs hname⟩ }

theorem isPhrase_of_joinsNames (h : e.JoinsNames IsQualifiedName) : IsPhrase true types e := by
  induction e with
  | name id =>
      cases h with
      | nested h => exact name_isPhrase h
      | global h => exact globalName_isPhrase h
  | binary op e f ihe ihf => exact binary_isPhrase op (ihe h.1) (ihf h.2)
  | _ => exact h.elim

end Grammar

namespace Expr

/-- The text of names and binary operators is read as the tree that it was printed from exactly if
no identifier in it stands in front of a template argument list that `::` follows. -/
theorem read_text_iff_plainNames (he : e.JoinsNames IsQualifiedName) (types : TypeNames) :
    read types e.text = .ok e ↔
      PlainNames (Tokens.lex e.text).finish (Tokens.lex e.text).body := by
  constructor
  · intro hread
    obtain ⟨rest, hwhole⟩ := read_eq_ok_iff.1 hread
    exact plainNames_of_wholeExpression (Tokens.lexFrom_kind_ne_eof _ _) hwhole
      (he.mono fun _ h => h.untemplated)
  · intro hplain
    have hphrase : Phrase true types e.precedence (Tokens.lex e.text).body e :=
      isPhrase_of_joinsNames he _ (isCut_of_joinsNames he).lex_text
    exact read_eq_ok_iff.2 ⟨[], wholeExpression_complete (printed_told_of_plainNames _ true)
      ⟨hphrase.angles, hplain⟩ hphrase.derives.toExpression⟩

/-- A shift closes no single angle bracket, so here the brackets are operators. -/
theorem read_text_iff_plainNames_shift :
    let e : Expr := .binary (.compare .lt) (.name "::a")
      (.binary (.shift .right) (.name "b") (.name "::c"))
    e.JoinsNames IsQualifiedName ∧ e.text = "::a < b >> ::c" ∧
      read (fun _ => none) e.text = .ok e := by
  intro e
  have he : e.JoinsNames IsQualifiedName :=
    ⟨@IsQualifiedName.global "a" (.last (by decide)), .nested (.last (by decide)),
      @IsQualifiedName.global "c" (.last (by decide))⟩
  exact ⟨he, by decide +kernel, (read_text_iff_plainNames he _).2 (by decide +kernel)⟩

/-- The two comparisons are printed without parentheses and read as one name. -/
theorem read_text_templateName :
    let e : Expr := .binary (.compare .gt)
      (.binary (.compare .lt) (.name "a") (.name "b")) (.name "::c")
    e.JoinsNames IsQualifiedName ∧ e.text = "a < b > ::c" ∧
      read (fun _ => none) e.text = .ok (.name "a<b>::c") ∧
      read (fun _ => none) e.text ≠ .ok e := by
  intro e
  have he : e.JoinsNames IsQualifiedName :=
    ⟨⟨.nested (.last (by decide)), .nested (.last (by decide))⟩,
      @IsQualifiedName.global "c" (.last (by decide))⟩
  have hread : read (fun _ => none) e.text = .ok (.name "a<b>::c") := by decide +kernel
  exact ⟨he, by decide +kernel, hread, fun h => nomatch Except.ok.inj (hread.symm.trans h)⟩

end Expr

end WatchExpr
