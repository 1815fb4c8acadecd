import WatchExpr.Proofs.Grammar.Recognition
import WatchExpr.Proofs.Printing.Phrases

/-!
# Printed expressions are read back

Reading the text of a printable expression gives the expression.
-/

namespace WatchExpr

namespace Expr

open Grammar

variable {types : TypeNames} {e : Expr}

theorem lex_text (h : e.Printable types) :
    (Tokens.lex e.text).body.map Token.lexeme = e.lexemes :=
  (isCut_of_printable h).lex_text

/-- The text of a printable expression is read as that expression. -/
theorem read_text (h : e.Printable types) : read types e.text = .ok e := by
  have hphrase := isPhrase_of_printable h _ (lex_text h)
  exact read_eq_ok_iff.2
    ⟨[], wholeExpression_complete (printed_told _) hphrase.angles hphrase.derives.toExpression⟩

/-- A cast to a qualified pointer, groups that could be casts, and angle brackets that could be those
of a template argument list. -/
theorem read_text_node :
    let node : TaggedType := ⟨"ns::Node", 16⟩
    let types : TypeNames := fun name => if name = "ns::Node" then some (.tagged node .none) else none
    let next : Expr := .cast (.pointer (.tagged node ⟨true, false⟩) ⟨false, true⟩)
      (.binary .subscript (.member (.name "p") .arrow "next") (.number (.integral .int 0) "0"))
    let size : Expr := .member (.unary .deref (.name "ns::q")) .dot "size"
    let e : Expr := .conditional
      (.binary (.compare .gt) (.binary (.compare .lt) (.name "a") size)
        (.binary (.compare .ne) (.name "b") (.truth true)))
      next (.unary .neg (.unary .neg (.name "c")))
    e.text = "a < (*ns::q).size > (b != true) ? (const ns::Node* volatile)p->next[0] : - -c" ∧
      read types e.text = .ok e := by
  intro node types next size e
  have hword : ∀ s ∈ ["p", "next", "size", "ns", "q", "a", "b", "c", "Node"], IsIdentifier s := by
    decide
  have hscoped : IsScopedName "ns::Node" ∧ IsScopedName "ns::q" :=
    ⟨.scope (hword "ns" (by simp)) (.last (hword "Node" (by simp))),
      .scope (hword "ns" (by simp)) (.last (hword "q" (by simp)))⟩
  have hnext : next.Printable types :=
    ⟨⟨rfl, hscoped.1, .none, by decide⟩, trivial,
      ⟨hword "next" (by simp), .last (hword "p" (by simp))⟩,
      by decide, ⟨.number, "0", .start⟩, by decide +kernel, rfl⟩
  have hsize : size.Printable types := ⟨hword "size" (by simp), trivial, hscoped.2⟩
  have he : e.Printable types :=
    ⟨trivial, ⟨trivial, ⟨trivial, .last (hword "a" (by simp)), hsize⟩, trivial,
      .last (hword "b" (by simp)), trivial⟩, hnext, trivial, trivial, .last (hword "c" (by simp))⟩
  exact ⟨by decide +kernel, read_text he⟩

end Expr

end WatchExpr
