import WatchExpr.Expr.Printer
import WatchExpr.Proofs.Grammar.Derivation
import WatchExpr.Proofs.Lexing.Pieces
import WatchExpr.Proofs.Subexpressions
import WatchExpr.Ty.TypeId

/-!
# Printable expressions

The expressions whose text is meant to be read back: their names are names of the language, their
constants have the value of their spelling, and their casts name types that are known.
-/

namespace WatchExpr

open Lexeme

/-- A word that is no keyword. -/
def IsIdentifier (s : String) : Prop :=
  IsWord s.toList ∧ Keyword.ofSpelling? s = none

instance (s : String) : Decidable (IsIdentifier s) :=
  inferInstanceAs (Decidable (_ ∧ _))

/-- Identifiers with `::` between them. -/
inductive IsScopedName : String → Prop where
  | last {s : String} (hs : IsIdentifier s) : IsScopedName s
  | scope {s name : String} (hs : IsIdentifier s) (h : IsScopedName name) :
      IsScopedName (s ++ "::" ++ name)

/-- Pointers to a scalar or to a known user-defined type, or such a type itself. -/
def Ty.IsPointerForm (types : TypeNames) : Ty → Prop
  | .scalar _ _ => True
  | .tagged r _ => IsScopedName r.name ∧ ∃ q, types r.name = some (.tagged r q)
  | .pointer t _ => t.IsPointerForm types
  | .reference _ _ | .array _ _ _ => False

/-- What a cast may name: not `void`, and at most one reference, outermost. -/
def Ty.IsCastForm (types : TypeNames) : Ty → Prop
  | .reference t q => q = .none ∧ t.isVoid = false ∧ t.IsPointerForm types
  | t => t.isVoid = false ∧ t.IsPointerForm types

/-- What is asked of the single nodes of a printable expression. -/
def Expr.IsPrintableNode (types : TypeNames) : Expr → Prop
  | .poisoned _ => False
  | .number v s => Literal.read s = .ok v ∧ ∃ t, (Tokens.lex s).body = [t] ∧ t.kind = .number
  | .name id => IsScopedName id
  | .cast t _ => t.IsCastForm types
  | .member _ _ field => IsIdentifier field
  | _ => True

/-- An expression whose text is meant to be read back. -/
def Expr.Printable (types : TypeNames) (e : Expr) : Prop :=
  e.Everywhere (IsPrintableNode types)

/-! ## Names -/

variable {s name : String} {rest : List Char}

theorem IsIdentifier.wordKind_eq (h : IsIdentifier s) : wordKind s.toList = .identifier := by
  rw [wordKind, String.ofList_toList, h.2]

theorem IsIdentifier.lexemes_append (h : IsIdentifier s)
    (hrest : ∀ d ∈ rest.head?, continuesWord d = false) :
    Tokens.lexemes (s.toList ++ rest) = ⟨.identifier, s.toList⟩ :: Tokens.lexemes rest := by
  rw [Tokens.lexemes_word h.1 hrest, word, h.wordKind_eq]

theorem IsIdentifier.lexemes_eq (h : IsIdentifier s) :
    Tokens.lexemes s.toList = [⟨.identifier, s.toList⟩] := by
  have happend : Tokens.lexemes (s.toList ++ []) =
      ⟨.identifier, s.toList⟩ :: Tokens.lexemes [] :=
    h.lexemes_append fun d hd => by cases hd
  rwa [List.append_nil, Tokens.lexemes_nil] at happend

theorem lexemes_scope (h : IsIdentifier s) :
    Tokens.lexemes (s.toList ++ ':' :: ':' :: rest) =
      ⟨.identifier, s.toList⟩ :: mark .colonColon :: Tokens.lexemes rest := by
  rw [h.lexemes_append fun d hd => by cases hd; rfl, Tokens.lexemes_colonColon]

theorem toList_scope : (s ++ "::" ++ name).toList = s.toList ++ ':' :: ':' :: name.toList := by
  simp

/-- A name in front of a character that goes on with no word. -/
theorem IsScopedName.lexemes_append (h : IsScopedName name)
    (hrest : ∀ d ∈ rest.head?, continuesWord d = false) :
    Tokens.lexemes (name.toList ++ rest) = Tokens.lexemes name.toList ++ Tokens.lexemes rest := by
  induction h with
  | last hs => rw [hs.lexemes_append hrest, hs.lexemes_eq, List.singleton_append]
  | scope hs h ih =>
      rw [toList_scope, List.append_assoc, List.cons_append, List.cons_append, lexemes_scope hs,
        lexemes_scope hs, ih, List.cons_append, List.cons_append]

/-- The tokens of a name are a name of the grammar. -/
theorem IsScopedName.nestedName (h : IsScopedName name) {ts : List Token}
    (hts : ts.map Token.lexeme = Tokens.lexemes name.toList) : Grammar.NestedName ts name := by
  induction h generalizing ts with
  | last hs =>
      rw [hs.lexemes_eq] at hts
      obtain ⟨t, rfl, ht⟩ := List.map_eq_singleton_iff.1 hts
      obtain ⟨hkind, rfl⟩ := Token.of_lexeme ht
      exact .last hkind
  | scope hs h ih =>
      rw [toList_scope, lexemes_scope hs] at hts
      obtain ⟨t, us, rfl, ht, hus⟩ := List.map_eq_cons_iff.1 hts
      obtain ⟨u, vs, rfl, hu, hvs⟩ := exists_mark hus
      obtain ⟨hkind, rfl⟩ := Token.of_lexeme ht
      exact .scope hkind hu (ih hvs)

end WatchExpr
