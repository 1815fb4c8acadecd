import WatchExpr.Token.Stream
import Mathlib.Tactic.Common

/-!
# Lexemes

The tokens of a text without their places. They do not depend on where the text stands.
-/

namespace WatchExpr

/-- A token without its place. -/
def Token.lexeme (t : Token) : Lexeme :=
  ⟨t.kind, t.spelling.toList⟩

theorem Token.of_lexeme {t : Token} {k : TokenKind} {s : String}
    (h : t.lexeme = ⟨k, s.toList⟩) : t.kind = k ∧ t.spelling = s := by
  obtain ⟨hkind, hspelling⟩ := Lexeme.mk.inj h
  exact ⟨hkind, String.toList_inj.1 hspelling⟩

namespace Lexeme

theorem wordKind_ne_eof (word : List Char) : wordKind word ≠ .eof := by
  unfold wordKind
  split <;> simp

theorem split_kind_ne_eof (c : Char) (cs : List Char) : (split c cs).1.kind ≠ .eof := by
  unfold split
  split
  · exact wordKind_ne_eof _
  · split
    · simp
    · split <;> simp

end Lexeme

namespace Tokens

/-- No text contains an end mark. -/
theorem lexFrom_kind_ne_eof (here : Location) (cs : List Char) :
    ∀ t ∈ (lexFrom here cs).body, t.kind ≠ .eof := by
  fun_induction lexFrom here cs with
  | case1 here => simp
  | case2 here c cs _ ih => exact ih
  | case3 here c cs _ piece ih =>
      intro t ht
      simp only [cons, List.mem_cons] at ht
      obtain rfl | ht := ht
      · exact Lexeme.split_kind_ne_eof c cs
      · exact ih t ht

/-- The lexemes of a text. -/
def lexemes (cs : List Char) : List Lexeme :=
  (lexFrom .start cs).body.map Token.lexeme

theorem lexFrom_blank {here : Location} {c : Char} (h : Text.isBlank c) (cs : List Char) :
    lexFrom here (c :: cs) = lexFrom (here.step c) cs := by
  rw [lexFrom, if_pos h]

theorem lexFrom_piece {here : Location} {c : Char} (h : Text.isBlank c = false) (cs : List Char) :
    lexFrom here (c :: cs) =
      cons ⟨(Lexeme.split c cs).1.kind, String.ofList (Lexeme.split c cs).1.chars, here⟩
        (lexFrom (here.advance (Lexeme.split c cs).1.chars) (Lexeme.split c cs).2) := by
  rw [lexFrom, if_neg (by simp [h])]

theorem lexFrom_lexemes_congr (here there : Location) (cs : List Char) :
    (lexFrom here cs).body.map Token.lexeme = (lexFrom there cs).body.map Token.lexeme := by
  induction hn : cs.length using Nat.strongRecOn generalizing cs here there with
  | ind n ih =>
      subst hn
      cases cs with
      | nil => simp [lexFrom]
      | cons c cs =>
          cases hc : Text.isBlank c with
          | true =>
              rw [lexFrom_blank hc, lexFrom_blank hc]
              exact ih _ (Nat.lt_succ_self _) _ _ cs rfl
          | false =>
              have hlt : (Lexeme.split c cs).2.length < (c :: cs).length :=
                Nat.lt_succ_of_le (Lexeme.split_rest_length_le c cs)
              rw [lexFrom_piece hc, lexFrom_piece hc]
              exact congrArg (Token.lexeme _ :: ·) (ih _ hlt _ _ _ rfl)

/-- The lexemes of a text do not depend on where it stands. -/
theorem lexFrom_lexemes (here : Location) (cs : List Char) :
    (lexFrom here cs).body.map Token.lexeme = lexemes cs :=
  lexFrom_lexemes_congr here .start cs

@[simp] theorem lexemes_nil : lexemes [] = [] := by
  rw [lexemes, lexFrom]
  rfl

theorem lexemes_blank {c : Char} (h : Text.isBlank c) (cs : List Char) :
    lexemes (c :: cs) = lexemes cs := by
  rw [lexemes, lexFrom_blank h, lexFrom_lexemes]

theorem lexemes_piece {c : Char} (h : Text.isBlank c = false) (cs : List Char) :
    lexemes (c :: cs) = (Lexeme.split c cs).1 :: lexemes (Lexeme.split c cs).2 := by
  rw [lexemes, lexFrom_piece h, cons, List.map_cons, lexFrom_lexemes, Token.lexeme,
    String.toList_ofList]

end Tokens

end WatchExpr
