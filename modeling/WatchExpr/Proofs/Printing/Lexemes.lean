import WatchExpr.Proofs.Grammar.Levels
import WatchExpr.Proofs.Lexing.Constants
import WatchExpr.Proofs.Printing.Types

/-!
# Printed expressions as lexemes

The text of an expression is cut where its pieces were put together: no lexeme goes on from one piece
into the next.
-/

namespace WatchExpr

open Lexeme Tokens

/-- Lexemes in parentheses where they are needed. -/
def groupedLexemes (needed : Bool) (ls : List Lexeme) : List Lexeme :=
  if needed then mark .lParen :: (ls ++ [mark .rParen]) else ls

/-- The lexemes of the text of a printable expression. -/
def Expr.lexemes : Expr → List Lexeme
  | .poisoned _ => []
  | .truth b => [⟨.keyword (.truth b), (Keyword.truth b).spelling.toList⟩]
  | .number _ s => [⟨.number, s.toList⟩]
  | .name id => Tokens.lexemes id.toList
  | .cast t e =>
    mark .lParen :: (t.lexemes ++
      mark .rParen :: groupedLexemes (Precedence.unary < e.precedence) e.lexemes)
  | .member e access field =>
    groupedLexemes (Precedence.access < e.precedence || e.isNumber) e.lexemes ++
      (Tokens.lexemes access.chars ++ [⟨.identifier, field.toList⟩])
  | .binary .subscript e i =>
    groupedLexemes (Precedence.access < e.precedence) e.lexemes ++
      mark .lSquare :: (i.lexemes ++ [mark .rSquare])
  | .binary op e f =>
    groupedLexemes (op.precedence < e.precedence) e.lexemes ++
      (Tokens.lexemes op.chars ++ groupedLexemes (op.precedence ≤ f.precedence) f.lexemes)
  | .unary op e =>
    Tokens.lexemes op.chars ++ groupedLexemes (Precedence.unary < e.precedence) e.lexemes
  | .conditional c e f =>
    groupedLexemes (Precedence.conditional ≤ c.precedence) c.lexemes ++
      mark .question :: (e.lexemes ++
        mark .colon :: groupedLexemes (Precedence.conditional < f.precedence) f.lexemes)

/-! ## Operators -/

open Grammar

theorem BinaryOp.exists_operator {op : BinaryOp} (h : op ≠ .subscript) :
    ∃ (l : Level) (p : Punctuator),
      (p, op) ∈ l.operators ∧ l.precedence = op.precedence ∧ p.chars = op.chars := by
  rcases op with op | op | op | op | _
  · cases op with
    | add => exact ⟨.additive, .plus, by decide⟩
    | sub => exact ⟨.additive, .minus, by decide⟩
    | mul => exact ⟨.multiplicative, .star, by decide⟩
    | div => exact ⟨.multiplicative, .slash, by decide⟩
    | rem => exact ⟨.multiplicative, .percent, by decide⟩
    | bitAnd => exact ⟨.bitAnd, .amp, by decide⟩
    | bitXor => exact ⟨.bitXor, .caret, by decide⟩
    | bitOr => exact ⟨.bitOr, .pipe, by decide⟩
  · cases op with
    | left => exact ⟨.shift, .lessLess, by decide⟩
    | right => exact ⟨.shift, .greaterGreater, by decide⟩
  · cases op with
    | lt => exact ⟨.relational, .less, by decide⟩
    | le => exact ⟨.relational, .lessEqual, by decide⟩
    | gt => exact ⟨.relational, .greater, by decide⟩
    | ge => exact ⟨.relational, .greaterEqual, by decide⟩
    | eq => exact ⟨.equality, .equalEqual, by decide⟩
    | ne => exact ⟨.equality, .exclaimEqual, by decide⟩
  · cases op with
    | and => exact ⟨.logicalAnd, .ampAmp, by decide⟩
    | or => exact ⟨.logicalOr, .pipePipe, by decide⟩
  · exact absurd rfl h

theorem UnaryOp.exists_operator (op : UnaryOp) :
    ∃ p : Punctuator, (p, op) ∈ unaryOperators ∧ p.chars = op.chars := by
  cases op with
  | plus => exact ⟨.plus, by decide⟩
  | neg => exact ⟨.minus, by decide⟩
  | logicalNot => exact ⟨.exclaim, by decide⟩
  | bitNot => exact ⟨.tilde, by decide⟩
  | deref => exact ⟨.star, by decide⟩
  | addressOf => exact ⟨.amp, by decide⟩

theorem MemberAccess.exists_operator (access : MemberAccess) :
    ∃ p : Punctuator, (p, access) ∈ memberOperators ∧ p.chars = access.chars := by
  cases access with
  | dot => exact ⟨.period, by decide⟩
  | arrow => exact ⟨.arrow, by decide⟩

theorem lexemes_chars (p : Punctuator) : Tokens.lexemes p.chars = [mark p] := by
  have hmark : Tokens.lexemes (p.chars ++ []) = mark p :: Tokens.lexemes [] :=
    lexemes_mark (fun d hd => by cases hd) fun _ d hd => by cases hd
  rwa [List.append_nil, lexemes_nil] at hmark

variable {rest : List Char}

theorem lexemes_mark_space (p : Punctuator) :
    Tokens.lexemes (p.chars ++ ' ' :: rest) = Tokens.lexemes p.chars ++ Tokens.lexemes rest := by
  have hspace : ∀ p ∈ Punctuator.all, ' ' ∉ p.extensions := by decide
  rw [lexemes_mark (fun d hd => by cases hd; exact hspace p (Punctuator.mem_all p))
    (fun _ d hd => by cases hd; rfl), lexemes_space, lexemes_chars, List.singleton_append]

/-! ## Beginnings -/

/-- A text that goes on with no unary operator, except to repeat its sign. -/
def StartsOperand (cs : List Char) : Prop :=
  ∃ c ds, cs = c :: ds ∧ c ≠ '=' ∧ c ≠ '>'

variable {cs ds : List Char} {needed : Bool} {types : TypeNames}

theorem StartsOperand.append (h : StartsOperand cs) : StartsOperand (cs ++ ds) := by
  obtain ⟨c, cs, rfl, hc⟩ := h
  exact ⟨c, cs ++ ds, rfl, hc⟩

theorem StartsOperand.grouped (h : StartsOperand cs) : StartsOperand (grouped needed cs) := by
  cases needed with
  | true => exact ⟨'(', _, rfl, by decide⟩
  | false => exact h

theorem IsWord.startsOperand {w : List Char} (h : IsWord w) : StartsOperand w := by
  obtain ⟨c, cs, rfl, hc, -⟩ := h
  refine ⟨c, cs, rfl, ?_, ?_⟩ <;> rintro rfl <;> cases hc

theorem IsScopedName.startsOperand {name : String} (h : IsScopedName name) :
    StartsOperand name.toList := by
  cases h with
  | last hs => exact IsWord.startsOperand hs.1
  | scope hs _ =>
      rw [toList_scope]
      exact (IsWord.startsOperand hs.1).append

theorem noBlank_head {s : String} {v : Scalar} (hv : Literal.read s = .ok v) :
    ∀ d ∈ s.toList.head?, Text.isBlank d = false :=
  fun d hd => Literal.read_noBlank hv d (List.mem_of_mem_head? hd)

theorem startsOperand_of_number (h : Tokens.lexemes cs = [⟨.number, cs⟩])
    (hblank : ∀ d ∈ cs.head?, Text.isBlank d = false) : StartsOperand cs := by
  cases cs with
  | nil => simp at h
  | cons c cs =>
      obtain ⟨-, hstart, -⟩ := startsNumber_of_split (eq_split_of_lexemes (hblank c rfl) rfl h) rfl
      refine ⟨c, cs, rfl, ?_, ?_⟩ <;> rintro rfl <;> cases hstart

namespace UnaryOp

theorem inFrontOf_of_isPrefixOf {op : UnaryOp} (hop : op = .plus ∨ op = .neg ∨ op = .addressOf)
    (h : op.chars.isPrefixOf cs) : op.inFrontOf cs = op.chars ++ ' ' :: cs := by
  rcases hop with rfl | rfl | rfl <;> exact if_pos h

theorem inFrontOf_eq_or (op : UnaryOp) (cs : List Char) :
    op.inFrontOf cs = op.chars ++ ' ' :: cs ∨ op.inFrontOf cs = op.chars ++ cs := by
  cases op with
  | plus => exact ite_eq_or_eq _ _ _
  | neg => exact ite_eq_or_eq _ _ _
  | addressOf => exact ite_eq_or_eq _ _ _
  | _ => exact .inr rfl

theorem startsOperand_inFrontOf (op : UnaryOp) : StartsOperand (op.inFrontOf cs) := by
  have hop : StartsOperand op.chars := by
    cases op <;> exact ⟨_, _, rfl, by decide⟩
  rcases op.inFrontOf_eq_or cs with h | h <;> rw [h] <;> exact hop.append

/-- Either a space follows the sign, or no character that goes on with it. -/
theorem inFrontOf_cases {op : UnaryOp} {p : Punctuator} (hp : (p, op) ∈ unaryOperators)
    (h : StartsOperand cs) :
    op.inFrontOf cs = op.chars ++ ' ' :: cs ∨
      op.inFrontOf cs = op.chars ++ cs ∧ ∀ d ∈ cs.head?, d ∉ p.extensions := by
  -- A sign is followed by `=` or `>`, which start no operand, or by itself, which asks for a space.
  refine or_iff_not_imp_left.2 fun hspace => ⟨(op.inFrontOf_eq_or cs).resolve_left hspace, ?_⟩
  have hext : ∀ q ∈ unaryOperators, q.1.extensions.all fun d => d = '=' ∨ d = '>' ∨
      q.2.chars = [d] ∧ (q.2 = .plus ∨ q.2 = .neg ∨ q.2 = .addressOf) := by
    decide
  obtain ⟨c, ds, rfl, hequal, hgreater⟩ := h
  intro d hd hmem
  cases hd
  rcases of_decide_eq_true (List.all_eq_true.1 (hext _ hp) c hmem) with rfl | rfl | ⟨hchars, hsign⟩
  · exact hequal rfl
  · exact hgreater rfl
  · exact hspace (inFrontOf_of_isPrefixOf hsign (by simp [hchars]))

theorem lexemes_inFrontOf (op : UnaryOp) (h : StartsOperand cs) :
    Tokens.lexemes (op.inFrontOf cs ++ rest) =
      Tokens.lexemes op.chars ++ Tokens.lexemes (cs ++ rest) := by
  obtain ⟨p, hp, hchars⟩ := op.exists_operator
  have hperiod : ∀ q ∈ unaryOperators, q.1 ≠ .period := by decide
  obtain hfront | ⟨hfront, hhead⟩ := inFrontOf_cases hp h
  · rw [hfront, ← hchars, List.append_assoc, List.cons_append, lexemes_mark_space]
  · have hrest : ∀ d ∈ (cs ++ rest).head?, d ∉ p.extensions := by
      obtain ⟨c, ds, rfl, -⟩ := h
      exact hhead
    rw [hfront, ← hchars, List.append_assoc,
      lexemes_mark hrest fun h => absurd h (hperiod _ hp), lexemes_chars, List.singleton_append]

end UnaryOp

namespace Expr

variable {c e f : Expr} {op : BinaryOp}

theorem print_cast (t : Ty) :
    (cast t e).print =
      '(' :: (t.declarator [] ++ ')' :: grouped (Precedence.unary < e.precedence) e.print) := by
  have hprint : (cast t e).print = parenthesized (t.declarator []) ++
      grouped (Precedence.unary < e.precedence) e.print := rfl
  rw [hprint, parenthesized, List.cons_append, List.append_assoc, List.singleton_append]

theorem print_member (access : MemberAccess) (field : String) :
    (member e access field).print =
      grouped (Precedence.access < e.precedence || e.isNumber) e.print ++
        (access.chars ++ field.toList) :=
  List.append_assoc _ _ _

theorem print_subscript :
    (binary .subscript e f).print =
      grouped (Precedence.access < e.precedence) e.print ++ '[' :: (f.print ++ [']']) :=
  rfl

theorem print_conditional :
    (conditional c e f).print = grouped (Precedence.conditional ≤ c.precedence) c.print ++
      (" ? ".toList ++ (e.print ++ (" : ".toList ++
        grouped (Precedence.conditional < f.precedence) f.print))) := by
  have hprint : (conditional c e f).print =
      grouped (Precedence.conditional ≤ c.precedence) c.print ++ " ? ".toList ++ e.print ++
        " : ".toList ++ grouped (Precedence.conditional < f.precedence) f.print := rfl
  rw [hprint, List.append_assoc, List.append_assoc, List.append_assoc]

theorem print_unary (op : UnaryOp) :
    (unary op e).print = op.inFrontOf (grouped (Precedence.unary < e.precedence) e.print) :=
  rfl

theorem print_binary (h : op ≠ .subscript) :
    (binary op e f).print = grouped (op.precedence < e.precedence) e.print ++
      ' ' :: (op.chars ++ ' ' :: grouped (op.precedence ≤ f.precedence) f.print) := by
  cases op with
  | subscript => exact absurd rfl h
  | _ => rfl

theorem lexemes_binary (h : op ≠ .subscript) :
    (binary op e f).lexemes = groupedLexemes (op.precedence < e.precedence) e.lexemes ++
      (Tokens.lexemes op.chars ++ groupedLexemes (op.precedence ≤ f.precedence) f.lexemes) := by
  rw [lexemes]
  exact h

theorem startsOperand_print (h : e.Printable types) : StartsOperand e.print := by
  induction e with
  | poisoned d => exact h.elim
  | truth b => cases b <;> exact ⟨_, _, rfl, by decide⟩
  | number v s =>
      obtain ⟨hv, t, hlex, ht⟩ := h
      exact startsOperand_of_number (lexemes_constant hv hlex ht) (noBlank_head hv)
  | name id => exact IsScopedName.startsOperand h
  | cast t e _ =>
      rw [print_cast]
      exact ⟨'(', _, rfl, by decide⟩
  | member e access field ih =>
      rw [print_member]
      exact (ih h.2).grouped.append
  | binary op e f ih _ =>
      by_cases hop : op = .subscript
      · subst hop
        rw [print_subscript]
        exact (ih h.2.1).grouped.append
      · rw [print_binary hop]
        exact (ih h.2.1).grouped.append
  | unary op e _ =>
      rw [print_unary]
      exact op.startsOperand_inFrontOf
  | conditional c e f ih _ _ =>
      rw [print_conditional]
      exact (ih h.2.1).grouped.append

end Expr

/-! ## The whole text -/

/-- Characters behind an expression that leave its last lexeme as it is. A number would go on with
what follows the base of a member access. -/
def Expr.LetsFollow (e : Expr) (d : Char) : Prop :=
  continuesWord d = false ∧ (e.precedence ≤ Precedence.access ∧ e.isNumber = false ∨ EndsNumber d)

/-- The text of an expression is cut into its lexemes, whatever may follow. -/
def Expr.IsCut (e : Expr) : Prop :=
  ∀ rest, (∀ d ∈ rest.head?, e.LetsFollow d) →
    Tokens.lexemes (e.print ++ rest) = e.lexemes ++ Tokens.lexemes rest

/-- Characters that end every word and number. -/
def separators : List Char :=
  [' ', ')', '[', ']']

/-- What may follow a looser expression may follow any other. -/
theorem Expr.LetsFollow.of_loose {e : Expr} {d : Char} (h : e.LetsFollow d)
    (he : Precedence.access < e.precedence) (f : Expr) : f.LetsFollow d :=
  ⟨h.1, .inr (h.2.resolve_left fun htight => Nat.not_le_of_lt he htight.1)⟩

theorem letsFollow_of_separator {d : Char} (hd : d ∈ separators) (e : Expr) : e.LetsFollow d := by
  simp only [separators, List.mem_cons, List.not_mem_nil, or_false] at hd
  rcases hd with rfl | rfl | rfl | rfl <;> exact ⟨rfl, .inr fun _ => rfl⟩

namespace Expr.IsCut

variable {e : Expr}

theorem lexemes_print (h : e.IsCut) : Tokens.lexemes e.print = e.lexemes := by
  have hcut := h [] fun d hd => by cases hd
  rwa [List.append_nil, lexemes_nil, List.append_nil] at hcut

theorem lex_text (h : e.IsCut) : (Tokens.lex e.text).body.map Token.lexeme = e.lexemes := by
  have htext : e.text.toList = e.print := String.toList_ofList
  rw [← h.lexemes_print, ← htext]
  rfl

theorem lexemes_append (h : e.IsCut) (rest : List Char) (hrest : ∀ d ∈ rest.head?, d ∈ separators) :
    Tokens.lexemes (e.print ++ rest) = e.lexemes ++ Tokens.lexemes rest :=
  h rest fun d hd => letsFollow_of_separator (hrest d hd) e

theorem grouped (h : e.IsCut) (needed : Bool) (rest : List Char)
    (hrest : needed = false → ∀ d ∈ rest.head?, e.LetsFollow d) :
    Tokens.lexemes (grouped needed e.print ++ rest) =
      groupedLexemes needed e.lexemes ++ Tokens.lexemes rest := by
  cases needed with
  | false => exact h rest (hrest rfl)
  | true =>
      have hinner := h.lexemes_append (')' :: rest) fun d hd => by cases hd; decide
      simp only [WatchExpr.grouped, parenthesized, groupedLexemes, if_true, List.cons_append,
        List.append_assoc, List.nil_append, lexemes_lParen, hinner, lexemes_rParen]

/-- An expression in front of an operator with spaces around it. -/
theorem grouped_space (h : e.IsCut) :
    Tokens.lexemes (WatchExpr.grouped needed e.print ++ ' ' :: rest) =
      groupedLexemes needed e.lexemes ++ Tokens.lexemes rest := by
  rw [h.grouped _ _ fun _ d hd => letsFollow_of_separator (by cases hd; decide) e, lexemes_space]

end Expr.IsCut

namespace Expr

variable {c e f : Expr} {field : String}

theorem truth_isCut (b : Bool) : (truth b).IsCut := by
  intro rest hrest
  have hword : IsWord (Keyword.truth b).spelling.toList := by
    cases b <;> decide
  have hkind : wordKind (Keyword.truth b).spelling.toList = .keyword (.truth b) := by
    cases b <;> decide
  have hprint : (truth b).print = (Keyword.truth b).spelling.toList := by
    cases b <;> rfl
  rw [hprint, lexemes_word hword fun d hd => (hrest d hd).1, word, hkind]
  rfl

theorem number_isCut {v : Scalar} {s : String} (hs : Tokens.lexemes s.toList = [⟨.number, s.toList⟩])
    (hblank : ∀ d ∈ s.toList.head?, Text.isBlank d = false) : (number v s).IsCut := by
  intro rest hrest
  refine lexemes_number hblank hs fun d hd => (hrest d hd).2.resolve_left fun h => ?_
  cases h.2

theorem cast_isCut {t : Ty} (ht : t.IsCastForm types) (he : e.IsCut) : (cast t e).IsCut := by
  intro rest hrest
  have hoperand := he.grouped (Precedence.unary < e.precedence) rest fun _ d hd =>
    (hrest d hd).of_loose (Nat.lt_succ_self _) e
  rw [print_cast, List.cons_append, List.append_assoc, List.cons_append, lexemes_lParen,
    Ty.lexemes_castForm ht, hoperand, lexemes, List.cons_append, List.append_assoc,
    List.cons_append]

theorem member_isCut {access : MemberAccess} (hfield : IsIdentifier field) (he : e.IsCut) :
    (member e access field).IsCut := by
  intro rest hrest
  obtain ⟨p, hp, hchars⟩ := access.exists_operator
  have hclosed : ∀ q ∈ memberOperators, q.1.extensions = [] := by decide
  have haccess : Tokens.lexemes (p.chars ++ (field.toList ++ rest)) =
      mark p :: ⟨.identifier, field.toList⟩ :: Tokens.lexemes rest := by
    rw [lexemes_mark (fun d _ => by simp [hclosed _ hp]) fun _ d hd => ?_,
      hfield.lexemes_append fun d hd => (hrest d hd).1]
    obtain ⟨c, cs, hcs, hc, -⟩ := hfield.1
    rw [hcs] at hd
    cases hd
    exact isDigit_of_startsWord hc
  have hbase := he.grouped (Precedence.access < e.precedence || e.isNumber)
    (access.chars ++ (field.toList ++ rest)) fun hneeded d hd => by
      simp only [Bool.or_eq_false_iff, decide_eq_false_iff_not, Nat.not_lt] at hneeded
      refine ⟨?_, .inl hneeded⟩
      cases access <;> cases hd <;> rfl
  rw [print_member, List.append_assoc, List.append_assoc, hbase, ← hchars, haccess, lexemes,
    ← hchars, lexemes_chars, List.append_assoc]
  rfl

theorem subscript_isCut (he : e.IsCut) (hf : f.IsCut) : (binary .subscript e f).IsCut := by
  intro rest hrest
  have hbase := he.grouped (Precedence.access < e.precedence) ('[' :: (f.print ++ ']' :: rest))
    fun _ d hd =>
      letsFollow_of_separator (by cases hd; decide) e
  have hindex := hf.lexemes_append (']' :: rest) fun d hd => by cases hd; decide
  rw [print_subscript, List.append_assoc, List.cons_append, List.append_assoc,
    List.singleton_append, hbase, lexemes_lSquare, hindex, lexemes_rSquare]
  simp [lexemes]

theorem operation_isCut {op : BinaryOp} (hop : op ≠ .subscript) (he : e.IsCut) (hf : f.IsCut) :
    (binary op e f).IsCut := by
  intro rest hrest
  obtain ⟨l, p, -, hlevel, hchars⟩ := op.exists_operator hop
  have hloose : Precedence.access < (binary op e f).precedence := by
    rw [precedence, ← hlevel]
    cases l <;> decide
  have hright := hf.grouped (op.precedence ≤ f.precedence) rest fun _ d hd =>
    (hrest d hd).of_loose hloose f
  rw [print_binary hop, List.append_assoc, List.cons_append, List.append_assoc, List.cons_append,
    he.grouped_space, ← hchars, lexemes_mark_space, hright, hchars, lexemes_binary hop,
    List.append_assoc, List.append_assoc]

theorem binary_isCut (op : BinaryOp) (he : e.IsCut) (hf : f.IsCut) : (binary op e f).IsCut := by
  by_cases hop : op = .subscript
  · subst hop
    exact subscript_isCut he hf
  · exact operation_isCut hop he hf

theorem unary_isCut (op : UnaryOp) (hstart : StartsOperand e.print) (he : e.IsCut) :
    (unary op e).IsCut := by
  intro rest hrest
  have hoperand := he.grouped (Precedence.unary < e.precedence) rest fun _ d hd =>
    (hrest d hd).of_loose (Nat.lt_succ_self _) e
  rw [print_unary, op.lexemes_inFrontOf hstart.grouped, hoperand, lexemes, List.append_assoc]

theorem conditional_isCut (hc : c.IsCut) (he : e.IsCut) (hf : f.IsCut) :
    (conditional c e f).IsCut := by
  intro rest hrest
  have hquestion : ∀ cs, " ? ".toList ++ cs = ' ' :: (Punctuator.question.chars ++ ' ' :: cs) :=
    fun _ => rfl
  have hcolon : ∀ cs, " : ".toList ++ cs = ' ' :: (Punctuator.colon.chars ++ ' ' :: cs) :=
    fun _ => rfl
  have hlast := hf.grouped (Precedence.conditional < f.precedence) rest fun _ d hd =>
    (hrest d hd).of_loose (show Precedence.access < Precedence.conditional by decide) f
  rw [print_conditional, List.append_assoc, List.append_assoc, List.append_assoc,
    List.append_assoc, hquestion, hcolon, hc.grouped_space, lexemes_mark_space, lexemes_chars,
    he.lexemes_append _ fun d hd => by cases hd; decide, lexemes_space, lexemes_mark_space,
    lexemes_chars, hlast]
  simp [lexemes]

/-- The text of a printable expression is cut into its lexemes. -/
theorem isCut_of_printable (h : e.Printable types) : e.IsCut := by
  induction e with
  | poisoned d => exact h.elim
  | truth b => exact truth_isCut b
  | number v s =>
      obtain ⟨hv, t, hlex, ht⟩ := h
      exact number_isCut (lexemes_constant hv hlex ht) (noBlank_head hv)
  | name id => exact fun rest hrest => IsScopedName.lexemes_append h fun d hd => (hrest d hd).1
  | cast t e ih => exact cast_isCut h.1 (ih h.2)
  | member e access field ih => exact member_isCut h.1 (ih h.2)
  | binary op e f ihe ihf => exact binary_isCut op (ihe h.2.1) (ihf h.2.2)
  | unary op e ih => exact unary_isCut op (startsOperand_print h.2) (ih h.2)
  | conditional c e f ihc ihe ihf =>
      exact conditional_isCut (ihc h.2.1) (ihe h.2.2.1) (ihf h.2.2.2)

end Expr

end WatchExpr
