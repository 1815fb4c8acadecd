import WatchExpr.Proofs.Printing.Groups
import WatchExpr.Proofs.Printing.Lexemes

/-!
# Printed expressions as phrases

The tokens of the text of an expression derive it at the level of its precedence. An operand of a
looser level stands in parentheses, and those of a tighter level are phrases of the level as well.
-/

namespace WatchExpr

namespace Grammar

/-- The phrases that hold together at least as tightly as a given precedence. -/
def Nonterminal.ofPrecedence : Precedence → Nonterminal
  | 0 | 1 => .primary
  | 2 => .access
  | 3 | 4 => .cast
  | 5 => .binary .multiplicative
  | 6 => .binary .additive
  | 7 | 8 => .binary .shift
  | 9 => .binary .relational
  | 10 => .binary .equality
  | 11 => .binary .bitAnd
  | 12 => .binary .bitXor
  | 13 => .binary .bitOr
  | 14 => .binary .logicalAnd
  | 15 => .binary .logicalOr
  | 16 => .conditional
  | _ => .expression

open Nonterminal

theorem Level.ofPrecedence_precedence (l : Level) : ofPrecedence l.precedence = .binary l := by
  cases l <;> rfl

theorem Level.ofPrecedence_operand (l : Level) : ofPrecedence (l.precedence - 1) = l.operand := by
  cases l <;> rfl

variable {inner : Parenthesised} {p q : Precedence} {ts : List Token} {e : Expr}

theorem Derives.loosen_succ :
    ∀ {p}, Derives inner (ofPrecedence p) ts e → Derives inner (ofPrecedence (p + 1)) ts e
  | 0, h => h
  | 1, h => .primary h
  | 2, h => .uncast (.access h)
  | 3, h => h
  | 4, h | 5, h | 6, h => .operand h
  | 7, h => h
  | 8, h | 9, h | 10, h | 11, h | 12, h | 13, h | 14, h => .operand h
  | 15, h => .condition h
  | 16, h => .assignment (.conditional h)
  | _ + 17, h => h

/-- Phrases of a tighter level are phrases of a looser one. -/
theorem Derives.loosen (h : Derives inner (ofPrecedence p) ts e) (hpq : p ≤ q) :
    Derives inner (ofPrecedence q) ts e := by
  induction hpq with
  | refl => exact h
  | step _ ih => exact ih.loosen_succ

theorem Derives.toExpression (h : Derives inner (ofPrecedence p) ts e) :
    Derives inner .expression ts e :=
  h.loosen (Nat.le_add_right p 17)

/-- What is known of the tokens that an expression is printed as. -/
structure Phrase (global : Bool) (types : TypeNames) (p : Precedence) (ts : List Token)
    (e : Expr) : Prop where
  derives : Derives (printed global types) (ofPrecedence p) ts e
  ahead : OperandAhead global ts
  angles : OperandsBehindAngles global ts
  start : IsGroup global ts ∨ ∃ name, e = .name name ∧ QualifiedName ts name

/-- Some tokens, namely those of the text of an expression, are a phrase of its precedence. -/
def IsPhrase (global : Bool) (types : TypeNames) (e : Expr) : Prop :=
  ∀ ts, ts.map Token.lexeme = e.lexemes → Phrase global types e.precedence ts e

variable {global : Bool} {types : TypeNames} {t l r m : Token} {us : List Token} {needed : Bool}

theorem OperandAhead.cons (ht : isSign t.kind ∨ leavesType global t.kind)
    (h : OperandAhead global ts) : OperandAhead global (t :: ts) := by
  cases ht with
  | inl ht => exact .sign ht h
  | inr ht => exact .leave ht

/-- What is no name starts with no type; in front of an operand neither does a name. -/
theorem Phrase.isGroup_append (h : Phrase global types p ts e)
    (ht : t.kind ≠ .punct .colonColon) (hus : OperandAhead global (t :: us)) :
    IsGroup global (ts ++ t :: us) := by
  rcases h.start with hgroup | ⟨name, -, hname⟩
  · exact hgroup.append
  · exact .named hname (fun u hu => by cases hu; exact ht) hus

/-- A group is a phrase of any precedence. -/
theorem IsPhrase.group (h : IsPhrase global types e) (he : 0 < e.precedence ∨ e.isNumber)
    (hts : ts.map Token.lexeme = groupedLexemes true e.lexemes) : Phrase global types p ts e := by
  obtain ⟨l, us, rfl, hl, hus⟩ := exists_mark hts
  obtain ⟨vs, ws, rfl, hvs, hws⟩ := List.map_eq_append_iff.1 hus
  obtain ⟨r, rfl, hr⟩ := exists_last_mark hws
  have hphrase := h vs hvs
  -- Only a name could be taken for a type here, and names are never put in parentheses.
  have hgroup : IsGroup global vs := by
    refine hphrase.start.resolve_right ?_
    rintro ⟨name, rfl, -⟩
    rcases he with he | he <;> cases he
  have hderives : Derives (printed global types) (ofPrecedence 0) (l :: (vs ++ [r])) e :=
    .group hl hr hgroup hphrase.derives.toExpression
  exact {
    derives := hderives.loosen (Nat.zero_le p)
    ahead := .leave (by rw [hl]; rfl)
    angles := .cons (by rw [hl]; rfl)
      (hphrase.angles.append (.cons (by rw [hr]; rfl) trivial))
    start := .inl (.plain (by rw [hl]; rfl)) }

theorem IsPhrase.loosen (h : IsPhrase global types e) (hp : e.precedence ≤ p)
    (hts : ts.map Token.lexeme = e.lexemes) : Phrase global types p ts e :=
  have hphrase := h ts hts
  { hphrase with derives := hphrase.derives.loosen hp }

/-- An operand, in parentheses if it is looser than its place. -/
theorem IsPhrase.operand (h : IsPhrase global types e)
    (hts : ts.map Token.lexeme = groupedLexemes (p < e.precedence) e.lexemes) :
    Phrase global types p ts e := by
  by_cases hneeded : p < e.precedence
  · rw [decide_eq_true hneeded] at hts
    exact h.group (.inl (Nat.zero_lt_of_lt hneeded)) hts
  · rw [decide_eq_false hneeded] at hts
    exact h.loosen (Nat.le_of_not_lt hneeded) hts

/-! ## The kinds of expressions -/

variable {f c : Expr} {id : String}

theorem truth_isPhrase (b : Bool) : IsPhrase global types (.truth b) := by
  intro ts hts
  obtain ⟨t, rfl, ht⟩ := List.map_eq_singleton_iff.1 hts
  have hkind : t.kind = .keyword (.truth b) := congrArg Lexeme.kind ht
  exact {
    derives := .truth hkind
    ahead := .leave (by rw [hkind]; rfl)
    angles := .cons (by rw [hkind]; rfl) trivial
    start := .inl (.plain (by rw [hkind]; rfl)) }

theorem number_isPhrase {v : Scalar} {s : String} (hv : Literal.read s = .ok v) :
    IsPhrase global types (.number v s) := by
  intro ts hts
  obtain ⟨t, rfl, ht⟩ := List.map_eq_singleton_iff.1 hts
  obtain ⟨hkind, rfl⟩ := Token.of_lexeme ht
  exact {
    derives := .number hkind hv
    ahead := .leave (by rw [hkind]; rfl)
    angles := .cons (by rw [hkind]; rfl) trivial
    start := .inl (.plain (by rw [hkind]; rfl)) }

theorem NestedName.kinds (h : NestedName ts id) :
    ∀ t ∈ ts, t.kind = .identifier ∨ t.kind = .punct .colonColon := by
  induction h with
  | last ht =>
      intro t hmem
      obtain rfl := List.mem_singleton.1 hmem
      exact .inl ht
  | scope ht hs _ ih =>
      intro t hmem
      rcases List.mem_cons.1 hmem with rfl | hmem
      · exact .inl ht
      · rcases List.mem_cons.1 hmem with rfl | hmem
        · exact .inr hs
        · exact ih t hmem

theorem NestedName.not_closesTemplate (h : NestedName ts id) :
    ∀ t ∈ ts, closesTemplate t.kind = false := by
  intro t ht
  rcases h.kinds t ht with hk | hk <;> rw [hk] <;> rfl

theorem name_isPhrase (h : IsScopedName id) : IsPhrase global types (.name id) := by
  intro ts hts
  have hname := h.nestedName hts
  obtain ⟨t, us, heq, ht⟩ := hname.starts
  exact {
    derives := .name (.nested hname)
    ahead := heq ▸ .leave (by rw [ht]; rfl)
    angles := .of_forall hname.not_closesTemplate
    start := .inr ⟨id, rfl, .nested hname⟩ }

theorem closesTemplate_wordKind (w : List Char) :
    closesTemplate (Lexeme.wordKind w) = false := by
  unfold Lexeme.wordKind
  split <;> rfl

theorem closesTemplate_qualifiers (q : Qualifiers) :
    ∀ u ∈ q.lexemes, closesTemplate u.kind = false := by
  intro u hu
  obtain ⟨w, -, rfl⟩ := List.mem_map.1 hu
  exact closesTemplate_wordKind _

theorem closesTemplate_scopedName (h : IsScopedName id) :
    ∀ u ∈ Tokens.lexemes id.toList, closesTemplate u.kind = false := by
  intro u hu
  have hname : NestedName (Tokens.lex id).body id := h.nestedName rfl
  obtain ⟨t, ht, rfl⟩ := List.mem_map.1 hu
  exact hname.not_closesTemplate t ht

/-- Types are printed without angle brackets. -/
theorem closesTemplate_type {t : Ty} (ht : t.IsPointerForm types) :
    ∀ u ∈ t.lexemes, closesTemplate u.kind = false := by
  induction t with
  | scalar k q =>
      intro u hu
      rcases List.mem_append.1 hu with hu | hu
      · exact closesTemplate_qualifiers q u hu
      · obtain ⟨w, -, rfl⟩ := List.mem_map.1 hu
        exact closesTemplate_wordKind _
  | tagged r q =>
      intro u hu
      rcases List.mem_append.1 hu with hu | hu
      · exact closesTemplate_qualifiers q u hu
      · exact closesTemplate_scopedName ht.1 u hu
  | pointer t q ih =>
      intro u hu
      rcases List.mem_append.1 hu with hu | hu
      · exact ih ht u hu
      · rcases List.mem_cons.1 hu with rfl | hu
        · rfl
        · exact closesTemplate_qualifiers q u hu
  | reference t q => exact ht.elim
  | array t n q => exact ht.elim

theorem closesTemplate_castForm {t : Ty} (ht : t.IsCastForm types) :
    ∀ u ∈ t.lexemes, closesTemplate u.kind = false := by
  cases t with
  | reference t q =>
      intro u hu
      rcases List.mem_append.1 hu with hu | hu
      · exact closesTemplate_type ht.2.2 u hu
      · obtain rfl := List.mem_singleton.1 hu
        rfl
  | _ => exact closesTemplate_type ht.2

theorem cast_isPhrase {t : Ty} (ht : t.IsCastForm types) (he : IsPhrase global types e) :
    IsPhrase global types (.cast t e) := by
  intro ts hts
  obtain ⟨l, us, rfl, hl, hus⟩ := exists_mark hts
  obtain ⟨vs, ws, rfl, hvs, hws⟩ := List.map_eq_append_iff.1 hus
  obtain ⟨r, xs, rfl, hr, hxs⟩ := exists_mark hws
  have hoperand : Phrase global types 3 xs e := he.operand hxs
  have htype : ∀ u ∈ vs, closesTemplate u.kind = false := fun u hu =>
    closesTemplate_castForm ht u.lexeme (hvs ▸ List.mem_map_of_mem hu)
  exact {
    derives := .cast hl hr ⟨ht, hvs⟩ hoperand.derives
    ahead := .leave (by rw [hl]; rfl)
    angles := .cons (by rw [hl]; rfl)
      ((OperandsBehindAngles.of_forall htype).append (.cons (by rw [hr]; rfl) hoperand.angles))
    start := .inl (.plain (by rw [hl]; rfl)) }

theorem unary_isPhrase (op : UnaryOp) (he : IsPhrase global types e) :
    IsPhrase global types (.unary op e) := by
  intro ts hts
  obtain ⟨p, hop, hchars⟩ := op.exists_operator
  rw [Expr.lexemes, ← hchars, lexemes_chars, List.singleton_append] at hts
  obtain ⟨t, us, rfl, ht, hus⟩ := exists_mark hts
  have hmark : ∀ q ∈ unaryOperators, specifierStart? (.punct q.1) = none ∧
      (isSign (.punct q.1) ∨ leavesType global (.punct q.1)) ∧
      closesTemplate (.punct q.1) = false := by
    cases global <;> decide
  obtain ⟨hstart, hahead, hclose⟩ := hmark _ hop
  rw [← ht] at hstart hahead hclose
  have hoperand : Phrase global types 3 us e := he.operand hus
  have hderives : Derives (printed global types) .unary (t :: us) (.unary op e) :=
    .unary hop ht hoperand.derives
  exact {
    derives := .uncast hderives
    ahead := .cons hahead hoperand.ahead
    angles := .cons hclose hoperand.angles
    start := .inl (.plain hstart) }

theorem member_isPhrase {access : MemberAccess} {field : String} (he : IsPhrase global types e) :
    IsPhrase global types (.member e access field) := by
  intro ts hts
  obtain ⟨p, hop, hchars⟩ := access.exists_operator
  rw [Expr.lexemes, ← hchars, lexemes_chars, List.singleton_append] at hts
  obtain ⟨us, vs, rfl, hus, hvs⟩ := List.map_eq_append_iff.1 hts
  obtain ⟨t, ws, rfl, ht, hws⟩ := exists_mark hvs
  obtain ⟨m, rfl, hm⟩ := List.map_eq_singleton_iff.1 hws
  obtain ⟨hfield, rfl⟩ := Token.of_lexeme hm
  have hmark : ∀ q ∈ memberOperators, leavesType global (.punct q.1) ∧
      closesTemplate (.punct q.1) = false ∧ q.1 ≠ .colonColon := by
    cases global <;> decide
  obtain ⟨hleave, hclose, hscope⟩ := hmark _ hop
  rw [← ht] at hleave hclose
  have hbase : Phrase global types 2 us e := by
    by_cases hnumber : e.isNumber
    · rw [hnumber, Bool.or_true] at hus
      exact he.group (.inr hnumber) hus
    · rw [Bool.eq_false_iff.2 hnumber, Bool.or_false] at hus
      exact he.operand hus
  exact {
    derives := .member hop ht hfield hbase.derives
    ahead := hbase.ahead.append
    angles := hbase.angles.append (.cons hclose (.cons (by rw [hfield]; rfl) trivial))
    start := .inl (hbase.isGroup_append (by simp [ht, hscope]) (.leave hleave)) }

theorem subscript_isPhrase (he : IsPhrase global types e) (hf : IsPhrase global types f) :
    IsPhrase global types (.binary .subscript e f) := by
  intro ts hts
  obtain ⟨us, vs, rfl, hus, hvs⟩ := List.map_eq_append_iff.1 hts
  obtain ⟨l, ws, rfl, hl, hws⟩ := exists_mark hvs
  obtain ⟨xs, ys, rfl, hxs, hys⟩ := List.map_eq_append_iff.1 hws
  obtain ⟨r, rfl, hr⟩ := exists_last_mark hys
  have hbase : Phrase global types 2 us e := he.operand hus
  have hindex := hf xs hxs
  exact {
    derives := .subscript hl hr hbase.derives hindex.derives.toExpression
    ahead := hbase.ahead.append
    angles := hbase.angles.append (.cons (by rw [hl]; rfl)
      (hindex.angles.append (.cons (by rw [hr]; rfl) trivial)))
    start := .inl (hbase.isGroup_append (by simp [hl]) (.leave (by rw [hl]; rfl))) }

theorem operation_isPhrase {op : BinaryOp} (h : op ≠ .subscript) (he : IsPhrase global types e)
    (hf : IsPhrase global types f) : IsPhrase global types (.binary op e f) := by
  intro ts hts
  obtain ⟨l, p, hop, hlevel, hchars⟩ := op.exists_operator h
  rw [Expr.lexemes_binary h, ← hchars, lexemes_chars, List.singleton_append, ← hlevel] at hts
  obtain ⟨us, vs, rfl, hus, hvs⟩ := List.map_eq_append_iff.1 hts
  obtain ⟨t, ws, rfl, ht, hws⟩ := exists_mark hvs
  have hmark : ∀ q ∈ l.operators,
      (isSign (.punct q.1) ∨ leavesType global (.punct q.1)) ∧ q.1 ≠ .colonColon := by
    cases global <;> cases l <;> decide
  obtain ⟨hahead, hscope⟩ := hmark _ hop
  rw [← ht] at hahead
  -- In front of the right operand equal precedence is too loose already, since levels group to the
  -- left.
  rw [l.precedence_eq] at hws
  have hleft : Phrase global types l.precedence us e := he.operand hus
  have hright : Phrase global types (l.precedence - 1) ws f := hf.operand hws
  have hleftDerives := hleft.derives
  have hrightDerives := hright.derives
  rw [l.ofPrecedence_precedence] at hleftDerives
  rw [l.ofPrecedence_operand] at hrightDerives
  have hderives : Derives (printed global types) (.binary l) (us ++ t :: ws) (.binary op e f) :=
    .binary hop ht hleftDerives hrightDerives
  rw [← l.ofPrecedence_precedence, hlevel] at hderives
  exact {
    derives := hderives
    ahead := hleft.ahead.append
    angles := hleft.angles.append ⟨fun _ => hright.ahead, hright.angles⟩
    start := .inl (hleft.isGroup_append (by simp [ht, hscope]) (.cons hahead hright.ahead)) }

theorem binary_isPhrase (op : BinaryOp) (he : IsPhrase global types e)
    (hf : IsPhrase global types f) : IsPhrase global types (.binary op e f) := by
  by_cases hop : op = .subscript
  · subst hop
    exact subscript_isPhrase he hf
  · exact operation_isPhrase hop he hf

theorem conditional_isPhrase (hc : IsPhrase global types c) (he : IsPhrase global types e)
    (hf : IsPhrase global types f) : IsPhrase global types (.conditional c e f) := by
  intro ts hts
  obtain ⟨cs, us, rfl, hcs, hus⟩ := List.map_eq_append_iff.1 hts
  obtain ⟨q, vs, rfl, hq, hvs⟩ := exists_mark hus
  obtain ⟨es, ws, rfl, hes, hws⟩ := List.map_eq_append_iff.1 hvs
  obtain ⟨colon, fs, rfl, hcolon, hfs⟩ := exists_mark hws
  have hcondition : Phrase global types 15 cs c := hc.operand hcs
  have hthen := he es hes
  have helse : Phrase global types 16 fs f := hf.operand hfs
  exact {
    derives := .choice hq hcolon hcondition.derives hthen.derives.toExpression
      (.conditional helse.derives)
    ahead := hcondition.ahead.append
    angles := hcondition.angles.append (.cons (by rw [hq]; rfl)
      (hthen.angles.append (.cons (by rw [hcolon]; rfl) helse.angles)))
    start := .inl (hcondition.isGroup_append (by simp [hq]) (.leave (by rw [hq]; rfl))) }

/-- The tokens of a printable expression are a phrase of its precedence. -/
theorem isPhrase_of_printable (h : e.Printable types) : IsPhrase false types e := by
  induction e with
  | poisoned d => exact h.elim
  | truth b => exact truth_isPhrase b
  | number v s => exact number_isPhrase h.1
  | name id => exact name_isPhrase h
  | cast t e ih => exact cast_isPhrase h.1 (ih h.2)
  | member e access field ih => exact member_isPhrase (ih h.2)
  | binary op e f ihe ihf => exact binary_isPhrase op (ihe h.2.1) (ihf h.2.2)
  | unary op e ih => exact unary_isPhrase op (ih h.2)
  | conditional c e f ihc ihe ihf =>
      exact conditional_isPhrase (ihc h.2.1) (ihe h.2.2.1) (ihf h.2.2.2)

end Grammar

end WatchExpr
