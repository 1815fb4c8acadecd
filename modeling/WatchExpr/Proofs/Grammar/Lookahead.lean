import WatchExpr.Proofs.Grammar.Levels
import WatchExpr.Proofs.Grammar.Names

/-!
# Tokens around a phrase

How loosely a token holds on to the phrase in front of it is a number, as for precedences; a rule stops
where the next token holds on more loosely. What a phrase starts with tells which rule reads it.
-/

namespace WatchExpr.Grammar

/-! ## Tokens behind a phrase -/

/-- How loosely a token holds on to the phrase in front of it. -/
def looseness (k : TokenKind) : Precedence :=
  if k = .punct .colonColon then 0
  else if (accessStart? k).isSome then 2
  else if k = .punct .question then 16
  else if isAssignment k then 17
  else (binaryOp? k).elim 18 BinaryOp.precedence

/-- How loosely a token may hold on to a phrase of a sort and still be read with it. -/
def Nonterminal.looseness : Nonterminal → Precedence
  | .expression | .assignment | .conditional => 17
  | .binary l => l.precedence
  | .cast | .unary => 3
  | .access => 2
  | .primary => 0

/-- The first token, if any, holds on more loosely than a given number. -/
def Stops (p : Precedence) (ts : List Token) : Prop :=
  ∀ t ∈ ts.head?, p < looseness t.kind

variable {k : TokenKind} {p q : Precedence} {l : Level} {t : Token} {ts us rest : List Token}

theorem Stops.mono (h : Stops q ts) (hpq : p ≤ q) : Stops p ts :=
  fun t ht => Nat.lt_of_le_of_lt hpq (h t ht)

theorem stops_cons (h : p < looseness t.kind) : Stops p (t :: ts) := by
  intro u hu
  cases hu
  exact h

theorem looseness_of_operator {mark : Punctuator} {op : BinaryOp}
    (h : (mark, op) ∈ l.operators) : looseness (.punct mark) = l.precedence := by
  have hall : ∀ q ∈ l.operators, looseness (.punct q.1) = l.precedence := by
    cases l <;> decide
  exact hall _ h

theorem looseness_of_memberOperator {mark : Punctuator} {access : MemberAccess}
    (h : (mark, access) ∈ memberOperators) : looseness (.punct mark) = 2 := by
  have hall : ∀ q ∈ memberOperators, looseness (.punct q.1) = 2 := by decide
  exact hall _ h

/-- What all punctuators satisfy, and other tokens trivially, all tokens do. -/
theorem forall_kind_of_punct {p : TokenKind → Prop} (hother : ∀ k, (∀ m, k ≠ .punct m) → p k)
    (h : ∀ m ∈ Punctuator.all, p (.punct m)) (k : TokenKind) : p k := by
  cases k with
  | punct m => exact h m (Punctuator.mem_all m)
  | _ => exact hother _ fun m hm => by cases hm

theorem Stops.noScopeAhead (h : Stops p ts) : NoScopeAhead ts := by
  intro t ht hk
  have := h t ht
  rw [hk] at this
  exact absurd this (Nat.not_lt_zero p)

theorem Stops.accessStart? (h : Stops 2 ts) : accept? accessStart? ts = none := by
  refine accept?_eq_none_iff.2 fun t ht => ?_
  have hall : ∀ k, 2 < looseness k → Grammar.accessStart? k = none :=
    forall_kind_of_punct (fun k hk _ => by cases k <;> first | rfl | exact absurd rfl (hk _))
      (by decide)
  exact hall t.kind (h t ht)

theorem Stops.operatorAt? (h : Stops l.precedence ts) :
    accept? (operatorAt? l.precedence) ts = none := by
  refine accept?_eq_none_iff.2 fun t ht => ?_
  have hall : ∀ k, l.precedence < looseness k → Grammar.operatorAt? l.precedence k = none :=
    forall_kind_of_punct (fun k hk _ => by cases k <;> first | rfl | exact absurd rfl (hk _))
      (by cases l <;> decide)
  exact hall t.kind (h t ht)

theorem Stops.question (h : Stops 16 ts) : accept? (isMark .question) ts = none := by
  refine accept?_eq_none_iff.2 fun t ht => isMark_eq_none_iff.2 fun hk => ?_
  have := h t ht
  rw [hk] at this
  exact absurd this (by decide)

theorem Stops.isAssignment {finish : EndMark} (h : Stops 17 ts) :
    isAssignment (current finish ts).kind = false := by
  cases ts with
  | nil => rfl
  | cons t ts =>
      have hall : ∀ k, 17 < looseness k → Grammar.isAssignment k = false :=
        forall_kind_of_punct (fun k hk _ => by cases k <;> first | rfl | exact absurd rfl (hk _))
          (by decide)
      exact hall t.kind (h t rfl)

/-! ## Tokens at the start of a phrase -/

/-- Tokens that a primary expression starts with. -/
def startsPrimary : TokenKind → Bool
  | .number | .keyword (.truth _) | .identifier | .punct .lParen | .punct .colonColon => true
  | _ => false

theorem unaryOp?_of_startsPrimary (h : startsPrimary k) : unaryOp? k = none := by
  cases k with
  | punct m => cases m <;> first | rfl | cases h
  | _ => rfl

theorem isIncrement_of_startsPrimary (h : startsPrimary k) : isIncrement k = false := by
  cases k with
  | punct m => cases m <;> first | rfl | cases h
  | _ => rfl

variable {inner : Parenthesised} {n : Nonterminal} {e : Expr}

/-- If the first token is a parenthesis, then it opens a group. -/
def OpensGroup (inner : Parenthesised) (t : Token) (ts : List Token) : Prop :=
  t.kind = .punct .lParen →
    ∃ us r vs, ts = us ++ r :: vs ∧ r.kind = .punct .rParen ∧ inner.group us

theorem OpensGroup.append (h : OpensGroup inner t ts) : OpensGroup inner t (ts ++ rest) := by
  intro ht
  obtain ⟨us, r, vs, rfl, hr, hus⟩ := h ht
  exact ⟨us, r, vs ++ rest, by simp, hr, hus⟩

theorem Derives.starts (h : Derives inner n ts e) (hn : n = .access ∨ n = .primary) :
    ∃ t us, ts = t :: us ∧ startsPrimary t.kind ∧ OpensGroup inner t us := by
  induction h with
  | primary _ ih => exact ih (.inr rfl)
  | subscript _ _ _ _ ih _ =>
      obtain ⟨t, us, rfl, ht, hg⟩ := ih (.inl rfl)
      exact ⟨t, _, rfl, ht, hg.append⟩
  | member _ _ _ _ ih =>
      obtain ⟨t, us, rfl, ht, hg⟩ := ih (.inl rfl)
      exact ⟨t, _, rfl, ht, hg.append⟩
  | number ht _ => exact ⟨_, _, rfl, by simp [ht, startsPrimary], fun h => by simp [ht] at h⟩
  | truth ht => exact ⟨_, _, rfl, by simp [ht, startsPrimary], fun h => by simp [ht] at h⟩
  | group hl hr hg _ _ =>
      exact ⟨_, _, rfl, by simp [hl, startsPrimary], fun _ => ⟨_, _, [], rfl, hr, hg⟩⟩
  | name h =>
      obtain ⟨t, us, rfl, ht | ht⟩ := h.starts
      · exact ⟨t, us, rfl, by simp [ht, startsPrimary], fun h => by simp [ht] at h⟩
      · exact ⟨t, us, rfl, by simp [ht, startsPrimary], fun h => by simp [ht] at h⟩
  | _ => simp at hn

/-- A parenthesis in front of a unary expression opens a group. -/
theorem Derives.unary_opensGroup (h : Derives inner .unary ts e) :
    ∃ t us, ts = t :: us ∧ OpensGroup inner t us := by
  cases h with
  | access h =>
      obtain ⟨t, us, rfl, -, hg⟩ := h.starts (.inl rfl)
      exact ⟨t, us, rfl, hg⟩
  | unary hop ht _ =>
      refine ⟨_, _, rfl, fun hl => ?_⟩
      rw [ht] at hl
      cases hl
      revert hop
      simp [unaryOperators]

end WatchExpr.Grammar
