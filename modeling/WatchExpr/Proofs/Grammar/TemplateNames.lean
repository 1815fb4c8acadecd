import WatchExpr.Grammar.Reading
import WatchExpr.Proofs.Grammar.Names
import WatchExpr.Proofs.Grammar.Runs

/-!
# Trees without template names

The text of a name keeps the template arguments that it was read with. So a tree of names and binary
operators in which no name has an angle bracket was read from plain names: a rule that yields such a
tree passes over no identifier in front of template arguments that `::` follows. What a rule of
operators is given is part of what it yields, so these rules are followed from their end.
-/

namespace WatchExpr

/-- Names with a property, joined by binary operators. -/
def Expr.JoinsNames (p : String → Prop) : Expr → Prop
  | .name id => p id
  | .binary _ e f => e.JoinsNames p ∧ f.JoinsNames p
  | _ => False

theorem Expr.JoinsNames.mono {p q : String → Prop} {e : Expr} (hpq : ∀ id, p id → q id)
    (h : e.JoinsNames p) : e.JoinsNames q := by
  induction e with
  | name id => exact hpq id h
  | binary op e f ihe ihf => exact ⟨ihe h.1, ihf h.2⟩
  | _ => exact h.elim

namespace Grammar

/-- A name without template arguments. -/
def Untemplated (name : String) : Prop :=
  '<' ∉ name.toList

theorem untemplated_append {m n : String} :
    Untemplated (m ++ n) ↔ Untemplated m ∧ Untemplated n := by
  simp only [Untemplated, String.toList_append, List.mem_append, not_or]

/-- The second list is the end of the first, and none of the tokens in front of it is the name of a
template whose arguments are followed by `::`. -/
inductive PassesPlain (finish : EndMark) : List Token → List Token → Prop where
  | refl {ts : List Token} : PassesPlain finish ts ts
  | step {t : Token} {ts rest : List Token}
      (ht : t.kind = .identifier → scopesTemplate finish ts = false)
      (h : PassesPlain finish ts rest) : PassesPlain finish (t :: ts) rest

variable {finish : EndMark} {ts us rest : List Token} {t : Token} {name text : String}

namespace PassesPlain

theorem cons (ht : t.kind ≠ .identifier) (h : PassesPlain finish ts rest) :
    PassesPlain finish (t :: ts) rest :=
  .step (fun hid => absurd hid ht) h

theorem trans (h : PassesPlain finish ts us) (hus : PassesPlain finish us rest) :
    PassesPlain finish ts rest := by
  induction h with
  | refl => exact hus
  | step ht _ ih => exact .step ht (ih hus)

theorem mem (h : PassesPlain finish ts rest) (ht : t ∈ rest) : t ∈ ts := by
  induction h with
  | refl => exact ht
  | step _ _ ih => exact List.mem_cons_of_mem _ (ih ht)

/-- Where all tokens are passed over all names are plain. -/
theorem plainNames (h : PassesPlain finish ts rest) (hrest : rest = []) : PlainNames finish ts := by
  induction h with
  | refl =>
      subst hrest
      trivial
  | step ht _ ih => exact ⟨ht, ih hrest⟩

end PassesPlain

/-! ## Names -/

/-- A component with template arguments has an angle bracket. -/
theorem component?_of_untemplated (h : component? finish ts = some (text, rest))
    (htext : Untemplated text) :
    ∃ t s, ts = t :: s :: rest ∧ t.kind = .identifier ∧ s.kind = .punct .colonColon ∧
      text = t.spelling ++ "::" := by
  obtain ⟨t, us, s, args, rfl, ht, hs, rfl, hargs | ⟨rfl, rfl⟩⟩ := component?_cases h
  · obtain ⟨l, us, u, -, -, -, rfl⟩ := templateArguments_ends hargs
    exact absurd htext (by simp [Untemplated])
  · exact ⟨t, s, rfl, ht, hs, by rw [String.append_empty]⟩

/-- Behind the last identifier of a name there are no template arguments that `::` follows. -/
theorem scopesTemplate_eq_false_of_component? (ht : t.kind = .identifier)
    (h : component? finish (t :: ts) = none) : scopesTemplate finish ts = false := by
  refine Bool.eq_false_iff.2 fun hscope => ?_
  obtain ⟨args, s, rest, hargs, hs⟩ := scopesTemplate_iff.1 hscope
  obtain ⟨l, us, u, rfl, hl, -⟩ := templateArguments_ends hargs
  simp [component?, ht, templateArguments?, hl, hargs, hs] at h

theorem nestedName_passesPlain
    (h : expect finish .identifier (nestedName finish ts).2 = .ok t rest)
    (htext : Untemplated (nestedName finish ts).1) : PassesPlain finish ts rest := by
  induction hn : ts.length using Nat.strongRecOn generalizing ts with
  | ind n ih =>
      cases hc : component? finish ts with
      | none =>
          rw [nestedName_of_none hc] at h
          obtain ⟨rfl, ht⟩ := (expect_eq_ok_iff (by simp)).1 h
          exact .step (fun _ => scopesTemplate_eq_false_of_component? ht hc) .refl
      | some q =>
          obtain ⟨text, us⟩ := q
          rw [nestedName_of_some hc] at h htext
          obtain ⟨hhead, hmore⟩ := untemplated_append.1 htext
          obtain ⟨u, s, rfl, -, hs, -⟩ := component?_of_untemplated hc hhead
          have hscope : s.kind ≠ .punct .less := by simp [hs]
          have hlt : us.length < n := by
            rw [← hn]
            exact Nat.lt_succ_of_lt (Nat.lt_succ_self _)
          exact .step (fun _ => scopesTemplate_of_ne_less hscope)
            (.cons (by simp [hs]) (ih _ hlt h hmore rfl))

/-- Without template arguments the components and the last identifier are a name of the grammar. -/
theorem nestedName_of_untemplated
    (h : expect finish .identifier (nestedName finish ts).2 = .ok t rest)
    (htext : Untemplated (nestedName finish ts).1) :
    ∃ us, ts = us ++ rest ∧ NestedName us ((nestedName finish ts).1 ++ t.spelling) := by
  refine nestedName_sound_of (P := fun _ text => Untemplated text) (fun hc htext => ?_) htext h
  obtain ⟨hhead, hmore⟩ := untemplated_append.1 htext
  exact ⟨hmore, component?_of_untemplated hc hhead⟩

theorem qualifiedName_passesPlain (h : qualifiedName finish ts = .ok name rest)
    (hname : Untemplated name) : PassesPlain finish ts rest := by
  rw [qualifiedName] at h
  obtain ⟨t, ht, rfl⟩ := Outcome.map_eq_ok_iff.1 h
  obtain ⟨hscope, -⟩ := untemplated_append.1 hname
  have hnested := nestedName_passesPlain ht (untemplated_append.1 hscope).2
  split at hnested
  · exact .cons (by simp) hnested
  · exact hnested

/-! ## Rules -/

/-- The tree that a rule goes on with, if any, consists of names with a property. -/
def Rule.JoinsNames (p : String → Prop) : Rule → Prop
  | .operators _ e | .accesses e => e.JoinsNames p
  | _ => True

variable {env : Env} {rule : Rule} {e : Expr}

/-- A run that yields a tree without template names passes over no template name, and neither is one
in the tree that it goes on with. -/
theorem Runs.passesPlain (h : Runs env rule ts e rest) (he : e.JoinsNames Untemplated) :
    rule.JoinsNames Untemplated ∧ PassesPlain env.finish ts rest := by
  induction h with
  | expression _ ih => exact ⟨trivial, (ih he).2⟩
  | condition _ ih => exact ⟨trivial, (ih he).2⟩
  | choice _ _ _ _ _ => exact he.elim
  | operand _ ih => exact ⟨trivial, (ih he).2⟩
  | level _ _ ihe ihf =>
      obtain ⟨hleft, hmore⟩ := ihf he
      exact ⟨trivial, (ihe hleft).2.trans hmore⟩
  | noOperator => exact ⟨he, .refl⟩
  | operator ht _ _ ihf ihmore =>
      -- The right operand is in the tree that the further operators go on with.
      obtain ⟨htree, hmore⟩ := ihmore he
      refine ⟨htree.1, .cons (fun hid => ?_) ((ihf htree.2).2.trans hmore)⟩
      rw [hid] at ht
      cases ht
  | cast _ _ _ => exact he.elim
  | uncast _ ih => exact ⟨trivial, (ih he).2⟩
  | unary _ _ => exact he.elim
  | bare _ ih => exact ⟨trivial, (ih he).2⟩
  | access _ _ ihe ihf =>
      obtain ⟨hbase, hmore⟩ := ihf he
      exact ⟨trivial, (ihe hbase).2.trans hmore⟩
  | noAccess => exact ⟨he, .refl⟩
  | subscript hl _ hr _ ihi ihmore =>
      obtain ⟨htree, hmore⟩ := ihmore he
      exact ⟨htree.1, .cons (by simp [hl]) ((ihi htree.2).2.trans (.cons (by simp [hr]) hmore))⟩
  | member _ _ _ ih => exact (ih he).1.elim
  | number _ _ => exact he.elim
  | truth _ => exact he.elim
  | group hl _ hr ih =>
      exact ⟨trivial, .cons (by simp [hl]) ((ih he).2.trans (.cons (by simp [hr]) .refl))⟩
  | name hid => exact ⟨trivial, qualifiedName_passesPlain hid he⟩

/-- Whole texts that yield a tree without template names have plain names. -/
theorem plainNames_of_wholeExpression (heof : ∀ t ∈ ts, t.kind ≠ .eof)
    (h : wholeExpression env ts = .ok e rest) (he : e.JoinsNames Untemplated) :
    PlainNames env.finish ts := by
  obtain ⟨f, ms, hf, hend⟩ := Outcome.andThen_eq_ok_iff.1 h
  obtain ⟨t, hexpect, rfl⟩ := Outcome.map_eq_ok_iff.1 hend
  obtain ⟨-, hpasses⟩ := (runs_of_run hf).passesPlain he
  obtain ⟨rfl, -, -⟩ := (expect_eof_eq_ok_iff fun u hu => heof u (hpasses.mem hu)).1 hexpect
  exact hpasses.plainNames rfl

end Grammar

end WatchExpr
