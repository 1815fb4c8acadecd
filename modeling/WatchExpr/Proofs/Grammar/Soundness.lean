import WatchExpr.Proofs.Grammar.Casts
import WatchExpr.Proofs.Grammar.Levels
import WatchExpr.Proofs.Grammar.Names

/-!
# Soundness of the rules

Where no type is known and no template argument list can stand in a name, what a rule consumes is a
phrase of its sort. Each rule is sound on a list if the rules that it calls are: those of tighter sorts
on the list itself, and all of them on shorter lists.
-/

namespace WatchExpr.Grammar

/-- Tokens in which nothing but the cast-free grammar can be meant: no type keywords, and no closing
angle bracket in front of `::`. -/
structure Plain (ts : List Token) : Prop where
  noTypeKeyword : ∀ t ∈ ts, isTypeKeyword t.kind = false
  noTemplateScope : NoTemplateScope ts

theorem Plain.right {us ts : List Token} (h : Plain (us ++ ts)) : Plain ts where
  noTypeKeyword t ht := h.noTypeKeyword t (List.mem_append_right us ht)
  noTemplateScope := h.noTemplateScope.right

theorem Plain.tail {t : Token} {ts : List Token} (h : Plain (t :: ts)) : Plain ts where
  noTypeKeyword u hu := h.noTypeKeyword u (List.mem_cons_of_mem t hu)
  noTemplateScope := h.noTemplateScope.tail

/-- What the rule of a sort consumes is a phrase of the sort. -/
def Sound (env : Env) (n : Nonterminal) (ts : List Token) : Prop :=
  ∀ e rest, run env n.rule ts = .ok e rest →
    ∃ us, ts = us ++ rest ∧ Derives .castFree n us e

variable {env : Env} {ts rest : List Token}

/-! ## Operators behind an operand -/

theorem operators_sound {l : Level} {ps : List Token} {e f : Expr}
    (ih : ∀ us, us.length < ts.length → Plain us → Sound env l.operand us) (hts : Plain ts)
    (hps : Derives .castFree (.binary l) ps e)
    (h : run env (.operators (l.precedence - 1) e) ts = .ok f rest) :
    ∃ us, ts = us ++ rest ∧ Derives .castFree (.binary l) (ps ++ us) f := by
  induction hn : ts.length using Nat.strongRecOn generalizing ps e ts with
  | ind n ihn =>
      subst hn
      rw [run_level_operators] at h
      split at h
      · cases h
        exact ⟨[], rfl, by rwa [List.append_nil]⟩
      · rename_i op inner haccept
        obtain ⟨t, rfl, hk⟩ := accept?_eq_some_iff.1 haccept
        obtain ⟨p, ht, hop⟩ := operatorAt?_eq_some_iff.1 hk
        obtain ⟨g, ms, hg, hmore⟩ := Outcome.andThen_eq_ok_iff.1 h
        obtain ⟨us, rfl, hus⟩ := ih inner (Nat.lt_succ_self _) hts.tail g ms hg
        have hlt : ms.length < (t :: (us ++ ms)).length := by
          simp only [List.length_cons, List.length_append]
          omega
        obtain ⟨vs, rfl, hvs⟩ := ihn _ hlt (fun us hus => ih us (Nat.lt_trans hus hlt))
          hts.tail.right (.binary hop ht hps hus) hmore rfl
        exact ⟨t :: (us ++ vs), by simp, by simpa using hvs⟩

theorem accesses_sound {ps : List Token} {e f : Expr}
    (ih : ∀ us, us.length < ts.length → Plain us → Sound env .expression us) (hts : Plain ts)
    (hps : Derives .castFree .access ps e) (h : run env (.accesses e) ts = .ok f rest) :
    ∃ us, ts = us ++ rest ∧ Derives .castFree .access (ps ++ us) f := by
  induction hn : ts.length using Nat.strongRecOn generalizing ps e ts with
  | ind n ihn =>
      subst hn
      rw [run_accesses] at h
      split at h
      · cases h
        exact ⟨[], rfl, by rwa [List.append_nil]⟩
      · rename_i inner haccept
        obtain ⟨l, rfl, hl⟩ := accept?_eq_some_iff.1 haccept
        obtain ⟨i, ms, hi, hclose⟩ := Outcome.andThen_eq_ok_iff.1 h
        obtain ⟨r, ks, hexpect, hmore⟩ := Outcome.andThen_eq_ok_iff.1 hclose
        obtain ⟨rfl, hr⟩ := (expect_eq_ok_iff (by simp)).1 hexpect
        obtain ⟨us, rfl, hus⟩ := ih inner (Nat.lt_succ_self _) hts.tail i _ hi
        have hlt : ks.length < (l :: (us ++ r :: ks)).length := by
          simp only [List.length_cons, List.length_append]
          omega
        obtain ⟨vs, rfl, hvs⟩ := ihn _ hlt (fun us hus => ih us (Nat.lt_trans hus hlt))
          hts.tail.right.tail (.subscript (accessStart?_eq_subscript_iff.1 hl) hr hps hus) hmore rfl
        exact ⟨l :: (us ++ r :: vs), by simp, by simpa using hvs⟩
      · rename_i access inner haccept
        obtain ⟨t, rfl, hk⟩ := accept?_eq_some_iff.1 haccept
        obtain ⟨p, ht, hop⟩ := accessStart?_eq_member_iff.1 hk
        obtain ⟨m, ks, hexpect, hmore⟩ := Outcome.andThen_eq_ok_iff.1 h
        obtain ⟨rfl, hm⟩ := (expect_eq_ok_iff (by simp)).1 hexpect
        have hlt : ks.length < (t :: m :: ks).length := Nat.lt_succ_of_lt (Nat.lt_succ_self _)
        obtain ⟨vs, rfl, hvs⟩ := ihn _ hlt (fun us hus => ih us (Nat.lt_trans hus hlt))
          hts.tail.tail (.member hop ht hm hps) hmore rfl
        exact ⟨t :: m :: vs, rfl, by simpa using hvs⟩
      · cases h

/-! ## The sorts -/

theorem expression_sound (h : Sound env .assignment ts) : Sound env .expression ts := by
  intro e rest he
  obtain ⟨us, hus, h⟩ := h e rest he
  exact ⟨us, hus, .assignment h⟩

theorem assignment_sound (h : Sound env .conditional ts) : Sound env .assignment ts := by
  intro e rest he
  rw [Nonterminal.rule, run_expression] at he
  obtain ⟨f, ms, hf, he⟩ := Outcome.andThen_eq_ok_iff.1 he
  obtain ⟨us, hus, h⟩ := h f ms hf
  split at he
  · cases he
  · cases he
    exact ⟨us, hus, .conditional h⟩

theorem conditional_sound (h : Sound env (.binary .logicalOr) ts)
    (ih : ∀ n us, us.length < ts.length → Plain us → Sound env n us) (hts : Plain ts) :
    Sound env .conditional ts := by
  intro e rest he
  rw [Nonterminal.rule, run_conditional] at he
  obtain ⟨c, ms, hc, hchoice⟩ := Outcome.andThen_eq_ok_iff.1 he
  obtain ⟨cs, rfl, hcs⟩ := h c ms hc
  split at hchoice
  · cases hchoice
    exact ⟨cs, rfl, .condition hcs⟩
  · rename_i inner haccept
    obtain ⟨q, rfl, hq⟩ := accept?_eq_some_iff.1 haccept
    obtain ⟨f, ms, hf, hrest⟩ := Outcome.andThen_eq_ok_iff.1 hchoice
    obtain ⟨colon, ks, hexpect, hlast⟩ := Outcome.andThen_eq_ok_iff.1 hrest
    obtain ⟨rfl, hcolon⟩ := (expect_eq_ok_iff (by simp)).1 hexpect
    obtain ⟨g, ls, hg, hok⟩ := Outcome.andThen_eq_ok_iff.1 hlast
    cases hok
    have hinner : inner.length < (cs ++ q :: inner).length := by
      simp only [List.length_cons, List.length_append]
      omega
    obtain ⟨us, rfl, hus⟩ := ih .expression inner hinner hts.right.tail f _ hf
    have hks : ks.length < (cs ++ q :: (us ++ colon :: ks)).length := by
      simp only [List.length_cons, List.length_append]
      omega
    obtain ⟨vs, rfl, hvs⟩ := ih .assignment ks hks hts.right.tail.right.tail g _ hg
    refine ⟨cs ++ q :: (us ++ colon :: vs), by simp, ?_⟩
    exact .choice (isMark_eq_some_iff.1 hq) hcolon hcs hus hvs

theorem binary_sound {l : Level} (h : Sound env l.operand ts)
    (ih : ∀ n us, us.length < ts.length → Plain us → Sound env n us) (hts : Plain ts) :
    Sound env (.binary l) ts := by
  intro e rest he
  rw [Nonterminal.rule, run_level] at he
  obtain ⟨f, ms, hf, hmore⟩ := Outcome.andThen_eq_ok_iff.1 he
  obtain ⟨ps, rfl, hps⟩ := h f ms hf
  have ih' : ∀ us, us.length < ms.length → Plain us → Sound env l.operand us :=
    fun us hus => ih l.operand us (Nat.lt_of_lt_of_le hus (by simp))
  obtain ⟨us, rfl, hus⟩ := operators_sound ih' hts.right (.operand hps) hmore
  exact ⟨ps ++ us, by simp, hus⟩

theorem cast_sound (htypes : ∀ n, env.types n = none) (h : Sound env .unary ts) (hts : Plain ts) :
    Sound env .cast ts := by
  intro e rest he
  rw [Nonterminal.rule, run_cast] at he
  have hunary : run env .unary ts = .ok e rest := by
    split at he
    · exact he
    · rename_i inner haccept
      obtain ⟨l, rfl, -⟩ := accept?_eq_some_iff.1 haccept
      have hstart : startsType (current env.finish inner).kind = false := by
        cases inner with
        | nil => rfl
        | cons t inner =>
            rw [current_cons, startsType_eq_isTypeKeyword]
            exact hts.noTypeKeyword t (by simp)
      split at he
      · rename_i ht
        exact absurd ht (castType_ne_ok htypes hstart)
      · rwa [if_neg (by simp [hstart])] at he
  obtain ⟨us, hus, h⟩ := h e rest hunary
  exact ⟨us, hus, .uncast h⟩

theorem unary_sound (h : Sound env .access ts)
    (ih : ∀ n us, us.length < ts.length → Plain us → Sound env n us) (hts : Plain ts) :
    Sound env .unary ts := by
  intro e rest he
  rw [Nonterminal.rule, run_unary] at he
  split at he
  · rename_i op inner haccept
    obtain ⟨t, rfl, hk⟩ := accept?_eq_some_iff.1 haccept
    obtain ⟨p, ht, hop⟩ := unaryOp?_eq_some_iff.1 hk
    obtain ⟨f, ms, hf, hok⟩ := Outcome.andThen_eq_ok_iff.1 he
    cases hok
    obtain ⟨us, rfl, hus⟩ := ih .cast inner (Nat.lt_succ_self _) hts.tail f _ hf
    exact ⟨t :: us, rfl, .unary hop ht hus⟩
  · split at he
    · cases he
    · obtain ⟨us, hus, h⟩ := h e rest he
      exact ⟨us, hus, .access h⟩

theorem access_sound (h : Sound env .primary ts)
    (ih : ∀ n us, us.length < ts.length → Plain us → Sound env n us) (hts : Plain ts) :
    Sound env .access ts := by
  intro e rest he
  rw [Nonterminal.rule, run_access] at he
  obtain ⟨f, ms, hf, hmore⟩ := Outcome.andThen_eq_ok_iff.1 he
  obtain ⟨ps, rfl, hps⟩ := h f ms hf
  have ih' : ∀ us, us.length < ms.length → Plain us → Sound env .expression us :=
    fun us hus => ih .expression us (Nat.lt_of_lt_of_le hus (by simp))
  obtain ⟨us, rfl, hus⟩ := accesses_sound ih' hts.right (.primary hps) hmore
  exact ⟨ps ++ us, by simp, hus⟩

theorem primary_sound (ih : ∀ n us, us.length < ts.length → Plain us → Sound env n us)
    (hts : Plain ts) : Sound env .primary ts := by
  intro e rest he
  rw [Nonterminal.rule] at he
  have hname : ∀ {o : Outcome String}, qualifiedName env.finish ts = o →
      o.map Expr.name = .ok e rest → ∃ us, ts = us ++ rest ∧ Derives .castFree .primary us e := by
    intro o ho he
    obtain ⟨name, hok, rfl⟩ := Outcome.map_eq_ok_iff.1 he
    obtain ⟨us, hus, h⟩ := qualifiedName_sound hts.noTemplateScope.plainNames (ho.trans hok)
    exact ⟨us, hus, .name h⟩
  cases ts with
  | nil =>
      rw [run_primary_nil] at he
      cases he
  | cons t inner =>
      rw [run_primary_cons] at he
      split at he
      · rename_i ht
        unfold constant at he
        split at he
        · rename_i hv
          cases he
          exact ⟨[t], rfl, .number ht hv⟩
        · cases he
      · rename_i ht
        cases he
        exact ⟨[t], rfl, .truth ht⟩
      · rename_i ht
        obtain ⟨f, ms, hf, hclose⟩ := Outcome.andThen_eq_ok_iff.1 he
        obtain ⟨r, ks, hexpect, hok⟩ := Outcome.andThen_eq_ok_iff.1 hclose
        obtain ⟨rfl, hr⟩ := (expect_eq_ok_iff (by simp)).1 hexpect
        cases hok
        obtain ⟨us, rfl, hus⟩ := ih .expression inner (Nat.lt_succ_self _) hts.tail e _ hf
        exact ⟨t :: (us ++ [r]), by simp, .group ht hr trivial hus⟩
      · exact hname rfl he
      · exact hname rfl he
      · cases he

/-- Every rule is sound. -/
theorem run_sound (htypes : ∀ n, env.types n = none) (n : Nonterminal) (hts : Plain ts) :
    Sound env n ts := by
  induction hlen : ts.length using Nat.strongRecOn generalizing n ts with
  | ind len ihlen =>
      subst hlen
      have ih : ∀ n us, us.length < ts.length → Plain us → Sound env n us :=
        fun n us hlt hus => ihlen us.length hlt n hus rfl
      have primary := primary_sound ih hts
      have access := access_sound primary ih hts
      have unary := unary_sound access ih hts
      have cast := cast_sound htypes unary hts
      have binary : ∀ l, Sound env (.binary l) ts :=
        Level.rec_operand (p := fun n => Sound env n ts) cast fun l hl => binary_sound hl ih hts
      have conditional := conditional_sound (binary .logicalOr) ih hts
      have assignment := assignment_sound conditional
      have expression := expression_sound assignment
      cases n <;> first | assumption | exact binary _

end WatchExpr.Grammar
