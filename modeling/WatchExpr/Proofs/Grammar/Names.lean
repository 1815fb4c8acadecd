import WatchExpr.Proofs.Grammar.Derivation
import WatchExpr.Proofs.Grammar.Outcome
import WatchExpr.Grammar.Names
import Mathlib.Data.List.Chain

/-!
# Names without template arguments

A template argument list counts only in front of `::`. Where no identifier stands in front of such
a list, the attempts to read one change nothing, and names are read as the grammar has them. That is
so wherever no closing angle bracket stands in front of `::`.
-/

namespace WatchExpr.Grammar

/-- Tokens that a template argument list may end with. -/
def closesTemplate (k : TokenKind) : Bool :=
  k = .punct .greater || k = .punct .greaterGreater

/-- No closing angle bracket stands in front of `::`. -/
def NoTemplateScope (ts : List Token) : Prop :=
  ts.IsChain fun t u => closesTemplate t.kind → u.kind ≠ .punct .colonColon

/-- The first token, if any, is no `::`. -/
def NoScopeAhead (ts : List Token) : Prop :=
  ∀ t ∈ ts.head?, t.kind ≠ .punct .colonColon

/-- The tokens start with a template argument list that `::` follows. -/
def scopesTemplate (finish : EndMark) (ts : List Token) : Bool :=
  match templateArguments finish ts with
  | .ok _ (s :: _) => s.kind = .punct .colonColon
  | _ => false

/-- No identifier is the name of a template whose arguments are followed by `::`. -/
def PlainNames (finish : EndMark) : List Token → Prop
  | [] => True
  | t :: ts => (t.kind = .identifier → scopesTemplate finish ts = false) ∧ PlainNames finish ts

instance PlainNames.decidable (finish : EndMark) : ∀ ts, Decidable (PlainNames finish ts)
  | [] => .isTrue trivial
  | _ :: ts =>
    have : Decidable (PlainNames finish ts) := PlainNames.decidable finish ts
    inferInstanceAs (Decidable (_ ∧ _))

variable {finish : EndMark} {ts us rest : List Token} {t : Token} {name text : String}

theorem NoTemplateScope.tail (h : NoTemplateScope (t :: ts)) : NoTemplateScope ts :=
  List.IsChain.tail h

theorem NoTemplateScope.right (h : NoTemplateScope (us ++ ts)) : NoTemplateScope ts :=
  (List.isChain_append.1 h).2.1

/-- Behind a closing angle bracket there is no `::`. -/
theorem NoTemplateScope.noScopeAhead (h : NoTemplateScope (us ++ t :: ts))
    (ht : closesTemplate t.kind) : NoScopeAhead ts := by
  intro u hu
  cases ts with
  | nil => cases hu
  | cons v ts =>
      cases hu
      exact (List.isChain_cons_cons.1 h.right).1 ht

/-! ## Template argument lists -/

theorem closesTemplate_of_templateDepth {angles parens parens' : Nat} {k : TokenKind}
    (hpos : 0 < angles) (h : templateDepth angles parens k = some (0, parens')) :
    closesTemplate k := by
  unfold templateDepth at h
  split at h
  · cases h
    exact absurd hpos (Nat.lt_irrefl 0)
  · split at h <;> cases h
    exact absurd hpos (Nat.lt_irrefl 0)
  · split at h <;> cases h
    exact absurd hpos (Nat.lt_irrefl 0)
  · rfl
  · rfl
  · cases h
    exact absurd hpos (Nat.lt_irrefl 0)

/-- Tokens up to the one that closes the angle brackets, and the text that is read from them. -/
inductive ReadsTail : Nat → Nat → Bool → List Token → String → List Token → Prop where
  | last {angles parens parens' : Nat} {afterWord : Bool} {t : Token} {rest : List Token}
      (heof : t.kind ≠ .eof) (ht : templateDepth angles parens t.kind = some (0, parens')) :
      ReadsTail angles parens afterWord (t :: rest) (templatePiece afterWord t) rest
  | more {angles parens angles' parens' : Nat} {afterWord : Bool} {t : Token}
      {ts rest : List Token} {text : String} (heof : t.kind ≠ .eof)
      (ht : templateDepth angles parens t.kind = some (angles', parens')) (hpos : 0 < angles')
      (h : ReadsTail angles' parens' t.isWord ts text rest) :
      ReadsTail angles parens afterWord (t :: ts) (templatePiece afterWord t ++ text) rest

theorem readsTail_of_templateTail {angles parens : Nat} {afterWord : Bool}
    (h : templateTail finish angles parens afterWord ts = .ok text rest) :
    ReadsTail angles parens afterWord ts text rest := by
  induction ts generalizing angles parens afterWord text with
  | nil => cases h
  | cons t ts ih =>
      simp only [templateTail] at h
      split at h
      · cases h
      · rename_i heof
        split at h
        · cases h
        · rename_i a p hdepth
          split at h
          · rename_i ha
            cases h
            subst ha
            exact .last heof hdepth
          · rename_i ha
            obtain ⟨more, hmore, rfl⟩ := Outcome.map_eq_ok_iff.1 h
            exact .more heof hdepth (Nat.pos_of_ne_zero ha) (ih hmore)

theorem ReadsTail.templateTail_eq {angles parens : Nat} {afterWord : Bool}
    (h : ReadsTail angles parens afterWord ts text rest) :
    templateTail finish angles parens afterWord ts = .ok text rest := by
  induction h with
  | last heof ht =>
      rw [templateTail, if_neg heof, ht]
      exact if_pos rfl
  | more heof ht hpos h ih =>
      rw [templateTail, if_neg heof, ht]
      dsimp only
      rw [if_neg hpos.ne', ih]
      rfl

theorem templateArguments_eq_ok_iff :
    templateArguments finish ts = .ok text rest ↔ ∃ l us more, ts = l :: us ∧
      l.kind = .punct .less ∧ ReadsTail 1 0 false us more rest ∧ text = "<" ++ more := by
  constructor
  · intro h
    obtain ⟨l, us, hl, htail⟩ := Outcome.andThen_eq_ok_iff.1 h
    obtain ⟨rfl, hless⟩ := (expect_eq_ok_iff (by simp)).1 hl
    obtain ⟨more, hmore, rfl⟩ := Outcome.map_eq_ok_iff.1 htail
    exact ⟨l, us, more, rfl, hless, readsTail_of_templateTail hmore, rfl⟩
  · rintro ⟨l, us, more, rfl, hless, hmore, rfl⟩
    exact (expect_andThen_eq_ok_iff (by simp)).2
      ⟨l, us, rfl, hless, Outcome.map_eq_ok_iff.2 ⟨more, hmore.templateTail_eq, rfl⟩⟩

/-- The canonical text of tokens, behind a word or not. -/
def canonicalText : Bool → List Token → String
  | _, [] => ""
  | afterWord, t :: ts => templatePiece afterWord t ++ canonicalText t.isWord ts

theorem ReadsTail.ends {angles parens : Nat} {afterWord : Bool}
    (h : ReadsTail angles parens afterWord ts text rest) (hpos : 0 < angles) :
    ∃ us t, ts = us ++ t :: rest ∧ closesTemplate t.kind ∧
      text = canonicalText afterWord (us ++ [t]) := by
  induction h with
  | @last _ _ _ _ t _ heof ht =>
      exact ⟨[], t, rfl, closesTemplate_of_templateDepth hpos ht, by simp [canonicalText]⟩
  | @more _ _ _ _ _ t _ _ _ heof ht hopen h ih =>
      obtain ⟨us, u, rfl, hu, rfl⟩ := ih hopen
      exact ⟨t :: us, u, rfl, hu, rfl⟩

/-- A template argument list starts with `<` and ends with a closing angle bracket, and its text is the
canonical one of its tokens. -/
theorem templateArguments_ends (h : templateArguments finish ts = .ok text rest) :
    ∃ l us t, ts = l :: (us ++ t :: rest) ∧ l.kind = .punct .less ∧ closesTemplate t.kind ∧
      text = "<" ++ canonicalText false (us ++ [t]) := by
  obtain ⟨l, inner, more, rfl, hless, hmore, rfl⟩ := templateArguments_eq_ok_iff.1 h
  obtain ⟨us, t, rfl, ht, rfl⟩ := hmore.ends Nat.one_pos
  exact ⟨l, us, t, rfl, hless, ht, rfl⟩

theorem templateArguments?_eq_ok (h : templateArguments? finish ts = .ok text rest) :
    templateArguments finish ts = .ok text rest ∨ text = "" ∧ ts = rest := by
  unfold templateArguments? at h
  split at h
  · exact .inl h
  · cases h
    exact .inr ⟨rfl, rfl⟩

theorem scopesTemplate_iff :
    scopesTemplate finish ts ↔ ∃ text s rest,
      templateArguments finish ts = .ok text (s :: rest) ∧ s.kind = .punct .colonColon := by
  unfold scopesTemplate
  split
  · rename_i hargs
    constructor
    · exact fun hs => ⟨_, _, _, hargs, of_decide_eq_true hs⟩
    · rintro ⟨_, _, _, hargs', hs⟩
      cases hargs.symm.trans hargs'
      exact decide_eq_true hs
  · rename_i hargs
    exact ⟨fun h => (Bool.false_ne_true h).elim, fun ⟨_, _, _, h, _⟩ => absurd h (hargs _ _ _)⟩

theorem NoTemplateScope.scopesTemplate_eq_false (h : NoTemplateScope ts) :
    scopesTemplate finish ts = false := by
  refine Bool.eq_false_iff.2 fun hscope => ?_
  obtain ⟨text, s, rest, hargs, hs⟩ := scopesTemplate_iff.1 hscope
  obtain ⟨l, us, t, rfl, -, ht, -⟩ := templateArguments_ends hargs
  exact h.tail.noScopeAhead ht s rfl hs

theorem scopesTemplate_of_ne_less (h : t.kind ≠ .punct .less) :
    scopesTemplate finish (t :: ts) = false := by
  refine Bool.eq_false_iff.2 fun hscope => ?_
  obtain ⟨text, s, rest, hargs, -⟩ := scopesTemplate_iff.1 hscope
  obtain ⟨l, us, u, heq, hl, -⟩ := templateArguments_ends hargs
  cases heq
  exact h hl

theorem templateArguments?_of_ne_less (h : ∀ t ∈ ts.head?, t.kind ≠ .punct .less) :
    templateArguments? finish ts = .ok "" ts := by
  cases ts with
  | nil => exact if_neg TokenKind.noConfusion
  | cons t ts => exact if_neg (h t rfl)

/-! ## Plain names -/

namespace PlainNames

theorem tail (h : PlainNames finish (t :: ts)) : PlainNames finish ts :=
  h.2

theorem right (h : PlainNames finish (us ++ ts)) : PlainNames finish ts := by
  induction us with
  | nil => exact h
  | cons u us ih => exact ih h.tail

end PlainNames

theorem NoTemplateScope.plainNames (h : NoTemplateScope ts) : PlainNames finish ts := by
  induction ts with
  | nil => trivial
  | cons t ts ih => exact ⟨fun _ => h.tail.scopesTemplate_eq_false, ih h.tail⟩

/-! ## Components of names -/

/-- A component of a name is an identifier, possibly with template arguments, in front of `::`. -/
theorem component?_cases (h : component? finish ts = some (text, rest)) :
    ∃ t us s args, ts = t :: us ∧ t.kind = .identifier ∧ s.kind = .punct .colonColon ∧
      text = t.spelling ++ args ++ "::" ∧
      (templateArguments finish us = .ok args (s :: rest) ∨ args = "" ∧ us = s :: rest) := by
  cases ts with
  | nil => cases h
  | cons t us =>
      simp only [component?] at h
      split at h
      · cases h
      · rename_i ht
        split at h
        · rename_i args s vs hargs
          split at h
          · rename_i hs
            cases h
            exact ⟨t, us, s, args, rfl, of_not_not ht, hs, rfl, templateArguments?_eq_ok hargs⟩
          · cases h
        · cases h

/-- Components of plain names are identifiers in front of `::`. -/
theorem component?_eq_some_iff (hts : PlainNames finish ts) :
    component? finish ts = some (text, rest) ↔ ∃ t s, ts = t :: s :: rest ∧
      t.kind = .identifier ∧ s.kind = .punct .colonColon ∧ text = t.spelling ++ "::" := by
  constructor
  · intro h
    obtain ⟨t, us, s, args, rfl, ht, hs, rfl, hargs | ⟨rfl, rfl⟩⟩ := component?_cases h
    · have hscope := scopesTemplate_iff.2 ⟨args, s, rest, hargs, hs⟩
      exact absurd (hts.1 ht) (by simp [hscope])
    · exact ⟨t, s, rfl, ht, hs, by simp⟩
  · rintro ⟨t, s, rfl, ht, hs, rfl⟩
    have hargs : templateArguments? finish (s :: rest) = .ok "" (s :: rest) :=
      templateArguments?_of_ne_less fun u hu => by cases hu; simp [hs]
    simp [component?, ht, hargs, hs]

theorem component?_eq_none (hts : PlainNames finish (t :: ts)) (h : NoScopeAhead ts) :
    component? finish (t :: ts) = none := by
  cases hc : component? finish (t :: ts) with
  | none => rfl
  | some q =>
      obtain ⟨u, s, heq, -, hs, -⟩ := (component?_eq_some_iff hts).1 hc
      cases heq
      exact absurd hs (h s rfl)

theorem nestedName_of_some (h : component? finish ts = some (text, rest)) :
    nestedName finish ts = (text ++ (nestedName finish rest).1, (nestedName finish rest).2) := by
  rw [nestedName]
  split
  · rename_i h'
    cases h.symm.trans h'
    rfl
  · rename_i h'
    cases h.symm.trans h'

theorem nestedName_of_none (h : component? finish ts = none) :
    nestedName finish ts = ("", ts) := by
  rw [nestedName]
  split
  · rename_i h'
    cases h.symm.trans h'
  · rfl

/-! ## Whole names -/

/-- Components that are identifiers in front of `::`, and the last identifier, are a name of the
grammar. The property holds of the tokens that are still to be read and the text that their
components will have. -/
theorem nestedName_sound_of {P : List Token → String → Prop}
    (hP : ∀ {ts rest text more}, component? finish ts = some (text, rest) → P ts (text ++ more) →
      P rest more ∧ ∃ t s, ts = t :: s :: rest ∧ t.kind = .identifier ∧
        s.kind = .punct .colonColon ∧ text = t.spelling ++ "::")
    (hts : P ts (nestedName finish ts).1)
    (h : expect finish .identifier (nestedName finish ts).2 = .ok t rest) :
    ∃ us, ts = us ++ rest ∧ NestedName us ((nestedName finish ts).1 ++ t.spelling) := by
  induction hn : ts.length using Nat.strongRecOn generalizing ts with
  | ind n ih =>
      cases hc : component? finish ts with
      | none =>
          rw [nestedName_of_none hc] at h ⊢
          obtain ⟨rfl, ht⟩ := (expect_eq_ok_iff (by simp)).1 h
          exact ⟨[t], rfl, by simpa using NestedName.last ht⟩
      | some q =>
          obtain ⟨text, inner⟩ := q
          rw [nestedName_of_some hc] at hts h ⊢
          obtain ⟨hinner, hcomponent⟩ := hP hc hts
          obtain ⟨us, hus, hname⟩ := ih _ (hn ▸ component?_rest_length_lt hc) hinner h rfl
          obtain ⟨u, s, rfl, hu, hs, rfl⟩ := hcomponent
          refine ⟨u :: s :: us, by simp [hus], ?_⟩
          rw [String.append_assoc]
          exact .scope hu hs hname

theorem nestedName_sound (hts : PlainNames finish ts)
    (h : expect finish .identifier (nestedName finish ts).2 = .ok t rest) :
    ∃ us, ts = us ++ rest ∧ NestedName us ((nestedName finish ts).1 ++ t.spelling) := by
  refine nestedName_sound_of (P := fun ts _ => PlainNames finish ts) (fun hc hts => ?_) hts h
  obtain ⟨u, s, rfl, hus⟩ := (component?_eq_some_iff hts).1 hc
  exact ⟨hts.tail.tail, u, s, rfl, hus⟩

theorem nestedName_complete (h : NestedName us name) (hts : PlainNames finish (us ++ rest))
    (hrest : NoScopeAhead rest) :
    ∃ t, expect finish .identifier (nestedName finish (us ++ rest)).2 = .ok t rest ∧
      (nestedName finish (us ++ rest)).1 ++ t.spelling = name := by
  induction h with
  | last ht =>
      rename_i t
      have hc : component? finish ([t] ++ rest) = none := component?_eq_none hts hrest
      rw [nestedName_of_none hc]
      exact ⟨t, (expect_eq_ok_iff (by simp)).2 ⟨rfl, ht⟩, by simp⟩
  | scope ht hs h ih =>
      rename_i t s us name
      obtain ⟨u, hu, rfl⟩ := ih hts.tail.tail
      have hc : component? finish (t :: s :: us ++ rest) = some (t.spelling ++ "::", us ++ rest) :=
        (component?_eq_some_iff hts).2 ⟨t, s, rfl, ht, hs, rfl⟩
      rw [nestedName_of_some hc]
      exact ⟨u, hu, by rw [String.append_assoc]⟩

theorem splitGlobal_of_scope (ht : t.kind = .punct .colonColon) :
    splitGlobal (t :: ts) = ("::", ts) := by
  obtain ⟨k, spelling, location⟩ := t
  cases ht
  rfl

theorem splitGlobal_of_noScopeAhead (h : NoScopeAhead ts) : splitGlobal ts = ("", ts) := by
  unfold splitGlobal
  split
  · exact absurd rfl (h _ rfl)
  · rfl

theorem splitGlobal_cases (ts : List Token) :
    (splitGlobal ts = ("", ts) ∧ NoScopeAhead ts) ∨
      ∃ s us, ts = s :: us ∧ s.kind = .punct .colonColon ∧ splitGlobal ts = ("::", us) := by
  by_cases hahead : NoScopeAhead ts
  · exact .inl ⟨splitGlobal_of_noScopeAhead hahead, hahead⟩
  · cases ts with
    | nil => exact absurd (fun _ ht => by cases ht) hahead
    | cons s us =>
        have hs : s.kind = .punct .colonColon := by
          by_contra hs
          exact hahead fun _ hu => by cases hu; exact hs
        exact .inr ⟨s, us, rfl, hs, splitGlobal_of_scope hs⟩

/-- A name is read from its components and its last identifier, or from these behind `::`. -/
theorem qualifiedName_cases (h : qualifiedName finish ts = .ok name rest) :
    (NoScopeAhead ts ∧ ∃ t, expect finish .identifier (nestedName finish ts).2 = .ok t rest ∧
        name = (nestedName finish ts).1 ++ t.spelling) ∨
      ∃ s us t, ts = s :: us ∧ s.kind = .punct .colonColon ∧
        expect finish .identifier (nestedName finish us).2 = .ok t rest ∧
        name = "::" ++ ((nestedName finish us).1 ++ t.spelling) := by
  rw [qualifiedName] at h
  obtain ⟨hstart, hahead⟩ | ⟨s, us, rfl, hs, hstart⟩ := splitGlobal_cases ts
  · rw [hstart] at h
    obtain ⟨t, ht, rfl⟩ := Outcome.map_eq_ok_iff.1 h
    exact .inl ⟨hahead, t, ht, by rw [String.empty_append]⟩
  · rw [hstart] at h
    obtain ⟨t, ht, rfl⟩ := Outcome.map_eq_ok_iff.1 h
    exact .inr ⟨s, us, t, rfl, hs, ht, String.append_assoc ..⟩

/-- Names that are read are names of the grammar. -/
theorem qualifiedName_sound (hts : PlainNames finish ts)
    (h : qualifiedName finish ts = .ok name rest) :
    ∃ us, ts = us ++ rest ∧ QualifiedName us name := by
  obtain ⟨-, t, ht, rfl⟩ | ⟨s, inner, t, rfl, hs, ht, rfl⟩ := qualifiedName_cases h
  · obtain ⟨us, hus, hname⟩ := nestedName_sound hts ht
    exact ⟨us, hus, .nested hname⟩
  · obtain ⟨us, hus, hname⟩ := nestedName_sound hts.tail ht
    exact ⟨s :: us, congrArg _ hus, .global hs hname⟩

theorem NestedName.starts {name : String} (h : NestedName ts name) :
    ∃ t us, ts = t :: us ∧ t.kind = .identifier := by
  cases h with
  | last ht => exact ⟨_, _, rfl, ht⟩
  | scope ht _ _ => exact ⟨_, _, rfl, ht⟩

theorem QualifiedName.starts {name : String} (h : QualifiedName ts name) :
    ∃ t us, ts = t :: us ∧ (t.kind = .identifier ∨ t.kind = .punct .colonColon) := by
  cases h with
  | nested h =>
      obtain ⟨t, us, rfl, ht⟩ := h.starts
      exact ⟨t, us, rfl, .inl ht⟩
  | global hs _ => exact ⟨_, _, rfl, .inr hs⟩

theorem NestedName.noScopeAhead (h : NestedName us name) : NoScopeAhead (us ++ rest) := by
  intro t ht
  cases h with
  | last hu =>
      cases ht
      simp [hu]
  | scope hu _ _ =>
      cases ht
      simp [hu]

/-- Names of the grammar are read in full. -/
theorem qualifiedName_complete (h : QualifiedName us name) (hts : PlainNames finish (us ++ rest))
    (hrest : NoScopeAhead rest) : qualifiedName finish (us ++ rest) = .ok name rest := by
  cases h with
  | nested h =>
      obtain ⟨t, ht, rfl⟩ := nestedName_complete h hts hrest
      rw [qualifiedName, splitGlobal_of_noScopeAhead h.noScopeAhead]
      exact Outcome.map_eq_ok_iff.2 ⟨t, ht, by simp⟩
  | global hs h =>
      rename_i s us name
      obtain ⟨t, ht, rfl⟩ := nestedName_complete h hts.tail hrest
      rw [qualifiedName, List.cons_append, splitGlobal_of_scope hs]
      exact Outcome.map_eq_ok_iff.2 ⟨t, ht, by rw [String.append_assoc]⟩

end WatchExpr.Grammar
