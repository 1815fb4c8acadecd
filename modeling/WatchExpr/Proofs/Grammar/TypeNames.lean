import WatchExpr.Proofs.Grammar.Consumption
import WatchExpr.Proofs.Grammar.TemplateNames
import WatchExpr.Proofs.Lexing.Breaks
import WatchExpr.Proofs.Printing.Printable

/-!
# Names of types

What is read as the name of a type depends on the texts of its tokens only, as long as what follows
does not go on with it. Such a name starts with a word and ends with a word or a closing angle
bracket.
-/

namespace WatchExpr

open Lexeme

/-! ## Tokens of a text -/

/-- A piece of a text is a word, a number, a punctuator or a character by itself. -/
theorem Lexeme.split_cases (c : Char) (cs : List Char) :
    (∃ w, IsWord w ∧ (split c cs).1 = word w) ∨ (∃ p, (split c cs).1 = mark p) ∨
      (split c cs).1.kind = .number ∨ (split c cs).1.kind = .unknown := by
  unfold split
  split
  · rename_i hc
    refine .inl ⟨_, ⟨c, _, rfl, hc, fun d hd => ?_⟩, rfl⟩
    exact List.all_eq_true.1 List.all_takeWhile d hd
  · split
    · exact .inr (.inr (.inl rfl))
    · split
      · exact .inr (.inl ⟨_, rfl⟩)
      · exact .inr (.inr (.inr rfl))

/-- A token that has been cut off a text. -/
def Token.IsCut (t : Token) : Prop :=
  ∃ c cs, t.lexeme = (split c cs).1

theorem Tokens.isCut_of_mem {here : Location} {cs : List Char} {t : Token}
    (ht : t ∈ (lexFrom here cs).body) : t.IsCut := by
  fun_induction lexFrom here cs with
  | case1 here => cases ht
  | case2 here c cs _ ih => exact ih ht
  | case3 here c cs _ piece ih =>
      obtain rfl | ht := List.mem_cons.1 ht
      · exact ⟨c, cs, by rw [Token.lexeme, String.toList_ofList]⟩
      · exact ih ht

namespace Token.IsCut

variable {t : Token}

theorem isIdentifier (h : t.IsCut) (ht : t.kind = .identifier) : IsIdentifier t.spelling := by
  obtain ⟨c, cs, hsplit⟩ := h
  have hkind : (split c cs).1.kind = .identifier := by rw [← hsplit]; exact ht
  obtain ⟨w, hw, hpiece⟩ | ⟨p, hpiece⟩ | hnumber | hunknown := split_cases c cs
  · rw [hpiece] at hsplit
    have hchars : t.spelling.toList = w := congrArg Lexeme.chars hsplit
    have hwordKind : wordKind t.spelling.toList = .identifier := by
      rw [hchars]
      exact (congrArg Lexeme.kind hsplit).symm.trans ht
    refine ⟨hchars ▸ hw, ?_⟩
    rw [wordKind, String.ofList_toList] at hwordKind
    split at hwordKind
    · cases hwordKind
    · assumption
  · rw [hpiece] at hkind
    cases hkind
  · cases hnumber.symm.trans hkind
  · cases hunknown.symm.trans hkind

theorem spelling_eq {p : Punctuator} (h : t.IsCut) (ht : t.kind = .punct p) :
    t.spelling.toList = p.chars := by
  obtain ⟨c, cs, hsplit⟩ := h
  have hkind : (split c cs).1.kind = .punct p := by rw [← hsplit]; exact ht
  obtain ⟨w, hw, hpiece⟩ | ⟨q, hpiece⟩ | hnumber | hunknown := split_cases c cs
  · rw [hpiece, word, wordKind] at hkind
    dsimp only at hkind
    split at hkind <;> cases hkind
  · rw [hpiece] at hkind hsplit
    cases hkind
    exact congrArg Lexeme.chars hsplit
  · cases hnumber.symm.trans hkind
  · cases hunknown.symm.trans hkind

end Token.IsCut

namespace Grammar

variable {finish finish' : EndMark} {ts us vs zs rest : List Token} {t : Token} {name text : String}

/-! ## Reading on in other tokens -/

/-- Tokens with the same texts. -/
abbrev SameTexts (ts us : List Token) : Prop :=
  ts.map Token.lexeme = us.map Token.lexeme

theorem SameTexts.kind {u : Token} (h : t.lexeme = u.lexeme) : t.kind = u.kind :=
  congrArg Lexeme.kind h

theorem SameTexts.spelling {u : Token} (h : t.lexeme = u.lexeme) : t.spelling = u.spelling :=
  String.toList_inj.1 (congrArg Lexeme.chars h)

theorem templatePiece_congr {u : Token} (h : t.lexeme = u.lexeme) (afterWord : Bool) :
    templatePiece afterWord t = templatePiece afterWord u := by
  obtain ⟨k, s, l⟩ := t
  obtain ⟨k', s', l'⟩ := u
  cases SameTexts.kind h
  cases SameTexts.spelling h
  rfl

theorem ReadsTail.reads {angles parens : Nat} {afterWord : Bool}
    (h : ReadsTail angles parens afterWord ts text rest) :
    ∃ before, ts = before ++ rest ∧ ∀ us zs, SameTexts us before →
      ReadsTail angles parens afterWord (us ++ zs) text zs := by
  induction h with
  | @last _ _ _ afterWord t _ heof ht =>
      refine ⟨[t], rfl, fun us zs hus => ?_⟩
      obtain ⟨u, rfl, hu⟩ := List.map_eq_singleton_iff.1 hus
      rw [← SameTexts.kind hu] at heof ht
      rw [← templatePiece_congr hu]
      exact .last heof ht
  | @more _ _ _ _ afterWord t _ _ _ heof ht hpos h ih =>
      obtain ⟨before, rfl, hbefore⟩ := ih
      refine ⟨t :: before, rfl, fun us zs hus => ?_⟩
      obtain ⟨u, us, rfl, hu, hus⟩ := List.map_eq_cons_iff.1 hus
      have hword : t.isWord = u.isWord := by
        simp only [Token.isWord, SameTexts.kind hu, SameTexts.spelling hu]
      rw [← SameTexts.kind hu] at heof ht
      rw [← templatePiece_congr hu]
      exact .more heof ht hpos (hword ▸ hbefore us zs hus)

/-- A template argument list is read from its own tokens. -/
theorem templateArguments_reads (h : templateArguments finish ts = .ok text rest) :
    ∃ before, ts = before ++ rest ∧ ∀ finish' us zs, SameTexts us before →
      templateArguments finish' (us ++ zs) = .ok text zs := by
  obtain ⟨l, inner, more, rfl, hless, hmore, rfl⟩ := templateArguments_eq_ok_iff.1 h
  obtain ⟨before, rfl, hbefore⟩ := hmore.reads
  refine ⟨l :: before, rfl, fun finish' us zs hus => ?_⟩
  obtain ⟨u, us, rfl, hu, hus⟩ := List.map_eq_cons_iff.1 hus
  exact templateArguments_eq_ok_iff.2
    ⟨u, us ++ zs, more, rfl, (SameTexts.kind hu).trans hless, hbefore us zs hus, rfl⟩

/-- What follows does not go on with a name: it has no template arguments and no further component. -/
def NameEnds (zs : List Token) : Prop :=
  ∀ z ∈ zs.head?, z.kind ≠ .punct .less ∧ z.kind ≠ .punct .colonColon

theorem templateArguments?_reads (h : templateArguments? finish ts = .ok text rest) :
    ∃ before, ts = before ++ rest ∧ ∀ finish' us zs, SameTexts us before →
      (∀ z ∈ zs.head?, z.kind ≠ .punct .less) →
      templateArguments? finish' (us ++ zs) = .ok text zs := by
  obtain h | ⟨rfl, rfl⟩ := templateArguments?_eq_ok h
  · obtain ⟨before, rfl, hbefore⟩ := templateArguments_reads h
    refine ⟨before, rfl, fun finish' us zs hus _ => ?_⟩
    have hargs := hbefore finish' us zs hus
    obtain ⟨l, vs, v, heq, hl, -⟩ := templateArguments_ends hargs
    rw [templateArguments?, heq, current_cons, if_pos hl, ← heq, hargs]
  · refine ⟨[], rfl, fun finish' us zs hus hzs => ?_⟩
    obtain rfl := List.map_eq_nil_iff.1 hus
    exact templateArguments?_of_ne_less hzs

theorem component?_reads (h : component? finish ts = some (text, rest)) :
    ∃ before, ts = before ++ rest ∧ ∀ finish' us zs, SameTexts us before →
      component? finish' (us ++ zs) = some (text, zs) := by
  cases ts with
  | nil => cases h
  | cons t ts =>
      simp only [component?] at h
      split at h
      · cases h
      · rename_i ht
        split at h
        · rename_i args s inner hargs
          split at h
          · rename_i hs
            cases h
            obtain ⟨before, rfl, hbefore⟩ := templateArguments?_reads hargs
            refine ⟨t :: (before ++ [s]), by simp, fun finish' us zs hus => ?_⟩
            obtain ⟨u, us, rfl, hu, hus⟩ := List.map_eq_cons_iff.1 hus
            rw [List.map_append] at hus
            obtain ⟨us, vs, rfl, hargsTexts, hvs⟩ := List.map_eq_append_iff.1 hus
            obtain ⟨v, rfl, hv⟩ := List.map_eq_singleton_iff.1 hvs
            have hscope : v.kind = .punct .colonColon := (SameTexts.kind hv).trans hs
            have hargs' := hbefore finish' us (v :: zs) hargsTexts fun z hz => by
              cases hz
              simp [hscope]
            simp [component?, SameTexts.kind hu, of_not_not ht, hargs', hscope, SameTexts.spelling hu]
          · cases h
        · cases h

/-- The components in front of the last one are read from their own tokens. -/
theorem nestedName_scope (finish : EndMark) (ts : List Token) :
    ∃ scope, ts = scope ++ (nestedName finish ts).2 ∧ ∀ finish' us zs, SameTexts us scope →
      component? finish' zs = none → nestedName finish' (us ++ zs) = ((nestedName finish ts).1, zs) := by
  induction hn : ts.length using Nat.strongRecOn generalizing ts with
  | ind n ih =>
      cases hc : component? finish ts with
      | none =>
          rw [nestedName_of_none hc]
          refine ⟨[], rfl, fun finish' us zs hus hzs => ?_⟩
          obtain rfl := List.map_eq_nil_iff.1 hus
          exact nestedName_of_none hzs
      | some q =>
          obtain ⟨text, inner⟩ := q
          obtain ⟨scope, hinner, hscope⟩ := ih _ (hn ▸ component?_rest_length_lt hc) inner rfl
          obtain ⟨before, rfl, hbefore⟩ := component?_reads hc
          rw [nestedName_of_some hc]
          refine ⟨before ++ scope, by rw [List.append_assoc, ← hinner], fun finish' us zs hus hzs => ?_⟩
          rw [SameTexts, List.map_append] at hus
          obtain ⟨us, vs, rfl, hus, hvs⟩ := List.map_eq_append_iff.1 hus
          have hread := hbefore finish' us (vs ++ zs) hus
          rw [List.append_assoc, nestedName_of_some hread, hscope finish' vs zs hvs hzs]

/-- The last component of a name and its template arguments, with the components in front of it. -/
theorem nestedName_reads {args : String}
    (h : expect finish .identifier (nestedName finish ts).2 = .ok t us)
    (hargs : templateArguments? finish us = .ok args rest) :
    ∃ before, ts = before ++ rest ∧ ∀ finish' vs zs, SameTexts vs before → NameEnds zs →
      ∃ u ws, expect finish' .identifier (nestedName finish' (vs ++ zs)).2 = .ok u ws ∧
        (nestedName finish' (vs ++ zs)).1 ++ u.spelling = (nestedName finish ts).1 ++ t.spelling ∧
        templateArguments? finish' ws = .ok args zs := by
  obtain ⟨hrest, ht⟩ := (expect_eq_ok_iff (by simp)).1 h
  obtain ⟨scope, hts, hscope⟩ := nestedName_scope finish ts
  obtain ⟨before, rfl, hbefore⟩ := templateArguments?_reads hargs
  rw [hrest] at hts
  refine ⟨scope ++ t :: before, by simp [hts], fun finish' vs zs hvs hzs => ?_⟩
  rw [SameTexts, List.map_append] at hvs
  obtain ⟨xs, ys, rfl, hxs, hys⟩ := List.map_eq_append_iff.1 hvs
  obtain ⟨u, vs, rfl, hu, hvs⟩ := List.map_eq_cons_iff.1 hys
  have hargs' := hbefore finish' vs zs hvs fun z hz => (hzs z hz).1
  have hkind : u.kind = .identifier := (SameTexts.kind hu).trans ht
  -- What follows is no `::`, so this is the last component here too.
  have hlast : component? finish' (u :: vs ++ zs) = none := by
    cases zs with
    | nil =>
        rw [List.append_nil] at hargs' ⊢
        simp [component?, hkind, hargs']
    | cons z zs => simp [component?, hkind, hargs', (hzs z rfl).2]
  rw [List.append_assoc, hscope finish' xs _ hxs hlast]
  exact ⟨u, vs ++ zs, (expect_eq_ok_iff (by simp)).2 ⟨rfl, hkind⟩,
    by rw [SameTexts.spelling hu], hargs'⟩

theorem typeName_eq_ok_iff {start : String} {inner : List Token}
    (hstart : splitGlobal ts = (start, inner)) :
    typeName finish ts = .ok name rest ↔ ∃ t us args,
      expect finish .identifier (nestedName finish inner).2 = .ok t us ∧
        templateArguments? finish us = .ok args rest ∧
        start ++ ((nestedName finish inner).1 ++ t.spelling) ++ args = name := by
  simp only [typeName, qualifiedName, hstart, Outcome.andThen_eq_ok_iff, Outcome.map_eq_ok_iff,
    String.append_assoc]
  constructor
  · rintro ⟨id, us, ⟨t, ht, rfl⟩, args, hargs, rfl⟩
    exact ⟨t, us, args, ht, hargs, by simp only [String.append_assoc]⟩
  · rintro ⟨t, us, args, ht, hargs, rfl⟩
    exact ⟨_, us, ⟨t, ht, rfl⟩, args, hargs, by simp only [String.append_assoc]⟩

theorem nestedName_starts (h : expect finish .identifier (nestedName finish ts).2 = .ok t us) :
    ∃ u vs, ts = u :: vs ∧ u.kind = .identifier := by
  cases hc : component? finish ts with
  | none =>
      rw [nestedName_of_none hc] at h
      obtain ⟨rfl, ht⟩ := (expect_eq_ok_iff (by simp)).1 h
      exact ⟨t, us, rfl, ht⟩
  | some q =>
      obtain ⟨u, vs, -, -, rfl, hu, -⟩ := component?_cases hc
      exact ⟨u, vs, rfl, hu⟩

theorem qualifiedName_starts (h : qualifiedName finish ts = .ok name rest) :
    ∃ t us, ts = t :: us ∧ (t.kind = .identifier ∨ t.kind = .punct .colonColon) := by
  obtain ⟨-, t, ht, -⟩ | ⟨s, inner, t, rfl, hs, -⟩ := qualifiedName_cases h
  · obtain ⟨u, us, rfl, hu⟩ := nestedName_starts ht
    exact ⟨u, us, rfl, .inl hu⟩
  · exact ⟨s, inner, rfl, .inr hs⟩

theorem typeName_starts (h : typeName finish ts = .ok name rest) :
    ∃ t us, ts = t :: us ∧ (t.kind = .identifier ∨ t.kind = .punct .colonColon) := by
  obtain ⟨id, us, hid, -⟩ := Outcome.andThen_eq_ok_iff.1 h
  exact qualifiedName_starts hid

/-- A name is read from its own tokens, wherever they stand and whatever ends it. -/
theorem typeName_reads (h : typeName finish ts = .ok name rest) :
    ∃ before, ts = before ++ rest ∧ ∀ finish' us zs, SameTexts us before → NameEnds zs →
      typeName finish' (us ++ zs) = .ok name zs := by
  obtain ⟨hstart, hahead⟩ | ⟨s, inner, rfl, hs, hstart⟩ := splitGlobal_cases ts
  · obtain ⟨t, us, args, ht, hargs, rfl⟩ := (typeName_eq_ok_iff hstart).1 h
    obtain ⟨before, rfl, hbefore⟩ := nestedName_reads ht hargs
    refine ⟨before, rfl, fun finish' vs zs hvs hzs => ?_⟩
    have hahead' : NoScopeAhead (vs ++ zs) := by
      cases before with
      | nil =>
          obtain rfl := List.map_eq_nil_iff.1 hvs
          exact fun z hz => (hzs z hz).2
      | cons b before =>
          obtain ⟨v, vs, rfl, hv, -⟩ := List.map_eq_cons_iff.1 hvs
          intro z hz
          cases hz
          rw [SameTexts.kind hv]
          exact hahead b rfl
    obtain ⟨u, ws, hu, hname, hargs'⟩ := hbefore finish' vs zs hvs hzs
    exact (typeName_eq_ok_iff (splitGlobal_of_noScopeAhead hahead')).2
      ⟨u, ws, args, hu, hargs', by rw [hname]⟩
  · obtain ⟨t, us, args, ht, hargs, rfl⟩ := (typeName_eq_ok_iff hstart).1 h
    obtain ⟨before, rfl, hbefore⟩ := nestedName_reads ht hargs
    refine ⟨s :: before, rfl, fun finish' vs zs hvs hzs => ?_⟩
    obtain ⟨v, vs, rfl, hv, hinner⟩ := List.map_eq_cons_iff.1 hvs
    obtain ⟨u, ws, hu, hname, hargs'⟩ := hbefore finish' vs zs hinner hzs
    exact (typeName_eq_ok_iff (splitGlobal_of_scope ((SameTexts.kind hv).trans hs))).2
      ⟨u, ws, args, hu, hargs', congrArg (fun id => "::" ++ id ++ args) hname⟩

/-! ## The text of a name -/

/-- The characters that a name may end with. -/
def EndsName (c : Char) : Prop :=
  continuesWord c ∨ c = '>'

theorem closesTemplate_piece (ht : t.IsCut) (hcloses : closesTemplate t.kind) (afterWord : Bool) :
    (templatePiece afterWord t).toList.getLast? = some '>' := by
  have hkind : t.kind = .punct .greater ∨ t.kind = .punct .greaterGreater := by
    simpa [closesTemplate] using hcloses
  obtain hkind | hkind := hkind
  · simp [templatePiece, hkind, ht.spelling_eq hkind, Punctuator.chars]
  · simp [templatePiece, hkind, ht.spelling_eq hkind, Punctuator.chars]

theorem canonicalText_last (ht : t.IsCut) (hcloses : closesTemplate t.kind) (afterWord : Bool) :
    (canonicalText afterWord (us ++ [t])).toList.getLast? = some '>' := by
  induction us generalizing afterWord with
  | nil => simp [canonicalText, closesTemplate_piece ht hcloses]
  | cons u us ih =>
      rw [List.cons_append, canonicalText, String.toList_append, List.getLast?_append, ih]
      rfl

/-- Template arguments are in angle brackets. -/
theorem templateArguments_brackets (hts : ∀ t ∈ ts, t.IsCut)
    (h : templateArguments finish ts = .ok text rest) :
    '<' ∈ text.toList ∧ text.toList.getLast? = some '>' := by
  obtain ⟨l, us, t, rfl, -, hcloses, rfl⟩ := templateArguments_ends h
  have ht : t.IsCut := hts t (by simp)
  rw [String.toList_append, List.getLast?_append, canonicalText_last ht hcloses]
  exact ⟨List.mem_append_left _ (by decide), rfl⟩

/-- A text that starts with a word. -/
def StartsWord (text : String) : Prop :=
  ∃ c cs, text.toList = c :: cs ∧ startsWord c

theorem StartsWord.append {more : String} (h : StartsWord text) : StartsWord (text ++ more) := by
  obtain ⟨c, cs, htext, hc⟩ := h
  exact ⟨c, cs ++ more.toList, by rw [String.toList_append, htext]; rfl, hc⟩

theorem startsWord_of_isIdentifier (h : IsIdentifier name) : StartsWord name := by
  obtain ⟨c, cs, hname, hc, -⟩ := h.1
  exact ⟨c, cs, hname, hc⟩

theorem getLast?_of_isIdentifier (h : IsIdentifier name) :
    ∀ c ∈ name.toList.getLast?, continuesWord c := by
  intro c hc
  have hall := (isWord_iff.2 h.1)
  simp only [Bool.and_eq_true, List.all_eq_true] at hall
  exact hall.2 c (List.mem_of_getLast? hc)

/-- The components of a name up to its last identifier. -/
theorem nestedName_spelled (hts : ∀ t ∈ ts, t.IsCut)
    (h : expect finish .identifier (nestedName finish ts).2 = .ok t us) :
    StartsWord ((nestedName finish ts).1 ++ t.spelling) ∧ IsIdentifier t.spelling ∧
      (∀ u ∈ us, u.IsCut) ∧ (Untemplated ((nestedName finish ts).1 ++ t.spelling) →
        IsScopedName ((nestedName finish ts).1 ++ t.spelling)) := by
  induction hn : ts.length using Nat.strongRecOn generalizing ts with
  | ind n ih =>
      cases hc : component? finish ts with
      | none =>
          rw [nestedName_of_none hc] at h ⊢
          obtain ⟨rfl, ht⟩ := (expect_eq_ok_iff (by simp)).1 h
          obtain ⟨hcut, hus⟩ := List.forall_mem_cons.1 hts
          have hid := hcut.isIdentifier ht
          rw [String.empty_append]
          exact ⟨startsWord_of_isIdentifier hid, hid, hus, fun _ => .last hid⟩
      | some q =>
          obtain ⟨text, inner⟩ := q
          have hinner : ∀ u ∈ inner, u.IsCut := fun u hu =>
            hts u ((component?_isSuffix hc).subset hu)
          rw [nestedName_of_some hc] at h ⊢
          obtain ⟨hstarts, hid, hus, hscoped⟩ :=
            ih _ (hn ▸ component?_rest_length_lt hc) hinner h rfl
          obtain ⟨u, vs, s, args, rfl, hu, hs, rfl, hargs⟩ := component?_cases hc
          obtain ⟨hcut, hvs⟩ := List.forall_mem_cons.1 hts
          have huid := hcut.isIdentifier hu
          refine ⟨?_, hid, hus, fun huntemplated => ?_⟩
          · simp only [String.append_assoc]
            exact (startsWord_of_isIdentifier huid).append
          · rw [String.append_assoc] at huntemplated ⊢
            obtain ⟨hcomponent, hmore⟩ := untemplated_append.1 huntemplated
            obtain hargs | ⟨rfl, -⟩ := hargs
            · have hargsPlain := (untemplated_append.1 (untemplated_append.1 hcomponent).1).2
              exact absurd (templateArguments_brackets hvs hargs).1 hargsPlain
            · rw [String.append_empty]
              exact .scope huid (hscoped hmore)

/-- The text of a name that is read, without the `::` in front of it. -/
structure SpellsName (name : String) : Prop where
  starts : StartsWord name
  ends : ∀ c ∈ name.toList.getLast?, EndsName c
  isScopedName : Untemplated name → IsScopedName name

theorem spellsName_of_nestedName {args : String} (hts : ∀ t ∈ ts, t.IsCut)
    (ht : expect finish .identifier (nestedName finish ts).2 = .ok t us)
    (hargs : templateArguments? finish us = .ok args rest) :
    SpellsName ((nestedName finish ts).1 ++ t.spelling ++ args) := by
  obtain ⟨hstarts, hid, hus, hscoped⟩ := nestedName_spelled hts ht
  obtain hargs | ⟨rfl, -⟩ := templateArguments?_eq_ok hargs
  · obtain ⟨hless, hlast⟩ := templateArguments_brackets hus hargs
    refine ⟨hstarts.append, fun c hc => ?_, fun huntemplated => ?_⟩
    · rw [String.toList_append, List.getLast?_append, hlast] at hc
      cases hc
      exact .inr rfl
    · exact absurd hless (untemplated_append.1 huntemplated).2
  · rw [String.append_empty]
    refine ⟨hstarts, fun c hc => ?_, hscoped⟩
    obtain ⟨d, ds, hspelling, -⟩ := hid.1
    have hlast := List.getLast?_eq_some_getLast (List.cons_ne_nil d ds)
    rw [String.toList_append, List.getLast?_append, hspelling, hlast] at hc
    exact .inl (getLast?_of_isIdentifier hid c (by rw [hspelling, hlast]; exact hc))

/-- The text of a name that is read; without the `::` that may be in front of it, it is `key`. -/
structure Spells (name key : String) : Prop where
  spelled : SpellsName key
  eq : name = key ∨ name = "::" ++ key

theorem typeName_spelled (hts : ∀ t ∈ ts, t.IsCut) (h : typeName finish ts = .ok name rest) :
    ∃ key, Spells name key := by
  obtain ⟨hstart, -⟩ | ⟨s, inner, rfl, -, hstart⟩ := splitGlobal_cases ts
  · obtain ⟨t, us, args, ht, hargs, rfl⟩ := (typeName_eq_ok_iff hstart).1 h
    exact ⟨_, spellsName_of_nestedName hts ht hargs, .inl (by rw [String.empty_append])⟩
  · obtain ⟨t, us, args, ht, hargs, rfl⟩ := (typeName_eq_ok_iff hstart).1 h
    exact ⟨_, spellsName_of_nestedName (List.forall_mem_cons.1 hts).2 ht hargs,
      .inr (by rw [String.append_assoc])⟩

/-! ## Names that are read as themselves -/

/-- The text of the name is read as the name. -/
def IsTypeName (name : String) : Prop :=
  typeName (Tokens.lex name).finish (Tokens.lex name).body = .ok name []

instance (name : String) : Decidable (IsTypeName name) :=
  inferInstanceAs (Decidable (_ = _))

theorem IsTypeName.reads (h : IsTypeName name) (hts : ts.map Token.lexeme = Tokens.lexemes name.toList)
    (hzs : NameEnds zs) : typeName finish (ts ++ zs) = .ok name zs := by
  obtain ⟨before, hbefore, hreads⟩ := typeName_reads h
  rw [List.append_nil] at hbefore
  exact hreads finish ts zs (by rw [← hbefore]; exact hts) hzs

/-- The first token of a name can start a type only as a name. -/
theorem IsTypeName.starts (h : IsTypeName name)
    (hts : ts.map Token.lexeme = Tokens.lexemes name.toList) :
    ∃ t us, ts = t :: us ∧ specifierStart? t.kind = some .name := by
  have hread : typeName (Tokens.lex name).finish (ts ++ []) = .ok name [] :=
    h.reads hts fun z hz => by cases hz
  rw [List.append_nil] at hread
  obtain ⟨t, us, rfl, ht | ht⟩ := typeName_starts hread
  · exact ⟨t, us, rfl, by rw [ht]; rfl⟩
  · exact ⟨t, us, rfl, by rw [ht]; rfl⟩

theorem IsTypeName.endsName (h : IsTypeName name) : ∀ c ∈ name.toList.getLast?, EndsName c := by
  obtain ⟨k, hk, rfl | rfl⟩ := typeName_spelled (fun t ht => Tokens.isCut_of_mem ht) h
  · exact hk.ends
  · intro c hc
    obtain ⟨d, ds, hd, -⟩ := hk.starts
    have hlast := List.getLast?_eq_some_getLast (List.cons_ne_nil d ds)
    rw [String.toList_append, List.getLast?_append, hd, hlast] at hc
    exact hk.ends c (by rw [hd, hlast]; exact hc)

theorem NestedName.plainNames (h : NestedName us name) : PlainNames finish us := by
  induction h with
  | last ht => exact ⟨fun _ => rfl, trivial⟩
  | scope ht hs h ih =>
      exact ⟨fun _ => scopesTemplate_of_ne_less (by simp [hs]), fun hid => by simp [hs] at hid, ih⟩

end Grammar

theorem IsScopedName.isTypeName {name : String} (h : IsScopedName name) : Grammar.IsTypeName name := by
  have hname : Grammar.NestedName (Tokens.lex name).body name := h.nestedName rfl
  have hqualified : Grammar.qualifiedName (Tokens.lex name).finish ((Tokens.lex name).body ++ []) =
      .ok name [] :=
    Grammar.qualifiedName_complete (.nested hname) (by simpa using hname.plainNames)
      fun t ht => by cases ht
  rw [List.append_nil] at hqualified
  rw [Grammar.IsTypeName, Grammar.typeName, hqualified, Grammar.Outcome.ok_andThen,
    Grammar.templateArguments?_of_ne_less fun t ht => by cases ht]
  simp [Grammar.Outcome.map]

end WatchExpr
