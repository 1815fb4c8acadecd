import WatchExpr.Proofs.Grammar.Casts
import WatchExpr.Proofs.Grammar.Completeness
import WatchExpr.Proofs.Printing.TypeIds

/-!
# Groups are no casts

The attempt to read a cast takes the name at the start of a group for a type, possibly with a
template argument list, and signs behind it for a declarator. It fails, because an operand stands
where the parenthesis should be closed. Whether an operand may be a globally qualified name is a
parameter.
-/

namespace WatchExpr.Grammar

/-- Signs of a declarator. -/
def isSign : TokenKind → Bool
  | .punct .star | .punct .amp | .punct .ampAmp => true
  | _ => false

/-- Tokens that neither go on with a type-id nor close a parenthesis. Whether `::` is one of them,
as the start of a globally qualified name, is a parameter. -/
def leavesType (global : Bool) (k : TokenKind) : Bool :=
  !isSign k && !isTypeKeyword k && k ≠ .punct .rParen && (k ≠ .punct .colonColon || global)

/-- Behind signs stands a token that leaves the type. -/
inductive OperandAhead (global : Bool) : List Token → Prop where
  | sign {t : Token} {ts : List Token} (ht : isSign t.kind) (h : OperandAhead global ts) :
      OperandAhead global (t :: ts)
  | leave {t : Token} {ts : List Token} (ht : leavesType global t.kind) :
      OperandAhead global (t :: ts)

/-- Behind every closing angle bracket stands an operand. -/
def OperandsBehindAngles (global : Bool) : List Token → Prop
  | [] => True
  | t :: ts => (closesTemplate t.kind → OperandAhead global ts) ∧ OperandsBehindAngles global ts

/-- Tokens that no type is read from: they start none, or an operator and an operand stand behind the
name that they start with. -/
inductive IsGroup (global : Bool) : List Token → Prop where
  | plain {t : Token} {ts : List Token} (ht : specifierStart? t.kind = none) :
      IsGroup global (t :: ts)
  | named {ts us : List Token} {name : String} (hname : QualifiedName ts name)
      (hscope : NoScopeAhead us) (hus : OperandAhead global us) : IsGroup global (ts ++ us)

variable {finish : EndMark} {global : Bool} {d : TypeId} {t : Token} {ts us rest : List Token}

theorem isSign_iff {k : TokenKind} :
    isSign k ↔ k = .punct .star ∨ k = .punct .amp ∨ k = .punct .ampAmp := by
  constructor
  · intro h
    unfold isSign at h
    split at h
    · exact .inl rfl
    · exact .inr (.inl rfl)
    · exact .inr (.inr rfl)
    · cases h
  · rintro (rfl | rfl | rfl) <;> rfl

theorem isTypeKeyword_of_isSign {k : TokenKind} (h : isSign k) : isTypeKeyword k = false := by
  cases k with
  | keyword w => cases h
  | _ => rfl

namespace OperandAhead

theorem append (h : OperandAhead global ts) : OperandAhead global (ts ++ rest) := by
  induction h with
  | sign ht _ ih => exact .sign ht ih
  | leave ht => exact .leave ht

theorem head (h : OperandAhead global ts) :
    ∃ t us, ts = t :: us ∧ isTypeKeyword t.kind = false ∧
      (global = false → t.kind ≠ .punct .colonColon) := by
  cases h with
  | sign ht _ =>
      refine ⟨_, _, rfl, isTypeKeyword_of_isSign ht, fun _ hk => ?_⟩
      rw [hk] at ht
      cases ht
  | leave ht =>
      simp only [leavesType, Bool.and_eq_true, Bool.or_eq_true, Bool.not_eq_true',
        decide_eq_true_eq] at ht
      exact ⟨_, _, rfl, ht.1.1.2, fun hglobal => ht.2.resolve_right (by simp [hglobal])⟩

/-- Unless names may be globally qualified, no operand starts with `::`. -/
theorem noScopeAhead (h : OperandAhead false ts) : NoScopeAhead ts := by
  obtain ⟨t, us, rfl, -, ht⟩ := h.head
  intro u hu
  cases hu
  exact ht rfl

theorem specifierStart? (h : OperandAhead global (t :: ts)) :
    specifierStart? t.kind = none ∨ specifierStart? t.kind = some .name := by
  obtain ⟨u, us, heq, hu, -⟩ := h.head
  cases heq
  rw [← startsType_eq_isTypeKeyword, startsType] at hu
  split at hu
  · exact .inl ‹_›
  · exact .inr ‹_›
  · cases hu

end OperandAhead

namespace OperandsBehindAngles

theorem tail (h : OperandsBehindAngles global (t :: ts)) : OperandsBehindAngles global ts :=
  h.2

theorem right (h : OperandsBehindAngles global (us ++ ts)) : OperandsBehindAngles global ts := by
  induction us with
  | nil => exact h
  | cons u us ih => exact ih h.2

theorem append (hts : OperandsBehindAngles global ts) (hus : OperandsBehindAngles global us) :
    OperandsBehindAngles global (ts ++ us) := by
  induction ts with
  | nil => exact hus
  | cons t ts ih => exact ⟨fun ht => (hts.1 ht).append, ih hts.2⟩

theorem cons (ht : closesTemplate t.kind = false) (h : OperandsBehindAngles global ts) :
    OperandsBehindAngles global (t :: ts) :=
  ⟨fun hclose => absurd hclose (by simp [ht]), h⟩

theorem of_forall (h : ∀ t ∈ ts, closesTemplate t.kind = false) :
    OperandsBehindAngles global ts := by
  induction ts with
  | nil => trivial
  | cons t ts ih => exact cons (h t (by simp)) (ih fun u hu => h u (List.mem_cons_of_mem t hu))

theorem noTemplateScope (h : OperandsBehindAngles false ts) : NoTemplateScope ts := by
  induction ts with
  | nil => exact .nil
  | cons t ts ih => exact List.isChain_cons.2 ⟨fun u hu ht => (h.1 ht).noScopeAhead u hu, ih h.2⟩

end OperandsBehindAngles

/-! ## Attempts to read a cast -/

theorem NoScopeAhead.append (h : NoScopeAhead ts) (hts : ts ≠ []) : NoScopeAhead (ts ++ rest) := by
  rwa [NoScopeAhead, List.head?_append_of_ne_nil ts hts]

theorem OperandAhead.ne_nil (h : OperandAhead global ts) : ts ≠ [] := by
  cases h <;> exact List.cons_ne_nil _ _

theorem IsGroup.append (h : IsGroup global ts) : IsGroup global (ts ++ rest) := by
  cases h with
  | plain ht => exact .plain ht
  | named hname hscope hus =>
      rw [List.append_assoc]
      exact .named hname (hscope.append hus.ne_nil) hus.append

theorem templateArguments?_operandAhead {text : String} (hts : OperandsBehindAngles global ts)
    (hahead : OperandAhead global ts) (h : templateArguments? finish ts = .ok text rest) :
    OperandAhead global rest := by
  rcases templateArguments?_eq_ok h with hargs | ⟨-, rfl⟩
  · -- However far the list reaches, it ends with an angle bracket.
    obtain ⟨l, vs, u, rfl, -, hu, -⟩ := templateArguments_ends hargs
    exact hts.tail.right.1 hu
  · exact hahead

theorem typeName_operandAhead {name text : String} (hname : QualifiedName us name)
    (hscope : NoScopeAhead ts) (hahead : OperandAhead global ts)
    (hts : OperandsBehindAngles global (us ++ ts)) (hplain : PlainNames finish (us ++ ts))
    (h : typeName finish (us ++ ts) = .ok text rest) : OperandAhead global rest := by
  rw [typeName, qualifiedName_complete hname hplain hscope, Outcome.ok_andThen] at h
  obtain ⟨args, hargs, -⟩ := Outcome.map_eq_ok_iff.1 h
  exact templateArguments?_operandAhead hts.right hahead hargs

/-- Behind a name an operand is no further specifier. -/
theorem specifiers_operandAhead (h : OperandAhead global ts) (hd : d.hasSpecifier) :
    specifiers finish d ts = .ok d ts := by
  obtain ⟨t, us, rfl, -⟩ := h.head
  rw [specifiers]
  cases h.specifierStart? with
  | inl hstart => rw [hstart]
  | inr hstart =>
      rw [hstart]
      exact if_pos hd

theorem pointerQualifiers_operandAhead (h : OperandAhead global ts) (q : Qualifiers) :
    pointerQualifiers q ts = (q, ts) := by
  obtain ⟨t, us, rfl, -⟩ := h.head
  rw [pointerQualifiers]
  cases h.specifierStart? with
  | inl hstart => rw [hstart]
  | inr hstart => rw [hstart]

theorem declaratorSigns_of_not_sign (h : isSign t.kind = false) (d : TypeId) :
    declaratorSigns d (t :: ts) = (d, t :: ts) := by
  rw [declaratorSigns]
  split
  · rename_i hk
    rw [hk] at h
    cases h
  · rename_i hk
    rw [hk] at h
    cases h
  · rename_i hk
    rw [hk] at h
    cases h
  · rfl

/-- The signs of a declarator end in front of a token that closes no parenthesis. -/
theorem declaratorSigns_operandAhead (h : OperandAhead global ts) (d : TypeId) :
    ∃ t us, (declaratorSigns d ts).2 = t :: us ∧ t.kind ≠ .punct .rParen := by
  induction h generalizing d with
  | sign ht h ih =>
      rcases isSign_iff.1 ht with hk | hk | hk <;> rw [declaratorSigns, hk]
      · dsimp only
        rw [pointerQualifiers_operandAhead h]
        exact ih _
      · exact ih _
      · exact ih _
  | leave ht =>
      simp only [leavesType, Bool.and_eq_true, Bool.not_eq_true', decide_eq_true_eq] at ht
      rw [declaratorSigns_of_not_sign ht.1.1.1]
      exact ⟨_, _, rfl, ht.1.2⟩

/-- A name starts with a token that a specifier may start with. -/
theorem QualifiedName.startsSpecifier {name : String} (h : QualifiedName ts name) :
    ∃ t us, ts = t :: us ∧ specifierStart? t.kind = some .name := by
  obtain ⟨t, us, rfl, ht | ht⟩ := h.starts <;> exact ⟨t, us, rfl, by rw [ht]; rfl⟩

/-- Specifiers at the start of a group are none or a name, and behind a name stands an operand. -/
theorem specifiers_of_isGroup (h : IsGroup global ts) (hts : OperandsBehindAngles global ts)
    (hplain : PlainNames finish ts) (hspec : specifiers finish {} ts = .ok d rest) :
    d = {} ∨ OperandAhead global rest := by
  cases h with
  | plain ht =>
      rw [specifiers, ht] at hspec
      cases hspec
      exact .inl rfl
  | named hname hscope hus =>
      rename_i vs us name
      obtain ⟨t, vs', hvs, ht⟩ := hname.startsSpecifier
      have hsplit : vs ++ us = t :: (vs' ++ us) := by rw [hvs, List.cons_append]
      cases htype : typeName finish (vs ++ us) with
      | ok text more =>
          have hmore := typeName_operandAhead hname hscope hus hts hplain htype
          rw [hsplit] at htype hspec
          rw [specifiers_name ht rfl htype, specifiers_operandAhead hmore rfl] at hspec
          cases hspec
          exact .inr hmore
      | error failure more =>
          rw [hsplit] at htype hspec
          rw [specifiers, ht] at hspec
          dsimp only at hspec
          split at hspec
          · cases hspec
            exact .inl rfl
          · split at hspec
            · rename_i hok
              cases htype.symm.trans hok
            · cases hspec

/-- No group is read as the type of a cast. -/
theorem castType_ne_ok_of_isGroup {env : Env} {type : Ty} (h : IsGroup global ts)
    (hts : OperandsBehindAngles global ts) (hplain : PlainNames env.finish ts) :
    castType env ts ≠ .ok type rest := by
  intro hok
  obtain ⟨d, us, hd, hclose⟩ := Outcome.andThen_eq_ok_iff.1 hok
  obtain ⟨r, vs, hr, -⟩ := Outcome.andThen_eq_ok_iff.1 hclose
  obtain ⟨rfl, hkind⟩ := (expect_eq_ok_iff (by simp)).1 hr
  obtain ⟨s, ws, hs, hsigns⟩ := Outcome.andThen_eq_ok_iff.1 hd
  split at hsigns
  · rename_i hspec
    obtain ⟨-, hrest⟩ := Outcome.ok.inj hsigns
    rcases specifiers_of_isGroup h hts hplain hs with rfl | hahead
    · cases hspec
    · obtain ⟨t, us, htail, ht⟩ := declaratorSigns_operandAhead hahead s
      cases htail.symm.trans hrest
      exact ht hkind
  · cases hsigns

theorem startsType_of_isGroup (h : IsGroup global ts) :
    startsType (current finish ts).kind = false := by
  cases h with
  | plain ht => rw [current_cons, startsType, ht]
  | named hname _ _ =>
      obtain ⟨t, us, rfl, ht⟩ := hname.startsSpecifier
      rw [List.cons_append, current_cons, startsType, ht]

/-- What may stand in the parentheses of a printed expression. -/
def printed (global : Bool) (types : TypeNames) : Parenthesised where
  typeId ts t := t.IsCastForm types ∧ ts.map Token.lexeme = t.lexemes
  group := IsGroup global

/-- Type-ids and groups of printed expressions are told apart where names are plain. -/
theorem printed_told_of_plainNames (env : Env) (global : Bool) :
    (printed global env.types).Told env fun ts =>
      OperandsBehindAngles global ts ∧ PlainNames env.finish ts where
  tail h := ⟨h.1.tail, h.2.tail⟩
  plainNames h := h.2
  typeId h hr _ := castType_castForm h.1 h.2 hr
  group h _ hts :=
    ⟨startsType_of_isGroup h.append, fun _ _ => castType_ne_ok_of_isGroup h.append hts.1 hts.2⟩

/-- Without globally qualified names an operand behind a closing angle bracket makes names plain. -/
theorem printed_told (env : Env) :
    (printed false env.types).Told env (OperandsBehindAngles false) where
  tail h := h.tail
  plainNames h := h.noTemplateScope.plainNames
  typeId h hr hts :=
    (printed_told_of_plainNames env false).typeId h hr ⟨hts, hts.noTemplateScope.plainNames⟩
  group h hr hts :=
    (printed_told_of_plainNames env false).group h hr ⟨hts, hts.noTemplateScope.plainNames⟩

end WatchExpr.Grammar
