import WatchExpr.Proofs.Grammar.TypeNames

/-!
# Printed types

The lexemes of the text of a type: the words of its core, and the signs of its levels.
-/

namespace WatchExpr

open Lexeme Tokens

/-- The builtin words of a kind, as it is printed. -/
def ScalarKind.words : ScalarKind → List BuiltinWord
  | .void => [.void]
  | .arithmetic (.floating .float) => [.float]
  | .arithmetic (.floating .double) => [.double]
  | .arithmetic (.integral .bool) => [.bool]
  | .arithmetic (.integral .char) => [.char]
  | .arithmetic (.integral .signedChar) => [.signed, .char]
  | .arithmetic (.integral .unsignedChar) => [.unsigned, .char]
  | .arithmetic (.integral .short) => [.short]
  | .arithmetic (.integral .unsignedShort) => [.unsigned, .short]
  | .arithmetic (.integral .int) => [.int]
  | .arithmetic (.integral .unsignedInt) => [.unsigned, .int]
  | .arithmetic (.integral .long) => [.long]
  | .arithmetic (.integral .unsignedLong) => [.unsigned, .long]
  | .arithmetic (.integral .longLong) => [.long, .long]
  | .arithmetic (.integral .unsignedLongLong) => [.unsigned, .long, .long]

namespace ScalarKind

theorem kind?_words (k : ScalarKind) : BuiltinWord.kind? k.words = some k := by
  rcases k with _ | ⟨k | k⟩
  · rfl
  · cases k <;> rfl
  · cases k <;> rfl

theorem words_ne_nil (k : ScalarKind) : k.words ≠ [] := by
  rcases k with _ | ⟨k | k⟩
  · simp [words]
  · cases k <;> simp [words]
  · cases k <;> simp [words]

theorem toList_name (k : ScalarKind) :
    k.name.toList = [' '].intercalate (k.words.map (·.spelling.toList)) := by
  rcases k with _ | ⟨k | k⟩
  · rfl
  · cases k <;> rfl
  · cases k <;> rfl

end ScalarKind

theorem Qualifiers.text_eq (q : Qualifiers) :
    q.text = [' '].intercalate (q.words.map String.toList) := by
  obtain ⟨_ | _, _ | _⟩ := q <;> rfl

/-! ## Words -/

variable {rest : List Char}

theorem isWord_builtin (w : BuiltinWord) : IsWord w.spelling.toList := by
  cases w <;> decide

theorem isWord_qualifier {q : Qualifiers} {s : String} (h : s ∈ q.words) : IsWord s.toList := by
  have hs : s = "const" ∨ s = "volatile" := by
    obtain ⟨_ | _, _ | _⟩ := q <;> simp [Qualifiers.words] at h <;> simp [h]
  rcases hs with rfl | rfl <;> decide

/-- Words with spaces between them. -/
theorem lexemes_words {ws : List (List Char)} (hws : ∀ w ∈ ws, IsWord w)
    (hrest : ∀ d ∈ rest.head?, continuesWord d = false) :
    lexemes ([' '].intercalate ws ++ rest) = ws.map word ++ lexemes rest := by
  induction ws with
  | nil => rfl
  | cons w ws ih =>
      have hw := hws w (by simp)
      cases ws with
      | nil => simpa using lexemes_word hw hrest
      | cons v ws =>
          have htail := ih fun u hu => hws u (List.mem_cons_of_mem w hu)
          rw [List.intercalate_cons_cons, List.append_assoc, List.append_assoc,
            lexemes_word hw (fun d hd => by cases hd; rfl), List.singleton_append, lexemes_space,
            htail]
          rfl

/-- The words of the qualifiers, as lexemes. -/
def Qualifiers.lexemes (q : Qualifiers) : List Lexeme :=
  q.words.map fun w => word w.toList

theorem Qualifiers.lexemes_text (q : Qualifiers)
    (hrest : ∀ d ∈ rest.head?, continuesWord d = false) :
    Tokens.lexemes (q.text ++ rest) = q.lexemes ++ Tokens.lexemes rest := by
  rw [q.text_eq, lexemes_words (fun w hw => ?_) hrest, List.map_map]
  · rfl
  · obtain ⟨s, hs, rfl⟩ := List.mem_map.1 hw
    exact isWord_qualifier hs

theorem ScalarKind.lexemes_name (k : ScalarKind)
    (hrest : ∀ d ∈ rest.head?, continuesWord d = false) :
    Tokens.lexemes (k.name.toList ++ rest) =
      (k.words.map fun w => word w.spelling.toList) ++ Tokens.lexemes rest := by
  rw [k.toList_name, lexemes_words (fun w hw => ?_) hrest, List.map_map]
  · rfl
  · obtain ⟨w, -, rfl⟩ := List.mem_map.1 hw
    exact isWord_builtin w

/-! ## Declarators -/

namespace Ty

/-- The lexemes of the text of a type. -/
def lexemes : Ty → List Lexeme
  | .scalar k q => q.lexemes ++ k.words.map fun w => word w.spelling.toList
  | .tagged r q => q.lexemes ++ Tokens.lexemes r.name.toList
  | .pointer t q => t.lexemes ++ mark .star :: q.lexemes
  | .reference t _ => t.lexemes ++ [mark .amp]
  | .array t _ _ => t.lexemes

/-- Pointers over a scalar or over a known record, whose name is read as itself. -/
def PointsToKnown (types : TypeNames) : Ty → Prop
  | .scalar _ _ => True
  | .tagged r _ => Grammar.IsTypeName r.name ∧ ∃ q, types r.name = some (.tagged r q)
  | .pointer t _ => t.PointsToKnown types
  | .reference _ _ | .array _ _ _ => False

/-- A type that is written without parentheses and bounds: not `void`, and at most one reference,
outermost. -/
def IsDeclarable (types : TypeNames) : Ty → Prop
  | .reference t q => q = .none ∧ t.isVoid = false ∧ t.PointsToKnown types
  | t => t.isVoid = false ∧ t.PointsToKnown types

/-- What stands behind a part of a declarator: another sign, a bound or a parenthesis. -/
def declaratorChars : List Char :=
  ['*', '&', ')', '[', '(']

/-- The text is empty or starts with such a character. -/
def SignAhead (inner : List Char) : Prop :=
  ∀ d ∈ inner.head?, d ∈ declaratorChars

variable {types : TypeNames} {t : Ty} {q : Qualifiers} {name : String} {inner : List Char}

theorem IsPointerForm.pointsToKnown (h : t.IsPointerForm types) : t.PointsToKnown types := by
  induction t with
  | scalar k q => trivial
  | tagged r q => exact ⟨h.1.isTypeName, h.2⟩
  | pointer t q ih => exact ih h
  | reference t q => exact h.elim
  | array t n q => exact h.elim

theorem IsCastForm.isDeclarable (h : t.IsCastForm types) : t.IsDeclarable types := by
  cases t with
  | reference t q => exact ⟨h.1, h.2.1, h.2.2.pointsToKnown⟩
  | _ => exact ⟨h.1, h.2.pointsToKnown⟩

theorem forall_mem_declaratorChars {p : Char → Prop} :
    (∀ d ∈ declaratorChars, p d) ↔ p '*' ∧ p '&' ∧ p ')' ∧ p '[' ∧ p '(' := by
  simp [declaratorChars]

theorem continuesWord_of_mem_declaratorChars : ∀ d ∈ declaratorChars, continuesWord d = false :=
  forall_mem_declaratorChars.2 (by decide)

theorem SignAhead.endsWord (h : SignAhead inner) : ∀ d ∈ inner.head?, continuesWord d = false :=
  fun d hd => continuesWord_of_mem_declaratorChars d (h d hd)

/-- Signs, bounds and blanks go on with no name. -/
theorem breaks_of_endsName {c d : Char} (hc : Grammar.EndsName c)
    (hd : d ∈ ' ' :: declaratorChars) : Breaks c d where
  endsWord := by
    obtain rfl | hd := List.mem_cons.1 hd
    · rfl
    · exact continuesWord_of_mem_declaratorChars d hd
  endsNumber previous := by
    simp only [declaratorChars, List.mem_cons, List.not_mem_nil, or_false] at hd
    rcases hd with rfl | rfl | rfl | rfl | rfl | rfl <;> rfl
  endsMark p hp := by
    obtain hc | rfl := hc
    · have hall : ∀ p ∈ Punctuator.all, p.chars.all fun c => !continuesWord c := by decide
      have hmem : c ∈ p.chars := hp.subset (by simp)
      simpa [hc] using List.all_eq_true.1 (hall p p.mem_all) c hmem
    · have hall : ∀ d ∈ ' ' :: declaratorChars, ∀ p ∈ Punctuator.all, ¬['>', d] <:+: p.chars :=
        List.forall_mem_cons.2 ⟨by decide, forall_mem_declaratorChars.2 (by decide)⟩
      exact hall d hd p p.mem_all hp

theorem lexemes_name (hname : ∀ c ∈ name.toList.getLast?, Grammar.EndsName c)
    (h : ∀ d ∈ inner.head?, d ∈ ' ' :: declaratorChars) :
    Tokens.lexemes (name.toList ++ inner) = Tokens.lexemes name.toList ++ Tokens.lexemes inner :=
  lexemes_append_of_breaks fun c hc d hd => breaks_of_endsName (hname c hc) (h d hd)

/-- A named type in front of a declarator, which is set off from a parenthesis. -/
theorem lexemes_named (hname : ∀ c ∈ name.toList.getLast?, Grammar.EndsName c)
    (h : SignAhead inner) :
    Tokens.lexemes (named name q inner) =
      q.lexemes ++ (Tokens.lexemes name.toList ++ Tokens.lexemes inner) := by
  have hinner : Tokens.lexemes (name.toList ++
      (if inner.head? = some '(' then ' ' :: inner else inner)) =
        Tokens.lexemes name.toList ++ Tokens.lexemes inner := by
    split
    · rw [lexemes_name hname fun d hd => by cases hd; decide, lexemes_space]
    · exact lexemes_name hname fun d hd => List.mem_cons_of_mem ' ' (h d hd)
  rw [named, ← hinner]
  by_cases hq : q = .none
  · subst hq
    rfl
  · rw [if_neg hq, List.append_assoc, q.lexemes_text fun d hd => by cases hd; rfl,
      List.cons_append, lexemes_space]

theorem lexemes_pointer_sign (h : SignAhead inner) :
    Tokens.lexemes ('*' :: ((if q = .none then [] else ' ' :: q.text) ++ inner)) =
      mark .star :: (q.lexemes ++ Tokens.lexemes inner) := by
  by_cases hq : q = .none
  · subst hq
    have hall : ∀ d ∈ declaratorChars, d ∉ Punctuator.extensions .star :=
      forall_mem_declaratorChars.2 (by decide)
    exact Tokens.lexemes_mark (p := .star) (fun d hd => hall d (h d hd)) fun hp => by cases hp
  · have hstar : Tokens.lexemes (Punctuator.chars .star ++ ' ' :: (q.text ++ inner)) =
        mark .star :: Tokens.lexemes (' ' :: (q.text ++ inner)) :=
      Tokens.lexemes_mark (fun d hd => by cases hd; decide) fun hp => by cases hp
    rw [if_neg hq]
    exact hstar.trans (by rw [lexemes_space, q.lexemes_text h.endsWord])

theorem lexemes_reference_sign (h : SignAhead inner) (hamp : inner.head? ≠ some '&') :
    Tokens.lexemes ('&' :: inner) = mark .amp :: Tokens.lexemes inner := by
  have hall : ∀ d ∈ declaratorChars, d ≠ '&' → d ∉ Punctuator.extensions .amp :=
    forall_mem_declaratorChars.2 (by decide)
  refine Tokens.lexemes_mark (p := .amp) (fun d hd => hall d (h d hd) ?_) fun hp => by cases hp
  rintro rfl
  exact hamp hd

theorem endsName_scalarKind (k : ScalarKind) :
    ∀ c ∈ k.name.toList.getLast?, Grammar.EndsName c := by
  have hall : k.name.toList.getLast?.all continuesWord := by
    rcases k with _ | ⟨k | k⟩
    · decide
    · cases k <;> decide
    · cases k <;> decide
  intro c hc
  rw [hc] at hall
  exact .inl hall

theorem lexemes_declarator (ht : t.PointsToKnown types) (h : SignAhead inner) :
    Tokens.lexemes (t.declarator inner) = t.lexemes ++ Tokens.lexemes inner := by
  induction t generalizing inner with
  | scalar k q =>
      have hname : Tokens.lexemes (k.name.toList ++ []) =
          (k.words.map fun w => word w.spelling.toList) ++ Tokens.lexemes [] :=
        k.lexemes_name (by simp)
      rw [List.append_nil, lexemes_nil, List.append_nil] at hname
      rw [declarator, lexemes_named (endsName_scalarKind k) h, hname, lexemes, List.append_assoc]
  | tagged r q => rw [declarator, lexemes_named ht.1.endsName h, lexemes, List.append_assoc]
  | pointer t q ih =>
      have hsign : SignAhead ('*' :: ((if q = .none then [] else ' ' :: q.text) ++ inner)) :=
        fun d hd => by cases hd; decide
      rw [declarator, ih ht hsign, lexemes_pointer_sign h, lexemes, List.append_assoc,
        List.cons_append]
  | reference t q => exact ht.elim
  | array t n q => exact ht.elim

theorem IsDeclarable.lexemes_declarator (ht : t.IsDeclarable types) (h : SignAhead inner)
    (hamp : inner.head? ≠ some '&') :
    Tokens.lexemes (t.declarator inner) = t.lexemes ++ Tokens.lexemes inner := by
  cases t with
  | reference t q =>
      have hsign : SignAhead ('&' :: inner) := fun d hd => by cases hd; decide
      rw [declarator, Ty.lexemes_declarator ht.2.2 hsign, lexemes_reference_sign h hamp, lexemes,
        List.append_assoc, List.singleton_append]
  | scalar k q => exact Ty.lexemes_declarator ht.2 h
  | tagged r q => exact Ty.lexemes_declarator ht.2 h
  | pointer t q => exact Ty.lexemes_declarator ht.2 h
  | array t n q => exact ht.2.elim

/-- What follows may be printed with the signs of the declarator. -/
theorem declarator_append (ht : t.PointsToKnown types) (hinner : inner.head? ≠ some '(')
    {rest : List Char} (hrest : rest.head? ≠ some '(') :
    t.declarator inner ++ rest = t.declarator (inner ++ rest) := by
  have hboth : (inner ++ rest).head? ≠ some '(' := by
    cases inner with
    | nil => exact hrest
    | cons d inner => exact hinner
  induction t generalizing inner with
  | scalar k q =>
      rw [declarator, declarator, named, named, if_neg hinner, if_neg hboth, List.append_assoc]
  | tagged r q =>
      rw [declarator, declarator, named, named, if_neg hinner, if_neg hboth, List.append_assoc]
  | pointer t q ih =>
      rw [declarator, declarator, ih ht (by simp) (by simp), List.cons_append, List.append_assoc]
  | reference t q => exact ht.elim
  | array t n q => exact ht.elim

/-- The text of the type of a cast, in front of its closing parenthesis. -/
theorem lexemes_castForm (ht : t.IsCastForm types) (rest : List Char) :
    Tokens.lexemes (t.declarator [] ++ ')' :: rest) =
      t.lexemes ++ mark .rParen :: Tokens.lexemes rest := by
  have happend : t.declarator [] ++ ')' :: rest = t.declarator (')' :: rest) := by
    cases t with
    | reference t q => exact declarator_append ht.2.2.pointsToKnown (by simp) (by simp)
    | array t n q => exact ht.2.elim
    | _ => exact declarator_append ht.2.pointsToKnown (by simp) (by simp)
  rw [happend, ht.isDeclarable.lexemes_declarator (fun d hd => by cases hd; decide) (by simp),
    lexemes_rParen]

end Ty

end WatchExpr
