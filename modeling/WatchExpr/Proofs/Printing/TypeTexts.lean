import WatchExpr.Grammar.Reading
import WatchExpr.Proofs.Grammar.Formation
import WatchExpr.Proofs.Lexing.Decimals
import WatchExpr.Proofs.Printing.TypeIds

/-!
# Texts of types

A type in which only arrays are made of arrays is printed as a declarator with bounds behind it, and
read back. In any other type an array is set in parentheses, which no type-id has.
-/

namespace WatchExpr

open Lexeme Grammar

namespace Ty

/-- Whether the type is an array. -/
def isArray : Ty → Bool
  | .array _ _ _ => true
  | _ => false

/-- No pointer and no reference in the type is one to an array. -/
def ArraysOutermost : Ty → Prop
  | .scalar _ _ | .tagged _ _ => True
  | .pointer t _ | .reference t _ => t.isArray = false ∧ t.ArraysOutermost
  | .array t _ _ => t.ArraysOutermost

instance ArraysOutermost.decidable : ∀ t : Ty, Decidable t.ArraysOutermost
  | .scalar _ _ | .tagged _ _ => .isTrue trivial
  | .pointer t _ | .reference t _ =>
    have : Decidable t.ArraysOutermost := ArraysOutermost.decidable t
    inferInstanceAs (Decidable (t.isArray = false ∧ t.ArraysOutermost))
  | .array t _ _ => ArraysOutermost.decidable t

/-- A type whose text shows what it is: `void` is only pointed to, nothing but arrays is made of
references, these and arrays have no qualifiers, and the name at the core is read as itself. -/
def IsShown (types : TypeNames) : Ty → Prop
  | .scalar k _ => k ≠ .void
  | .tagged r _ => IsTypeName r.name ∧ ∃ q, types r.name = some (.tagged r q)
  | .pointer t _ => t.isReference = false ∧ (t.isVoid ∨ t.IsShown types)
  | .reference t q => q = .none ∧ t.isReference = false ∧ t.IsShown types
  | .array t _ q => q = .none ∧ t.IsShown types

variable {types : TypeNames} {t u : Ty} {bounds : List UInt64} {inner : List Char}

theorem IsShown.isVoid_eq_false (h : t.IsShown types) : t.isVoid = false := by
  cases t with
  | scalar k q =>
      cases k with
      | void => exact absurd rfl h
      | arithmetic k => rfl
  | _ => rfl

theorem pointsToKnown_of_isVoid (h : t.isVoid) : t.PointsToKnown types := by
  cases t with
  | scalar k q => trivial
  | _ => cases h

theorem IsShown.pointsToKnown (h : t.IsShown types) (href : t.isReference = false)
    (harray : t.isArray = false) (ht : t.ArraysOutermost) : t.PointsToKnown types := by
  induction t with
  | scalar k q => trivial
  | tagged r q => exact h
  | pointer t q ih =>
      obtain ⟨href, hvoid | hshown⟩ := h
      · exact (pointsToKnown_of_isVoid hvoid : t.PointsToKnown types)
      · exact ih hshown href ht.1 ht.2
  | reference t q => cases href
  | array t n q => cases harray

/-- Without arrays under its pointers a type is an array of what is written without parentheses. -/
theorem IsShown.exists_arrays (h : t.IsShown types) (ht : t.ArraysOutermost) :
    ∃ (u : Ty) (bounds : List UInt64), u.IsDeclarable types ∧ t = u.arrays bounds := by
  induction t with
  | array t n q ih =>
      obtain ⟨rfl, hshown⟩ := h
      obtain ⟨u, bounds, hu, rfl⟩ := ih hshown ht
      exact ⟨u, n :: bounds, hu, rfl⟩
  | reference t q =>
      obtain ⟨rfl, href, hshown⟩ := h
      have hu : (reference t .none).IsDeclarable types :=
        ⟨rfl, hshown.isVoid_eq_false, hshown.pointsToKnown href ht.1 ht.2⟩
      exact ⟨_, [], hu, rfl⟩
  | scalar k q =>
      have hu : (scalar k q).IsDeclarable types := ⟨h.isVoid_eq_false, trivial⟩
      exact ⟨_, [], hu, rfl⟩
  | tagged r q =>
      have hu : (tagged r q).IsDeclarable types := ⟨rfl, h⟩
      exact ⟨_, [], hu, rfl⟩
  | pointer t q =>
      have hu : (pointer t q).IsDeclarable types := ⟨rfl, h.pointsToKnown rfl rfl ht⟩
      exact ⟨_, [], hu, rfl⟩

/-! ## Declarators -/

/-- The text of array bounds. -/
def boundsText (bounds : List UInt64) : List Char :=
  bounds.flatMap fun n => '[' :: (Text.decimal n.toNat ++ [']'])

theorem declarator_arrays (u : Ty) (bounds : List UInt64)
    (hinner : ¬(inner.head? = some '*' ∨ inner.head? = some '&')) :
    (u.arrays bounds).declarator inner = u.declarator (inner ++ boundsText bounds) := by
  induction bounds generalizing inner with
  | nil => rw [boundsText, List.flatMap_nil, List.append_nil, arrays, List.foldr_nil]
  | cons n bounds ih =>
      have hmore : ¬((inner ++ '[' :: (Text.decimal n.toNat ++ [']'])).head? = some '*' ∨
          (inner ++ '[' :: (Text.decimal n.toNat ++ [']'])).head? = some '&') := by
        cases inner with
        | nil => simp
        | cons d inner => exact hinner
      have hcons : (u.arrays (n :: bounds)).declarator inner =
          (u.arrays bounds).declarator (inner ++ '[' :: (Text.decimal n.toNat ++ [']'])) := by
        rw [arrays, List.foldr_cons, declarator, if_neg hinner]
        rfl
      rw [hcons, ih hmore, List.append_assoc]
      rfl

/-- An array under a sign, in which no array stands lower, is set in parentheses. -/
theorem IsShown.exists_parenthesis_of_isArray {s : Char} (hs : s = '*' ∨ s = '&')
    (h : t.IsShown types) (harray : t.isArray) (ht : t.ArraysOutermost) :
    ∃ (u : Ty) (more : List Char),
      u.IsDeclarable types ∧ t.declarator (s :: inner) = u.declarator ('(' :: more) := by
  cases t with
  | array t n q =>
      obtain ⟨u, bounds, hu, rfl⟩ := h.2.exists_arrays ht
      have hsign : (s :: inner).head? = some '*' ∨ (s :: inner).head? = some '&' := by
        simpa using hs
      have hdeclarator : ((u.arrays bounds).array n q).declarator (s :: inner) =
          (u.arrays bounds).declarator
            ('(' :: (s :: inner ++ [')'] ++ '[' :: (Text.decimal n.toNat ++ [']']))) := by
        rw [declarator, if_pos hsign]
        rfl
      rw [declarator_arrays u bounds (by simp)] at hdeclarator
      exact ⟨u, _, hu, hdeclarator⟩
  | _ => cases harray

/-- An array under a pointer or a reference is set in parentheses. -/
theorem IsShown.exists_parenthesis (h : t.IsShown types) (ht : ¬t.ArraysOutermost)
    (inner : List Char) :
    ∃ (u : Ty) (more : List Char),
      u.IsDeclarable types ∧ t.declarator inner = u.declarator ('(' :: more) := by
  -- The induction goes down to the array that stands lowest.
  induction t generalizing inner with
  | scalar k q => exact absurd trivial ht
  | tagged r q => exact absurd trivial ht
  | pointer t q ih =>
      have hshown : t.IsShown types := by
        refine h.2.resolve_left fun hvoid => ?_
        cases t with
        | scalar k q => exact ht ⟨rfl, trivial⟩
        | _ => cases hvoid
      rw [declarator]
      by_cases houter : t.ArraysOutermost
      · have harray : t.isArray := Bool.of_not_eq_false fun harray => ht ⟨harray, houter⟩
        exact hshown.exists_parenthesis_of_isArray (.inl rfl) harray houter
      · exact ih hshown houter _
  | reference t q ih =>
      rw [declarator]
      by_cases houter : t.ArraysOutermost
      · have harray : t.isArray := Bool.of_not_eq_false fun harray => ht ⟨harray, houter⟩
        exact h.2.2.exists_parenthesis_of_isArray (.inr rfl) harray houter
      · exact ih h.2.2 houter _
  | array t n q ih => exact ih h.2 ht _

/-! ## Lexemes -/

/-- Array bounds as lexemes. -/
def boundLexemes (bounds : List UInt64) : List Lexeme :=
  bounds.flatMap fun n => [mark .lSquare, ⟨.number, Text.decimal n.toNat⟩, mark .rSquare]

theorem lexemes_boundsText (bounds : List UInt64) :
    Tokens.lexemes (boundsText bounds) = boundLexemes bounds := by
  induction bounds with
  | nil => exact Tokens.lexemes_nil
  | cons n bounds ih =>
      have hcons : boundsText (n :: bounds) =
          '[' :: (Text.decimal n.toNat ++ ']' :: boundsText bounds) := by
        simp [boundsText]
      rw [hcons, Tokens.lexemes_lSquare,
        Tokens.lexemes_decimal _ fun d hd => by cases hd; exact fun _ => rfl,
        Tokens.lexemes_rSquare, ih]
      rfl

theorem signAhead_boundsText (bounds : List UInt64) : SignAhead (boundsText bounds) := by
  intro d hd
  cases bounds with
  | nil => cases hd
  | cons n bounds =>
      cases hd
      decide

theorem lexemes_arrays (hu : u.IsDeclarable types) (bounds : List UInt64) :
    Tokens.lexemes (u.arrays bounds).text.toList = u.lexemes ++ boundLexemes bounds := by
  have hamp : (boundsText bounds).head? ≠ some '&' := by
    cases bounds <;> simp [boundsText]
  rw [text, String.toList_ofList, declarator_arrays _ _ (by simp), List.nil_append,
    hu.lexemes_declarator (signAhead_boundsText bounds) hamp, lexemes_boundsText]

end Ty

/-! ## Reading -/

namespace Grammar

variable {env : Env} {finish : EndMark} {ts us : List Token} {u : Ty} {bounds : List UInt64}

theorem arrayBounds_of_lexemes (hts : ts.map Token.lexeme = Ty.boundLexemes bounds) :
    arrayBounds finish ts = .ok bounds [] := by
  induction bounds generalizing ts with
  | nil =>
      obtain rfl := List.map_eq_nil_iff.1 hts
      rw [arrayBounds]
  | cons n bounds ih =>
      obtain ⟨l, ts, rfl, hl, hts⟩ := exists_mark hts
      obtain ⟨t, ts, rfl, ht, hts⟩ := List.map_eq_cons_iff.1 hts
      obtain ⟨r, ts, rfl, hr, hts⟩ := exists_mark hts
      obtain ⟨hkind, hspelling⟩ := Lexeme.mk.inj ht
      have hbound : boundOf? t.spelling = some n := by
        rw [← boundOf?_decimal n, ← hspelling, String.ofList_toList]
      have hclose : expect finish (.punct .rSquare) (r :: ts) = .ok r ts :=
        (expect_eq_ok_iff (by simp)).2 ⟨rfl, hr⟩
      have hone : arrayBound finish (t :: r :: ts) = .ok n ts := by
        refine (expect_andThen_eq_ok_iff (by simp)).2 ⟨t, r :: ts, rfl, hkind, ?_⟩
        simp [hbound, hclose, Outcome.map]
      rw [arrayBounds, if_pos hl]
      split
      · rename_i h
        cases hone.symm.trans h
        rw [ih hts]
        rfl
      · rename_i h
        cases hone.symm.trans h

theorem wholeType_arrays (hu : u.IsDeclarable env.types)
    (hts : ts.map Token.lexeme = u.lexemes ++ Ty.boundLexemes bounds) :
    wholeType env ts = .ok (u.arrays bounds) [] := by
  obtain ⟨us, vs, rfl, hus, hvs⟩ := List.map_eq_append_iff.1 hts
  have hends : DeclaratorEnds vs := by
    intro z hz
    cases bounds with
    | nil =>
        obtain rfl := List.map_eq_nil_iff.1 hvs
        cases hz
    | cons n bounds =>
        obtain ⟨l, vs, rfl, hl, -⟩ := exists_mark hvs
        cases hz
        simp [hl, declaratorEnds]
  rw [wholeType, arrayType, typeId_declarable hu hus hends]
  simp [resolveAt, Ty.resolve_typeId hu, arrayBounds_of_lexemes hvs, Outcome.map, expect, current,
    EndMark.token, Ty.arrays]

/-- A type-id stops in front of a parenthesis. -/
theorem wholeType_ne_ok {l : Token} {rest : List Token} {t : Ty} (hu : u.IsDeclarable env.types)
    (hts : ts.map Token.lexeme = u.lexemes) (hl : l.kind = .punct .lParen) :
    wholeType env (ts ++ l :: us) ≠ .ok t rest := by
  have hends : DeclaratorEnds (l :: us) := fun z hz => by
    cases hz
    simp [hl, declaratorEnds]
  have hbounds : arrayBounds env.finish (l :: us) = .ok [] (l :: us) := by
    rw [arrayBounds, hl]
    rfl
  rw [wholeType, arrayType, typeId_declarable hu hts hends]
  simp [resolveAt, Ty.resolve_typeId hu, hbounds, Outcome.map, expect, hl]

end Grammar

/-- The text of a type that shows what it is is read back exactly if no pointer or reference in it is
one to an array. -/
theorem Ty.IsShown.read_text_iff {types : TypeNames} {t : Ty} (h : t.IsShown types) :
    Ty.read types t.text = .ok t ↔ t.ArraysOutermost := by
  constructor
  · intro hread
    by_contra ht
    obtain ⟨u, more, hu, htext⟩ := h.exists_parenthesis ht []
    have hlexemes : (Tokens.lex t.text).body.map Token.lexeme =
        u.lexemes ++ mark .lParen :: Tokens.lexemes more := by
      rw [← Tokens.lexemes_lParen, ← hu.lexemes_declarator (fun d hd => by cases hd; decide) (by simp),
        ← htext, ← String.toList_ofList (l := t.declarator [])]
      rfl
    obtain ⟨us, vs, hbody, hus, hvs⟩ := List.map_eq_append_iff.1 hlexemes
    obtain ⟨l, vs, rfl, hl, -⟩ := exists_mark hvs
    obtain ⟨rest, hwhole⟩ := Outcome.toExcept_eq_ok_iff.1 hread
    rw [show (TokenStream.ofText t.text).rest = us ++ l :: vs from hbody] at hwhole
    exact wholeType_ne_ok hu hus hl hwhole
  · intro ht
    obtain ⟨u, bounds, hu, rfl⟩ := h.exists_arrays ht
    exact Outcome.toExcept_eq_ok_iff.2 ⟨[], wholeType_arrays hu (Ty.lexemes_arrays hu bounds)⟩

end WatchExpr
