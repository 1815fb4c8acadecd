import WatchExpr.Proofs.Lexing.Decimals
import WatchExpr.Proofs.Printing.Printable
import WatchExpr.Proofs.Printing.Types

/-!
# Texts of declarators

The text of a type says what it is. It splits into the words of the named type at the core and the
signs of the levels around it. The first sign is that of the level next to the core, and tells how
the rest of them is to be read.
-/

namespace WatchExpr

open Lexeme

variable {α : Type}

/-- A list splits in one way into elements that have a property and a rest that starts with none. -/
theorem append_inj_of_forall {p : α → Prop} {as bs ss ts : List α} (has : ∀ a ∈ as, p a)
    (hbs : ∀ a ∈ bs, p a) (hss : ∀ a ∈ ss.head?, ¬p a) (hts : ∀ a ∈ ts.head?, ¬p a)
    (h : as ++ ss = bs ++ ts) : as = bs ∧ ss = ts := by
  induction as generalizing bs with
  | nil =>
      cases bs with
      | nil => exact ⟨rfl, h⟩
      | cons b bs =>
          obtain rfl : ss = b :: (bs ++ ts) := h
          exact absurd (hbs b (by simp)) (hss b rfl)
  | cons a as ih =>
      cases bs with
      | nil =>
          obtain rfl : a :: (as ++ ss) = ts := h
          exact absurd (has a (by simp)) (hts a rfl)
      | cons b bs =>
          obtain ⟨rfl, htail⟩ := List.cons.inj h
          obtain ⟨rfl, rfl⟩ := ih (fun c hc => has c (List.mem_cons_of_mem a hc))
            (fun c hc => hbs c (List.mem_cons_of_mem a hc)) htail
          exact ⟨rfl, rfl⟩

theorem flatMap_space_inj {ws vs : List (List Char)} (hws : ∀ w ∈ ws, ' ' ∉ w)
    (hvs : ∀ v ∈ vs, ' ' ∉ v) (h : ws.flatMap (' ' :: ·) = vs.flatMap (' ' :: ·)) : ws = vs := by
  have hspace (us : List (List Char)) : ∀ c ∈ (us.flatMap (' ' :: ·)).head?, ¬c ≠ ' ' := by
    cases us <;> simp
  induction ws generalizing vs with
  | nil =>
      cases vs with
      | nil => rfl
      | cons v vs => cases h
  | cons w ws ih =>
      cases vs with
      | nil => cases h
      | cons v vs =>
          obtain ⟨rfl, hrest⟩ := append_inj_of_forall
            (fun c hc => ne_of_mem_of_not_mem hc (hws w (by simp)))
            (fun c hc => ne_of_mem_of_not_mem hc (hvs v (by simp))) (hspace ws) (hspace vs)
            (List.cons.inj h).2
          rw [ih (fun u hu => hws u (List.mem_cons_of_mem w hu))
            (fun u hu => hvs u (List.mem_cons_of_mem w hu)) hrest]

theorem cons_intercalate_space {ws : List (List Char)} (h : ws ≠ []) :
    ' ' :: [' '].intercalate ws = ws.flatMap (' ' :: ·) := by
  induction ws with
  | nil => exact absurd rfl h
  | cons w ws ih =>
      cases ws with
      | nil => simp
      | cons v ws =>
          rw [List.intercalate_cons_cons, List.append_assoc, List.singleton_append, ih (by simp)]
          rfl

/-- Words are told apart by the spaces between them. -/
theorem intercalate_space_inj {ws vs : List (List Char)} (hwn : ws ≠ []) (hvn : vs ≠ [])
    (hws : ∀ w ∈ ws, ' ' ∉ w) (hvs : ∀ v ∈ vs, ' ' ∉ v)
    (h : [' '].intercalate ws = [' '].intercalate vs) : ws = vs := by
  refine flatMap_space_inj hws hvs ?_
  rw [← cons_intercalate_space hwn, ← cons_intercalate_space hvn, h]

namespace Ty

/-! ## Signs -/

/-- A level of a type around its core. -/
inductive Sign where
  | pointer (cv : Qualifiers)
  | reference
  | array (length : UInt64)

/-- The type with one more level around it. -/
def Sign.over : Sign → Ty → Ty
  | .pointer q, t => .pointer t q
  | .reference, t => .reference t .none
  | .array n, t => .array t n .none

/-- The text of levels around a type, in parentheses if a bound could not stand behind it. -/
def grouped (inner : List Char) : List Char :=
  if inner.head? = some '*' ∨ inner.head? = some '&' then '(' :: (inner ++ [')']) else inner

/-- The text of the levels around a core, the innermost one first. -/
def signsText : List Sign → List Char
  | [] => []
  | .pointer q :: ss => '*' :: ((if q = .none then [] else ' ' :: q.text) ++ signsText ss)
  | .reference :: ss => '&' :: signsText ss
  | .array n :: ss => grouped (signsText ss) ++ '[' :: (Text.decimal n.toNat ++ [']'])

/-- The named type at the core of a type. -/
def core : Ty → Ty
  | .pointer t _ | .reference t _ | .array t _ _ => t.core
  | t => t

/-- The levels around the core of a type, the innermost one first. -/
def signs : Ty → List Sign
  | .scalar _ _ | .tagged _ _ => []
  | .pointer t q => t.signs ++ [.pointer q]
  | .reference t _ => t.signs ++ [.reference]
  | .array t n _ => t.signs ++ [.array n]

theorem declarator_signsText (t : Ty) (ss : List Sign) :
    t.declarator (signsText ss) = t.core.declarator (signsText (t.signs ++ ss)) := by
  induction t generalizing ss with
  | scalar k q => rfl
  | tagged r q => rfl
  | pointer t q ih =>
      rw [core, signs, List.append_assoc]
      exact ih (.pointer q :: ss)
  | reference t q ih =>
      rw [core, signs, List.append_assoc]
      exact ih (.reference :: ss)
  | array t n q ih =>
      rw [core, signs, List.append_assoc]
      exact ih (.array n :: ss)

/-- The sign of an array starts with a bound or with a parenthesis. -/
theorem head?_signsText_array (n : UInt64) (ss : List Sign) :
    (signsText (.array n :: ss)).head? = some '[' ∨
      (signsText (.array n :: ss)).head? = some '(' := by
  induction ss generalizing n with
  | nil => exact .inl rfl
  | cons s ss ih =>
      cases s with
      | pointer q => exact .inr rfl
      | reference => exact .inr rfl
      | array m =>
          have hgrouped : grouped (signsText (.array m :: ss)) = signsText (.array m :: ss) :=
            if_neg (by rcases ih m with h | h <;> rw [h] <;> decide)
          have hhead : (signsText (.array n :: .array m :: ss)).head? =
              (signsText (.array m :: ss)).head? := by
            rw [signsText, hgrouped, List.head?_append_of_ne_nil]
            rcases ih m with h | h <;> exact fun hnil => by simp [hnil] at h
          rw [hhead]
          exact ih m

theorem head?_signsText_array_ne (n : UInt64) (ss : List Sign) :
    ¬((signsText (.array n :: ss)).head? = some '*' ∨
      (signsText (.array n :: ss)).head? = some '&') := by
  rcases head?_signsText_array n ss with h | h <;> rw [h] <;> decide

theorem signAhead_signsText (ss : List Sign) : SignAhead (signsText ss) := by
  intro d hd
  cases ss with
  | nil => cases hd
  | cons s ss =>
      cases s with
      | pointer q =>
          cases hd
          decide
      | reference =>
          cases hd
          decide
      | array n =>
          rcases head?_signsText_array n ss with h | h
          · cases h.symm.trans hd
            decide
          · cases h.symm.trans hd
            decide

/-- A text without signs in front of levels. -/
theorem append_signsText_inj {as bs : List Char} {ss ts : List Sign}
    (has : ∀ c ∈ as, c ∉ declaratorChars) (hbs : ∀ c ∈ bs, c ∉ declaratorChars)
    (h : as ++ signsText ss = bs ++ signsText ts) : as = bs ∧ signsText ss = signsText ts :=
  append_inj_of_forall has hbs (fun c hc => not_not.2 (signAhead_signsText ss c hc))
    (fun c hc => not_not.2 (signAhead_signsText ts c hc)) h

/-- Behind a pointer stand its qualifiers, and then another sign. -/
theorem pointer_signsText_inj {q r : Qualifiers} {ss ts : List Sign}
    (h : signsText (.pointer q :: ss) = signsText (.pointer r :: ts)) :
    q = r ∧ signsText ss = signsText ts := by
  have hchars (q : Qualifiers) :
      ∀ c ∈ if q = .none then [] else ' ' :: q.text, c ∉ declaratorChars := by
    obtain ⟨_ | _, _ | _⟩ := q <;>
      simp [Qualifiers.text_eq, Qualifiers.words, Qualifiers.none, List.intercalate_cons_cons,
        declaratorChars]
  obtain ⟨hcv, hrest⟩ := append_signsText_inj (hchars q) (hchars r) (List.cons.inj h).2
  refine ⟨?_, hrest⟩
  obtain ⟨_ | _, _ | _⟩ := q <;> obtain ⟨_ | _, _ | _⟩ := r <;> first | rfl | cases hcv

/-- What has parentheses around it starts or ends in another way than what needs none. -/
theorem signsText_ne_group {ss : List Sign} (inner : List Char)
    (h : ¬((signsText ss).head? = some '*' ∨ (signsText ss).head? = some '&')) :
    signsText ss ≠ '(' :: (inner ++ [')']) := by
  intro htext
  cases ss with
  | nil => cases htext
  | cons s ss =>
      cases s with
      | pointer q => exact h (.inl rfl)
      | reference => exact h (.inr rfl)
      | array n =>
          have hlast := congrArg List.getLast? htext
          simp [signsText, List.getLast?_cons] at hlast

theorem grouped_signsText_inj {ss ts : List Sign}
    (h : grouped (signsText ss) = grouped (signsText ts)) : signsText ss = signsText ts := by
  unfold grouped at h
  split at h
  · split at h
    · exact List.append_cancel_right (List.cons.inj h).2
    · exact absurd h.symm (signsText_ne_group _ ‹_›)
  · split at h
    · exact absurd h (signsText_ne_group _ ‹_›)
    · exact h

theorem array_signsText_inj {n m : UInt64} {ss ts : List Sign}
    (h : signsText (.array n :: ss) = signsText (.array m :: ts)) :
    n = m ∧ signsText ss = signsText ts := by
  -- From its end the text is read back over the digits of the bound.
  have hdigits (n : UInt64) : ∀ c ∈ (Text.decimal n.toNat).reverse, c.isDigit :=
    fun c hc => Text.isDigit_of_mem_decimal (List.mem_reverse.1 hc)
  have hreverse := congrArg List.reverse h
  simp only [signsText, List.reverse_append, List.reverse_cons, List.reverse_nil, List.nil_append,
    List.append_assoc, List.cons_append, List.cons.injEq, true_and] at hreverse
  obtain ⟨hbound, hrest⟩ := append_inj_of_forall (hdigits n) (hdigits m)
    (fun c hc => by cases hc; decide) (fun c hc => by cases hc; decide) hreverse
  have hvalue := congrArg (Text.numeralValue 10) (List.reverse_injective hbound)
  rw [Text.numeralValue_decimal, Text.numeralValue_decimal] at hvalue
  exact ⟨UInt64.toNat_inj.1 hvalue,
    grouped_signsText_inj (List.reverse_injective (List.cons.inj hrest).2)⟩

/-- The first character tells which sign is the innermost one. -/
theorem signsText_cons_inj {s t : Sign} {ss ts : List Sign}
    (h : signsText (s :: ss) = signsText (t :: ts)) : s = t ∧ signsText ss = signsText ts := by
  have hhead := congrArg List.head? h
  cases s with
  | pointer q =>
      cases t with
      | pointer r => exact (pointer_signsText_inj h).imp_left (congrArg Sign.pointer)
      | reference => simp [signsText] at hhead
      | array m => exact absurd (.inl hhead.symm) (head?_signsText_array_ne m ts)
  | reference =>
      cases t with
      | pointer r => simp [signsText] at hhead
      | reference => exact ⟨rfl, (List.cons.inj h).2⟩
      | array m => exact absurd (.inr hhead.symm) (head?_signsText_array_ne m ts)
  | array n =>
      cases t with
      | pointer r => exact absurd (.inl hhead) (head?_signsText_array_ne n ss)
      | reference => exact absurd (.inr hhead) (head?_signsText_array_ne n ss)
      | array m => exact (array_signsText_inj h).imp_left (congrArg Sign.array)

theorem signsText_cons_ne_nil (s : Sign) (ss : List Sign) : signsText (s :: ss) ≠ [] := by
  cases s <;> simp [signsText]

theorem signsText_injective : Function.Injective signsText := by
  intro ss
  induction ss with
  | nil =>
      intro ts h
      cases ts with
      | nil => rfl
      | cons t ts => exact absurd h.symm (signsText_cons_ne_nil t ts)
  | cons s ss ih =>
      intro ts h
      cases ts with
      | nil => exact absurd h (signsText_cons_ne_nil s ss)
      | cons t ts =>
          obtain ⟨rfl, htail⟩ := signsText_cons_inj h
          rw [ih htail]

/-! ## Cores -/

/-- The type without the recorded sizes of its records. -/
def withoutSizes : Ty → Ty
  | .scalar k q => .scalar k q
  | .tagged r q => .tagged ⟨r.name, 0⟩ q
  | .pointer t q => .pointer t.withoutSizes q
  | .reference t q => .reference t.withoutSizes q
  | .array t n q => .array t.withoutSizes n q

/-- Records are named by identifiers with `::` between them, and references and arrays have no
qualifiers of their own. -/
def IsSpelledOut : Ty → Prop
  | .scalar _ _ => True
  | .tagged r _ => IsScopedName r.name
  | .pointer t _ => t.IsSpelledOut
  | .reference t q => q = .none ∧ t.IsSpelledOut
  | .array t _ q => q = .none ∧ t.IsSpelledOut

/-- The words that a named type is named with. -/
def nameWords : Ty → List String
  | .scalar k _ => k.words.map BuiltinWord.spelling
  | .tagged r _ => [r.name]
  | _ => []

/-- The text of a named type: its qualifiers and its name, with spaces between the words. -/
def wordsText (t : Ty) : List Char :=
  [' '].intercalate ((t.cv.words ++ t.nameWords).map String.toList)

end Ty

/-- Names are kept apart from reserved words. -/
theorem IsScopedName.ne_spelling {name : String} (h : IsScopedName name) (k : Keyword) :
    name ≠ k.spelling := by
  cases h with
  | last hs =>
      rintro rfl
      exact List.find?_eq_none.1 hs.2 k k.mem_all (beq_iff_eq.2 rfl)
  | scope hs h =>
      -- No reserved word has a colon in it.
      intro hspelling
      have hall : ∀ k ∈ Keyword.all, ':' ∉ k.spelling.toList := by decide
      refine hall k k.mem_all ?_
      rw [← hspelling, toList_scope]
      simp

theorem BuiltinWord.spelling_injective : Function.Injective BuiltinWord.spelling := by
  intro v w h
  cases v <;> cases w <;> first | rfl | exact absurd h (by decide)

/-- Qualifiers are told apart from what they stand in front of. -/
theorem Qualifiers.words_append_inj {q r : Qualifiers} {ws vs : List String}
    (hws : ∀ w ∈ ws, w ≠ "const" ∧ w ≠ "volatile")
    (hvs : ∀ v ∈ vs, v ≠ "const" ∧ v ≠ "volatile") (h : q.words ++ ws = r.words ++ vs) :
    q = r ∧ ws = vs := by
  have hwords (q : Qualifiers) : ∀ w ∈ q.words, w = "const" ∨ w = "volatile" := by
    obtain ⟨_ | _, _ | _⟩ := q <;> decide
  obtain ⟨hcv, hrest⟩ := append_inj_of_forall (hwords q) (hwords r)
    (fun w hw => not_or.2 (hws w (List.mem_of_mem_head? hw)))
    (fun v hv => not_or.2 (hvs v (List.mem_of_mem_head? hv))) h
  refine ⟨?_, hrest⟩
  obtain ⟨_ | _, _ | _⟩ := q <;> obtain ⟨_ | _, _ | _⟩ := r <;>
    first | rfl | exact absurd hcv (by decide)

/-- A character of a name. -/
def IsNameChar (c : Char) : Prop :=
  continuesWord c ∨ c = ':'

theorem Lexeme.IsWord.isNameChar {cs : List Char} (h : IsWord cs) : ∀ c ∈ cs, IsNameChar c := by
  obtain ⟨c, cs, rfl, hc, hcs⟩ := h
  refine List.forall_mem_cons.2 ⟨.inl ?_, fun d hd => .inl (hcs d hd)⟩
  simp only [startsWord, continuesWord, Char.isAlphanum, Bool.or_eq_true] at hc ⊢
  exact hc.imp_left .inl

theorem IsScopedName.isNameChar {name : String} (h : IsScopedName name) :
    ∀ c ∈ name.toList, IsNameChar c := by
  induction h with
  | last hs => exact hs.1.isNameChar
  | scope hs h ih =>
      rw [toList_scope]
      exact List.forall_mem_append.2 ⟨hs.1.isNameChar,
        List.forall_mem_cons.2 ⟨.inr rfl, List.forall_mem_cons.2 ⟨.inr rfl, ih⟩⟩⟩

theorem IsNameChar.ne_space {c : Char} (h : IsNameChar c) : c ≠ ' ' := by
  rintro rfl
  revert h
  unfold IsNameChar
  decide

theorem IsNameChar.not_mem_declaratorChars {c : Char} (h : IsNameChar c) :
    c ∉ Ty.declaratorChars := by
  intro hc
  obtain h | rfl := h
  · rw [Ty.continuesWord_of_mem_declaratorChars c hc] at h
    cases h
  · revert hc
    decide

namespace Ty

theorem core_cases (t : Ty) :
    (∃ k q, t.core = .scalar k q) ∨ ∃ r q, t.core = .tagged r q := by
  induction t with
  | scalar k q => exact .inl ⟨k, q, rfl⟩
  | tagged r q => exact .inr ⟨r, q, rfl⟩
  | pointer t q ih => exact ih
  | reference t q ih => exact ih
  | array t n q ih => exact ih

theorem IsSpelledOut.core {t : Ty} (h : t.IsSpelledOut) : t.core.IsSpelledOut := by
  induction t with
  | scalar k q => exact h
  | tagged r q => exact h
  | pointer t q ih => exact ih h
  | reference t q ih => exact ih h.2
  | array t n q ih => exact ih h.2

theorem IsSpelledOut.withoutSizes_eq {t : Ty} (h : t.IsSpelledOut) :
    t.withoutSizes = t.signs.foldl (fun t s => s.over t) t.core.withoutSizes := by
  induction t with
  | scalar k q => rfl
  | tagged r q => rfl
  | pointer t q ih =>
      rw [withoutSizes, ih h, signs, List.foldl_append]
      rfl
  | reference t q ih =>
      obtain ⟨rfl, h⟩ := h
      rw [withoutSizes, ih h, signs, List.foldl_append]
      rfl
  | array t n q ih =>
      obtain ⟨rfl, h⟩ := h
      rw [withoutSizes, ih h, signs, List.foldl_append]
      rfl

theorem IsSpelledOut.isNameChar {t : Ty} (h : t.IsSpelledOut) {w : String}
    (hw : w ∈ t.cv.words ++ t.nameWords) : ∀ c ∈ w.toList, IsNameChar c := by
  obtain hw | hw := List.mem_append.1 hw
  · exact (isWord_qualifier hw).isNameChar
  · cases t with
    | scalar k q =>
        obtain ⟨w, -, rfl⟩ := List.mem_map.1 hw
        exact (isWord_builtin w).isNameChar
    | tagged r q =>
        obtain rfl := List.mem_singleton.1 hw
        exact IsScopedName.isNameChar h
    | _ => cases hw

theorem IsSpelledOut.ne_qualifier {t : Ty} (h : t.IsSpelledOut) :
    ∀ w ∈ t.nameWords, w ≠ "const" ∧ w ≠ "volatile" := by
  intro w hw
  cases t with
  | scalar k q =>
      obtain ⟨w, -, rfl⟩ := List.mem_map.1 hw
      cases w <;> decide
  | tagged r q =>
      obtain rfl := List.mem_singleton.1 hw
      exact ⟨IsScopedName.ne_spelling h .const, IsScopedName.ne_spelling h .volatile⟩
  | _ => cases hw

theorem words_core_ne_nil (t : Ty) :
    (t.core.cv.words ++ t.core.nameWords).map String.toList ≠ [] := by
  obtain ⟨k, q, h⟩ | ⟨r, q, h⟩ := t.core_cases
  · simp [h, nameWords, k.words_ne_nil]
  · simp [h, nameWords]

theorem named_eq {name : String} {q : Qualifiers} {inner : List Char} {ws : List String}
    (hws : ws ≠ []) (hname : name.toList = [' '].intercalate (ws.map String.toList)) :
    named name q inner = [' '].intercalate ((q.words ++ ws).map String.toList) ++
      (if inner.head? = some '(' then ' ' :: inner else inner) := by
  obtain ⟨w, ws, rfl⟩ := List.exists_cons_of_ne_nil hws
  rw [named, hname]
  obtain ⟨_ | _, _ | _⟩ := q <;>
    simp [Qualifiers.text_eq, Qualifiers.words, Qualifiers.none, List.intercalate_cons_cons]

/-- The text of a named type is that of its words, set off from a parenthesis. -/
theorem declarator_core (t : Ty) (inner : List Char) :
    t.core.declarator inner =
      t.core.wordsText ++ (if inner.head? = some '(' then ' ' :: inner else inner) := by
  obtain ⟨k, q, h⟩ | ⟨r, q, h⟩ := t.core_cases
  · have hname : k.name.toList =
        [' '].intercalate ((k.words.map BuiltinWord.spelling).map String.toList) := by
      rw [k.toList_name, List.map_map]
      rfl
    rw [h]
    exact named_eq (fun hnil => k.words_ne_nil (List.map_eq_nil_iff.1 hnil)) hname
  · rw [h]
    exact named_eq (List.cons_ne_nil r.name []) (List.append_nil _).symm

/-- A named type can be told from its text. -/
theorem wordsText_core_inj {t u : Ty} (ht : t.core.IsSpelledOut) (hu : u.core.IsSpelledOut)
    (h : t.core.wordsText = u.core.wordsText) : t.core.withoutSizes = u.core.withoutSizes := by
  have hspace {t : Ty} (ht : t.IsSpelledOut) :
      ∀ w ∈ (t.cv.words ++ t.nameWords).map String.toList, ' ' ∉ w := by
    intro cs hcs hmem
    obtain ⟨w, hw, rfl⟩ := List.mem_map.1 hcs
    exact (ht.isNameChar hw _ hmem).ne_space rfl
  have hwords := List.map_injective_iff.2 (fun _ _ => String.toList_injective)
    (intercalate_space_inj t.words_core_ne_nil u.words_core_ne_nil (hspace ht) (hspace hu) h)
  obtain ⟨hcv, hname⟩ := Qualifiers.words_append_inj ht.ne_qualifier hu.ne_qualifier hwords
  obtain ⟨k, q, hk⟩ | ⟨r, q, hr⟩ := t.core_cases <;>
    obtain ⟨k', q', hk'⟩ | ⟨r', q', hr'⟩ := u.core_cases
  · rw [hk, hk'] at hname hcv ⊢
    have hkind := k.kind?_words
    rw [List.map_injective_iff.2 BuiltinWord.spelling_injective hname, k'.kind?_words] at hkind
    cases hkind
    cases hcv
    rfl
  · rw [hk, hr'] at hname
    rw [hr'] at hu
    obtain ⟨w, -, hw⟩ := List.map_eq_singleton_iff.1 hname
    exact absurd hw.symm (IsScopedName.ne_spelling hu (.builtin w))
  · rw [hr, hk'] at hname
    rw [hr] at ht
    obtain ⟨w, -, hw⟩ := List.map_eq_singleton_iff.1 hname.symm
    exact absurd hw.symm (IsScopedName.ne_spelling ht (.builtin w))
  · rw [hr, hr'] at hname hcv ⊢
    cases hcv
    rw [withoutSizes, withoutSizes, (List.cons.inj hname).1]

/-! ## Whole types -/

theorem declarator_withoutSizes (t : Ty) (inner : List Char) :
    t.withoutSizes.declarator inner = t.declarator inner := by
  induction t generalizing inner with
  | scalar k q => rfl
  | tagged r q => rfl
  | pointer t q ih => exact ih _
  | reference t q ih => exact ih _
  | array t n q ih => exact ih _

/-- What stands in front of the signs in the text of a type. -/
def front (t : Ty) : List Char :=
  t.core.wordsText ++ (if (signsText t.signs).head? = some '(' then [' '] else [])

theorem declarator_nil_eq (t : Ty) : t.declarator [] = t.front ++ signsText t.signs := by
  have hsigns := declarator_signsText t []
  rw [List.append_nil, declarator_core] at hsigns
  refine hsigns.trans ?_
  rw [front, List.append_assoc]
  split <;> rfl

theorem IsSpelledOut.front_not_mem {t : Ty} (h : t.IsSpelledOut) :
    ∀ c ∈ t.front, c ∉ declaratorChars := by
  have hspace : ' ' ∉ declaratorChars := by decide
  refine List.forall_mem_append.2 ⟨fun c hc => ?_, fun c hc => ?_⟩
  · have hc := List.mem_cons_of_mem ' ' hc
    rw [wordsText, cons_intercalate_space t.words_core_ne_nil] at hc
    obtain ⟨cs, hcs, hc⟩ := List.mem_flatMap.1 hc
    obtain ⟨w, hw, rfl⟩ := List.mem_map.1 hcs
    obtain rfl | hc := List.mem_cons.1 hc
    · exact hspace
    · exact (h.core.isNameChar hw c hc).not_mem_declaratorChars
  · split at hc
    · obtain rfl := List.mem_singleton.1 hc
      exact hspace
    · cases hc

/-- Types are printed alike exactly if they are the same up to the recorded sizes of records. -/
theorem text_eq_text_iff {t u : Ty} (ht : t.IsSpelledOut) (hu : u.IsSpelledOut) :
    t.text = u.text ↔ t.withoutSizes = u.withoutSizes := by
  constructor
  · intro h
    have htext : t.front ++ signsText t.signs = u.front ++ signsText u.signs := by
      rw [← declarator_nil_eq, ← declarator_nil_eq]
      exact String.ofList_injective h
    obtain ⟨hfront, hsigns⟩ := append_signsText_inj ht.front_not_mem hu.front_not_mem htext
    rw [front, front, hsigns] at hfront
    have hcore := wordsText_core_inj ht.core hu.core (List.append_cancel_right hfront)
    rw [ht.withoutSizes_eq, hu.withoutSizes_eq, hcore, signsText_injective hsigns]
  · intro h
    rw [text, text, ← declarator_withoutSizes t, h, declarator_withoutSizes]

/-- A pointer to an array of constant pointers to a record, whose size the text leaves open, and an
array of pointers in its place. -/
theorem text_eq_text_iff_pointer_to_array :
    let link (size : UInt64) : Ty := .pointer (.tagged ⟨"ns::R", size⟩ .none) ⟨true, false⟩
    let t (size : UInt64) : Ty := .pointer (.array (link size) 4 .none) .none
    let u : Ty := .array (.pointer (link 8) .none) 4 .none
    (t 8).IsSpelledOut ∧ (t 16).IsSpelledOut ∧ u.IsSpelledOut ∧
      (t 8).text = "ns::R* const(*)[4]" ∧ t 8 ≠ t 16 ∧ (t 8).text = (t 16).text ∧
      u.text = "ns::R* const*[4]" ∧ ¬(t 8).text = u.text := by
  intro link t u
  have hword : IsIdentifier "ns" ∧ IsIdentifier "R" := by decide
  have hname : IsScopedName "ns::R" := .scope hword.1 (.last hword.2)
  have ht (size : UInt64) : (t size).IsSpelledOut := ⟨rfl, hname⟩
  have hu : u.IsSpelledOut := ⟨rfl, hname⟩
  exact ⟨ht 8, ht 16, hu, by decide, by decide, (text_eq_text_iff (ht 8) (ht 16)).2 rfl, by decide,
    fun h => absurd ((text_eq_text_iff (ht 8) hu).1 h) (by decide)⟩

end Ty

end WatchExpr
