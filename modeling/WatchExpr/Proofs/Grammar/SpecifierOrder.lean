import WatchExpr.Proofs.Grammar.TypeIds
import WatchExpr.Proofs.Lexing.Longest
import WatchExpr.Proofs.Printing.TypeIds

/-!
# The order of specifiers

The words of a builtin type and its qualifiers may stand in any order. Which of them go together is a
matter of how often each of them stands there.
-/

namespace WatchExpr

open Grammar

/-! ## Builtin words -/

namespace BuiltinWord

/-- The sign of an integer type, as far as it is written. -/
inductive Sign where
  | unsaid | signed | unsigned
deriving DecidableEq

/-- The size of an integer type, as far as it is written. -/
inductive Size where
  | unsaid | short | long | longLong

/-- The word for a sign. -/
def Sign.words : Sign → List BuiltinWord
  | .unsaid => []
  | .signed => [.signed]
  | .unsigned => [.unsigned]

/-- The words for a size. -/
def Size.words : Size → List BuiltinWord
  | .unsaid => []
  | .short => [.short]
  | .long => [.long]
  | .longLong => [.long, .long]

/-- The character type with a sign; if none is said it is a type of its own. -/
def Sign.char : Sign → IntegralKind
  | .unsaid => .char
  | .signed => .signedChar
  | .unsigned => .unsignedChar

/-- The integer type with a sign and a size. -/
def Sign.integer : Sign → Size → IntegralKind
  | .unsigned, .unsaid => .unsignedInt
  | .unsigned, .short => .unsignedShort
  | .unsigned, .long => .unsignedLong
  | .unsigned, .longLong => .unsignedLongLong
  | _, .unsaid => .int
  | _, .short => .short
  | _, .long => .long
  | _, .longLong => .longLong

/-- The words of an arithmetic type in their customary order: sign, size, name. The name of an integer
type may be left out if anything else is said of it. -/
inductive Spell : List BuiltinWord → ArithmeticKind → Prop where
  | bool : Spell [.bool] (.integral .bool)
  | float : Spell [.float] (.floating .float)
  | double : Spell [.double] (.floating .double)
  | char (sign : Sign) : Spell (sign.words ++ [.char]) (.integral sign.char)
  | int (sign : Sign) (size : Size) :
      Spell (sign.words ++ size.words ++ [.int]) (.integral (sign.integer size))
  | unnamed (sign : Sign) (size : Size) (h : sign.words ++ size.words ≠ []) :
      Spell (sign.words ++ size.words) (.integral (sign.integer size))

variable {ws vs : List BuiltinWord} {k : ArithmeticKind}

/-- Words in their customary order: those for signs, those for sizes, those that name a type. -/
theorem perm_sorted (ws : List BuiltinWord) :
    ws.Perm ((.replicate (ws.count .signed) .signed ++ .replicate (ws.count .unsigned) .unsigned) ++
      (.replicate (ws.count .short) .short ++ .replicate (ws.count .long) .long) ++
      ws.filter isBase) := by
  refine List.perm_iff_count.2 fun w => ?_
  have hbase : (ws.filter isBase).count w = if w.isBase then ws.count w else 0 := by
    split
    · exact List.count_filter ‹_›
    · exact List.count_eq_zero.2 fun hw => absurd (List.mem_filter.1 hw).2 ‹_›
  simp only [List.count_append, List.count_replicate, hbase]
  cases w <;> simp [isBase]

theorem kind?_of_two_bases (h : 1 < (ws.filter isBase).length) : kind? ws = none := by
  obtain ⟨b, c, bs, hbases⟩ : ∃ b c bs, ws.filter isBase = b :: c :: bs := by
    match hbases : ws.filter isBase with
    | [] | [_] => simp [hbases] at h
    | b :: c :: bs => exact ⟨b, c, bs, rfl⟩
  rw [kind?, hbases]
  cases b <;> simp

/-- Only how often each word stands there matters. -/
theorem kind?_perm (h : ws.Perm vs) : kind? ws = kind? vs := by
  have hbases := h.filter isBase
  by_cases htwo : 1 < (ws.filter isBase).length
  · rw [kind?_of_two_bases htwo, kind?_of_two_bases (hbases.length_eq ▸ htwo)]
  · have heq : ws.filter isBase = vs.filter isBase := by
      match hws : ws.filter isBase with
      | [] => exact (hws ▸ hbases).nil_eq
      | [b] => exact (List.perm_singleton.1 (hws ▸ hbases).symm).symm
      | _ :: _ :: _ => simp [hws] at htwo
    rw [kind?, kind?, h.count_eq, h.count_eq, h.count_eq, h.count_eq, heq]

theorem kind?_of_spell (h : Spell vs k) : kind? vs = some (.arithmetic k) := by
  cases h with
  | bool => rfl
  | float => rfl
  | double => rfl
  | char sign => cases sign <;> rfl
  | int sign size => cases sign <;> cases size <;> rfl
  | unnamed sign size h => cases sign <;> cases size <;> first | rfl | exact absurd rfl h

theorem exists_sign {signed unsigned : Nat} (h : ¬1 < signed + unsigned) :
    ∃ sign : Sign, .replicate signed .signed ++ .replicate unsigned .unsigned = sign.words ∧
      (0 < unsigned ↔ sign = .unsigned) ∧
      (if 0 < signed then .signedChar else if 0 < unsigned then .unsignedChar else .char) =
        sign.char := by
  have hcases : signed = 0 ∧ unsigned = 0 ∨ signed = 1 ∧ unsigned = 0 ∨ signed = 0 ∧ unsigned = 1 := by
    omega
  rcases hcases with ⟨rfl, rfl⟩ | ⟨rfl, rfl⟩ | ⟨rfl, rfl⟩
  · exact ⟨.unsaid, by simp [Sign.words, Sign.char]⟩
  · exact ⟨.signed, by simp [Sign.words, Sign.char]⟩
  · exact ⟨.unsigned, by simp [Sign.words, Sign.char]⟩

theorem exists_size {shorts longs : Nat} {i : IntegralKind} (h : sized? shorts longs = some i) :
    ∃ size : Size, .replicate shorts .short ++ .replicate longs .long = size.words ∧
      ∀ sign : Sign, (if sign = .unsigned then i.toUnsigned else i) = sign.integer size := by
  unfold sized? at h
  split at h
  · cases h
    exact ⟨.short, rfl, by rintro ⟨⟩ <;> rfl⟩
  · cases h
    exact ⟨.unsaid, rfl, by rintro ⟨⟩ <;> rfl⟩
  · cases h
    exact ⟨.long, rfl, by rintro ⟨⟩ <;> rfl⟩
  · cases h
    exact ⟨.longLong, rfl, by rintro ⟨⟩ <;> rfl⟩
  · cases h

theorem exists_integer {signed unsigned shorts longs : Nat} (hsigns : ¬1 < signed + unsigned)
    (h : ((sized? shorts longs).map fun i => ScalarKind.arithmetic
      (.integral (if 0 < unsigned then i.toUnsigned else i))) = some (.arithmetic k)) :
    ∃ (sign : Sign) (size : Size), k = .integral (sign.integer size) ∧
      (.replicate signed .signed ++ .replicate unsigned .unsigned) ++
        (.replicate shorts .short ++ .replicate longs .long) = sign.words ++ size.words := by
  obtain ⟨i, hi, hk⟩ := Option.map_eq_some_iff.1 h
  obtain ⟨sign, hsign, hunsigned, -⟩ := exists_sign hsigns
  obtain ⟨size, hsize, hkind⟩ := exists_size hi
  cases hk
  refine ⟨sign, size, ?_, by rw [hsign, hsize]⟩
  rw [← hkind]
  simp only [hunsigned]

/-- Neither sign nor size is said besides the name of the type. -/
theorem perm_of_bare {w : BuiltinWord} (hbases : ws.filter isBase = [w])
    (h : ws.count .signed + ws.count .unsigned + ws.count .short + ws.count .long = 0) :
    ws.Perm [w] := by
  have hsorted := perm_sorted ws
  obtain ⟨⟨⟨hsigned, hunsigned⟩, hshort⟩, hlong⟩ :
      ((ws.count .signed = 0 ∧ ws.count .unsigned = 0) ∧ ws.count .short = 0) ∧ ws.count .long = 0 := by
    omega
  rw [hsigned, hunsigned, hshort, hlong, hbases] at hsorted
  exact hsorted

/-- Whatever words make a type, in their customary order they are one of the combinations. -/
theorem exists_spell (h : kind? ws = some (.arithmetic k)) : ∃ vs, Spell vs k ∧ ws.Perm vs := by
  have hsorted := perm_sorted ws
  unfold kind? at h
  dsimp only at h
  split at h
  · cases h
  · rename_i hsigns
    -- by the words that name a type: none, `int`, `void`, `bool`, `float`, `double`, `char`, others
    split at h
    · rename_i hbases
      split at h
      · cases h
      · rename_i hsaid
        obtain ⟨sign, size, rfl, hwords⟩ := exists_integer hsigns h
        rw [hbases, List.append_nil, hwords] at hsorted
        refine ⟨_, .unnamed sign size fun hnil => hsaid ?_, hsorted⟩
        have hlength := congrArg List.length (hwords.trans hnil)
        simp only [List.length_append, List.length_replicate, List.length_nil] at hlength
        omega
    · rename_i hbases
      obtain ⟨sign, size, rfl, hwords⟩ := exists_integer hsigns h
      rw [hbases, hwords] at hsorted
      exact ⟨_, .int sign size, hsorted⟩
    · split at h
      · cases h
      · cases h
    · split at h
      · cases h
        exact ⟨_, .bool, perm_of_bare ‹_› ‹_›⟩
      · cases h
    · split at h
      · cases h
        exact ⟨_, .float, perm_of_bare ‹_› ‹_›⟩
      · cases h
    · split at h
      · cases h
        exact ⟨_, .double, perm_of_bare ‹_› ‹_›⟩
      · cases h
    · rename_i hbases
      split at h
      · rename_i hsizes
        obtain ⟨hshort, hlong⟩ := Nat.add_eq_zero_iff.1 hsizes
        obtain ⟨sign, hsign, -, hchar⟩ := exists_sign hsigns
        rw [hbases, hsign, hshort, hlong] at hsorted
        rw [hchar] at h
        cases h
        exact ⟨_, .char sign, by simpa using hsorted⟩
      · cases h
    · cases h

theorem kind?_eq_some_iff : kind? ws = some (.arithmetic k) ↔ ∃ vs, Spell vs k ∧ ws.Perm vs := by
  constructor
  · exact exists_spell
  · rintro ⟨vs, hvs, hperm⟩
    rw [kind?_perm hperm, kind?_of_spell hvs]

end BuiltinWord

/-! ## Specifiers -/

/-- A word of a builtin type, or one of its qualifiers. -/
inductive Specifier where
  | word (w : BuiltinWord)
  | const
  | volatile
deriving DecidableEq

namespace Specifier

/-- The specifier as a reserved word. -/
def keyword : Specifier → Keyword
  | .word w => .builtin w
  | .const => .const
  | .volatile => .volatile

/-- Specifiers with a space between them. -/
def text (ss : List Specifier) : String :=
  " ".intercalate (ss.map (·.keyword.spelling))

/-- The builtin word, if it is one. -/
def word? : Specifier → Option BuiltinWord
  | .word w => some w
  | .const | .volatile => none

/-- What is written by specifiers. -/
def written (ss : List Specifier) : TypeId where
  words := ss.filterMap word?
  cv := ⟨.const ∈ ss, .volatile ∈ ss⟩
  illFormed := 1 < ss.count .const || 1 < ss.count .volatile

/-- A type-id with one more specifier. -/
def addTo (d : TypeId) : Specifier → TypeId
  | .word w => d.addWord w
  | .const => d.addConst
  | .volatile => d.addVolatile

variable {finish : EndMark} {d : TypeId} {t : Ty} {ts : List Token} {ss rs : List Specifier}
  {types : TypeNames}

/-- What is repeated is there: one more repeats it exactly if it is there. -/
theorem repeated_or_mem (ss : List Specifier) (s : Specifier) :
    (decide (1 < ss.count s) || decide (s ∈ ss)) = decide (s ∈ ss) := by
  rw [← Bool.decide_or]
  refine decide_eq_decide.2 (or_iff_right_of_imp fun h => ?_)
  exact List.count_pos_iff.1 (Nat.zero_lt_of_lt h)

theorem written_append (ss : List Specifier) (s : Specifier) :
    written (ss ++ [s]) = addTo (written ss) s := by
  cases s with
  | word w => simp [written, addTo, TypeId.addWord, word?]
  | const => simp [written, addTo, TypeId.addConst, word?, Bool.or_right_comm, repeated_or_mem]
  | volatile => simp [written, addTo, TypeId.addVolatile, word?, Bool.or_assoc, repeated_or_mem]

theorem foldl_addTo (ss : List Specifier) : ss.foldl addTo {} = written ss := by
  induction ss using List.reverseRecOn with
  | nil => rfl
  | append_singleton ss s ih =>
      rw [List.foldl_append, ih, written_append]
      rfl

theorem specifiers_of_kinds (hts : ts.map Token.kind = ss.map (TokenKind.keyword ·.keyword)) :
    specifiers finish d ts = .ok (ss.foldl addTo d) [] := by
  induction ss generalizing d ts with
  | nil =>
      obtain rfl := List.map_eq_nil_iff.1 hts
      rw [specifiers, List.foldl_nil]
  | cons s ss ih =>
      obtain ⟨t, us, rfl, ht, hus⟩ := List.map_eq_cons_iff.1 hts
      rw [List.foldl_cons, ← ih hus]
      cases s with
      | word w => exact specifiers_word ht
      | const => exact specifiers_const ht
      | volatile => exact specifiers_volatile ht

theorem toList_text (ss : List Specifier) :
    (text ss).toList = [' '].intercalate (ss.map (·.keyword.spelling.toList)) := by
  rw [text, String.toList_intercalate, List.map_map]
  rfl

theorem kinds_of_text (ss : List Specifier) :
    (Tokens.lex (text ss)).body.map Token.kind = ss.map (TokenKind.keyword ·.keyword) := by
  have hwords : ∀ w ∈ ss.map (·.keyword.spelling.toList), Lexeme.IsWord w :=
    List.forall_mem_map.2 fun s _ => Lexeme.isWord_keyword s.keyword
  have hlexemes : Tokens.lexemes (text ss).toList =
      (ss.map (·.keyword.spelling.toList)).map Lexeme.word := by
    have hcut := lexemes_words hwords (show ∀ d ∈ [].head?, Lexeme.continuesWord d = false from nofun)
    rwa [List.append_nil, Tokens.lexemes_nil, List.append_nil, ← toList_text] at hcut
  calc (Tokens.lex (text ss)).body.map Token.kind
      = (Tokens.lexemes (text ss).toList).map Lexeme.kind := by
        rw [Tokens.lexemes, List.map_map]
        rfl
    _ = ss.map fun s => Lexeme.wordKind s.keyword.spelling.toList := by
        rw [hlexemes, List.map_map, List.map_map]
        rfl
    _ = ss.map (TokenKind.keyword ·.keyword) :=
        List.map_congr_left fun s _ => Lexeme.wordKind_eq_keyword_iff.2 rfl

theorem specifiers_text (finish : EndMark) (ss : List Specifier) :
    specifiers finish {} (Tokens.lex (text ss)).body = .ok (written ss) [] := by
  rw [specifiers_of_kinds (kinds_of_text ss), foldl_addTo]

/-- The text of specifiers is read as what they write. -/
theorem read_text_eq_ok_iff :
    Ty.read types (text ss) = .ok t ↔ (written ss).resolve types = .ok t := by
  rw [read_type_eq_ok_iff, arrayType_eq_ok_iff]
  constructor
  · rintro ⟨d, us, u, bounds, hd, hresolve, hbounds, rfl⟩
    rw [typeId, specifiers_text, Outcome.ok_andThen, declaratorSigns] at hd
    split at hd
    · cases hd
      rw [arrayBounds] at hbounds
      cases hbounds
      exact hresolve
    · cases hd
  · intro h
    refine ⟨written ss, [], t, [], ?_, h, by rw [arrayBounds], rfl⟩
    rw [typeId_eq (specifiers_text _ ss) (TypeId.resolve_eq_ok_iff.1 h).1, declaratorSigns]

theorem base_written_eq_ok_iff :
    (written ss).base types = .ok t ↔ ∃ k, BuiltinWord.kind? (ss.filterMap word?) = some k ∧
      t = .scalar k ⟨.const ∈ ss, .volatile ∈ ss⟩ := by
  rw [TypeId.base, written]
  dsimp only
  cases BuiltinWord.kind? (ss.filterMap word?) with
  | none => simp
  | some k => simp [eq_comm]

theorem hasSpecifier_written {k : ScalarKind}
    (h : BuiltinWord.kind? (ss.filterMap word?) = some k) : (written ss).hasSpecifier := by
  have hsome : ss.filterMap word? ≠ [] := by
    rintro hnil
    rw [hnil] at h
    cases h
  simpa [TypeId.hasSpecifier, written] using hsome

theorem resolve_written_eq_ok_iff :
    (written ss).resolve types = .ok t ↔ ss.count .const ≤ 1 ∧ ss.count .volatile ≤ 1 ∧
      ∃ k, BuiltinWord.kind? (ss.filterMap word?) = some (.arithmetic k) ∧
        t = .scalar (.arithmetic k) ⟨.const ∈ ss, .volatile ∈ ss⟩ := by
  have hwell : (written ss).illFormed = false ↔ ss.count .const ≤ 1 ∧ ss.count .volatile ≤ 1 := by
    simp [written]
  rw [TypeId.resolve_eq_ok_iff]
  constructor
  · rintro ⟨-, b, hresolves⟩
    obtain ⟨hconst, hvolatile⟩ := hwell.1 hresolves.wellFormed
    obtain ⟨k, hk, rfl⟩ := base_written_eq_ok_iff.1 hresolves.base
    cases hresolves.signs
    cases k with
    | void => cases hresolves.notVoid
    | arithmetic k => exact ⟨hconst, hvolatile, k, hk, rfl⟩
  · rintro ⟨hconst, hvolatile, k, hk, rfl⟩
    exact ⟨hasSpecifier_written hk, _, hwell.2 ⟨hconst, hvolatile⟩,
      base_written_eq_ok_iff.2 ⟨_, hk, rfl⟩, rfl, rfl⟩

theorem read_text_perm (h : rs.Perm ss) :
    Ty.read types (text rs) = .ok t ↔ Ty.read types (text ss) = .ok t := by
  simp only [read_text_eq_ok_iff, resolve_written_eq_ok_iff, h.count_eq, h.mem_iff,
    BuiltinWord.kind?_perm (h.filterMap word?)]

/-- Specifiers are a type exactly if no qualifier is repeated and the other words are those of an
arithmetic type, which then has these qualifiers. In whatever order they stand, they are the same type
or none. -/
theorem specifiers_in_any_order (types : TypeNames) (ss : List Specifier) :
    (∀ t, Ty.read types (text ss) = .ok t ↔ ss.count .const ≤ 1 ∧ ss.count .volatile ≤ 1 ∧
      ∃ k, (∃ ws, BuiltinWord.Spell ws k ∧ (ss.filterMap word?).Perm ws) ∧
        t = .scalar (.arithmetic k) ⟨.const ∈ ss, .volatile ∈ ss⟩) ∧
      ∀ rs, rs.Perm ss → EndAlike (· = ·) (Ty.read types (text rs)) (Ty.read types (text ss)) := by
  refine ⟨fun t => ?_, fun rs hperm => .of_eq_ok_iff fun t => read_text_perm hperm⟩
  simp only [read_text_eq_ok_iff, resolve_written_eq_ok_iff, BuiltinWord.kind?_eq_some_iff]

/-- An integer type that is not named, with its words and a qualifier mixed. -/
theorem specifiers_in_any_order_mixed :
    let ss : List Specifier := [.word .long, .const, .word .unsigned, .word .long]
    let rs : List Specifier := [.word .unsigned, .word .long, .word .long, .const]
    let t : Ty := .scalar (.arithmetic (.integral .unsignedLongLong)) ⟨true, false⟩
    text ss = "long const unsigned long" ∧ text rs = "unsigned long long const" ∧ rs.Perm ss ∧
      Ty.read (fun _ => none) (text ss) = .ok t ∧ Ty.read (fun _ => none) (text rs) = .ok t := by
  intro ss rs t
  have hperm : rs.Perm ss := by decide
  obtain ⟨hread, horder⟩ := specifiers_in_any_order (fun _ => none) ss
  have hss : Ty.read (fun _ => none) (text ss) = .ok t :=
    (hread t).2 ⟨by decide, by decide, _,
      ⟨_, .unnamed .unsigned .longLong (by decide), by decide⟩, rfl⟩
  have halike := horder rs hperm
  rw [hss] at halike
  generalize hrs : Ty.read (fun _ => none) (text rs) = u at halike
  cases halike with
  | ok h => exact ⟨by decide, by decide, hperm, hss, by rw [h]⟩

end Specifier

end WatchExpr
