import WatchExpr.Proofs.Lexing.Breaks
import WatchExpr.Proofs.Lexing.Decimals
import Mathlib.Data.Nat.Digits.Defs

/-!
# Integer constants

The texts that are integer constants, by their base, digits and suffix, and the type that such a
constant has. A constant is read exactly if its text is one of these and its value has at most 64
bits, and what is read is its value, in its type.
-/

namespace WatchExpr

open Text Lexeme

namespace Literal

/-! ## Suffixes -/

/-- One letter `l` of either case, or two of the same case. -/
inductive SpellsLongs : List Char → Nat → Prop where
  | one {l : Char} (hl : l = 'l' ∨ l = 'L') : SpellsLongs [l] 1
  | two {l : Char} (hl : l = 'l' ∨ l = 'L') : SpellsLongs [l, l] 2

/-- The suffixes: at most one `u` and at most one of `l` and `ll`, in either order and case. -/
inductive SpellsSuffix : List Char → Suffix → Prop where
  | none : SpellsSuffix [] ⟨false, 0⟩
  | unsigned {u : Char} (hu : u = 'u' ∨ u = 'U') : SpellsSuffix [u] ⟨true, 0⟩
  | long {ls : List Char} {n : Nat} (hls : SpellsLongs ls n) : SpellsSuffix ls ⟨false, n⟩
  | unsignedLong {u : Char} {ls : List Char} {n : Nat} (hu : u = 'u' ∨ u = 'U')
      (hls : SpellsLongs ls n) : SpellsSuffix (u :: ls) ⟨true, n⟩
  | longUnsigned {u : Char} {ls : List Char} {n : Nat} (hls : SpellsLongs ls n)
      (hu : u = 'u' ∨ u = 'U') : SpellsSuffix (ls ++ [u]) ⟨true, n⟩

variable {c : Char} {cs ds : List Char} {suffix : Suffix} {radix n : Nat}

theorem splitUnsigned_cases (cs : List Char) :
    (∃ u rest, (u = 'u' ∨ u = 'U') ∧ cs = u :: rest ∧ splitUnsigned cs = (true, rest)) ∨
      splitUnsigned cs = (false, cs) := by
  unfold splitUnsigned
  split
  · exact .inl ⟨_, _, .inl rfl, rfl, rfl⟩
  · exact .inl ⟨_, _, .inr rfl, rfl, rfl⟩
  · exact .inr rfl

theorem splitLongs_cases (cs : List Char) :
    (∃ ls n rest, SpellsLongs ls n ∧ cs = ls ++ rest ∧ splitLongs cs = (n, rest)) ∨
      splitLongs cs = (0, cs) := by
  unfold splitLongs
  split
  · exact .inl ⟨_, _, _, .two (.inl rfl), rfl, rfl⟩
  · exact .inl ⟨_, _, _, .two (.inr rfl), rfl, rfl⟩
  · exact .inl ⟨_, _, _, .one (.inl rfl), rfl, rfl⟩
  · exact .inl ⟨_, _, _, .one (.inr rfl), rfl, rfl⟩
  · exact .inr rfl

theorem SpellsSuffix.of_suffix? (h : suffix? cs = some suffix) : SpellsSuffix cs suffix := by
  unfold suffix? at h
  obtain ⟨u, rest, hu, rfl, hfront⟩ | hfront := splitUnsigned_cases cs
  · obtain ⟨ls, n, rest, hls, rfl, hlongs⟩ | hlongs := splitLongs_cases rest
    · simp only [hfront, hlongs, ↓reduceIte, List.isEmpty_iff, Option.ite_none_right_eq_some,
        Bool.or_false, Option.some.injEq] at h
      obtain ⟨rfl, rfl⟩ := h
      rw [List.append_nil]
      exact .unsignedLong hu hls
    · simp only [hfront, hlongs, ↓reduceIte, List.isEmpty_iff, Option.ite_none_right_eq_some,
        Bool.or_false, Option.some.injEq] at h
      obtain ⟨rfl, rfl⟩ := h
      exact .unsigned hu
  · obtain ⟨ls, n, rest, hls, rfl, hlongs⟩ | hlongs := splitLongs_cases cs
    · obtain ⟨u, rest, hu, rfl, hback⟩ | hback := splitUnsigned_cases rest
      · simp only [hfront, hlongs, hback, Bool.false_eq_true, ↓reduceIte, List.isEmpty_iff,
          Option.ite_none_right_eq_some, Bool.false_or, Option.some.injEq] at h
        obtain ⟨rfl, rfl⟩ := h
        exact .longUnsigned hls hu
      · simp only [hfront, hlongs, hback, Bool.false_eq_true, ↓reduceIte, List.isEmpty_iff,
          Option.ite_none_right_eq_some, Bool.false_or, Option.some.injEq] at h
        obtain ⟨rfl, rfl⟩ := h
        rw [List.append_nil]
        exact .long hls
    · simp only [hfront, hlongs, Bool.false_eq_true, ↓reduceIte, List.isEmpty_iff,
        Option.ite_none_right_eq_some, Bool.false_or, Option.some.injEq] at h
      obtain ⟨rfl, rfl⟩ := h
      exact .none

theorem SpellsSuffix.suffix?_eq (h : SpellsSuffix cs suffix) : suffix? cs = some suffix := by
  cases h with
  | none => rfl
  | unsigned hu => rcases hu with rfl | rfl <;> rfl
  | long hls => rcases hls with (rfl | rfl) | (rfl | rfl) <;> rfl
  | unsignedLong hu hls =>
      rcases hu with rfl | rfl <;> rcases hls with (rfl | rfl) | (rfl | rfl) <;> rfl
  | longUnsigned hls hu =>
      rcases hu with rfl | rfl <;> rcases hls with (rfl | rfl) | (rfl | rfl) <;> rfl

theorem suffix?_eq_some_iff : suffix? cs = some suffix ↔ SpellsSuffix cs suffix :=
  ⟨SpellsSuffix.of_suffix?, SpellsSuffix.suffix?_eq⟩

/-- The letters of suffixes. -/
def IsSuffixLetter (c : Char) : Prop :=
  c = 'u' ∨ c = 'U' ∨ c = 'l' ∨ c = 'L'

theorem SpellsLongs.isSuffixLetter (h : SpellsLongs cs n) (hc : c ∈ cs) : IsSuffixLetter c := by
  rcases h with hl | hl
  · obtain rfl := List.mem_singleton.1 hc
    exact .inr (.inr hl)
  · obtain rfl : c = _ := by simpa using hc
    exact .inr (.inr hl)

theorem SpellsSuffix.isSuffixLetter (h : SpellsSuffix cs suffix) (hc : c ∈ cs) :
    IsSuffixLetter c := by
  have hletter {u : Char} (hu : u = 'u' ∨ u = 'U') : IsSuffixLetter u := by
    rcases hu with rfl | rfl
    · exact .inl rfl
    · exact .inr (.inl rfl)
  cases h with
  | none => cases hc
  | unsigned hu =>
      rw [List.mem_singleton.1 hc]
      exact hletter hu
  | long hls => exact hls.isSuffixLetter hc
  | unsignedLong hu hls =>
      cases hc with
      | head => exact hletter hu
      | tail _ hc => exact hls.isSuffixLetter hc
  | longUnsigned hls hu =>
      cases List.mem_append.1 hc with
      | inl hc => exact hls.isSuffixLetter hc
      | inr hc =>
          rw [List.mem_singleton.1 hc]
          exact hletter hu

theorem SpellsSuffix.longs_le (h : SpellsSuffix cs suffix) : suffix.longs ≤ 2 := by
  have hle {ls : List Char} {n : Nat} (hls : SpellsLongs ls n) : n ≤ 2 := by
    cases hls <;> decide
  cases h with
  | none => exact Nat.zero_le 2
  | unsigned hu => exact Nat.zero_le 2
  | long hls => exact hle hls
  | unsignedLong hu hls => exact hle hls
  | longUnsigned hls hu => exact hle hls

/-- A suffix starts with no digit. -/
theorem SpellsSuffix.head?_not_digit (hradix : radix ≤ 16) (h : SpellsSuffix cs suffix) :
    ∀ d ∈ cs.head?, isDigitIn radix d = false := by
  intro d hd
  have hvalue : digitValue d = 16 := by
    rcases h.isSuffixLetter (List.mem_of_mem_head? hd) with rfl | rfl | rfl | rfl <;> rfl
  rw [isDigitIn, hvalue]
  exact decide_eq_false (Nat.not_lt.2 hradix)

/-! ## Spellings -/

/-- The spellings of integer constants, with their base, digits and suffix. A leading zero that is not
part of the sign of a base is itself an octal digit. -/
inductive SpellsInteger : List Char → Nat → List Char → Suffix → Prop where
  | decimal {c : Char} {ds cs : List Char} {suffix : Suffix} (hc : c ≠ '0')
      (hds : ∀ d ∈ c :: ds, isDigitIn 10 d) (hcs : SpellsSuffix cs suffix) :
      SpellsInteger (c :: ds ++ cs) 10 (c :: ds) suffix
  | octal {ds cs : List Char} {suffix : Suffix} (hds : ∀ d ∈ '0' :: ds, isDigitIn 8 d)
      (hcs : SpellsSuffix cs suffix) : SpellsInteger ('0' :: ds ++ cs) 8 ('0' :: ds) suffix
  | hexadecimal {x : Char} {ds cs : List Char} {suffix : Suffix} (hx : x = 'x' ∨ x = 'X')
      (hne : ds ≠ []) (hds : ∀ d ∈ ds, isDigitIn 16 d) (hcs : SpellsSuffix cs suffix) :
      SpellsInteger ('0' :: x :: (ds ++ cs)) 16 ds suffix
  | binary {b : Char} {ds cs : List Char} {suffix : Suffix} (hb : b = 'b' ∨ b = 'B')
      (hne : ds ≠ []) (hds : ∀ d ∈ ds, isDigitIn 2 d) (hcs : SpellsSuffix cs suffix) :
      SpellsInteger ('0' :: b :: (ds ++ cs)) 2 ds suffix

/-- The value of an integer constant. -/
def integerValue (radix : Nat) (ds : List Char) : Nat :=
  Nat.ofDigits radix (ds.reverse.map digitValue)

theorem numeralValue_eq (radix : Nat) (ds : List Char) :
    numeralValue radix ds = integerValue radix ds := by
  rw [integerValue, Nat.ofDigits_eq_foldr, List.foldr_map, List.foldr_reverse, numeralValue]
  simp only [Nat.cast_id, Nat.add_comm, Nat.mul_comm]

/-- Digits, one at least, and the suffix behind them. -/
structure IsNumeral (radix : Nat) (ds cs : List Char) (suffix : Suffix) : Prop where
  digits : ∀ d ∈ ds, isDigitIn radix d
  digits_ne_nil : ds ≠ []
  spellsSuffix : SpellsSuffix cs suffix

/-- The digits of a numeral end where its suffix starts. -/
theorem split_digits (hradix : radix ≤ 16) (hds : ∀ d ∈ ds, isDigitIn radix d)
    (hcs : SpellsSuffix cs suffix) :
    (ds ++ cs).takeWhile (isDigitIn radix) = ds ∧ (ds ++ cs).dropWhile (isDigitIn radix) = cs := by
  have hend := hcs.head?_not_digit hradix
  have htake : ds.takeWhile (isDigitIn radix) = ds := List.takeWhile_eq_self_iff.2 hds
  have hdrop : ds.dropWhile (isDigitIn radix) = [] := List.dropWhile_eq_nil_iff.2 hds
  rw [takeWhile_append_of_head? hend, dropWhile_append_of_head? hend, htake, hdrop]
  exact ⟨rfl, List.nil_append cs⟩

theorem splitBase_of_ne (hc : c ≠ '0') (cs : List Char) : splitBase (c :: cs) = (10, c :: cs) := by
  unfold splitBase
  split <;> simp_all

/-- The letters of the signs of bases. -/
def IsBaseLetter (c : Char) : Prop :=
  c = 'x' ∨ c = 'X' ∨ c = 'b' ∨ c = 'B'

theorem splitBase_octal (hne : cs ≠ []) (hcs : ∀ d ∈ cs.head?, ¬IsBaseLetter d) :
    splitBase ('0' :: cs) = (8, '0' :: cs) := by
  cases cs with
  | nil => exact absurd rfl hne
  | cons d cs =>
      have hd := hcs d rfl
      unfold IsBaseLetter at hd
      unfold splitBase
      split <;> simp_all

/-- Behind a leading zero neither an octal digit nor a suffix is taken for the sign of a base. -/
theorem head?_octal (hds : ∀ d ∈ ds, isDigitIn 8 d) (hcs : SpellsSuffix cs suffix) :
    ∀ d ∈ (ds ++ cs).head?, ¬IsBaseLetter d := by
  intro d hd hbase
  cases List.mem_append.1 (List.mem_of_mem_head? hd) with
  | inl h =>
      have hdigit := hds d h
      rcases hbase with rfl | rfl | rfl | rfl <;> cases hdigit
  | inr h =>
      have hletter := hcs.isSuffixLetter h
      rcases hbase with rfl | rfl | rfl | rfl <;> simp [IsSuffixLetter] at hletter

theorem SpellsInteger.longs_le (h : SpellsInteger cs radix ds suffix) : suffix.longs ≤ 2 := by
  cases h with
  | decimal hc hds hsuffix => exact hsuffix.longs_le
  | octal hds hsuffix => exact hsuffix.longs_le
  | hexadecimal hx hne hds hsuffix => exact hsuffix.longs_le
  | binary hb hne hds hsuffix => exact hsuffix.longs_le

theorem SpellsInteger.splitBase_eq (h : SpellsInteger cs radix ds suffix) (hcs : cs ≠ ['0']) :
    ∃ rest, splitBase cs = (radix, ds ++ rest) ∧ IsNumeral radix ds rest suffix := by
  cases h with
  | decimal hc hds hsuffix =>
      exact ⟨_, splitBase_of_ne hc _, hds, List.cons_ne_nil _ _, hsuffix⟩
  | octal hds hsuffix =>
      have hdigits := (List.forall_mem_cons.1 hds).2
      have hne := fun h => hcs (congrArg (List.cons '0') h)
      have hbase := splitBase_octal hne (head?_octal hdigits hsuffix)
      exact ⟨_, hbase, hds, List.cons_ne_nil _ _, hsuffix⟩
  | hexadecimal hx hne hds hsuffix =>
      rcases hx with rfl | rfl
      · exact ⟨_, rfl, hds, hne, hsuffix⟩
      · exact ⟨_, rfl, hds, hne, hsuffix⟩
  | binary hb hne hds hsuffix =>
      rcases hb with rfl | rfl
      · exact ⟨_, rfl, hds, hne, hsuffix⟩
      · exact ⟨_, rfl, hds, hne, hsuffix⟩

theorem SpellsInteger.of_splitBase {rest : List Char} (h : splitBase cs = (radix, ds ++ rest))
    (hnumeral : IsNumeral radix ds rest suffix) (hcs : cs ≠ ['0']) :
    SpellsInteger cs radix ds suffix := by
  obtain ⟨hds, hne, hsuffix⟩ := hnumeral
  unfold splitBase at h
  split at h
  · obtain ⟨rfl, rfl⟩ := Prod.mk.inj h
    exact .hexadecimal (.inl rfl) hne hds hsuffix
  · obtain ⟨rfl, rfl⟩ := Prod.mk.inj h
    exact .hexadecimal (.inr rfl) hne hds hsuffix
  · obtain ⟨rfl, rfl⟩ := Prod.mk.inj h
    exact .binary (.inl rfl) hne hds hsuffix
  · obtain ⟨rfl, rfl⟩ := Prod.mk.inj h
    exact .binary (.inr rfl) hne hds hsuffix
  · obtain ⟨rfl, hnumeral⟩ := Prod.mk.inj h
    cases ds with
    | nil => exact absurd rfl hne
    | cons d ds =>
        obtain ⟨rfl, htail⟩ := List.cons.inj hnumeral
        rw [htail]
        exact .octal hds hsuffix
  · rename_i hoctal
    obtain ⟨rfl, rfl⟩ := Prod.mk.inj h
    cases ds with
    | nil => exact absurd rfl hne
    | cons d ds =>
        refine .decimal ?_ hds hsuffix
        rintro rfl
        cases htail : ds ++ rest with
        | nil => exact hcs (congrArg (List.cons '0') htail)
        | cons c cs => exact hoctal c cs (congrArg (List.cons '0') htail)

/-- What an integer constant has to be for it to be read, and what is read. -/
theorem readInteger_eq_ok_iff {v : Scalar} :
    readInteger cs = .ok v ↔ ∃ radix ds rest suffix, splitBase cs = (radix, ds ++ rest) ∧
      IsNumeral radix ds rest suffix ∧ numeralValue radix ds < UInt64.size ∧
      v = .ofInt (.integral (kindFor suffix (radix = 10) (numeralValue radix ds)))
        (numeralValue radix ds) := by
  constructor
  · intro h
    unfold readInteger at h
    dsimp only at h
    split at h
    · cases h
    · cases h
    · rename_i suffix _ hsuffix
      split at h
      · split at h <;> cases h
      · rename_i hne
        split at h
        · cases h
        · rename_i hlt
          refine ⟨_, _, _, suffix, Prod.ext rfl List.takeWhile_append_dropWhile.symm,
            ⟨?_, ?_, suffix?_eq_some_iff.1 hsuffix⟩, Nat.not_le.1 hlt, (Except.ok.inj h).symm⟩
          · exact List.all_eq_true.1 List.all_takeWhile
          · exact fun h => hne (List.isEmpty_iff.2 h)
  · rintro ⟨radix, ds, rest, suffix, hbase, ⟨hds, hne, hsuffix⟩, hlt, rfl⟩
    have hradix : radix ≤ 16 := by
      have hle := splitBase_le cs
      rwa [hbase] at hle
    obtain ⟨htake, hdrop⟩ := split_digits hradix hds hsuffix
    have hplaced : (rest.head?.filter fun c => radix = 8 ∧ c.isDigit) = none := by
      rw [Option.filter_eq_none_iff]
      intro d hd hdigit
      have hten : isDigitIn 10 d = false := hsuffix.head?_not_digit (by decide) d hd
      simp_all [isDigitIn_ten_of_isDigit]
    simp only [readInteger, hbase, htake, hdrop, hplaced, suffix?_eq_some_iff.2 hsuffix,
      List.isEmpty_iff, hne, ↓reduceIte, Nat.not_le.2 hlt]

/-! ## Types -/

/-- The types that a constant may have, each preferred to those behind it. -/
def preferredKinds : List IntegralKind :=
  [.int, .unsignedInt, .long, .unsignedLong, .longLong, .unsignedLongLong]

/-- A suffix admits a type: `u` asks for an unsigned one, without it a decimal constant has a signed
one, and the letters `l` rule out the shorter ones. -/
structure Suffix.Admits (suffix : Suffix) (isDecimal : Bool) (k : IntegralKind) : Prop where
  unsigned : suffix.isUnsigned = true → k.isSigned = false
  signed : suffix.isUnsigned = false → isDecimal = true → k.isSigned = true
  long : suffix.longs = 1 → k ∉ [.int, .unsignedInt]
  longLong : suffix.longs = 2 → k ∈ [.longLong, .unsignedLongLong]

/-- The type of a constant: the first one admitted that has its value. A decimal constant without `u`
that no signed type has is taken as `unsigned long long`. -/
inductive HasKind (suffix : Suffix) (isDecimal : Bool) (value : Nat) : IntegralKind → Prop where
  | first {before after : List IntegralKind} {k : IntegralKind}
      (h : preferredKinds = before ++ k :: after) (admitted : suffix.Admits isDecimal k)
      (contains : k.Contains value)
      (least : ∀ j ∈ before, suffix.Admits isDecimal j → ¬j.Contains value) :
      HasKind suffix isDecimal value k
  | overflow (hdecimal : isDecimal = true) (hsigned : suffix.isUnsigned = false)
      (h : ∀ k ∈ preferredKinds, suffix.Admits isDecimal k → ¬k.Contains value) :
      HasKind suffix isDecimal value .unsignedLongLong

variable {isDecimal : Bool} {value : Nat} {k : IntegralKind}

theorem contains_natCast_iff : k.Contains (value : Int) ↔ (value : Int) ≤ k.greatest := by
  have hleast : k.least ≤ 0 := by cases k <;> decide
  exact ⟨fun h => h.2, fun h => ⟨by omega, h⟩⟩

/-- What rules a type out of the candidates. -/
theorem admits_iff (hlongs : suffix.longs ≤ 2) (hk : k ∈ preferredKinds) :
    ((if suffix.isUnsigned then !k.isSigned else !isDecimal || k.isSigned) &&
      decide (IntegralKind.rank .int + suffix.longs ≤ k.rank)) = true ↔
      suffix.Admits isDecimal k := by
  have hnone : ∀ k ∈ preferredKinds, IntegralKind.rank .int ≤ k.rank := by decide
  have hone : ∀ k ∈ preferredKinds,
      IntegralKind.rank .int + 1 ≤ k.rank ↔ k ∉ [.int, .unsignedInt] := by decide
  have htwo : ∀ k ∈ preferredKinds,
      IntegralKind.rank .int + 2 ≤ k.rank ↔ k ∈ [.longLong, .unsignedLongLong] := by decide
  obtain ⟨isUnsigned, longs⟩ := suffix
  rw [Bool.and_eq_true, decide_eq_true_eq]
  constructor
  · rintro ⟨hsign, hrank⟩
    refine ⟨?_, ?_, ?_, ?_⟩
    · rintro rfl
      simpa using hsign
    · rintro rfl rfl
      simpa using hsign
    · rintro rfl
      exact (hone k hk).1 hrank
    · rintro rfl
      exact (htwo k hk).1 hrank
  · rintro ⟨hunsigned, hsigned, hlong, hlongLong⟩
    constructor
    · cases isUnsigned with
      | true => simpa using hunsigned
      | false => cases isDecimal <;> simp_all
    · obtain rfl | rfl | rfl : longs = 0 ∨ longs = 1 ∨ longs = 2 := by
        have hle : longs ≤ 2 := hlongs
        omega
      · exact hnone k hk
      · exact (hone k hk).2 (hlong rfl)
      · exact (htwo k hk).2 (hlongLong rfl)

theorem find?_candidates_eq_some_iff (hlongs : suffix.longs ≤ 2) :
    ((candidates suffix isDecimal).find? fun k => (value : Int) ≤ k.greatest) = some k ↔
      ∃ before after, preferredKinds = before ++ k :: after ∧ suffix.Admits isDecimal k ∧
        k.Contains value ∧ ∀ j ∈ before, suffix.Admits isDecimal j → ¬j.Contains value := by
  have hkinds : candidates suffix isDecimal = preferredKinds.filter fun k =>
    (if suffix.isUnsigned then !k.isSigned else !isDecimal || k.isSigned) &&
      decide (IntegralKind.rank .int + suffix.longs ≤ k.rank) := rfl
  rw [hkinds, List.find?_filter, List.find?_eq_some_iff_append]
  simp only [decide_eq_true_eq, Bool.not_eq_true', decide_eq_false_iff_not, not_and,
    contains_natCast_iff]
  constructor
  · rintro ⟨⟨hk, hp⟩, before, after, hlist, hbefore⟩
    have hmem : k ∈ preferredKinds := by simp [hlist]
    refine ⟨before, after, hlist, (admits_iff hlongs hmem).1 hk, hp, fun j hj hadmits => ?_⟩
    have hjmem : j ∈ preferredKinds := by simp [hlist, hj]
    exact hbefore j hj ((admits_iff hlongs hjmem).2 hadmits)
  · rintro ⟨before, after, hlist, hadmits, hp, hbefore⟩
    have hmem : k ∈ preferredKinds := by simp [hlist]
    have hk := (admits_iff hlongs hmem).2 hadmits
    refine ⟨⟨hk, hp⟩, before, after, hlist, fun j hj hcandidate => ?_⟩
    have hjmem : j ∈ preferredKinds := by simp [hlist, hj]
    exact hbefore j hj ((admits_iff hlongs hjmem).1 hcandidate)

theorem find?_candidates_eq_none_iff (hlongs : suffix.longs ≤ 2) :
    ((candidates suffix isDecimal).find? fun k => (value : Int) ≤ k.greatest) = none ↔
      ∀ k ∈ preferredKinds, suffix.Admits isDecimal k → ¬k.Contains value := by
  rw [List.find?_eq_none, candidates]
  simp only [List.mem_filter, and_imp, decide_eq_true_eq, contains_natCast_iff]
  exact forall₂_congr fun k hk => imp_congr_left (admits_iff hlongs hk)

/-- Only a decimal constant without `u` can be too large for every type that it may have. -/
theorem decimal_of_none_contains (hlt : value < UInt64.size)
    (h : ∀ k ∈ preferredKinds, suffix.Admits isDecimal k → ¬k.Contains value) :
    isDecimal = true ∧ suffix.isUnsigned = false := by
  have hcontains : IntegralKind.unsignedLongLong.Contains (value : Int) := by
    have hgreatest : IntegralKind.unsignedLongLong.greatest = 2 ^ 64 - 1 := by decide
    have hsize : UInt64.size = 2 ^ 64 := rfl
    rw [contains_natCast_iff, hgreatest]
    omega
  have hadmits : ¬suffix.Admits isDecimal .unsignedLongLong := fun hadmits =>
    h _ (by decide) hadmits hcontains
  have hunsigned : suffix.isUnsigned = false := by
    apply Bool.eq_false_iff.2
    intro hu
    apply hadmits
    exact ⟨fun _ => rfl, fun h => absurd (hu.symm.trans h) (by decide), fun _ => by decide,
      fun _ => by decide⟩
  refine ⟨?_, hunsigned⟩
  by_contra hdecimal
  apply hadmits
  exact ⟨fun _ => rfl, fun _ h => absurd h hdecimal, fun _ => by decide, fun _ => by decide⟩

/-- The type that is chosen for a constant of at most 64 bits is the only one that it has. -/
theorem hasKind_iff (hlongs : suffix.longs ≤ 2) (hlt : value < UInt64.size) :
    HasKind suffix isDecimal value k ↔ k = kindFor suffix isDecimal value := by
  unfold kindFor
  constructor
  · intro h
    cases h with
    | first h admitted contains least =>
        have hfind := (find?_candidates_eq_some_iff hlongs).2 ⟨_, _, h, admitted, contains, least⟩
        rw [hfind, Option.getD_some]
    | overflow hdecimal hsigned h =>
        rw [(find?_candidates_eq_none_iff hlongs).2 h, Option.getD_none]
  · rintro rfl
    cases hfind : (candidates suffix isDecimal).find? fun k => (value : Int) ≤ k.greatest with
    | some k =>
        obtain ⟨before, after, hlist, hadmits, hcontains, hbefore⟩ :=
          (find?_candidates_eq_some_iff hlongs).1 hfind
        exact .first hlist hadmits hcontains hbefore
    | none =>
        have hnone := (find?_candidates_eq_none_iff hlongs).1 hfind
        obtain ⟨hdecimal, hunsigned⟩ := decimal_of_none_contains hlt hnone
        exact .overflow hdecimal hunsigned hnone

/-! ## Constants -/

/-- A text that is taken for an integer constant: it starts with the sign of a base other than ten, or
it has neither a point nor an exponent. -/
def IsIntegerText (cs : List Char) : Prop :=
  (∃ x, IsBaseLetter x ∧ ['0', x] <+: cs) ∨ ∀ c ∈ cs, ¬(c = '.' ∨ c = 'e' ∨ c = 'E')

/-- A zero alone is read as a decimal digit, which makes no difference. -/
theorem spellsInteger_zero_iff :
    SpellsInteger ['0'] radix ds suffix ↔ radix = 8 ∧ ds = ['0'] ∧ suffix = ⟨false, 0⟩ := by
  constructor
  · intro h
    generalize hzero : ['0'] = cs at h
    cases h with
    | decimal hc hds hcs => exact absurd (List.cons.inj hzero).1.symm hc
    | octal hds hcs =>
        obtain ⟨rfl, rfl⟩ := List.append_eq_nil_iff.1 (List.cons.inj hzero).2.symm
        exact ⟨rfl, rfl, (Option.some.inj hcs.suffix?_eq).symm⟩
    | hexadecimal hx hne hds hcs => cases (List.cons.inj hzero).2
    | binary hb hne hds hcs => cases (List.cons.inj hzero).2
  · rintro ⟨rfl, rfl, rfl⟩
    exact .octal (List.forall_mem_singleton.2 (by decide)) .none

theorem readInteger_iff_spellsInteger {v : Scalar} :
    readInteger cs = .ok v ↔ ∃ radix ds suffix k, SpellsInteger cs radix ds suffix ∧
      integerValue radix ds < 2 ^ 64 ∧ HasKind suffix (radix = 10) (integerValue radix ds) k ∧
      v = .integral k (integerValue radix ds) := by
  have hsize : UInt64.size = 2 ^ 64 := rfl
  by_cases hcs : cs = ['0']
  · subst hcs
    have hread : readInteger ['0'] = .ok (.integral .int 0) := rfl
    have hvalue : integerValue 8 ['0'] = 0 := rfl
    rw [hread, Except.ok.injEq]
    constructor
    · rintro rfl
      have hspells := spellsInteger_zero_iff.2 ⟨rfl, rfl, rfl⟩
      refine ⟨8, ['0'], ⟨false, 0⟩, .int, hspells, by decide, ?_, rfl⟩
      exact (hasKind_iff (by decide) (by decide)).2 rfl
    · rintro ⟨radix, ds, suffix, k, h, -, hkind, rfl⟩
      obtain ⟨rfl, rfl, rfl⟩ := spellsInteger_zero_iff.1 h
      rw [(hasKind_iff (by decide) (by decide)).1 hkind]
      rfl
  · simp only [readInteger_eq_ok_iff, numeralValue_eq]
    constructor
    · rintro ⟨radix, ds, rest, suffix, hbase, hnumeral, hlt, rfl⟩
      have hlongs := hnumeral.spellsSuffix.longs_le
      have hcontains := contains_kindFor hlt suffix (radix = 10)
      refine ⟨radix, ds, suffix, _, .of_splitBase hbase hnumeral hcs, hlt,
        (hasKind_iff hlongs hlt).2 rfl, ?_⟩
      rw [Scalar.ofInt, IntegralKind.wrap_eq_of_contains hcontains]
    · rintro ⟨radix, ds, suffix, k, h, hlt, hkind, rfl⟩
      obtain ⟨rest, hbase, hnumeral⟩ := h.splitBase_eq hcs
      have hcontains := contains_kindFor hlt suffix (radix = 10)
      refine ⟨radix, ds, rest, suffix, hbase, hnumeral, hlt, ?_⟩
      rw [(hasKind_iff hnumeral.spellsSuffix.longs_le hlt).1 hkind, Scalar.ofInt,
        IntegralKind.wrap_eq_of_contains hcontains]

theorem isLetter_cases {letter : Char} (upper : Char)
    (hupper : upper.val + ('a'.val - 'A'.val) = letter.val)
    (h : isLetter letter c = true) : c = letter ∨ c = upper := by
  have hlower : c.toLower = letter := of_decide_eq_true h
  unfold Char.toLower at hlower
  split at hlower
  · right
    apply Char.ext
    have hval : c.val + ('a'.val - 'A'.val) = letter.val := congrArg Char.val hlower
    exact (UInt32.add_left_inj _).1 (hval.trans hupper.symm)
  · exact .inl hlower

/-- No hexadecimal digit is the letter of a binary exponent. -/
theorem not_isLetter_of_isDigitIn (h : isDigitIn 16 c) : isLetter 'p' c = false := by
  apply Bool.eq_false_iff.2
  intro hp
  obtain rfl | rfl := isLetter_cases 'P' rfl hp
  · exact absurd h (by decide)
  · exact absurd h (by decide)

theorem SpellsInteger.not_isLetter (h : SpellsInteger cs 16 ds suffix) (hc : c ∈ cs) :
    isLetter 'p' c = false := by
  cases h with
  | hexadecimal hx hne hds hcs =>
      simp only [List.mem_cons, List.mem_append] at hc
      rcases hc with rfl | rfl | hc | hc
      · decide
      · rcases hx with rfl | rfl <;> decide
      · exact not_isLetter_of_isDigitIn (hds c hc)
      · rcases hcs.isSuffixLetter hc with rfl | rfl | rfl | rfl <;> rfl

/-- A text that is taken for an integer constant is never read as a floating one. -/
theorem IsIntegerText.not_floating (h : IsIntegerText cs) (hhexadecimal : (splitBase cs).1 ≠ 16)
    (hbinary : (splitBase cs).1 ≠ 2) : cs.any (fun c => c = '.' || isLetter 'e' c) = false := by
  obtain ⟨x, hx, rest, rfl⟩ | hnone := h
  · rcases hx with rfl | rfl | rfl | rfl
    · exact absurd rfl hhexadecimal
    · exact absurd rfl hhexadecimal
    · exact absurd rfl hbinary
    · exact absurd rfl hbinary
  · apply List.any_eq_false.2
    intro c hc hletter
    apply hnone c hc
    rcases Bool.or_eq_true_iff.1 hletter with hpoint | hexponent
    · exact .inl (of_decide_eq_true hpoint)
    · exact .inr (isLetter_cases 'E' rfl hexponent)

theorem read_iff_spellsInteger {spelling : String} {v : Scalar} (h : IsIntegerText spelling.toList) :
    Literal.read spelling = .ok v ↔ ∃ radix ds suffix k,
      SpellsInteger spelling.toList radix ds suffix ∧ integerValue radix ds < 2 ^ 64 ∧
      HasKind suffix (radix = 10) (integerValue radix ds) k ∧
      v = .integral k (integerValue radix ds) := by
  rw [← readInteger_iff_spellsInteger]
  unfold Literal.read
  dsimp only
  split
  · rename_i hexponent
    obtain ⟨hbase, hp⟩ := hexponent
    obtain ⟨c, hc, hletter⟩ := List.any_eq_true.1 hp
    refine iff_of_false nofun fun hread => ?_
    obtain ⟨radix, ds, suffix, k, hspells, -⟩ := readInteger_iff_spellsInteger.1 hread
    have hzero : spelling.toList ≠ ['0'] := fun hzero => by simp [hzero, splitBase] at hbase
    obtain ⟨rest, hsplit, -⟩ := hspells.splitBase_eq hzero
    rw [hsplit] at hbase
    subst hbase
    exact Bool.false_ne_true ((hspells.not_isLetter hc).symm.trans hletter)
  · split
    · rename_i hfloating
      obtain ⟨hhexadecimal, hbinary, hpoint⟩ := hfloating
      rw [h.not_floating hhexadecimal hbinary] at hpoint
      cases hpoint
    · exact Iff.rfl

/-- A text that is taken for an integer constant is read exactly if it is the spelling of one whose
value has at most 64 bits, and what is read is this value, in the type of the constant. -/
theorem integer_constants_exact (spelling : String) (h : IsIntegerText spelling.toList) :
    ((∃ v, Literal.read spelling = .ok v) ↔ ∃ radix ds suffix,
      SpellsInteger spelling.toList radix ds suffix ∧ integerValue radix ds < 2 ^ 64) ∧
    ∀ radix ds suffix, SpellsInteger spelling.toList radix ds suffix →
      integerValue radix ds < 2 ^ 64 →
      ∃ k, HasKind suffix (radix = 10) (integerValue radix ds) k ∧
        Literal.read spelling = .ok (.integral k (integerValue radix ds)) := by
  have hread (radix : Nat) (ds : List Char) (suffix : Suffix)
      (hspells : SpellsInteger spelling.toList radix ds suffix)
      (hlt : integerValue radix ds < 2 ^ 64) :
      ∃ k, HasKind suffix (radix = 10) (integerValue radix ds) k ∧
        Literal.read spelling = .ok (.integral k (integerValue radix ds)) := by
    have hkind : HasKind suffix (radix = 10) (integerValue radix ds) _ :=
      (hasKind_iff hspells.longs_le hlt).2 rfl
    refine ⟨_, hkind, ?_⟩
    exact (read_iff_spellsInteger h).2 ⟨radix, ds, suffix, _, hspells, hlt, hkind, rfl⟩
  refine ⟨⟨?_, ?_⟩, hread⟩
  · rintro ⟨v, hv⟩
    obtain ⟨radix, ds, suffix, k, hspells, hlt, -⟩ := (read_iff_spellsInteger h).1 hv
    exact ⟨radix, ds, suffix, hspells, hlt⟩
  · rintro ⟨radix, ds, suffix, hspells, hlt⟩
    obtain ⟨k, -, hok⟩ := hread radix ds suffix hspells hlt
    exact ⟨_, hok⟩

/-- The least decimal number that no signed type has is an `unsigned long long`. -/
theorem integer_constants_exact_overflow :
    Literal.read "9223372036854775808" = .ok (.integral .unsignedLongLong 9223372036854775808) := by
  have hdigits : "9223372036854775808".toList.all (isDigitIn 10) := by decide
  have htext : IsIntegerText "9223372036854775808".toList := by
    refine .inr fun c hc => ?_
    have hdigit := List.all_eq_true.1 hdigits c hc
    rintro (rfl | rfl | rfl) <;> cases hdigit
  have hspells : SpellsInteger "9223372036854775808".toList 10 _ ⟨false, 0⟩ :=
    @SpellsInteger.decimal '9' "223372036854775808".toList [] _ (by decide)
      (List.all_eq_true.1 hdigits) .none
  obtain ⟨k, hkind, hread⟩ := (integer_constants_exact _ htext).2 10 _ _ hspells (by decide)
  rw [hread, (hasKind_iff (by decide) (by decide)).1 hkind]
  rfl

end Literal

end WatchExpr
