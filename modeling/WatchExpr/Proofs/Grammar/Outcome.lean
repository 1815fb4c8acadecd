import WatchExpr.Grammar.Outcome
import Mathlib.Tactic.Common

/-!
# Successful outcomes

A sequence of rules succeeds exactly if each of them does, and a step that consumes a token succeeds
exactly on the lists that start with such a token.
-/

namespace WatchExpr.Grammar

variable {α β : Type} {ts rest : List Token}

namespace Outcome

theorem andThen_eq_ok_iff {o : Outcome α} {f : α → List Token → Outcome β} {b : β} :
    o.andThen f = .ok b rest ↔ ∃ a us, o = .ok a us ∧ f a us = .ok b rest := by
  cases o with
  | ok a us => simp [andThen]
  | error e us => simp [andThen]

theorem map_eq_ok_iff {o : Outcome α} {f : α → β} {b : β} :
    o.map f = .ok b rest ↔ ∃ a, o = .ok a rest ∧ f a = b := by
  cases o with
  | ok a us => simp [map, and_comm]
  | error e us => simp [map]

theorem toExcept_eq_ok_iff {o : Outcome α} {a : α} :
    o.toExcept = .ok a ↔ ∃ rest, o = .ok a rest := by
  cases o with
  | ok b us => simp [toExcept]
  | error e us => simp [toExcept]

theorem toExcept_eq_error_iff {o : Outcome α} {e : ParseError} :
    o.toExcept = .error e ↔ ∃ rest, o = .error e rest := by
  cases o with
  | ok b us => simp [toExcept]
  | error f us => simp [toExcept]

@[simp] theorem ok_andThen (a : α) (f : α → List Token → Outcome β) :
    (Outcome.ok a ts).andThen f = f a ts := rfl

end Outcome

/-! ## Single tokens -/

@[simp] theorem current_cons (finish : EndMark) (t : Token) : current finish (t :: ts) = t := rfl

@[simp] theorem accept?_nil (f : TokenKind → Option α) : accept? f [] = none := rfl

theorem accept?_eq_some_iff {f : TokenKind → Option α} {a : α} :
    accept? f ts = some (a, rest) ↔ ∃ t, ts = t :: rest ∧ f t.kind = some a := by
  cases ts with
  | nil => simp
  | cons t ts =>
      simp only [accept?, Option.map_eq_some_iff, Prod.mk.injEq, List.cons.injEq]
      constructor
      · rintro ⟨a, ha, rfl, rfl⟩
        exact ⟨t, ⟨rfl, rfl⟩, ha⟩
      · rintro ⟨t, ⟨rfl, rfl⟩, ha⟩
        exact ⟨a, ha, rfl, rfl⟩

theorem accept?_eq_none_iff {f : TokenKind → Option α} :
    accept? f ts = none ↔ ∀ t ∈ ts.head?, f t.kind = none := by
  cases ts with
  | nil => simp
  | cons t ts => simp [accept?]

theorem isMark_eq_some_iff {p : Punctuator} {k : TokenKind} {u : Unit} :
    isMark p k = some u ↔ k = .punct p := by
  simp [isMark]

theorem isMark_eq_none_iff {p : Punctuator} {k : TokenKind} :
    isMark p k = none ↔ k ≠ .punct p := by
  simp [isMark]

theorem expect_eq_ok_iff {finish : EndMark} {kind : TokenKind} {t : Token} (hk : kind ≠ .eof) :
    expect finish kind ts = .ok t rest ↔ ts = t :: rest ∧ t.kind = kind := by
  cases ts with
  | nil =>
      have hne : (current finish []).kind ≠ kind := hk.symm
      simp [expect, hne]
  | cons u us =>
      by_cases hu : (current finish (u :: us)).kind = kind
      · rw [expect, if_pos hu]
        constructor
        · intro h
          cases h
          exact ⟨rfl, hu⟩
        · rintro ⟨h, -⟩
          cases h
          rfl
      · rw [expect, if_neg hu]
        constructor
        · intro h
          cases h
        · rintro ⟨h, ht⟩
          cases h
          exact absurd ht hu

theorem expect_andThen_eq_ok_iff {finish : EndMark} {kind : TokenKind} (hk : kind ≠ .eof)
    {f : Token → List Token → Outcome β} {b : β} :
    (expect finish kind ts).andThen f = .ok b rest ↔
      ∃ t us, ts = t :: us ∧ t.kind = kind ∧ f t us = .ok b rest := by
  simp only [Outcome.andThen_eq_ok_iff, expect_eq_ok_iff hk, and_assoc]

/-- Behind a whole expression only the end mark is expected. -/
theorem expect_eof_eq_ok_iff {finish : EndMark} {t : Token} (hts : ∀ u ∈ ts, u.kind ≠ .eof) :
    expect finish .eof ts = .ok t rest ↔ ts = [] ∧ rest = [] ∧ t = finish.token := by
  cases ts with
  | nil => simp [expect, current, EndMark.token, eq_comm, and_comm]
  | cons u us => simp [expect, hts u (by simp)]

end WatchExpr.Grammar
