import WatchExpr.Proofs.Lexing.Breaks
import WatchExpr.Proofs.Lexing.Longest

/-!
# The layout of a text

Every character of a text is in a token or is a blank between tokens, and the place of a token tells
what stands in front of it.
-/

namespace WatchExpr

open Text Lexeme

namespace Location

variable (cs ds : List Char) (c : Char)

/-- The place behind a text: its bytes, one line more than it has line breaks, and one character more
than it has behind the last of them. -/
def behind (cs : List Char) : Location where
  offset := (String.ofList cs).utf8ByteSize
  line := 1 + cs.count '\n'
  column := 1 + (cs.reverse.takeWhile (· ≠ '\n')).length

theorem behind_append_offset :
    (behind (cs ++ ds)).offset = (behind cs).offset + (String.ofList ds).utf8ByteSize := by
  simp [behind, String.ofList_append]

theorem step_behind : (behind cs).step c = behind (cs ++ [c]) := by
  have hsize : (String.ofList (cs ++ [c])).utf8ByteSize =
      (String.ofList cs).utf8ByteSize + c.utf8Size := by
    rw [String.ofList_append, String.utf8ByteSize_append, ← String.singleton_eq_ofList,
      String.utf8ByteSize_singleton]
  rw [step, behind, behind, hsize]
  by_cases hc : c = '\n'
  · simp [hc, Nat.add_assoc]
  · simp [hc, Nat.add_comm]

theorem advance_behind : (behind cs).advance ds = behind (cs ++ ds) := by
  induction ds generalizing cs with
  | nil => simp [advance]
  | cons d ds ih =>
      rw [advance, List.foldl_cons, step_behind, ← advance, ih, List.append_assoc]
      rfl

end Location

/-- A token of a text: what stands in front of it gives its place, and it is the longest piece of what
follows. -/
structure Token.Stands (t : Token) (front back : List Char) : Prop where
  place : t.location = .behind front
  longest : IsLongest (t.spelling.toList ++ back) t.lexeme

theorem Token.Stands.offset_behind {t : Token} {front back : List Char} (h : t.Stands front back) :
    (Location.behind (front ++ t.spelling.toList)).offset =
      t.location.offset + t.spelling.utf8ByteSize := by
  rw [Location.behind_append_offset, String.ofList_toList, h.place]

namespace Tokens

variable {before cs : List Char} {t : Token} {ts : List Token}

/-- A text, with what stands in front of it, is cut into tokens: nothing but blanks is left out. -/
inductive Cuts : List Char → List Char → List Token → Prop where
  | blanks {before gap : List Char} (hgap : ∀ c ∈ gap, isBlank c) : Cuts before gap []
  | token {before gap back : List Char} {t : Token} {ts : List Token}
      (hgap : ∀ c ∈ gap, isBlank c) (ht : t.Stands (before ++ gap) back)
      (hts : Cuts (before ++ gap ++ t.spelling.toList) back ts) :
      Cuts before (gap ++ t.spelling.toList ++ back) (t :: ts)

theorem Cuts.blank {c : Char} (hc : isBlank c) (h : Cuts (before ++ [c]) cs ts) :
    Cuts before (c :: cs) ts := by
  cases h with
  | blanks hgap => exact .blanks (List.forall_mem_cons.2 ⟨hc, hgap⟩)
  | token hgap ht hts =>
      rw [List.append_assoc before, List.singleton_append] at ht hts
      exact .token (List.forall_mem_cons.2 ⟨hc, hgap⟩) ht hts

theorem lexFrom_cuts (before cs : List Char) :
    Cuts before cs (lexFrom (.behind before) cs).body ∧
      (lexFrom (.behind before) cs).finish = ⟨"", .behind (before ++ cs)⟩ := by
  induction hn : cs.length using Nat.strongRecOn generalizing before cs with
  | ind n ih =>
      subst hn
      cases cs with
      | nil =>
          rw [lexFrom]
          exact ⟨.blanks (by simp), by simp⟩
      | cons c cs =>
          cases hc : isBlank c with
          | true =>
              obtain ⟨hcuts, hfinish⟩ := ih _ (Nat.lt_succ_self _) (before ++ [c]) cs rfl
              rw [lexFrom_blank hc, Location.step_behind, hfinish, List.append_assoc]
              exact ⟨hcuts.blank hc, rfl⟩
          | false =>
              have hlt : (split c cs).2.length < (c :: cs).length :=
                Nat.lt_succ_of_le (split_rest_length_le c cs)
              have happend := split_append c cs
              obtain ⟨hcuts, hfinish⟩ := ih _ hlt (before ++ (split c cs).1.chars) _ rfl
              rw [lexFrom_piece hc, Location.advance_behind]
              refine ⟨?_, by rw [cons, hfinish, List.append_assoc, happend]⟩
              have hlongest := split_isLongest hc cs
              generalize split c cs = piece at *
              let t : Token := ⟨piece.1.kind, String.ofList piece.1.chars, .behind before⟩
              have ht : t.Stands (before ++ []) piece.2 :=
                ⟨by simp [t], by simpa [t, Token.lexeme, happend] using hlongest⟩
              have htoken : Cuts before ([] ++ t.spelling.toList ++ piece.2) (t :: _) :=
                .token (by simp) ht (by simpa [t] using hcuts)
              simpa [t, happend, cons] using htoken

theorem Cuts.exists_stands (h : Cuts before cs ts) (ht : t ∈ ts) :
    ∃ front back, cs = front ++ t.spelling.toList ++ back ∧ t.Stands (before ++ front) back := by
  induction h with
  | blanks => cases ht
  | @token before gap back u us hgap hu hus ih =>
      obtain rfl | ht := List.mem_cons.1 ht
      · exact ⟨gap, back, rfl, hu⟩
      · obtain ⟨front, back, rfl, hstands⟩ := ih ht
        exact ⟨gap ++ u.spelling.toList ++ front, back, by simp, by simpa using hstands⟩

theorem Cuts.offset_le (h : Cuts before cs ts) (ht : t ∈ ts) :
    (Location.behind before).offset ≤ t.location.offset := by
  obtain ⟨front, back, -, hstands⟩ := h.exists_stands ht
  rw [hstands.place, Location.behind_append_offset]
  exact Nat.le_add_right _ _

/-- One token ends before the next one starts. -/
abbrev Apart (t u : Token) : Prop :=
  t.location.offset + t.spelling.utf8ByteSize ≤ u.location.offset

theorem Cuts.pairwise (h : Cuts before cs ts) : ts.Pairwise Apart := by
  induction h with
  | blanks => exact .nil
  | token hgap ht hts ih =>
      refine .cons (fun u hu => ?_) ih
      rw [Apart, ← ht.offset_behind]
      exact hts.offset_le hu

theorem Cuts.apart_end (h : Cuts before cs ts) (ht : t ∈ ts) :
    t.location.offset + t.spelling.utf8ByteSize ≤ (Location.behind (before ++ cs)).offset := by
  obtain ⟨front, back, rfl, hstands⟩ := h.exists_stands ht
  rw [← hstands.offset_behind, ← List.append_assoc, ← List.append_assoc,
    Location.behind_append_offset _ back]
  exact Nat.le_add_right _ _

theorem lex_cuts (text : String) : Cuts [] text.toList (lex text).body :=
  (lexFrom_cuts [] text.toList).1

theorem lex_finish (text : String) : (lex text).finish = ⟨"", .behind text.toList⟩ :=
  (lexFrom_cuts [] text.toList).2

/-- No token of a text, the end mark included, goes past its end. -/
theorem end_le_of_mem_lex {text : String} (ht : t ∈ (lex text).toList) :
    t.location.offset + t.spelling.utf8ByteSize ≤ text.utf8ByteSize := by
  have hend : (Location.behind text.toList).offset = text.utf8ByteSize := by simp [Location.behind]
  obtain ht | ht := List.mem_append.1 ht
  · exact ((lex_cuts text).apart_end ht).trans_eq hend
  · rw [List.mem_singleton.1 ht, lex_finish]
    exact hend.le

theorem spelling_ne_empty_of_mem {text : String} (ht : t ∈ (lex text).body) : t.spelling ≠ "" := by
  obtain ⟨front, back, -, hstands⟩ := (lex_cuts text).exists_stands ht
  obtain ⟨c, more, hchars, -⟩ := hstands.longest.exists_cons
  rintro hempty
  simp [Token.lexeme, hempty] at hchars

/-- Lexing loses nothing, takes the longest pieces and tells their places. -/
theorem lex_lossless (text : String) :
    (lex text).toList = (lex text).body ++ [⟨.eof, "", .behind text.toList⟩] ∧
      (Location.behind text.toList).offset = text.utf8ByteSize ∧
      (∀ t ∈ (lex text).body, t.kind ≠ .eof ∧ t.spelling ≠ "" ∧
        ∃ front back, text.toList = front ++ t.spelling.toList ++ back ∧ t.Stands front back) ∧
      (lex text).toList.Pairwise Apart ∧
      Cuts [] text.toList (lex text).body := by
  have hcuts := lex_cuts text
  have hlist : (lex text).toList = (lex text).body ++ [⟨.eof, "", .behind text.toList⟩] := by
    rw [toList, lex_finish]
    rfl
  refine ⟨hlist, by simp [Location.behind], fun t ht =>
    ⟨lexFrom_kind_ne_eof _ _ t ht, spelling_ne_empty_of_mem ht, hcuts.exists_stands ht⟩, ?_, hcuts⟩
  rw [hlist]
  refine List.pairwise_append.2 ⟨hcuts.pairwise, List.pairwise_singleton _ _, fun t ht u hu => ?_⟩
  rw [List.mem_singleton.1 hu]
  exact hcuts.apart_end ht

/-! ## Joined tokens -/

/-- The texts of tokens with one space between two of them. -/
def joined (ts : List Token) : String :=
  " ".intercalate (ts.map Token.spelling)

theorem lexemes_intercalate_space (css : List (List Char)) :
    lexemes ([' '].intercalate css) = css.flatMap lexemes := by
  induction css with
  | nil => simp
  | cons cs css ih =>
      cases css with
      | nil => simp
      | cons ds css =>
          have hbreaks : BreaksBetween cs (' ' :: [' '].intercalate (ds :: css)) :=
            breaksBetween_cons (breaks_blank (by decide)) cs _
          rw [List.intercalate_cons_cons, List.append_assoc, List.singleton_append,
            lexemes_append_of_breaks hbreaks, lexemes_blank (by decide), ih]
          rfl

theorem lexemes_spelling_of_mem {text : String} (ht : t ∈ (lex text).body) :
    lexemes t.spelling.toList = [t.lexeme] := by
  obtain ⟨front, back, -, hstands⟩ := (lex_cuts text).exists_stands ht
  exact hstands.longest.lexemes_eq

/-- Tokens that are joined are cut again as they were. -/
theorem lexemes_joined (text : String) :
    lexemes (joined (lex text).body).toList = lexemes text.toList ∧
      lexemes (joined (lex text).toList).toList = lexemes text.toList := by
  have hbody : (lex text).body.flatMap (lexemes ·.spelling.toList) = lexemes text.toList := by
    rw [List.flatMap_congr fun t ht => lexemes_spelling_of_mem ht, ← List.map_eq_flatMap]
    rfl
  constructor
  · rw [joined, String.toList_intercalate, List.map_map]
    exact (lexemes_intercalate_space _).trans (by rw [List.flatMap_map]; exact hbody)
  · -- The end mark is joined as well, and there is nothing in it.
    rw [joined, String.toList_intercalate, List.map_map]
    refine (lexemes_intercalate_space _).trans ?_
    rw [List.flatMap_map, toList, lex_finish, List.flatMap_append]
    simpa [EndMark.token] using hbody

end Tokens

end WatchExpr
