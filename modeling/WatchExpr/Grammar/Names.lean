import WatchExpr.Grammar.Outcome

/-!
# Names

Qualified names. The template arguments of a component are taken as balanced text and written in one
canonical way: no spaces but one between two words and one behind a comma. A component counts as
such only if `::` follows, so that `a < b` stays a comparison.
-/

namespace WatchExpr.Grammar

/-- Open angle brackets and parentheses behind a token of a template argument list; `none` when the
token closes what is not open. Angle brackets within parentheses do not count. -/
def templateDepth (angles parens : Nat) : TokenKind → Option (Nat × Nat)
  | .punct .lParen => some (angles, parens + 1)
  | .punct .rParen => if parens = 0 then none else some (angles, parens - 1)
  | .punct .less => some (if parens = 0 then angles + 1 else angles, parens)
  | .punct .greater => some (if parens = 0 then angles - 1 else angles, parens)
  | .punct .greaterGreater =>
    if parens ≠ 0 then some (angles, parens)
    else if angles < 2 then none
    else some (angles - 2, parens)
  | _ => some (angles, parens)

/-- The canonical text of a token of a template argument list. -/
def templatePiece (afterWord : Bool) (t : Token) : String :=
  (if t.isWord && afterWord then " " else "") ++ t.spelling ++
    (if t.kind = .punct .comma then " " else "")

/-- Reads on in a template argument list until its angle brackets are closed. -/
def templateTail (finish : EndMark) (angles parens : Nat) (afterWord : Bool) :
    List Token → Outcome String
  | [] => .error (failAt finish (.expected (.punct .greater)) []) []
  | t :: ts =>
    if t.kind = .eof then .error ⟨.expected (.punct .greater) t, t.location⟩ (t :: ts)
    else match templateDepth angles parens t.kind with
      | none => .error ⟨.unbalancedTemplate t, t.location⟩ (t :: ts)
      | some (angles, parens) =>
        if angles = 0 then .ok (templatePiece afterWord t) ts
        else (templateTail finish angles parens t.isWord ts).map (templatePiece afterWord t ++ ·)

/-- Reads a template argument list. -/
def templateArguments (finish : EndMark) (ts : List Token) : Outcome String :=
  (expect finish (.punct .less) ts).andThen fun _ ts =>
    (templateTail finish 1 0 false ts).map ("<" ++ ·)

/-- Reads a template argument list if one starts here. -/
def templateArguments? (finish : EndMark) (ts : List Token) : Outcome String :=
  if (current finish ts).kind = .punct .less then templateArguments finish ts else .ok "" ts

/-- Reads one component of a qualified name together with the `::` behind it. -/
def component? (finish : EndMark) : List Token → Option (String × List Token)
  | [] => none
  | t :: ts =>
    if t.kind ≠ .identifier then none
    else match templateArguments? finish ts with
      | .ok args (sep :: ts) =>
        if sep.kind = .punct .colonColon then some (t.spelling ++ args ++ "::", ts) else none
      | _ => none

theorem templateTail_rest_length_le (finish : EndMark) (angles parens : Nat) (afterWord : Bool)
    (ts : List Token) : (templateTail finish angles parens afterWord ts).rest.length ≤ ts.length := by
  induction ts generalizing angles parens afterWord with
  | nil => simp [templateTail, Outcome.rest]
  | cons t ts ih =>
    simp only [templateTail]
    split
    · simp [Outcome.rest]
    · split
      · simp [Outcome.rest]
      · split
        · simp [Outcome.rest]
        · simp only [Outcome.rest_map, List.length_cons]
          exact Nat.le_succ_of_le (ih _ _ _)

theorem templateArguments_rest_length_le (finish : EndMark) (ts : List Token) :
    (templateArguments finish ts).rest.length ≤ ts.length :=
  Nat.le_trans
    (Outcome.rest_andThen_le fun _ ts => by simpa using templateTail_rest_length_le finish 1 0 false ts)
    (expect_rest_length_le finish _ ts)

theorem templateArguments?_rest_length_le (finish : EndMark) (ts : List Token) :
    (templateArguments? finish ts).rest.length ≤ ts.length := by
  unfold templateArguments?
  split
  · exact templateArguments_rest_length_le finish ts
  · simp [Outcome.rest]

theorem component?_rest_length_lt {finish : EndMark} {ts rest : List Token} {text : String}
    (h : component? finish ts = some (text, rest)) : rest.length < ts.length := by
  cases ts with
  | nil => cases h
  | cons t ts =>
    have hargs := templateArguments?_rest_length_le finish ts
    simp only [component?] at h
    split at h
    · cases h
    · split at h
      · rename_i hok
        rw [hok] at hargs
        split at h
        · cases h
          simp only [Outcome.rest, List.length_cons] at hargs ⊢
          omega
        · cases h
      · cases h

/-- Reads the components in front of the last one. -/
def nestedName (finish : EndMark) (ts : List Token) : String × List Token :=
  match _h : component? finish ts with
  | some (text, rest) =>
    let (more, rest) := nestedName finish rest
    (text ++ more, rest)
  | none => ("", ts)
termination_by ts.length
decreasing_by exact component?_rest_length_lt _h

theorem nestedName_rest_length_le (finish : EndMark) (ts : List Token) :
    (nestedName finish ts).2.length ≤ ts.length := by
  fun_induction nestedName finish ts with
  | case1 ts text rest h more rest' heq ih =>
    have := component?_rest_length_lt h
    rw [heq] at ih
    simp only at ih ⊢
    omega
  | case2 => exact Nat.le_refl _

/-- Splits off the `::` of a globally qualified name. -/
def splitGlobal (ts : List Token) : String × List Token :=
  match ts with
  | ⟨.punct .colonColon, _, _⟩ :: rest => ("::", rest)
  | _ => ("", ts)

theorem splitGlobal_rest_length_le (ts : List Token) :
    (splitGlobal ts).2.length ≤ ts.length := by
  unfold splitGlobal
  split <;> simp

/-- Reads a qualified name and returns its canonical text. -/
def qualifiedName (finish : EndMark) (ts : List Token) : Outcome String :=
  let (start, ts) := splitGlobal ts
  let (scope, ts) := nestedName finish ts
  (expect finish .identifier ts).map fun t => start ++ scope ++ t.spelling

theorem qualifiedName_rest_length_le (finish : EndMark) (ts : List Token) :
    (qualifiedName finish ts).rest.length ≤ ts.length := by
  have h₁ := splitGlobal_rest_length_le ts
  have h₂ := nestedName_rest_length_le finish (splitGlobal ts).2
  have h₃ := expect_rest_length_le finish .identifier (nestedName finish (splitGlobal ts).2).2
  simp only [qualifiedName, Outcome.rest_map]
  omega

theorem qualifiedName_rest_length_lt {finish : EndMark} {ts rest : List Token} {name : String}
    (h : qualifiedName finish ts = .ok name rest) : rest.length < ts.length := by
  have h₁ := splitGlobal_rest_length_le ts
  have h₂ := nestedName_rest_length_le finish (splitGlobal ts).2
  simp only [qualifiedName] at h
  cases h₃ : expect finish .identifier (nestedName finish (splitGlobal ts).2).2 with
  | error e ts => rw [h₃] at h; cases h
  | ok t ts =>
    have h₄ := expect_rest_length_lt (by simp) h₃
    rw [h₃] at h
    cases h
    omega

/-- Reads the name of a type: a qualified name, possibly with template arguments of its own. -/
def typeName (finish : EndMark) (ts : List Token) : Outcome String :=
  (qualifiedName finish ts).andThen fun name ts =>
    (templateArguments? finish ts).map (name ++ ·)

theorem typeName_rest_length_le (finish : EndMark) (ts : List Token) :
    (typeName finish ts).rest.length ≤ ts.length :=
  Nat.le_trans
    (Outcome.rest_andThen_le fun _ ts => by simpa using templateArguments?_rest_length_le finish ts)
    (qualifiedName_rest_length_le finish ts)

theorem typeName_rest_length_lt {finish : EndMark} {ts rest : List Token} {name : String}
    (h : typeName finish ts = .ok name rest) : rest.length < ts.length := by
  unfold typeName at h
  cases h₁ : qualifiedName finish ts with
  | error e ts => rw [h₁] at h; cases h
  | ok name' us =>
    have h₂ := qualifiedName_rest_length_lt h₁
    have h₃ := templateArguments?_rest_length_le finish us
    rw [h₁] at h
    simp only [Outcome.andThen] at h
    cases h₄ : templateArguments? finish us with
    | error e ts => rw [h₄] at h; cases h
    | ok args vs =>
      rw [h₄] at h h₃
      cases h
      simp only [Outcome.rest] at h₃
      omega

end WatchExpr.Grammar
