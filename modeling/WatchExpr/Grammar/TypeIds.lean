import WatchExpr.Grammar.Names

/-!
# Type-ids in the grammar

Specifiers in any order, then the signs of the declarator. Which specifiers go together is decided
when the type-id is resolved.
-/

namespace WatchExpr.Grammar

/-- What the grammar knows besides the tokens: the names of types and the end mark. -/
structure Env where
  types : TypeNames
  finish : EndMark

/-- What a specifier is told by: its first token. -/
inductive SpecifierStart where
  | word (w : BuiltinWord)
  | const
  | volatile
  | tag
  | name
deriving DecidableEq

/-- The specifier that a token may start. -/
def specifierStart? : TokenKind → Option SpecifierStart
  | .keyword (.builtin w) => some (.word w)
  | .keyword .const => some .const
  | .keyword .volatile => some .volatile
  | .keyword (.tag _) => some .tag
  | .identifier | .punct .colonColon => some .name
  | _ => none

/-- Whether a token can only start a type. -/
def startsType (k : TokenKind) : Bool :=
  match specifierStart? k with
  | none | some .name => false
  | some _ => true

/-- Reads specifiers as long as there are any. A name is a specifier only if nothing was specified
before. -/
def specifiers (finish : EndMark) (d : TypeId) : List Token → Outcome TypeId
  | [] => .ok d []
  | t :: ts =>
    match specifierStart? t.kind with
    | none => .ok d (t :: ts)
    | some (.word w) => specifiers finish (d.addWord w) ts
    | some .const => specifiers finish d.addConst ts
    | some .volatile => specifiers finish d.addVolatile ts
    | some .tag =>
      match _h : typeName finish ts with
      | .ok name rest => specifiers finish (d.addName name) rest
      | .error e rest => .error e rest
    | some .name =>
      if d.hasSpecifier then .ok d (t :: ts)
      else match _h : typeName finish (t :: ts) with
        | .ok name rest => specifiers finish (d.addName name) rest
        | .error e rest => .error e rest
termination_by ts => ts.length
decreasing_by
  · exact Nat.lt_succ_self _
  · exact Nat.lt_succ_self _
  · exact Nat.lt_succ_self _
  · exact Nat.lt_succ_of_lt (typeName_rest_length_lt _h)
  · exact typeName_rest_length_lt _h

theorem specifiers_rest_length_le (finish : EndMark) (d : TypeId) (ts : List Token) :
    (specifiers finish d ts).rest.length ≤ ts.length := by
  fun_induction specifiers finish d ts with
  | case1 => simp
  | case2 => simp
  | case3 _ _ _ _ _ ih => exact Nat.le_succ_of_le ih
  | case4 _ _ _ _ ih => exact Nat.le_succ_of_le ih
  | case5 _ _ _ _ ih => exact Nat.le_succ_of_le ih
  | case6 _ _ _ _ _ _ h ih =>
    exact Nat.le_succ_of_le (Nat.le_trans ih (Nat.le_of_lt (typeName_rest_length_lt h)))
  | case7 _ _ ts _ _ _ h =>
    have := typeName_rest_length_le finish ts
    rw [h] at this
    exact Nat.le_succ_of_le this
  | case8 => simp
  | case9 _ _ _ _ _ _ _ h ih =>
    exact Nat.le_trans ih (Nat.le_of_lt (typeName_rest_length_lt h))
  | case10 _ t ts _ _ _ _ h =>
    have := typeName_rest_length_le finish (t :: ts)
    rw [h] at this
    exact this

/-- Reads the qualifiers behind a `*`; here they may be repeated. -/
def pointerQualifiers (cv : Qualifiers) : List Token → Qualifiers × List Token
  | [] => (cv, [])
  | t :: ts =>
    match specifierStart? t.kind with
    | some .const => pointerQualifiers { cv with isConst := true } ts
    | some .volatile => pointerQualifiers { cv with isVolatile := true } ts
    | _ => (cv, t :: ts)

theorem pointerQualifiers_rest_length_le (cv : Qualifiers) (ts : List Token) :
    (pointerQualifiers cv ts).2.length ≤ ts.length := by
  fun_induction pointerQualifiers cv ts with
  | case1 => simp
  | case2 _ _ _ _ ih => exact Nat.le_succ_of_le ih
  | case3 _ _ _ _ ih => exact Nat.le_succ_of_le ih
  | case4 => simp

/-- Reads the signs of a declarator. References to temporaries are no types of the language. -/
def declaratorSigns (d : TypeId) : List Token → TypeId × List Token
  | [] => (d, [])
  | t :: ts =>
    match t.kind with
    | .punct .star =>
      declaratorSigns (d.addSign (.pointer (pointerQualifiers .none ts).1))
        (pointerQualifiers .none ts).2
    | .punct .amp => declaratorSigns (d.addSign .reference) ts
    | .punct .ampAmp => declaratorSigns { d with illFormed := true } ts
    | _ => (d, t :: ts)
termination_by ts => ts.length
decreasing_by
  · exact Nat.lt_succ_of_le (pointerQualifiers_rest_length_le .none ts)
  · simp
  · simp

theorem declaratorSigns_rest_length_le (d : TypeId) (ts : List Token) :
    (declaratorSigns d ts).2.length ≤ ts.length := by
  fun_induction declaratorSigns d ts with
  | case1 => simp
  | case2 _ _ ts _ ih =>
    exact Nat.le_succ_of_le (Nat.le_trans ih (pointerQualifiers_rest_length_le .none ts))
  | case3 _ _ _ _ ih => exact Nat.le_succ_of_le ih
  | case4 _ _ _ _ ih => exact Nat.le_succ_of_le ih
  | case5 => simp

/-- Reads a type-id. -/
def typeId (finish : EndMark) (ts : List Token) : Outcome TypeId :=
  (specifiers finish {} ts).andThen fun d rest =>
    if d.hasSpecifier then .ok (declaratorSigns d rest).1 (declaratorSigns d rest).2
    else .error (failAt finish .expectedType rest) rest

theorem typeId_rest_length_le (finish : EndMark) (ts : List Token) :
    (typeId finish ts).rest.length ≤ ts.length := by
  refine Nat.le_trans (Outcome.rest_andThen_le fun d rest => ?_)
    (specifiers_rest_length_le finish {} ts)
  split
  · exact declaratorSigns_rest_length_le d rest
  · simp

/-- The type that a type-id stands for, a failure being reported at a given place. -/
def resolveAt (env : Env) (place : Location) (d : TypeId) (rest : List Token) : Outcome Ty :=
  match d.resolve env.types with
  | .ok t => .ok t rest
  | .error e => .error ⟨.type e, place⟩ rest

@[simp] theorem resolveAt_rest (env : Env) (place : Location) (d : TypeId) (rest : List Token) :
    (resolveAt env place d rest).rest = rest := by
  unfold resolveAt
  split <;> rfl

/-- Reads the type of a cast up to its closing parenthesis. -/
def castType (env : Env) (ts : List Token) : Outcome Ty :=
  (typeId env.finish ts).andThen fun d rest =>
    (expect env.finish (.punct .rParen) rest).andThen fun _ rest =>
      resolveAt env (current env.finish ts).location d rest

theorem castType_rest_length_le (env : Env) (ts : List Token) :
    (castType env ts).rest.length ≤ ts.length :=
  Nat.le_trans
    (Outcome.rest_andThen_le fun _ rest => Nat.le_trans
      (Outcome.rest_andThen_le fun _ _ => by simp)
      (expect_rest_length_le env.finish _ rest))
    (typeId_rest_length_le env.finish ts)

theorem castType_rest_le_of_ok {env : Env} {ts rest : List Token} {t : Ty}
    (h : castType env ts = .ok t rest) : rest.length ≤ ts.length := by
  simpa only [h, Outcome.rest_ok] using castType_rest_length_le env ts

theorem castType_rest_le_of_error {env : Env} {ts rest : List Token} {e : ParseError}
    (h : castType env ts = .error e rest) : rest.length ≤ ts.length := by
  simpa only [h, Outcome.rest_error] using castType_rest_length_le env ts

/-! ## Array bounds -/

/-- The bound that a numeric constant stands for: its value as a 64-bit number, if it is an
integer. -/
def boundOf? (spelling : String) : Option UInt64 :=
  match Literal.read spelling with
  | .ok (.integral k n) => some (Scalar.integral k n).toWord
  | _ => none

/-- Why a numeric constant is no bound. The reason that it has no value is only told if it is none
that is reported. -/
def boundFailure (spelling : String) : ParseError.Cause :=
  match Literal.read spelling with
  | .error .noSpelling => .literal .noSpelling
  | _ => .arrayBound spelling

/-- Reads an array bound behind its opening bracket. -/
def arrayBound (finish : EndMark) (ts : List Token) : Outcome UInt64 :=
  (expect finish .number ts).andThen fun t ts =>
    match boundOf? t.spelling with
    | none => .error ⟨boundFailure t.spelling, t.location⟩ ts
    | some n => (expect finish (.punct .rSquare) ts).map fun _ => n

theorem arrayBound_rest_length_le (finish : EndMark) (ts : List Token) :
    (arrayBound finish ts).rest.length ≤ ts.length := by
  refine Nat.le_trans (Outcome.rest_andThen_le fun t ts => ?_)
    (expect_rest_length_le finish .number ts)
  split
  · simp
  · simpa using expect_rest_length_le finish _ ts

/-- Reads array bounds as long as there are any. -/
def arrayBounds (finish : EndMark) : List Token → Outcome (List UInt64)
  | [] => .ok [] []
  | t :: ts =>
    if t.kind = .punct .lSquare then
      match _h : arrayBound finish ts with
      | .ok n rest => (arrayBounds finish rest).map (n :: ·)
      | .error e rest => .error e rest
    else .ok [] (t :: ts)
termination_by ts => ts.length
decreasing_by
  have := arrayBound_rest_length_le finish ts
  rw [_h] at this
  exact Nat.lt_succ_of_le this

/-- Reads a type-id with array bounds. The first bound is that of the outermost array. -/
def arrayType (env : Env) (ts : List Token) : Outcome Ty :=
  (typeId env.finish ts).andThen fun d rest =>
    (resolveAt env (current env.finish ts).location d rest).andThen fun t rest =>
      (arrayBounds env.finish rest).map fun bounds =>
        bounds.foldr (fun n t => .array t n .none) t

end WatchExpr.Grammar
