import WatchExpr.Grammar.Error

/-!
# Outcomes

What a rule of the grammar yields on a list of tokens: a value or a failure, and in both cases the
tokens that are left. Consuming a token is taking it off the front of the list; going back is using
an earlier list again.
-/

namespace WatchExpr.Grammar

/-- The outcome of a rule. -/
inductive Outcome (α : Type) where
  | ok (value : α) (rest : List Token)
  | error (failure : ParseError) (rest : List Token)
deriving DecidableEq

namespace Outcome

variable {α β : Type}

/-- The tokens that are left. -/
def rest : Outcome α → List Token
  | .ok _ ts => ts
  | .error _ ts => ts

/-- Changes the value. -/
def map (f : α → β) : Outcome α → Outcome β
  | .ok a ts => .ok (f a) ts
  | .error e ts => .error e ts

/-- Goes on with the tokens that are left. -/
def andThen (o : Outcome α) (f : α → List Token → Outcome β) : Outcome β :=
  match o with
  | .ok a ts => f a ts
  | .error e ts => .error e ts

/-- The value or the failure. -/
def toExcept : Outcome α → Except ParseError α
  | .ok a _ => .ok a
  | .error e _ => .error e

@[simp] theorem rest_ok (a : α) (ts : List Token) : (ok a ts).rest = ts := rfl

@[simp] theorem rest_error (e : ParseError) (ts : List Token) :
    (error e ts : Outcome α).rest = ts := rfl

@[simp] theorem rest_map (f : α → β) (o : Outcome α) : (o.map f).rest = o.rest := by
  cases o <;> rfl

/-- What follows leaves no more tokens than the first part did. -/
theorem rest_andThen_le {o : Outcome α} {f : α → List Token → Outcome β}
    (h : ∀ a ts, (f a ts).rest.length ≤ ts.length) :
    (o.andThen f).rest.length ≤ o.rest.length := by
  cases o with
  | ok a ts => exact h a ts
  | error e ts => exact Nat.le_refl _

end Outcome

/-- An outcome that leaves at most `n` tokens. -/
def Bounded (α : Type) (n : Nat) : Type :=
  { o : Outcome α // o.rest.length ≤ n }

namespace Bounded

variable {α β : Type} {m n : Nat}

/-- Success with given tokens left. -/
def ok (a : α) (ts : List Token) (h : ts.length ≤ n) : Bounded α n :=
  ⟨.ok a ts, h⟩

/-- Failure with given tokens left. -/
def error (e : ParseError) (ts : List Token) (h : ts.length ≤ n) : Bounded α n :=
  ⟨.error e ts, h⟩

/-- An outcome with the bound that a rule is known to keep. -/
def of (o : Outcome α) (h : o.rest.length ≤ n) : Bounded α n := ⟨o, h⟩

/-- Forgets how few tokens are left. -/
def relax (p : Bounded α m) (h : m ≤ n) : Bounded α n :=
  ⟨p.val, Nat.le_trans p.property h⟩

/-- Goes on with the tokens that are left, of which there are at most `n`. -/
def andThen (p : Bounded α n) (f : α → (ts : List Token) → ts.length ≤ n → Bounded β n) :
    Bounded β n :=
  match p with
  | ⟨.ok a ts, h⟩ => f a ts h
  | ⟨.error e ts, h⟩ => ⟨.error e ts, h⟩

/-- Forgetting the bounds turns the bounded sequence into the plain one. -/
theorem val_andThen {p : Bounded α n} {f : α → (ts : List Token) → ts.length ≤ n → Bounded β n}
    {g : α → List Token → Outcome β} (h : ∀ a ts hts, (f a ts hts).val = g a ts) :
    (p.andThen f).val = p.val.andThen g := by
  obtain ⟨_ | _, _⟩ := p
  · exact h _ _ _
  · rfl

@[simp] theorem val_relax (p : Bounded α m) (h : m ≤ n) : (p.relax h).val = p.val := rfl

end Bounded

/-- The token that stands first; behind the last one it is the end mark. -/
def current (finish : EndMark) (ts : List Token) : Token :=
  ts.head?.getD finish.token

/-- Consumes the first token if its category is accepted. -/
def accept? {α : Type} (f : TokenKind → Option α) : List Token → Option (α × List Token)
  | [] => none
  | t :: ts => (f t.kind).map fun a => (a, ts)

theorem accept?_length_lt {α : Type} {f : TokenKind → Option α} {ts rest : List Token} {a : α}
    (h : accept? f ts = some (a, rest)) : rest.length < ts.length := by
  cases ts with
  | nil => cases h
  | cons t ts =>
    obtain ⟨_, _, h⟩ := Option.map_eq_some_iff.1 h
    cases h
    simp

/-- Accepts a given punctuator. -/
def isMark (p : Punctuator) (k : TokenKind) : Option Unit :=
  if k = .punct p then some () else none

/-- A failure at the current token. -/
def failAt (finish : EndMark) (cause : Token → ParseError.Cause) (ts : List Token) : ParseError :=
  ⟨cause (current finish ts), (current finish ts).location⟩

/-- Consumes a token of a given category. The end mark is never consumed. -/
def expect (finish : EndMark) (kind : TokenKind) (ts : List Token) : Outcome Token :=
  if (current finish ts).kind = kind then .ok (current finish ts) ts.tail
  else .error (failAt finish (.expected kind) ts) ts

theorem expect_rest_length_le (finish : EndMark) (kind : TokenKind) (ts : List Token) :
    (expect finish kind ts).rest.length ≤ ts.length := by
  unfold expect
  split <;> simp [Outcome.rest]

/-- Consuming any other token than the end mark leaves fewer tokens. -/
theorem expect_rest_length_lt {finish : EndMark} {kind : TokenKind} {ts rest : List Token}
    {t : Token} (hkind : kind ≠ .eof) (h : expect finish kind ts = .ok t rest) :
    rest.length < ts.length := by
  unfold expect at h
  split at h
  · rename_i hcur
    cases ts with
    | nil => exact absurd hcur.symm hkind
    | cons u us =>
      cases h
      simp
  · cases h

end WatchExpr.Grammar
