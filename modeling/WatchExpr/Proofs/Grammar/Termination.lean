import WatchExpr.Proofs.Grammar.Calls
import WatchExpr.Proofs.Grammar.Progress
import WatchExpr.Proofs.Grammar.Speculation

/-!
# Reading ends

A machine reads step by step, with a stack of callers that wait for an outcome. Calls descend and cannot
descend for ever, so that from every routine on every list of tokens the machine comes to a halt with
the outcome of the routine. On a stream a routine moves on, and never past the end mark.
-/

namespace WatchExpr.Grammar

variable {α β : Type} {env : Env}

/-! ## The machine -/

/-- The callers that wait for an outcome, and what they do with it. The last one has the outcome of the
whole reading. -/
inductive Stack (α : Type) : Type → Type 1 where
  | nil : Stack α α
  | push {β γ : Type} (more : Outcome β → Script γ) (below : Stack α γ) : Stack α β

/-- What is left to do of the routine that was called last, and its callers. -/
structure Machine (α : Type) : Type 1 where
  {β : Type}
  script : Script β
  stack : Stack α β

namespace Machine

/-- Starts a routine that is called, or hands an outcome to the caller. -/
def step (env : Env) : Machine α → Machine α
  | ⟨.call r ts more, stack⟩ => ⟨r.script env ts, .push more stack⟩
  | ⟨.done o, .push more stack⟩ => ⟨more o, stack⟩
  | ⟨.done o, .nil⟩ => ⟨.done o, .nil⟩

/-- A routine that nobody called. -/
def start (env : Env) (r : Routine α) (ts : List Token) : Machine α :=
  ⟨r.script env ts, .nil⟩

/-- An outcome that nobody waits for. -/
def halted (o : Outcome α) : Machine α :=
  ⟨.done o, .nil⟩

/-- The machine comes from one state to another in some number of steps. -/
def Reaches (env : Env) (m m' : Machine α) : Prop :=
  ∃ n, (step env)^[n] m = m'

variable {m m' m'' : Machine α}

theorem reaches_refl (m : Machine α) : Reaches env m m :=
  ⟨0, rfl⟩

theorem Reaches.trans (h : Reaches env m m') (h' : Reaches env m' m'') : Reaches env m m'' := by
  obtain ⟨n, rfl⟩ := h
  obtain ⟨n', rfl⟩ := h'
  exact ⟨n' + n, Function.iterate_add_apply (step env) n' n m⟩

theorem Reaches.head (h : Reaches env (m.step env) m') : Reaches env m m' := by
  obtain ⟨n, hn⟩ := h
  exact ⟨n + 1, hn⟩

/-- From some step on, the machine rests with an outcome. -/
def HaltsWith (env : Env) (m : Machine α) (o : Outcome α) : Prop :=
  ∃ n, ∀ k, n ≤ k → (step env)^[k] m = halted o

theorem step_halted (o : Outcome α) : (halted o).step env = halted o := rfl

theorem Reaches.haltsWith {o : Outcome α} (h : Reaches env m (halted o)) : m.HaltsWith env o := by
  obtain ⟨n, hn⟩ := h
  refine ⟨n, fun k hk => ?_⟩
  obtain ⟨d, rfl⟩ := Nat.exists_eq_add_of_le' hk
  rw [Function.iterate_add_apply, hn]
  exact Function.iterate_fixed (step_halted o) d

end Machine

/-! ## Every call returns -/

/-- A call comes to its outcome, whoever waits for it. -/
def Call.Returns (env : Env) (c : Call) : Prop :=
  ∀ {α : Type} (stack : Stack α c.α),
    Machine.Reaches env ⟨c.routine.script env c.tokens, stack⟩
      ⟨.done (c.routine.outcome env c.tokens), stack⟩

/-- A script comes to its answer if its calls return. -/
theorem Script.reaches_answer {s : Script β} (h : s.EachCall (Call.Returns env) env)
    (stack : Stack α β) : Machine.Reaches env ⟨s, stack⟩ ⟨.done (s.answer env), stack⟩ := by
  induction s with
  | done o => exact Machine.reaches_refl _
  | call r ts more ih =>
      obtain ⟨hcall, hmore⟩ := h
      have hreturn : Machine.Reaches env ⟨.call r ts more, stack⟩ ⟨more (r.outcome env ts), stack⟩ :=
        (hcall (.push more stack)).head.trans (Machine.reaches_refl _).head
      exact hreturn.trans (ih _ hmore)

/-- There is no infinite descent: tokens are consumed, or the level gets tighter. -/
theorem Call.wellFounded_below : WellFounded Call.Below := by
  refine Subrelation.wf (fun {c d} h => ?_)
    (InvImage.wf (fun c : Call => (c.tokens.length, c.routine.level))
      (Prod.lex Nat.lt_wfRel Nat.lt_wfRel).wf)
  cases h with
  | consumed h => exact .left _ _ h.length_lt
  | tighter htokens hlevel => exact Prod.lex_def.2 (.inr ⟨congrArg List.length htokens, hlevel⟩)

theorem Call.returns (c : Call) : c.Returns env := by
  induction c using Call.wellFounded_below.induction with
  | h c ih =>
      intro α stack
      have hcalls : c.routine.Descends env c.tokens := c.routine.descends
      have hreach := Script.reaches_answer (hcalls.mono ih) stack
      rwa [Routine.answer_script] at hreach

/-- The machine halts on every list of tokens, with the outcome of the routine that was started. -/
theorem Machine.start_haltsWith (env : Env) (r : Routine α) (ts : List Token) :
    (start env r ts).HaltsWith env (r.outcome env ts) :=
  Reaches.haltsWith (Call.returns ⟨r, ts⟩ .nil)

/-! ## Progress -/

/-- Whether a routine must consume a token to succeed. The others read as much as there is, which may be
nothing. -/
def Routine.consumes : Routine α → Bool
  | .rule r => !r.readsOn
  | .specifiers _ | .declaratorSigns _ | .pointerQualifiers _ | .arrayBounds | .nestedName => false
  | _ => true

theorem Routine.outcome_rest_length_lt {r : Routine α} {ts rest : List Token} {a : α}
    (hr : r.consumes = true) (h : r.outcome env ts = .ok a rest) : rest.length < ts.length := by
  cases r with
  | wholeExpression => exact wholeExpression_rest_length_lt h
  | rule r => exact run_rest_length_lt (Bool.not_eq_true' _ ▸ hr) h
  | wholeType => exact wholeType_rest_length_lt h
  | arrayType => exact arrayType_rest_length_lt h
  | castType => exact castType_rest_length_lt h
  | typeId => exact typeId_rest_length_lt h
  | typeName => exact typeName_rest_length_lt h
  | qualifiedName => exact qualifiedName_rest_length_lt h
  | templateArguments => exact templateArguments_rest_length_lt h
  | templateTail angles parens afterWord => exact templateTail_rest_length_lt h
  | specifiers | declaratorSigns | pointerQualifiers | arrayBounds | nestedName => cases hr

end WatchExpr.Grammar

namespace WatchExpr.TokenStream

open Grammar

variable {tokens : Tokens} {s : TokenStream}

/-- A stream over the same tokens that is not at an earlier one, and not behind their end mark. -/
structure MovesTo (s after : TokenStream) : Prop where
  tokens_eq : after.tokens = s.tokens
  position_le : s.position ≤ after.position
  not_past_end : after.position ≤ s.tokens.body.length

/-- The tokens not yet consumed and those before them are all tokens. -/
theorem Over.position_add_length_rest (h : s.Over tokens) :
    s.position + s.rest.length = tokens.body.length := by
  obtain ⟨rfl, hle⟩ := h
  rw [rest, List.length_drop]
  omega

theorem Over.movesTo_atRest (h : s.Over tokens) {rest : List Token} (hrest : rest <:+ s.rest) :
    s.MovesTo (s.atRest rest) := by
  have hall := h.position_add_length_rest
  have hle := hrest.length_le
  obtain ⟨rfl, -⟩ := h
  refine ⟨rfl, ?_, Nat.sub_le _ _⟩
  dsimp only [TokenStream.atRest]
  omega

theorem Over.position_lt_atRest (h : s.Over tokens) {rest : List Token}
    (hrest : rest.length < s.rest.length) : s.position < (s.atRest rest).position := by
  have hall := h.position_add_length_rest
  obtain ⟨rfl, -⟩ := h
  dsimp only [TokenStream.atRest]
  omega

/-- Reading advances and ends. On every list of tokens, whatever marks are in the middle of it, and from
every position, a routine moves on to what it leaves and not past the end mark, whether it fails or not;
where it succeeds it has consumed a token, if it is not one that may read nothing. It ends with a value,
with a failure that is reported or, only right behind a number that is not spelled out, with a stop that
nobody is told of. Its calls, loops included, are made behind consumed tokens or at a tighter level, which
cannot go on for ever, and so the machine that carries them out comes to a halt with the outcome of the
routine. -/
theorem reading_advances_and_ends (types : TypeNames) (list : List Token) (position : Nat) :
    let s := (ofTokens (.ofList list)).reset position
    let env : Env := ⟨types, s.tokens.finish⟩
    WellFounded Call.Below ∧
      (∀ (α : Type) (r : Routine α),
        let (answer, after) := s.readBy (fun env => r.outcome env) types
        s.MovesTo after ∧ after.rest = (r.outcome env s.rest).rest ∧
          (r.consumes = true → ∀ a, answer = .ok a → s.position < after.position) ∧
          (∀ e, answer = .error e → e.code? = none →
            ∃ t : Token, t.IsUnspelled ∧ t :: after.rest <:+ s.rest) ∧
          (r.script env s.rest).EachCall (·.Below ⟨r, s.rest⟩) env ∧
          (Machine.start env r s.rest).HaltsWith env (r.outcome env s.rest)) ∧
      s.readExpr types = s.readBy (fun env => (Routine.wholeExpression).outcome env) types ∧
      s.readType types = s.readBy (fun env => (Routine.wholeType).outcome env) types := by
  intro s env
  have hs : s.Over (.ofList list) := (over_ofTokens _).reset position
  refine ⟨Call.wellFounded_below, fun α r => ?_, rfl, rfl⟩
  obtain ⟨hsuffix, hunspelled⟩ := r.outcome_leaves env s.rest
  have hrest : (s.atRest (r.outcome env s.rest).rest).rest = (r.outcome env s.rest).rest :=
    rest_atRest hsuffix
  refine ⟨hs.movesTo_atRest hsuffix, hrest, ?_, ?_, r.descends, Machine.start_haltsWith env r _⟩
  · intro hconsumes a hanswer
    obtain ⟨rest, hoc⟩ := Outcome.toExcept_eq_ok_iff.1 hanswer
    refine hs.position_lt_atRest ?_
    rw [hoc]
    exact Routine.outcome_rest_length_lt hconsumes hoc
  · intro e hanswer hcode
    obtain ⟨rest, hoc⟩ := Outcome.toExcept_eq_error_iff.1 hanswer
    have hstops : (r.outcome env s.rest).Stops := by
      rw [show r.outcome env s.rest = .error e rest from hoc]
      exact hcode
    obtain ⟨t, ht, hbehind⟩ := hunspelled hstops
    exact ⟨t, ht, hrest.symm ▸ hbehind⟩

/-- Template arguments in front of an end mark that is not the last token. -/
theorem reading_advances_and_ends_amid_marks :
    let list : List Token :=
      [⟨.identifier, "a", 0, 1, 1⟩, ⟨.punct .less, "<", 1, 1, 2⟩, ⟨.identifier, "b", 2, 1, 3⟩,
        ⟨.punct .greater, ">", 3, 1, 4⟩, ⟨.eof, "", 4, 1, 5⟩, ⟨.punct .plus, "+", 5, 1, 6⟩]
    let s := (ofTokens (.ofList list)).reset 1
    let (answer, after) := s.readBy (fun env => (Routine.templateArguments).outcome env) fun _ => none
    answer = .ok "<b>" ∧ s.position < after.position ∧ after.position ≤ 6 := by
  intro list s
  have hanswer : (s.readBy (fun env => (Routine.templateArguments).outcome env) fun _ => none).1 =
      .ok "<b>" := by decide
  obtain ⟨-, hreading, -⟩ := reading_advances_and_ends (fun _ => none) list 1
  obtain ⟨hmoves, -, hconsumes, -⟩ := hreading String .templateArguments
  exact ⟨hanswer, hconsumes rfl _ hanswer, hmoves.not_past_end⟩

example :
    let s := ofTokens (.ofList [⟨.punct .minus, "-", 0, 1, 1⟩, ⟨.number, "", 1, 1, 2⟩])
    let (answer, after) := s.readExpr fun _ => none
    answer = .error ⟨.literal .noSpelling, 1, 1, 2⟩ ∧ after.position = 2 := by
  decide +kernel

end WatchExpr.TokenStream
