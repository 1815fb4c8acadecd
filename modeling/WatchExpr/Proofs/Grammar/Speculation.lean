import WatchExpr.Grammar.Speculation
import WatchExpr.Proofs.Grammar.Consumption

/-!
# Regions that are undone

Steps are split at a gap that may lie within regions. What the steps behind the gap yield depends
only on the stream that the gap leaves, and a region that is undone leaves the stream that it was
opened on. So it may be deleted, and a region that is kept may be replaced by its steps.
-/

namespace WatchExpr

/-! ## Streams over given tokens -/

/-- A stream over given tokens that is at one of them or at their end mark. -/
structure TokenStream.Over (tokens : Tokens) (s : TokenStream) : Prop where
  tokens_eq : s.tokens = tokens
  position_le : s.position ≤ tokens.body.length

namespace TokenStream

variable {tokens : Tokens} {types : TypeNames} {s : TokenStream}

theorem over_ofTokens (tokens : Tokens) : (ofTokens tokens).Over tokens :=
  ⟨rfl, Nat.zero_le _⟩

theorem Over.reset (h : s.Over tokens) (position : Nat) : (s.reset position).Over tokens :=
  ⟨h.tokens_eq, by rw [← h.tokens_eq]; exact Nat.min_le_right _ _⟩

theorem Over.advance (h : s.Over tokens) : s.advance.Over tokens :=
  h.reset _

theorem Over.atRest (h : s.Over tokens) (rest : List Token) : (s.atRest rest).Over tokens :=
  ⟨h.tokens_eq, by rw [← h.tokens_eq]; exact Nat.sub_le _ _⟩

theorem Over.readBy {α : Type} (h : s.Over tokens) (rule : Grammar.Env → List Token → Grammar.Outcome α) :
    (s.readBy rule types).2.Over tokens :=
  h.atRest _

/-- The tokens with their end mark have a token at every position that a stream may be at. -/
theorem Over.getElem?_toList (h : s.Over tokens) : tokens.toList[s.position]? = some s.current := by
  obtain ⟨rfl, hle⟩ := h
  rw [Tokens.toList, TokenStream.current, TokenStream.rest, List.head?_drop]
  obtain hlt | heq := Nat.lt_or_eq_of_le hle
  · rw [List.getElem?_append_left hlt, List.getElem?_eq_getElem hlt, Option.getD_some]
  · rw [List.getElem?_append_right (Nat.le_of_eq heq.symm),
      List.getElem?_eq_none (Nat.le_of_eq heq.symm), heq, Nat.sub_self]
    rfl

/-- Setting a stream back to where another one over the same tokens is makes them equal. -/
theorem Over.reset_eq {t : TokenStream} (ht : t.Over tokens) (hs : s.Over tokens) :
    t.reset s.position = s := by
  obtain ⟨rfl, hle⟩ := hs
  rw [TokenStream.reset, ht.tokens_eq, Nat.min_eq_left hle]

/-- The end of the tokens not yet consumed begins where a stream is taken to by it. -/
theorem rest_atRest {rest : List Token} (h : rest <:+ s.rest) : (s.atRest rest).rest = rest :=
  (List.suffix_iff_eq_drop.1 (h.trans (List.drop_suffix ..))).symm

theorem rest_readExpr (types : TypeNames) (s : TokenStream) :
    (s.readExpr types).2.rest = (Grammar.wholeExpression ⟨types, s.tokens.finish⟩ s.rest).rest :=
  rest_atRest (Grammar.wholeExpression_leaves _ _).isSuffix

theorem rest_readType (types : TypeNames) (s : TokenStream) :
    (s.readType types).2.rest = (Grammar.wholeType ⟨types, s.tokens.finish⟩ s.rest).rest :=
  rest_atRest (Grammar.wholeType_leaves _ _).isSuffix

end TokenStream

/-! ## Steps -/

/-- A record of a place among given tokens. -/
def ReadingRecord.Among (tokens : Tokens) (r : ReadingRecord) : Prop :=
  tokens.toList[r.position]? = some r.current

theorem TokenStream.Over.among {tokens : Tokens} {s : TokenStream} (h : s.Over tokens)
    (event : ReadingEvent) : (s.record event).Among tokens :=
  h.getElem?_toList

namespace ReadingStep

variable {tokens : Tokens} {types : TypeNames}

theorem performAll_cons (types : TypeNames) (s : TokenStream) (step : ReadingStep)
    (steps : List ReadingStep) :
    performAll types s (step :: steps) =
      ((step.perform types s).1 ++ (performAll types (step.perform types s).2 steps).1,
        (performAll types (step.perform types s).2 steps).2) := by
  rw [performAll]

theorem performAll_append (types : TypeNames) (s : TokenStream) (steps more : List ReadingStep) :
    performAll types s (steps ++ more) =
      ((performAll types s steps).1 ++ (performAll types (performAll types s steps).2 more).1,
        (performAll types (performAll types s steps).2 more).2) := by
  induction steps generalizing s with
  | nil => rfl
  | cons step steps ih => simp only [List.cons_append, performAll_cons, ih, List.append_assoc]

theorem performAll_singleton (types : TypeNames) (s : TokenStream) (step : ReadingStep) :
    performAll types s [step] = step.perform types s := by
  rw [performAll_cons, performAll, List.append_nil]

mutual

/-- A step stays at the tokens, and so do the steps within it. -/
theorem perform_over (types : TypeNames) {s : TokenStream} (h : s.Over tokens)
    (step : ReadingStep) :
    (step.perform types s).2.Over tokens ∧ ∀ r ∈ (step.perform types s).1, r.Among tokens := by
  cases step with
  | advance => exact ⟨h.advance, by simp [perform, h.advance.among]⟩
  | expression => exact ⟨h.readBy _, by simp [perform, (h.readBy _).among, TokenStream.readExpr]⟩
  | type => exact ⟨h.readBy _, by simp [perform, (h.readBy _).among, TokenStream.readType]⟩
  | region keep steps =>
      obtain ⟨hinner, hrecords⟩ := performAll_over types h steps
      have hafter : (if keep then (performAll types s steps).2
          else (performAll types s steps).2.reset s.position).Over tokens := by
        split
        · exact hinner
        · exact hinner.reset _
      refine ⟨hafter, fun r hr => ?_⟩
      obtain hr | hr := List.mem_append.1 hr
      · exact hrecords r hr
      · rw [List.mem_singleton.1 hr]
        exact hafter.among _

theorem performAll_over (types : TypeNames) {s : TokenStream} (h : s.Over tokens)
    (steps : List ReadingStep) :
    (performAll types s steps).2.Over tokens ∧
      ∀ r ∈ (performAll types s steps).1, r.Among tokens := by
  cases steps with
  | nil => exact ⟨h, by simp [performAll]⟩
  | cons step steps =>
      obtain ⟨hstep, hrecords⟩ := perform_over types h step
      obtain ⟨hsteps, hmore⟩ := performAll_over types hstep steps
      rw [performAll_cons]
      exact ⟨hsteps, fun r hr => (List.mem_append.1 hr).elim (hrecords r) (hmore r)⟩

end

/-- A region that is undone leaves the stream that it was opened on. -/
theorem perform_undone (types : TypeNames) {s : TokenStream} (h : s.Over tokens) (steps : List ReadingStep) :
    (region false steps).perform types s =
      ((performAll types s steps).1 ++ [s.record (.closed false)], s) := by
  have hundone := (performAll_over types h steps).1.reset_eq h
  simp [perform, hundone]

/-- A region that is kept leaves the stream that its steps leave. -/
theorem perform_kept (types : TypeNames) (s : TokenStream) (steps : List ReadingStep) :
    (region true steps).perform types s =
      ((performAll types s steps).1 ++ [(performAll types s steps).2.record (.closed true)],
        (performAll types s steps).2) := by
  simp [perform]

end ReadingStep

/-! ## Steps with a gap -/

/-- Steps with a gap between two of them, or between two steps of a region. -/
inductive StepContext where
  | gap (before after : List ReadingStep)
  | within (before : List ReadingStep) (keep : Bool) (inner : StepContext) (after : List ReadingStep)

namespace StepContext

open ReadingStep

variable {tokens : Tokens} {types : TypeNames} {s : TokenStream}

/-- The steps with others put into the gap. -/
def fill : StepContext → List ReadingStep → List ReadingStep
  | .gap before after, steps => before ++ (steps ++ after)
  | .within before keep inner after, steps => before ++ .region keep (inner.fill steps) :: after

/-- What the steps in front of the gap yield, and the stream that they leave to the gap. -/
def opening (types : TypeNames) (s : TokenStream) :
    StepContext → List ReadingRecord × TokenStream
  | .gap before _ => performAll types s before
  | .within before _ inner _ =>
    let (records, s) := performAll types s before
    let (more, s) := inner.opening types s
    (records ++ more, s)

/-- What the steps behind the gap yield on the stream that the gap leaves, and the stream at their
end. A region that the gap lies in is undone to the place where it was opened. -/
def closing (types : TypeNames) (s left : TokenStream) :
    StepContext → List ReadingRecord × TokenStream
  | .gap _ after => performAll types left after
  | .within before keep inner after =>
    let opened := (performAll types s before).2
    let (records, inside) := inner.closing types opened left
    let closed := if keep then inside else inside.reset opened.position
    let (more, last) := performAll types closed after
    (records ++ closed.record (.closed keep) :: more, last)

/-- Whatever fills the gap, the steps in front of it yield the same, and the steps behind it see only
the stream that it leaves. -/
theorem performAll_fill (types : TypeNames) (s : TokenStream) (c : StepContext)
    (steps : List ReadingStep) :
    performAll types s (c.fill steps) =
      let (before, opened) := c.opening types s
      let (inside, left) := performAll types opened steps
      let (after, last) := c.closing types s left
      (before ++ inside ++ after, last) := by
  induction c generalizing s with
  | gap before after => simp [fill, opening, closing, performAll_append]
  | within before keep inner after ih =>
      simp [fill, opening, closing, performAll_append, performAll_cons, perform, ih]

theorem opening_over (types : TypeNames) (h : s.Over tokens) (c : StepContext) :
    (c.opening types s).2.Over tokens := by
  induction c generalizing s with
  | gap before after => exact (performAll_over types h before).1
  | within before keep inner after ih => exact ih (performAll_over types h before).1

end StepContext

/-- Reading speculatively leaves no trace, wherever the region lies and whatever is read in it. A region
that is undone ends at the place where it was opened, and without it the steps in front of it and
behind it yield the same; a region that is kept yields what its steps yield in its place. A reading
ends where its rule stopped. The tokens stay as they are, every step ends at one of them, and at the
end mark nothing is left to advance to. -/
theorem ReadingStep.speculation_leaves_no_trace (types : TypeNames) (tokens : Tokens) (c : StepContext)
    (steps : List ReadingStep) :
    let start := TokenStream.ofTokens tokens
    let (before, opened) := c.opening types start
    let (inside, left) := performAll types opened steps
    performAll types opened [.region false steps] =
        (inside ++ [opened.record (.closed false)], opened) ∧
      (let (after, last) := c.closing types start opened
       performAll types start (c.fill []) = (before ++ after, last) ∧
         performAll types start (c.fill [.region false steps]) =
           (before ++ (inside ++ [opened.record (.closed false)]) ++ after, last)) ∧
      (let (after, last) := c.closing types start left
       performAll types start (c.fill steps) = (before ++ inside ++ after, last) ∧
         performAll types start (c.fill [.region true steps]) =
           (before ++ (inside ++ [left.record (.closed true)]) ++ after, last)) ∧
      (opened.readExpr types).2.rest =
        (Grammar.wholeExpression ⟨types, tokens.finish⟩ opened.rest).rest ∧
      (opened.readType types).2.rest =
        (Grammar.wholeType ⟨types, tokens.finish⟩ opened.rest).rest ∧
      left.tokens = tokens ∧ tokens.toList[left.position]? = some left.current ∧
      (∀ r ∈ (performAll types start steps).1, tokens.toList[r.position]? = some r.current) ∧
      (TokenStream.mk tokens tokens.body.length).current = tokens.finish.token ∧
      (TokenStream.mk tokens tokens.body.length).advance = ⟨tokens, tokens.body.length⟩ := by
  intro start
  have hstart : start.Over tokens := TokenStream.over_ofTokens tokens
  have hopened := c.opening_over types hstart
  have hleft := (performAll_over types hopened steps).1
  have hundone := (performAll_singleton types _ _).trans (perform_undone types hopened steps)
  have hkept := (performAll_singleton types _ _).trans
    (perform_kept types (c.opening types start).2 steps)
  have hread := hopened.tokens_eq
  refine ⟨hundone, ⟨?_, ?_⟩, ⟨?_, ?_⟩, ?_, ?_, hleft.tokens_eq, hleft.getElem?_toList,
    (performAll_over types hstart steps).2, ?_, ?_⟩
  · simp [StepContext.performAll_fill, performAll]
  · simp [StepContext.performAll_fill, hundone]
  · simp [StepContext.performAll_fill]
  · simp [StepContext.performAll_fill, hkept]
  · rw [TokenStream.rest_readExpr, hread]
  · rw [TokenStream.rest_readType, hread]
  · simp [TokenStream.current, TokenStream.rest]
  · simp [TokenStream.advance, TokenStream.reset]

/-- The step within the inner region goes on to the end mark, which the outer region keeps out of
sight. -/
theorem ReadingStep.speculation_leaves_no_trace_nested :
    let tokens : Tokens := ⟨[⟨.identifier, "a", 0, 1, 1⟩], "", 1, 1, 2⟩
    let steps := [ReadingStep.region false [.region true [.advance], .advance]]
    let r : ReadingRecord := ⟨.advanced, 1, tokens.finish.token⟩
    r ∈ (performAll (fun _ => none) (.ofTokens tokens) steps).1 ∧
      tokens.toList[1]? = some tokens.finish.token := by
  intro tokens steps r
  have hr : r ∈ (performAll (fun _ => none) (.ofTokens tokens) steps).1 := List.mem_cons_self
  obtain ⟨-, -, -, -, -, -, -, hrecords, -⟩ :=
    speculation_leaves_no_trace (fun _ => none) tokens (.gap [] []) steps
  exact ⟨hr, hrecords r hr⟩

end WatchExpr
