/-!
# Steps that may fail

A sequence of steps succeeds exactly if each of them does.
-/

namespace WatchExpr

variable {ε α β : Type}

theorem bind_eq_ok_iff {x : Except ε α} {f : α → Except ε β} {b : β} :
    x >>= f = .ok b ↔ ∃ a, x = .ok a ∧ f a = .ok b := by
  cases x with
  | error e => simp [bind, Except.bind]
  | ok a => simp [bind, Except.bind]

theorem bind_congr_of_ok {x : Except ε α} {f g : α → Except ε β}
    (h : ∀ a, x = .ok a → f a = g a) : x >>= f = x >>= g := by
  cases x with
  | error e => rfl
  | ok a => exact h a rfl

/-- Whatever a computation yields has a property. -/
def Ensures (p : α → Prop) (x : Except ε α) : Prop :=
  ∀ a, x = .ok a → p a

namespace Ensures

variable {p : α → Prop} {q : β → Prop} {x : Except ε α} {f : α → Except ε β}

theorem ok {a : α} (h : p a) : Ensures p (.ok a : Except ε α) := by
  rintro _ ⟨⟩
  exact h

theorem error (e : ε) : Ensures p (.error e) := nofun

theorem bind (hx : Ensures p x) (hf : ∀ a, p a → Ensures q (f a)) : Ensures q (x >>= f) := by
  intro b hb
  obtain ⟨a, ha, hb⟩ := bind_eq_ok_iff.1 hb
  exact hf a (hx a ha) b hb

/-- Nothing is asked of a step on the way. -/
theorem next (hf : ∀ a, Ensures q (f a)) : Ensures q (x >>= f) :=
  bind (p := fun _ => True) (fun _ _ => trivial) fun a _ => hf a

end Ensures

/-- Two computations end alike: with values that are in a relation, or both with a failure. -/
inductive EndAlike (r : α → β → Prop) : Except ε α → Except ε β → Prop where
  | ok {a : α} {b : β} (h : r a b) : EndAlike r (.ok a) (.ok b)
  | error (e f : ε) : EndAlike r (.error e) (.error f)

namespace EndAlike

variable {γ δ : Type} {r : α → β → Prop} {q : γ → δ → Prop} {x : Except ε α} {y : Except ε β}

theorem of_eq_ok_iff {x y : Except ε α} (h : ∀ a, x = .ok a ↔ y = .ok a) : EndAlike (· = ·) x y := by
  cases x with
  | ok a =>
      obtain rfl := (h a).1 rfl
      exact .ok rfl
  | error e =>
      cases y with
      | ok b => cases (h b).2 rfl
      | error f => exact .error e f

theorem bind {f : α → Except ε γ} {g : β → Except ε δ} (h : EndAlike r x y)
    (hfg : ∀ a b, r a b → EndAlike q (f a) (g b)) : EndAlike q (x >>= f) (y >>= g) := by
  cases h with
  | ok h => exact hfg _ _ h
  | error e f => exact .error e f

/-- The first step may be the same one. -/
theorem next {f : α → Except ε γ} {g : α → Except ε δ}
    (hfg : ∀ a, x = .ok a → EndAlike q (f a) (g a)) : EndAlike q (x >>= f) (x >>= g) := by
  cases x with
  | ok a => exact hfg a rfl
  | error e => exact .error e e

/-- Two steps of which neither depends on the other may be taken in either order. -/
theorem exchange {f : α → β → Except ε γ} {g : β → α → Except ε δ}
    (hfg : ∀ a b, x = .ok a → y = .ok b → EndAlike q (f a b) (g b a)) :
    EndAlike q (x >>= fun a => y >>= f a) (y >>= fun b => x >>= g b) := by
  cases x with
  | ok a =>
      cases y with
      | ok b => exact hfg a b rfl rfl
      | error e => exact .error e e
  | error e =>
      cases y with
      | ok b => exact .error e e
      | error f => exact .error e f

theorem mono {p : α → β → Prop} (h : EndAlike r x y) (hp : ∀ a b, r a b → p a b) : EndAlike p x y := by
  cases h with
  | ok h => exact .ok (hp _ _ h)
  | error e f => exact .error e f

theorem trans {p : β → γ → Prop} {z : Except ε γ} (hxy : EndAlike r x y) (hyz : EndAlike p y z) :
    EndAlike (fun a c => ∃ b, r a b ∧ p b c) x z := by
  cases hxy with
  | ok h =>
      cases hyz with
      | ok h' => exact .ok ⟨_, h, h'⟩
  | error e f =>
      cases hyz with
      | error _ g => exact .error e g

/-- Steps that end alike whenever they start alike do so one after another. -/
theorem foldlM {f : α → γ → Except ε α} {g : β → γ → Except ε β}
    (step : ∀ a b c, r a b → EndAlike r (f a c) (g b c)) {a : α} {b : β} (h : r a b) (cs : List γ) :
    EndAlike r (cs.foldlM f a) (cs.foldlM g b) := by
  induction cs generalizing a b with
  | nil => exact .ok h
  | cons c cs ih =>
      rw [List.foldlM_cons, List.foldlM_cons]
      exact (step a b c h).bind fun _ _ => ih

end EndAlike

/-- What holds at first and is kept by each step holds after all of them. -/
theorem foldlM_invariant {p : β → Prop} {f : β → α → Except ε β}
    (step : ∀ b a b', p b → f b a = .ok b' → p b') {as : List α} {b b' : β} (hb : p b)
    (h : as.foldlM f b = .ok b') : p b' := by
  induction as generalizing b with
  | nil =>
      cases h
      exact hb
  | cons a as ih =>
      rw [List.foldlM_cons] at h
      obtain ⟨c, hc, h⟩ := bind_eq_ok_iff.1 h
      exact ih (step b a c hb hc) h

/-- Each result of a step that is taken on all elements comes from one of them. -/
theorem exists_of_mem_mapM {f : α → Except ε β} {as : List α} {bs : List β} {b : β}
    (h : as.mapM f = .ok bs) (hb : b ∈ bs) : ∃ a ∈ as, f a = .ok b := by
  induction as generalizing bs with
  | nil =>
      rw [List.mapM_nil] at h
      cases h
      cases hb
  | cons a as ih =>
      rw [List.mapM_cons] at h
      obtain ⟨c, hc, h⟩ := bind_eq_ok_iff.1 h
      obtain ⟨cs, hcs, h⟩ := bind_eq_ok_iff.1 h
      cases h
      obtain rfl | hb := List.mem_cons.1 hb
      · exact ⟨a, List.mem_cons_self, hc⟩
      · obtain ⟨a', ha', hfa⟩ := ih hcs hb
        exact ⟨a', List.mem_cons_of_mem a ha', hfa⟩

theorem mapError_eq_ok_iff {ε' : Type} {x : Except ε α} {f : ε → ε'} {a : α} :
    x.mapError f = .ok a ↔ x = .ok a := by
  cases x with
  | error e => exact ⟨nofun, nofun⟩
  | ok b =>
      constructor
      · rintro ⟨⟩
        rfl
      · rintro ⟨⟩
        rfl

@[simp] theorem pure_eq_ok (a : α) : (pure a : Except ε α) = .ok a := rfl

end WatchExpr
