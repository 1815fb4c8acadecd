import WatchExpr.Expr.Basic

/-!
# Subexpressions

Properties that hold of an expression and of all expressions in it.
-/

namespace WatchExpr.Expr

/-- Whether a property holds of an expression and of every expression in it. -/
def Everywhere (p : Expr → Prop) : Expr → Prop
  | .poisoned d => p (.poisoned d)
  | .truth b => p (.truth b)
  | .number v s => p (.number v s)
  | .name id => p (.name id)
  | .cast t e => p (.cast t e) ∧ e.Everywhere p
  | .member e access field => p (.member e access field) ∧ e.Everywhere p
  | .binary op e f => p (.binary op e f) ∧ e.Everywhere p ∧ f.Everywhere p
  | .unary op e => p (.unary op e) ∧ e.Everywhere p
  | .conditional c e f =>
    p (.conditional c e f) ∧ c.Everywhere p ∧ e.Everywhere p ∧ f.Everywhere p

theorem Everywhere.self {p : Expr → Prop} {e : Expr} (h : e.Everywhere p) : p e := by
  cases e with
  | poisoned d => exact h
  | truth b => exact h
  | number v s => exact h
  | name id => exact h
  | cast t e => exact h.1
  | member e access field => exact h.1
  | binary op e f => exact h.1
  | unary op e => exact h.1
  | conditional c e f => exact h.1

theorem Everywhere.mono {p q : Expr → Prop} (hpq : ∀ e, p e → q e) {e : Expr}
    (h : e.Everywhere p) : e.Everywhere q := by
  induction e with
  | poisoned d => exact hpq _ h
  | truth b => exact hpq _ h
  | number v s => exact hpq _ h
  | name id => exact hpq _ h
  | cast t e ih => exact h.imp (hpq _) ih
  | member e access field ih => exact h.imp (hpq _) ih
  | binary op e f ihe ihf => exact h.imp (hpq _) (.imp ihe ihf)
  | unary op e ih => exact h.imp (hpq _) ih
  | conditional c e f ihc ihe ihf => exact h.imp (hpq _) (.imp ihc (.imp ihe ihf))

theorem everywhere_of_forall {p : Expr → Prop} (hp : ∀ e, p e) (e : Expr) : e.Everywhere p := by
  induction e with
  | poisoned d => exact hp _
  | truth b => exact hp _
  | number v s => exact hp _
  | name id => exact hp _
  | cast t e ih => exact ⟨hp _, ih⟩
  | member e access field ih => exact ⟨hp _, ih⟩
  | binary op e f ihe ihf => exact ⟨hp _, ihe, ihf⟩
  | unary op e ih => exact ⟨hp _, ih⟩
  | conditional c e f ihc ihe ihf => exact ⟨hp _, ihc, ihe, ihf⟩

/-- Whether a property holds of an expression or of some expression in it. -/
def Somewhere (p : Expr → Prop) : Expr → Prop
  | .poisoned d => p (.poisoned d)
  | .truth b => p (.truth b)
  | .number v s => p (.number v s)
  | .name id => p (.name id)
  | .cast t e => p (.cast t e) ∨ e.Somewhere p
  | .member e access field => p (.member e access field) ∨ e.Somewhere p
  | .binary op e f => p (.binary op e f) ∨ e.Somewhere p ∨ f.Somewhere p
  | .unary op e => p (.unary op e) ∨ e.Somewhere p
  | .conditional c e f =>
    p (.conditional c e f) ∨ c.Somewhere p ∨ e.Somewhere p ∨ f.Somewhere p

theorem Somewhere.mono {p q : Expr → Prop} (hpq : ∀ e, p e → q e) {e : Expr} (h : e.Somewhere p) :
    e.Somewhere q := by
  induction e with
  | poisoned d => exact hpq _ h
  | truth b => exact hpq _ h
  | number v s => exact hpq _ h
  | name id => exact hpq _ h
  | cast t e ih => exact h.imp (hpq _) ih
  | member e access field ih => exact h.imp (hpq _) ih
  | binary op e f ihe ihf => exact h.imp (hpq _) (.imp ihe ihf)
  | unary op e ih => exact h.imp (hpq _) ih
  | conditional c e f ihc ihe ihf => exact h.imp (hpq _) (.imp ihc (.imp ihe ihf))

end WatchExpr.Expr
