import Mathlib.Tactic.Common

/-!
# Programs made of atomic operations

A `Script Op Ret α` is a program that calls operations and returns a value of `α`.  An
operation `o : Op` answers with a value of `Ret o`, on which the rest of the program may
depend.  Programs are written with `do`.

What an operation does is given apart from the programs, so that one program has several
readings.  On its own it is run from a state by `run`.  Among others, in any
interleaving, it is judged by what it owns: a `Protocol` says what an operation needs of
the caller's resources and what it leaves of them, and `Follows` that a program keeps to
it.

* `follows_bind`, `follows_call`, `Follows.mono`: rules for one among others.
* `Follows.exists_run`: from the second reading to the first.
-/

/-- A program over the operations `Op`. -/
inductive Script (Op : Type) (Ret : Op → Type) (α : Type) : Type
  | pure (a : α)
  | op (o : Op) (k : Ret o → Script Op Ret α)

/-- How an operation, or a program, ends: with a value and a state, asleep until someone
else acts, or in a panic. -/
inductive Outcome (σ α : Type)
  | ok (a : α) (s : σ)
  | block
  | panic (why : String)

/-- It has returned, with a value and a state that pass the test. -/
def Outcome.any {σ α : Type} (P : α → σ → Bool) : Outcome σ α → Bool
  | .ok a s => P a s
  | _ => false

theorem Outcome.exists_of_any {σ α : Type} {P : α → σ → Bool} {x : Outcome σ α}
    (h : x.any P = true) : ∃ a s, x = .ok a s ∧ P a s = true := by
  cases x with
  | ok a s => exact ⟨a, s, rfl, h⟩
  | block | panic => cases h

namespace Script

variable {Op : Type} {Ret : Op → Type} {α β σ τ : Type} {x : Script Op Ret α}

/-- One program after the other. -/
protected def bind : Script Op Ret α → (α → Script Op Ret β) → Script Op Ret β
  | .pure a, f => f a
  | .op o k, f => .op o fun r => (k r).bind f

instance : Monad (Script Op Ret) where
  pure := .pure
  bind := .bind

/-- Call an operation. -/
def call (o : Op) : Script Op Ret (Ret o) := .op o .pure

/-! ## A program on its own -/

section Run

variable (exec : σ → (o : Op) → Outcome σ (Ret o))

/-- Run a program. -/
def run : Script Op Ret α → σ → Outcome σ α
  | .pure a, s => .ok a s
  | .op o k, s =>
    match exec s o with
    | .ok r s' => (k r).run s'
    | .block => .block
    | .panic why => .panic why

variable (F : String → Prop)

variable {exec F} {Q : α → σ → Prop} {R : β → σ → Prop} {s s' : σ}

@[simp] theorem run_bind (x : Script Op Ret α) (f : α → Script Op Ret β) : (x >>= f).run exec s =
      match x.run exec s with
      | .ok a s' => (f a).run exec s'
      | .block => .block
      | .panic why => .panic why := by
  induction x generalizing s with
  | pure a => rfl
  | op o k ih =>
    show (Script.op o fun r => (k r).bind f).run exec s = _
    simp only [run]
    cases exec s o with
    | ok r s' => exact ih r
    | block => rfl
    | panic why => rfl

@[simp] theorem run_call (o : Op) : (call o : Script Op Ret (Ret o)).run exec s = exec s o := by
  simp only [call, run]
  cases exec s o <;> rfl

/-- A program that has returned did so in parts. -/
theorem run_bind_ok {f : α → Script Op Ret β} {b : β} (h : (x >>= f).run exec s = .ok b s') :
    ∃ a s₁, x.run exec s = .ok a s₁ ∧ (f a).run exec s₁ = .ok b s' := by
  rw [run_bind] at h
  cases hx : x.run exec s with
  | ok a s₁ =>
    rw [hx] at h
    exact ⟨a, s₁, rfl, h⟩
  | block | panic =>
    rw [hx] at h
    cases h

end Run

/-! ## A program among others -/

/-- What an operation needs of the resources of its caller, and what it leaves of them
when it answers. -/
structure Protocol (Op : Type) (Ret : Op → Type) (τ : Type) where
  pre : Op → τ → Prop
  post : (o : Op) → τ → Ret o → τ → Prop

section Follows

variable (P : Protocol Op Ret τ)

/-- From the resources `t` the program calls operations only when it may, whatever they
answer, and returns with a value and resources that satisfy `Q`. -/
def Follows : Script Op Ret α → (α → τ → Prop) → τ → Prop
  | .pure a, Q, t => Q a t
  | .op o k, Q, t => P.pre o t ∧ ∀ r t', P.post o t r t' → (k r).Follows Q t'

/-- After some calls, answered as the protocol says, this is left of the program, with these
resources. -/
inductive Moves : Nat → Script Op Ret α → τ → Script Op Ret α → τ → Prop
  | refl (x : Script Op Ret α) (t : τ) : Moves 0 x t x t
  | call {n : Nat} {o : Op} {k : Ret o → Script Op Ret α} {x : Script Op Ret α} {r : Ret o}
      {t t' t'' : τ} (h : P.post o t r t') (hk : Moves n (k r) t' x t'') : Moves (n + 1) (.op o k) t x t''

variable {P} {Q : α → τ → Prop} {R : β → τ → Prop} {t : τ}

@[simp] theorem follows_bind (x : Script Op Ret α) (f : α → Script Op Ret β) :
    (x >>= f).Follows P R t ↔ x.Follows P (fun a => (f a).Follows P R) t := by
  induction x generalizing t with
  | pure a => rfl
  | op o k ih =>
    show (Script.op o fun r => (k r).bind f).Follows P R t ↔ _
    exact and_congr_right fun _ => forall_congr' fun r => forall_congr' fun t' =>
      imp_congr_right fun _ => ih r

theorem Follows.bind {f : α → Script Op Ret β}
    (h : x.Follows P (fun a => (f a).Follows P R) t) : (x >>= f).Follows P R t :=
  (follows_bind x f).2 h

theorem Follows.mono {Q' : α → τ → Prop} (h : x.Follows P Q t)
    (hQ : ∀ a t', Q a t' → Q' a t') : x.Follows P Q' t := by
  induction x generalizing t with
  | pure a => exact hQ a t h
  | op o k ih => exact ⟨h.1, fun r t' hp => ih r (h.2 r t' hp)⟩

/-- A program that keeps to a protocol keeps to one that allows more and promises more. -/
theorem Follows.weaken {P' : Protocol Op Ret τ} (hpre : ∀ o t, P.pre o t → P'.pre o t)
    (hpost : ∀ o t r t', P.pre o t → P'.post o t r t' → P.post o t r t') (h : x.Follows P Q t) :
    x.Follows P' Q t := by
  induction x generalizing t with
  | pure a => exact h
  | op o k ih => exact ⟨hpre o t h.1, fun r t' hp => ih r (h.2 r t' (hpost o t r t' h.1 hp))⟩

/-- A program that keeps to a protocol returns when it is run alone, if the resources of its
caller are there (`R`) and an operation that may be called succeeds. -/
theorem Follows.exists_run {exec : σ → (o : Op) → Outcome σ (Ret o)} {R : τ → σ → Prop}
    (hsound : ∀ o t s, P.pre o t → R t s →
      ∃ r s' t', exec s o = .ok r s' ∧ P.post o t r t' ∧ R t' s')
    {s : σ} (h : x.Follows P Q t) (hR : R t s) :
    ∃ a s' t', x.run exec s = .ok a s' ∧ Q a t' ∧ R t' s' := by
  induction x generalizing t s with
  | pure a => exact ⟨a, s, t, rfl, h, hR⟩
  | op o k ih =>
    obtain ⟨r, s', t', he, hpost, hR'⟩ := hsound o t s h.1 hR
    obtain ⟨a, s'', t'', hrun, hQ, hR''⟩ := ih r (h.2 r t' hpost) hR'
    refine ⟨a, s'', t'', ?_, hQ, hR''⟩
    simp only [run, he]
    exact hrun

/-- When a program that keeps to a protocol has returned, the resources of its caller are
what the protocol says, if they are after every operation. -/
theorem Follows.of_run {exec : σ → (o : Op) → Outcome σ (Ret o)} {R : τ → σ → Prop}
    (hsound : ∀ o t s r s', P.pre o t → R t s → exec s o = .ok r s' →
      ∃ t', P.post o t r t' ∧ R t' s')
    {s s' : σ} {a : α} (h : x.Follows P Q t) (hR : R t s)
    (hrun : x.run exec s = .ok a s') : ∃ t', Q a t' ∧ R t' s' := by
  induction x generalizing t s with
  | pure b =>
    cases hrun
    exact ⟨t, h, hR⟩
  | op o k ih =>
    cases he : exec s o with
    | ok r s₁ =>
      simp only [run, he] at hrun
      obtain ⟨t', hpost, hR'⟩ := hsound o t s r s₁ h.1 hR he
      exact ih r (h.2 r t' hpost) hR' hrun
    | block | panic =>
      simp only [run, he] at hrun
      cases hrun

/-- The rule for a loop over a list, with an invariant. -/
theorem follows_forM {γ : Type} {f : γ → Script Op Ret Unit} {I : τ → Prop} {l : List γ}
    (hstep : ∀ x t, I t → (f x).Follows P (fun _ => I) t) (h : I t) :
    (l.forM f).Follows P (fun _ => I) t := by
  induction l generalizing t with
  | nil => exact h
  | cons x l ih => exact .bind (.mono (hstep x t h) fun _ _ ht' => ih ht')

/-- The rule for a loop over the numbers from `i` on. -/
theorem follows_forM_range' {f : Nat → Script Op Ret Unit} {I : Nat → τ → Prop} {i k : Nat}
    (hstep : ∀ j t, i ≤ j → j < i + k → I j t → (f j).Follows P (fun _ => I (j + 1)) t)
    (h : I i t) : ((List.range' i k).forM f).Follows P (fun _ => I (i + k)) t := by
  induction k generalizing i t with
  | zero => exact h
  | succ k ih =>
    show (f i >>= fun _ => (List.range' (i + 1) k).forM f).Follows P _ t
    rw [follows_bind]
    have hrest : ∀ t', I (i + 1) t' →
        ((List.range' (i + 1) k).forM f).Follows P (fun _ => I (i + (k + 1))) t' := by
      intro t' ht'
      rw [show i + (k + 1) = i + 1 + k by omega]
      exact ih (fun j t hj hk => hstep j t (by omega) (by omega)) ht'
    exact .mono (hstep i t (Nat.le_refl i) (by omega) h) fun _ t' => hrest t'

/-- The rule for a loop over the numbers below `n`. -/
theorem follows_forM_range {f : Nat → Script Op Ret Unit} {I : Nat → τ → Prop} {n : Nat}
    (hstep : ∀ j t, j < n → I j t → (f j).Follows P (fun _ => I (j + 1)) t) (h : I 0 t) :
    ((List.range n).forM f).Follows P (fun _ => I n) t := by
  have := follows_forM_range' (k := n) (fun j t _ hj => hstep j t (by omega)) h
  rwa [← List.range_eq_range', Nat.zero_add] at this

end Follows

end Script
