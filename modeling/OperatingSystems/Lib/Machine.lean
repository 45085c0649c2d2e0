import Mathlib.Logic.Function.Basic
import Mathlib.Logic.Relation

/-!
# Machines: guarded steps, runs and invariants

A `Machine` is a state space with a partial step function: `step s a` is
`some s'` when the action `a` can be taken in `s`, and `none` otherwise.

Runs are qualified by a condition `ok` on the state before a step and the
action taken there: `ReachableBy ok` are the states reached by runs all of
whose steps meet it, and `Reachable` is the case of no condition.

* `ReachableBy.induct` — the invariant rule.
* `Path.induct` — the same for a stretch of a run.
* `reachable_of_run`, `reachableBy_of_runBy`, `step_of_run`, `path_of_run` —
  replaying a list of actions exhibits a reachable state.
* `ghost` — a history variable: what a run has done so far, for statements that
  cannot be read off the state.
* `Walks` — straight-line code checked against a discipline: every operation
  finds its precondition, and the discipline's state at the end is known.
* `Eq.update_apply`, `Eq.update_congr`, `Eq.update_forall` — the components of a state of
  which one was changed.
-/

section Update

variable {ι α : Type} [DecidableEq ι] {f g : ι → α} {i : ι} {a : α}

/-- A component of a state of which component `i` was changed. -/
theorem Eq.update_apply (h : f = Function.update g i a) (j : ι) :
    f j = if j = i then a else g j := by
  rw [h, Function.update_apply]

/-- What is so of the new component and was so of the others. -/
theorem Eq.update_forall (h : f = Function.update g i a) {P : ι → α → Prop} (hi : P i a)
    (hne : ∀ j ≠ i, P j (g j)) (j : ι) : P j (f j) := by
  subst h
  exact (Function.forall_update_iff g P).2 ⟨hi, hne⟩ j

/-- What has not changed of the new component has not changed of any. -/
theorem Eq.update_congr {β : Type} (h : f = Function.update g i a) (φ : α → β)
    (ha : φ a = φ (g i)) (j : ι) : φ (f j) = φ (g j) :=
  h.update_forall (P := fun j x => φ x = φ (g j)) ha (fun _ _ => rfl) j

end Update

/-- A transition system with a guarded, executable step function. -/
structure Machine (σ α : Type) where
  /-- The states a run may start in. -/
  init : σ → Prop
  /-- The state after an action, if the action is enabled. -/
  step : σ → α → Option σ

namespace Machine

variable {σ α : Type} (M : Machine σ α)

/-- One step whose action is allowed in the state it is taken in. -/
def Move (ok : σ → α → Prop) (s s' : σ) : Prop := ∃ a, ok s a ∧ M.step s a = some s'

/-- A run of allowed steps from `s` to `s'`. -/
def Path (ok : σ → α → Prop) : σ → σ → Prop := Relation.ReflTransGen (M.Move ok)

/-- The states reached from an initial state by runs of allowed steps. -/
def ReachableBy (ok : σ → α → Prop) (s : σ) : Prop := ∃ s₀, M.init s₀ ∧ M.Path ok s₀ s

/-- The states reached by any run. -/
def Reachable : σ → Prop := M.ReachableBy fun _ _ => True

variable {M} {ok : σ → α → Prop}

theorem ReachableBy.init {s : σ} (h : M.init s) : M.ReachableBy ok s :=
  ⟨s, h, Relation.ReflTransGen.refl⟩

theorem ReachableBy.step {s s' : σ} {a : α} (h : M.ReachableBy ok s) (ha : ok s a)
    (hs : M.step s a = some s') : M.ReachableBy ok s' := by
  obtain ⟨s₀, h₀, hp⟩ := h
  exact ⟨s₀, h₀, hp.tail ⟨a, ha, hs⟩⟩

theorem Reachable.step {s s' : σ} {a : α} (h : M.Reachable s) (hs : M.step s a = some s') :
    M.Reachable s' :=
  ReachableBy.step h trivial hs

/-- **The invariant rule.**  What holds initially and is kept by every allowed
step holds in every state reached by allowed steps.  The step may use that the
state it starts from is itself reached that way. -/
theorem ReachableBy.induct {I : σ → Prop} (h0 : ∀ s, M.init s → I s)
    (hstep : ∀ s a s', M.ReachableBy ok s → I s → ok s a → M.step s a = some s' → I s')
    {s : σ} (h : M.ReachableBy ok s) : I s := by
  obtain ⟨s₀, hs₀, hp⟩ := h
  induction hp with
  | refl => exact h0 s₀ hs₀
  | tail hp hm ih =>
    obtain ⟨a, ha, hs⟩ := hm
    exact hstep _ a _ ⟨s₀, hs₀, hp⟩ ih ha hs

theorem ReachableBy.mono {ok' : σ → α → Prop} (hok : ∀ s a, ok s a → ok' s a) {s : σ}
    (h : M.ReachableBy ok s) : M.ReachableBy ok' s := by
  obtain ⟨s₀, hs₀, hp⟩ := h
  exact ⟨s₀, hs₀, Relation.ReflTransGen.mono (fun _ _ ⟨a, ha, hs⟩ => ⟨a, hok _ a ha, hs⟩) _ _ hp⟩

theorem ReachableBy.reachable {s : σ} (h : M.ReachableBy ok s) : M.Reachable s :=
  h.mono fun _ _ _ => trivial

/-- **The invariant rule for a stretch of a run.**  What holds at its start and is
kept by every allowed step holds at its end. -/
theorem Path.induct {I : σ → Prop}
    (hstep : ∀ s a s', M.Reachable s → I s → ok s a → M.step s a = some s' → I s')
    {s s' : σ} (hr : M.Reachable s) (h0 : I s) (h : M.Path ok s s') : I s' := by
  have key : M.Reachable s' ∧ I s' := by
    induction h with
    | refl => exact ⟨hr, h0⟩
    | tail _ hm ih =>
      obtain ⟨a, ha, hs⟩ := hm
      exact ⟨ih.1.step hs, hstep _ a _ ih.1 ih.2 ha hs⟩
  exact key.2

/-! ## Replaying a run -/

variable (M)

/-- Replay a list of actions, each of which has to be allowed in the state it is
taken in; `none` if one of them is not, or is not enabled. -/
def runBy (ok : σ → α → Prop) [∀ s a, Decidable (ok s a)] : σ → List α → Option σ
  | s, [] => some s
  | s, a :: as =>
    if ok s a then
      match M.step s a with
      | none => none
      | some s' => runBy ok s' as
    else none

/-- Replay a list of actions. -/
def run : σ → List α → Option σ := M.runBy fun _ _ => True

variable {M}

theorem path_of_runBy [∀ s a, Decidable (ok s a)] :
    ∀ (as : List α) {s s' : σ}, M.runBy ok s as = some s' → M.Path ok s s' := by
  intro as
  induction as with
  | nil =>
    intro s s' h
    cases h
    exact .refl
  | cons a as ih =>
    intro s s' h
    rw [runBy] at h
    split at h
    · rename_i ha
      split at h
      · exact absurd h (by simp)
      · rename_i s₁ hs
        exact .head ⟨a, ha, hs⟩ (ih h)
    · exact absurd h (by simp)

/-- A run that is replayed with success, and ends where `P` holds, shows that
`P` can be reached by steps that are allowed. -/
theorem reachableBy_of_runBy (ok : σ → α → Prop) [∀ s a, Decidable (ok s a)] {P : σ → Prop}
    [DecidablePred P] (s₀ : σ) (as : List α) (h0 : M.init s₀)
    (h : (M.runBy ok s₀ as).any (fun s => P s) = true) : ∃ s, M.ReachableBy ok s ∧ P s := by
  obtain ⟨s, hs, hP⟩ := (Option.any_eq_true _ _).1 h
  exact ⟨s, ⟨s₀, h0, path_of_runBy as hs⟩, of_decide_eq_true hP⟩

theorem reachable_of_run {P : σ → Prop} [DecidablePred P] (s₀ : σ) (as : List α)
    (h0 : M.init s₀) (h : (M.run s₀ as).any (fun s => P s) = true) : ∃ s, M.Reachable s ∧ P s :=
  reachableBy_of_runBy _ s₀ as h0 h

/-- The same for what holds between the ends of one more step. -/
theorem step_of_run {Q : σ → σ → Prop} [∀ s s', Decidable (Q s s')] (s₀ : σ) (as : List α)
    (a : α) (h0 : M.init s₀)
    (h : (M.run s₀ as).any (fun s => (M.step s a).any fun s' => Q s s') = true) :
    ∃ s s', M.Reachable s ∧ M.step s a = some s' ∧ Q s s' := by
  obtain ⟨s, hs, hQ⟩ := reachable_of_run (P := fun s => (M.step s a).any (fun s' => Q s s') = true)
    s₀ as h0 (by simpa using h)
  obtain ⟨s', hs', hQ'⟩ := (Option.any_eq_true _ _).1 hQ
  exact ⟨s, s', hs, hs', of_decide_eq_true hQ'⟩

/-- The same for what holds between the ends of a stretch of a run. -/
theorem path_of_run (ok : σ → α → Prop) [∀ s a, Decidable (ok s a)] {Q : σ → σ → Prop}
    [∀ s s', Decidable (Q s s')] (s₀ : σ) (as bs : List α) (h0 : M.init s₀)
    (h : (M.run s₀ as).any (fun s => (M.runBy ok s bs).any fun s' => Q s s') = true) :
    ∃ s s', M.Reachable s ∧ M.Path ok s s' ∧ Q s s' := by
  obtain ⟨s, hs, hQ⟩ := reachable_of_run
    (P := fun s => (M.runBy ok s bs).any (fun s' => Q s s') = true) s₀ as h0 (by simpa using h)
  obtain ⟨s', hs', hQ'⟩ := (Option.any_eq_true _ _).1 hQ
  exact ⟨s, s', hs, path_of_runBy bs hs', of_decide_eq_true hQ'⟩

/-! ## History variables -/

section Ghost

variable {γ : Type} (M) (g₀ : γ) (upd : σ → α → γ → γ)

/-- A machine that also records something about its own past, in a variable that
no step reads. -/
def ghost : Machine (σ × γ) α where
  init := fun x => M.init x.1 ∧ x.2 = g₀
  step := fun x a => (M.step x.1 a).map fun s' => (s', upd x.1 a x.2)

variable {M g₀ upd}

theorem ghost_step {x y : σ × γ} {a : α} (h : (M.ghost g₀ upd).step x a = some y) :
    M.step x.1 a = some y.1 ∧ y.2 = upd x.1 a x.2 := by
  obtain ⟨s', hs, rfl⟩ := Option.map_eq_some_iff.1 h
  exact ⟨hs, rfl⟩

/-- Forgetting the history variable gives a run of the machine. -/
theorem ghost_reachable {x : σ × γ} (h : (M.ghost g₀ upd).Reachable x) : M.Reachable x.1 := by
  refine ReachableBy.induct (I := fun x => M.Reachable x.1) ?_ ?_ h
  · intro x hx
    exact .init hx.1
  · intro x a y _ hx _ hs
    exact hx.step (ghost_step hs).1

/-- Every run of the machine is one with the history variable. -/
theorem exists_ghost (g₀ : γ) (upd : σ → α → γ → γ) {s : σ} (h : M.ReachableBy ok s) :
    ∃ g, (M.ghost g₀ upd).ReachableBy (fun x a => ok x.1 a) (s, g) := by
  refine ReachableBy.induct
    (I := fun s => ∃ g, (M.ghost g₀ upd).ReachableBy (fun x a => ok x.1 a) (s, g)) ?_ ?_ h
  · intro s hs
    exact ⟨g₀, .init ⟨hs, rfl⟩⟩
  · rintro s a s' - ⟨g, hg⟩ ha hs
    refine ⟨upd s a g, hg.step ha ?_⟩
    simp [ghost, hs]

end Ghost

end Machine

/-! ## Straight-line code under a discipline -/

/-- A discipline on operations: what an operation needs of the discipline's
state, and the state it leaves. -/
structure Discipline (ο τ : Type) where
  /-- The operation may be executed in this state. -/
  pre : ο → τ → Prop
  /-- The state the operation leaves. -/
  post : ο → τ → τ

namespace Discipline

variable {ο τ : Type} (D : Discipline ο τ)

/-- `Walks t code t'`: executed from `t`, every operation of `code` finds its
precondition, and the last one leaves `t'`. -/
def Walks : τ → List ο → τ → Prop
  | t, [], t' => t = t'
  | t, o :: code, t' => D.pre o t ∧ Walks (D.post o t) code t'

@[simp] theorem walks_nil (t t' : τ) : D.Walks t [] t' ↔ t = t' := Iff.rfl

@[simp] theorem walks_cons (t t' : τ) (o : ο) (code : List ο) :
    D.Walks t (o :: code) t' ↔ D.pre o t ∧ D.Walks (D.post o t) code t' := Iff.rfl

theorem walks_append : ∀ (a b : List ο) (t t' : τ),
    D.Walks t (a ++ b) t' ↔ ∃ u, D.Walks t a u ∧ D.Walks u b t' := by
  intro a
  induction a with
  | nil => intro b t t'; simp
  | cons o a ih =>
    intro b t t'
    rw [List.cons_append, walks_cons, ih]
    constructor
    · rintro ⟨hp, u, ha, hb⟩
      exact ⟨u, ⟨hp, ha⟩, hb⟩
    · rintro ⟨u, ⟨hp, ha⟩, hb⟩
      exact ⟨hp, u, ha, hb⟩

variable {D}

theorem Walks.append {a b : List ο} {t u t' : τ} (ha : D.Walks t a u) (hb : D.Walks u b t') :
    D.Walks t (a ++ b) t' :=
  (D.walks_append a b t t').2 ⟨u, ha, hb⟩

end Discipline
