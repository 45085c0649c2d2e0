import OperatingSystems.Lib.Heap

/-!
# Allocations that fail

An allocation may fail though there are free cells: others may have taken them at that
moment.  `force fails k c` is the program `c` in which the allocations that `fails` names
fail, counted from `k` on; it returns the count at the end too.  Every pattern of failures
of `c` is a run of such a program.

* `wp_force_bind`, `wp_force_alloc` — the rules for such programs.
* `wp.force` — **what holds whatever fails, holds with any pattern**.
* `Quiet` — programs that allocate nothing, for which the pattern makes no difference.
* `wp_force_never` — the pattern in which nothing fails.
-/

namespace Cmd

variable {A V ε α β : Type} {c : Cmd A V ε α}

/-- The program in which some allocations fail, and the number of allocations at the end. -/
def force (fails : Nat → Bool) : Nat → Cmd A V ε α → Cmd A V ε (α × Nat)
  | k, .ret a => .ret (a, k)
  | _, .panic msg => .panic msg
  | k, .get p f => .get p fun v => force fails k (f v)
  | k, .update p f c => .update p f (force fails k c)
  | k, .alloc f => if fails k then force fails (k + 1) (f none)
      else .alloc fun r => force fails (k + 1) (f r)
  | k, .free p c => .free p (force fails k c)
  | k, .emit e c => .emit e (force fails k c)

/-- A program that allocates nothing. -/
def Quiet : Cmd A V ε α → Prop
  | .ret _ => True
  | .panic _ => True
  | .get _ f => ∀ v, (f v).Quiet
  | .update _ _ c => c.Quiet
  | .alloc _ => False
  | .free _ c => c.Quiet
  | .emit _ c => c.Quiet

theorem Quiet.bind {f : α → Cmd A V ε β} (hc : c.Quiet)
    (hf : ∀ a, (f a).Quiet) : (c >>= f).Quiet := by
  induction c with
  | ret a => exact hf a
  | panic msg => exact hc
  | get p k ih => exact fun v => ih v (hc v)
  | update p g k ih | free p k ih | emit e k ih => exact ih hc
  | alloc k ih => exact hc.elim

variable [DecidableEq A] {X : Ctx A ε} {F : String → List ε → Prop} {fails : Nat → Bool}
  {k : Nat} {L : Local A V ε}

/-- The rule for one program after another. -/
theorem wp_force_bind {R : β × Nat → Local A V ε → Prop} (c : Cmd A V ε α)
    (f : α → Cmd A V ε β) : wp X F (force fails k (c >>= f)) R L ↔
      wp X F (force fails k c) (fun x L' => wp X F (force fails x.2 (f x.1)) R L') L := by
  change wp X F (force fails k (c.bind f)) R L ↔ _
  induction c generalizing k L with
  | ret a => rfl
  | panic msg => rfl
  | get p g ih | update p g c ih | free p c ih | emit e c ih => simp only [bind, force, wp, ih]
  | alloc g ih =>
    simp only [bind, force]
    split
    · exact ih none
    · simp only [wp, ih]

@[simp] theorem wp_force_pure {Q : α × Nat → Local A V ε → Prop} (a : α) :
    wp X F (force fails k (pure a)) Q L ↔ Q (a, k) L := Iff.rfl

/-- The rule for an allocation, of which `n` are possible in all. -/
theorem wp_force_alloc {Q : Option A × Nat → Local A V ε → Prop} {h : Heap A V} {t : List ε}
    {n : Nat} (fail : fails k = true ∨ n ≤ k → Q (none, k + 1) ⟨h, some (n - k), t⟩)
    (ok : fails k = false → k < n → ∀ p v, X.managed p → h p = none →
      Q (some p, k + 1) ⟨h.put p v, some (n - (k + 1)), t⟩) :
    wp X F (force fails k (.alloc .ret)) Q ⟨h, some (n - k), t⟩ := by
  rw [force]
  split
  · exact fail (.inl ‹_›)
  · refine ⟨fun hc => fail (.inr ?_), fun hc p v hm hp => ?_⟩
    · simp only [Local.MayFail, reduceCtorEq, Option.some.injEq, false_or] at hc
      omega
    · have hlt : k < n := by
        simp only [ne_eq, Option.some.injEq] at hc
        omega
      rw [Option.map_some, Nat.sub_sub]
      exact ok (by simpa using ‹¬ fails k = true›) hlt p v hm hp

/-- **What holds whatever fails, holds with any pattern of failures**, and for any number
of free cells. -/
theorem wp.force {Q : α → Local A V ε → Prop} {h : Heap A V} {t : List ε}
    (hw : wp X F c Q ⟨h, none, t⟩) (n : Option Nat) :
    wp X F (force fails k c) (fun x L' => Q x.1 { L' with credit := none }) ⟨h, n, t⟩ := by
  induction c generalizing k h n t with
  | ret a | panic msg => exact hw
  | get p f ih =>
    exact hw.imp (fun ⟨v, hv, hk⟩ => ⟨v, hv, ih v hk n⟩)
      (fun ⟨hp, hk⟩ => ⟨hp, fun v => ih v (hk v) n⟩)
  | update p f c ih =>
    exact hw.imp (fun ⟨v, hv, hk⟩ => ⟨v, hv, ih hk n⟩) (fun ⟨hp, hk⟩ => ⟨hp, ih hk n⟩)
  | alloc f ih =>
    rw [Cmd.force]
    split
    · exact ih none (hw.1 (.inl rfl)) n
    · exact ⟨fun _ => ih none (hw.1 (.inl rfl)) n, fun _ p v hm hp =>
        ih (some p) (hw.2 (by simp) p v hm hp) _⟩
  | free p c ih => exact ⟨hw.1, hw.2.1, ih hw.2.2 _⟩
  | emit e c ih => exact hw.imp id fun hk => ih hk n

/-- The pattern makes no difference to a program that allocates nothing. -/
theorem wp_force_quiet (hc : c.Quiet) {Q : α × Nat → Local A V ε → Prop} :
    wp X F (force fails k c) Q L ↔ wp X F c (fun a L' => Q (a, k) L') L := by
  induction c generalizing L with
  | ret a => rfl
  | panic msg => rfl
  | get p f ih => simp only [force, wp, ih _ (hc _)]
  | update p f c ih | free p c ih | emit e c ih => simp only [force, wp, ih hc]
  | alloc f ih => exact hc.elim

/-- If nothing is made to fail, the program is as it was. -/
theorem wp_force_never {Q : α → Local A V ε → Prop} :
    wp X F (force (fun _ => false) k c) (fun x L' => Q x.1 L') L ↔ wp X F c Q L := by
  induction c generalizing k L with
  | ret a => rfl
  | panic msg => rfl
  | get p f ih | update p f c ih | free p c ih | emit e c ih => simp only [force, wp, ih]
  | alloc f ih => simp only [force, Bool.false_eq_true, if_false, wp, ih]

end Cmd
