import OperatingSystems.Proc.Invariant
import OperatingSystems.Proc.Scheduler

/-!
# Nobody is passed over twice

The loop of `scheduler` goes on with the slot after the process that it switched
to, so on one processor the slots take turns.  Whatever the process does to the
table meanwhile, the position of the scan is kept in the scheduler's context.

* `scanDiscipline`: the position of the scan, read off the code.
* `scanning`: in every reachable state the code of the scheduler has a position.
* `Ahead`: the scan comes to `q` before it comes to `p` again.
* `bounded_bypass`: between two times that a processor switches to `p` it switches
  to every `q` that stayed runnable.
-/

namespace Xv6

open ProcState Kernel Option

/-- The position of the scan: `schedScan` needs to be at its slot and ends the pass,
and `schedLoop` starts one.  No other operation moves it. -/
def scanDiscipline : Discipline Op (Option Nat) where
  pre := fun op t =>
    match op with
    | .schedScan i => t = some i
    | .schedLoop => t = none
    | _ => True
  post := fun op t =>
    match op with
    | .schedScan _ => none
    | _ => t

/-- The operation belongs to the loop of `scheduler`. -/
def Op.isScan : Op → Bool
  | .schedScan _ | .schedLoop => true
  | _ => false

theorem scan_of_not {op : Op} (h : op.isScan = false) (t : Option Nat) :
    scanDiscipline.pre op t ∧ scanDiscipline.post op t = t := by
  cases op <;> first | exact ⟨trivial, rfl⟩ | cases h

/-- Other code leaves the scan where it is. -/
theorem scan_walks : ∀ {l : List Op}, (∀ op ∈ l, op.isScan = false) → ∀ t,
    scanDiscipline.Walks t l t := by
  intro l
  induction l with
  | nil => intro _ t; rfl
  | cons op l ih =>
    intro h t
    obtain ⟨hpre, hpost⟩ := scan_of_not (h op List.mem_cons_self) t
    refine ⟨hpre, ?_⟩
    rw [hpost]
    exact ih (fun o ho => h o (List.mem_cons_of_mem _ ho)) t

namespace Kernel

variable {s s' : Kernel} {c : Cpu} {ch : Choice} {op : Op} {k : List Op}

theorem Calls.isScan {l : List Op} (h : Calls op l) : (∀ o ∈ l, o.isScan = false) ∨
      (op = .schedLoop ∧ l = [.acquire .ptable, .schedScan 0, .release .ptable, .schedLoop]) := by
  cases h with
  | schedLoop => exact .inr ⟨rfl, rfl⟩
  | _ => exact .inl (by simp [sleep, wakeup, yield, exit, Op.isScan])

theorem Entry.isScan {code : List Op} (h : Entry s c code) : ∀ o ∈ code, o.isScan = false := by
  cases h with
  | syscall call _ _ =>
    cases call <;>
      simp [trapSyscall, Xv6.syscall, fork, exit, wait, waitStat, kill, sysSleep, sysUptime,
        Op.isScan]
  | timer _ =>
    unfold trapTimer
    split_ifs <;> simp [timerBranch, updateStat, wakeup, Op.isScan]
  | intr lk chan _ => simp [trapIntr, wakeup, Op.isScan]
  | fault _ => simp [trapFault, Op.isScan]

/-- The code of the scheduler of processor `c`. -/
def schedulerCode (s : Kernel) (c : Cpu) : List Op :=
  if (s.cpu c).proc.isSome then (s.cpu c).scheduler else (s.cpu c).code

/-- The scan of processor `c` stands at `t`: at a slot, or between two passes. -/
def ScanAt (s : Kernel) (c : Cpu) (t : Option Nat) : Prop :=
  scanDiscipline.Walks t (s.schedulerCode c) none

/-- The scheduler of processor `c` has panicked. -/
def Stuck (s : Kernel) (c : Cpu) : Prop :=
  (s.cpu c).proc = none ∧ ∃ msg, (s.cpu c).code = [.panic msg]

/-- How an operation moves the scan. -/
inductive Moves (s s' : Kernel) (c : Cpu) : Op → Option Nat → Option Nat → Prop
  /-- Not at all. -/
  | stay {op t} : Moves s s' c op t t
  /-- A pass begins. -/
  | begin : Moves s s' c .schedLoop none (some 0)
  /-- The pass is over: no runnable slot is left. -/
  | finish {i} (hi : s.proc.pick i = none) : Moves s s' c (.schedScan i) (some i) none
  /-- The scheduler switches to a process. -/
  | switch {i x} (hi : s.proc.pick i = some x) (hp : (s'.cpu c).proc = some x) :
      Moves s s' c (.schedScan i) (some i) (some (x.val + 1))

/-- **An operation of processor `c`** moves its scan in one of these ways, or its
scheduler panics. -/
theorem Inv.scan_exec (hi : s.Inv) (hk : (s.cpu c).code = op :: k)
    (h : s.exec c ch op k = some s') {t : Option Nat} (ht : s.ScanAt c t) :
    s'.Stuck c ∨ ∃ t', s'.ScanAt c t' ∧ Moves s s' c op t t' := by
  obtain ⟨emb, -, hself⟩ := hi.exec_self hk h
  rcases hself with ⟨hproc, hsched, -⟩ | ⟨rfl, hproc, -⟩ | ⟨i, x, rfl, hpick, hproc, -, hsched⟩
  · cases hcur : (s.cpu c).proc with
    | some me =>
      -- a process runs, and leaves the scheduler's context alone
      refine .inr ⟨t, ?_, .stay⟩
      unfold ScanAt schedulerCode at ht ⊢
      rw [hcur] at hproc ht
      rw [hproc, hsched]
      exact ht
    | none =>
      rw [hcur] at hproc
      unfold ScanAt schedulerCode at ht
      rw [hcur, hk] at ht
      have code : ∀ {t'}, scanDiscipline.Walks t' (s'.cpu c).code none → s'.ScanAt c t' := by
        intro t' hw
        unfold ScanAt schedulerCode
        rw [hproc]
        exact hw
      rcases exec_code h with hc | ⟨msg, hc⟩ | ⟨l, hl, hc⟩ | ⟨rfl, -, -⟩ | ⟨i, x, rfl, hpick, -⟩
      · refine .inr ⟨_, code (by rw [hc]; exact ht.2), ?_⟩
        cases op with
        | schedScan i =>
          obtain rfl : t = some i := ht.1
          refine .finish ?_
          cases hpick : s.proc.pick i with
          | none => rfl
          | some x =>
            simp only [Kernel.exec, hpick, some.injEq] at h
            subst h
            simp [dispatch] at hproc
        | _ => exact .stay
      · exact .inl ⟨hproc, msg, hc⟩
      · rcases hl.isScan with hno | ⟨rfl, rfl⟩
        · refine .inr ⟨t, code ?_, .stay⟩
          rw [hc]
          refine (scan_walks hno t).append ?_
          have hop : op.isScan = false := by
            cases op with
            | schedLoop => cases hl; simp [Op.isScan] at hno
            | schedScan i => cases hl
            | _ => rfl
          rw [← (scan_of_not hop t).2]
          exact ht.2
        · obtain rfl : t = none := ht.1
          refine .inr ⟨some 0, code ?_, .begin⟩
          rw [hc]
          exact ⟨trivial, rfl, trivial, rfl, ht.2⟩
      · simp [Kernel.exec, hcur] at h
      · simp only [Kernel.exec, hpick, some.injEq] at h
        subst h
        simp [dispatch] at hproc
  · -- `sched` goes back to the scheduler's context
    cases hcur : (s.cpu c).proc with
    | none => simp [Kernel.exec, hcur] at h
    | some me =>
      refine .inr ⟨t, ?_, .stay⟩
      unfold ScanAt schedulerCode at ht ⊢
      rw [hcur] at ht
      rw [hproc, sched_code h hproc]
      exact ht
  · have hcur : (s.cpu c).proc = none := by
      cases hcur : (s.cpu c).proc with
      | none => rfl
      | some me => exact absurd hk (hi.not_schedScan hcur)
    unfold ScanAt schedulerCode at ht
    rw [hcur, hk] at ht
    obtain rfl : t = some i := ht.1
    refine .inr ⟨_, ?_, .switch hpick hproc⟩
    unfold ScanAt schedulerCode
    rw [hproc, hsched]
    exact ⟨rfl, ht.2⟩

theorem scan_entry {code : List Op} (he : Entry s c code) {t : Option Nat} (ht : s.ScanAt c t) :
    (s.goto c (code ++ (s.cpu c).code)).ScanAt c t := by
  unfold ScanAt schedulerCode at ht ⊢
  rw [proc_goto]
  cases hcur : (s.cpu c).proc with
  | some me =>
    rw [hcur] at ht
    simpa using ht
  | none =>
    rw [hcur] at ht
    simpa using (scan_walks he.isScan t).append ht

theorem Stuck.not_exec (hs : s.Stuck c) (hk : (s.cpu c).code = op :: k) :
    s.exec c ch op k = none := by
  obtain ⟨hproc, msg, hcode⟩ := hs
  rw [hk] at hcode
  cases hcode
  simp [exec, effect, hproc]

theorem Stuck.not_entry (hs : s.Stuck c) {code : List Op} : ¬ Entry s c code := by
  obtain ⟨hproc, msg, hcode⟩ := hs
  intro he
  cases he with
  | syscall call hme _ => rw [hproc] at hme; cases hme
  | timer hi | intr lk chan hi => simp [interruptible, hcode] at hi
  | fault hu => simp [inUser, hproc] at hu

theorem schedulerCode_ne (h : s.exec c ch op k = some s') {c' : Cpu} (hc : c' ≠ c) :
    s'.schedulerCode c' = s.schedulerCode c' := by
  unfold schedulerCode
  rw [exec_cpu_ne h hc]

/-- The processor that takes a step. -/
def Event.cpu : Event → Cpu
  | .run c _ | .syscall c _ | .timer c | .intr c _ _ | .fault c => c

end Kernel

/-- **The scan has a position** in every reachable state, unless the scheduler has
panicked. -/
theorem scanning {s : Kernel} (h : kernel.Reachable s) (c : Cpu) :
    s.Stuck c ∨ ∃ t, s.ScanAt c t := by
  refine kernel_induct (I := fun s => s.Stuck c ∨ ∃ t, s.ScanAt c t) ?_ ?_ ?_ h
  · exact .inr ⟨none, rfl, rfl⟩
  · intro s s' c' ch op k hi hold hk h
    by_cases hc : c = c'
    · subst hc
      rcases hold with hstuck | ⟨t, ht⟩
      · rw [hstuck.not_exec hk] at h
        cases h
      · exact (hi.scan_exec hk h ht).imp id fun ⟨t', ht', _⟩ => ⟨t', ht'⟩
    · unfold Kernel.Stuck Kernel.ScanAt at hold ⊢
      rw [schedulerCode_ne h hc, exec_cpu_ne h hc]
      exact hold
  · intro s c' code hi hold he
    by_cases hc : c = c'
    · subst hc
      rcases hold with hstuck | ⟨t, ht⟩
      · exact absurd he hstuck.not_entry
      · exact .inr ⟨t, scan_entry he ht⟩
    · simpa [Kernel.Stuck, Kernel.ScanAt, schedulerCode, hc] using hold

/-! ## Taking turns -/

namespace Kernel

/-- From the position `t` the scan comes to `q` before it comes to `p`. -/
def Ahead (p q : Slot) (t : Option Nat) : Prop :=
  (∃ i, t = some i ∧ p.val < i ∧ (p < q → i ≤ q.val)) ∨
    (q < p ∧ (t = none ∨ ∃ i, t = some i ∧ i ≤ q.val))

variable {s s' : Kernel} {c : Cpu} {op : Op} {p q : Slot} {t t' : Option Nat}

/-- The scan does not pass over a runnable slot. -/
theorem Moves.ahead (hm : Moves s s' c op t t') (hne : q ≠ p)
    (hq : (s.proc q).state = RUNNABLE) (ha : Ahead p q t) :
    Ahead p q t' ∨ ∃ i, op = .schedScan i ∧ (s'.cpu c).proc = some q := by
  cases hm with
  | stay => exact .inl ha
  | begin =>
    rcases ha with ⟨i, hi, -⟩ | ⟨hqp, -⟩
    · cases hi
    · exact .inl (.inr ⟨hqp, .inr ⟨0, rfl, Nat.zero_le _⟩⟩)
  | @finish i hpick =>
    -- every slot from `i` on has been looked at
    have hbefore : q.val < i := by
      by_contra hi
      rw [Table.pick_eq_find] at hpick
      have := List.find?_eq_none.1 hpick q (Table.mem_drop_slots.2 (by omega))
      simp [hq] at this
    rcases ha with ⟨j, hj, -, hpq⟩ | ⟨hqp, -⟩
    · cases hj
      rcases lt_or_gt_of_ne hne with hlt | hgt
      · exact .inl (.inr ⟨hlt, .inl rfl⟩)
      · exact absurd (hpq hgt) (by omega)
    · exact .inl (.inr ⟨hqp, .inl rfl⟩)
  | @switch i x hpick hproc =>
    obtain ⟨hix, -, hnear⟩ := Table.pick_spec hpick
    by_cases hxq : x = q
    · subst hxq
      exact .inr ⟨i, rfl, hproc⟩
    have hless : i ≤ q.val → x.val + 1 ≤ q.val := by
      intro hiq
      have hnlt : ¬ q < x := fun hlt => hnear q hiq hlt hq
      have hval : x.val ≠ q.val := fun h => hxq (Fin.ext h)
      have : ¬ q.val < x.val := hnlt
      omega
    rcases ha with ⟨j, hj, hpj, hpq⟩ | ⟨hqp, hj | ⟨j, hj, hjq⟩⟩
    · cases hj
      exact .inl (.inl ⟨_, rfl, by omega, fun h => hless (hpq h)⟩)
    · cases hj
    · cases hj
      exact .inl (.inr ⟨hqp, .inr ⟨_, rfl, hless hjq⟩⟩)

/-- Processor `c` has switched to `q`. -/
def turns (c : Cpu) (q : Slot) (s : Kernel) (e : Event) (d : Bool) : Bool :=
  d || (s.step e).any fun s' => (s.cpu c).proc = none ∧ (s'.cpu c).proc = some q

/-- The step is one of processor `c`, and `q` is runnable unless `c` has switched to it. -/
def waits (c : Cpu) (q : Slot) (x : Kernel × Bool) (e : Event) : Prop :=
  e.cpu = c ∧ (x.2 = false → (x.1.proc q).state = RUNNABLE)

instance (c : Cpu) (q : Slot) (x : Kernel × Bool) (e : Event) : Decidable (waits c q x e) :=
  inferInstanceAs (Decidable (_ ∧ _))

end Kernel

/-- The kernel with a variable that says whether processor `c` has switched to `q`. -/
def turnKernel (c : Cpu) (q : Slot) : Machine (Kernel × Bool) Kernel.Event :=
  kernel.ghost false (turns c q)

/-- As long as `q` is runnable and has not had its turn, it is ahead of `p`. -/
theorem ahead_path {c : Cpu} {p q : Slot} (hne : q ≠ p) {s s' : Kernel} {d : Bool}
    (hr : kernel.Reachable s) {t : Option Nat} (ht : s.ScanAt c t) (ha : Kernel.Ahead p q t)
    (hpath : (turnKernel c q).Path (waits c q) (s, false) (s', d)) :
    kernel.Reachable s' ∧ (d = true ∨ s'.Stuck c ∨ ∃ t, s'.ScanAt c t ∧ Kernel.Ahead p q t) := by
  suffices key : ∀ x, (turnKernel c q).Path (waits c q) (s, false) x → kernel.Reachable x.1 ∧
        (x.2 = true ∨ x.1.Stuck c ∨ ∃ t, x.1.ScanAt c t ∧ Kernel.Ahead p q t) from key _ hpath
  intro x hx
  induction hx with
  | refl => exact ⟨hr, .inr (.inr ⟨t, ht, ha⟩)⟩
  | @tail x y _ hmove ih =>
    obtain ⟨e, ⟨hcpu, hwait⟩, hs⟩ := hmove
    obtain ⟨hstep, hd⟩ := Machine.ghost_step hs
    obtain ⟨hrx, hold⟩ := ih
    refine ⟨hrx.step hstep, ?_⟩
    by_cases hdone : x.2 = true
    · exact .inl (by rw [hd, turns, hdone, Bool.true_or])
    have hq := hwait (by simpa using hdone)
    rcases hold with hold | hstuck | ⟨t, ht, ha⟩
    · exact absurd hold hdone
    · rcases step_cases hstep with ⟨c', ch, op, k, rfl, hk, h⟩ | ⟨c', code, hnr, he, hy⟩
      · obtain rfl : c' = c := hcpu
        rw [hstuck.not_exec hk] at h
        cases h
      · by_cases hc : c = c'
        · subst hc
          exact absurd he hstuck.not_entry
        · exact .inr (.inl (by simpa [Kernel.Stuck, hy, hc] using hstuck))
    · rcases step_cases hstep with ⟨c', ch, op, k, rfl, hk, h⟩ | ⟨c', code, hnr, he, hy⟩
      · obtain rfl : c' = c := hcpu
        rcases (inv hrx).scan_exec hk h ht with hstuck | ⟨t', ht', hm⟩
        · exact .inr (.inl hstuck)
        · rcases hm.ahead hne hq ha with ha | ⟨i, rfl, hproc⟩
          · exact .inr (.inr ⟨t', ht', ha⟩)
          · have hnone : (x.1.cpu c').proc = none := by
              cases hcur : (x.1.cpu c').proc with
              | none => rfl
              | some me => exact absurd hk ((inv hrx).not_schedScan hcur)
            refine .inl ?_
            have hstep' : x.1.step (.run c' ch) = some y.1 := hstep
            simp [hd, turns, hstep', hnone, hproc]
      · refine .inr (.inr ⟨t, ?_, ha⟩)
        rw [hy]
        by_cases hc : c = c'
        · subst hc
          exact scan_entry he ht
        · simpa [Kernel.ScanAt, schedulerCode, hc] using ht

/-- **Bounded bypass.**  Between two times that a processor switches to `p`, with no
step of another processor in between, it switches to every other process `q` that
was runnable from the first time on until it had its turn. -/
theorem bounded_bypass {c : Cpu} {p q : Slot} (hne : q ≠ p) {s₀ s₁ s₂ s₃ : Kernel}
    {e₁ e₂ : Kernel.Event} {d : Bool} (hr : kernel.Reachable s₀)
    (h₁ : Kernel.Switches s₀ e₁ s₁ c p)
    (hpath : (turnKernel c q).Path (waits c q) (s₁, false) (s₂, d))
    (hq : d = false → (s₂.proc q).state = RUNNABLE) (h₂ : Kernel.Switches s₂ e₂ s₃ c p) :
    d = true := by
  -- the scan goes on with the slot after `p`
  have hstart : s₁.ScanAt c (some (p.val + 1)) := by
    obtain ⟨hs, hnone, hp⟩ := h₁
    rcases step_cases hs with ⟨c', ch, op, k, -, hk, h⟩ | ⟨c', code, -, -, rfl⟩
    · have hc : c = c' := by
        by_contra hc
        rw [exec_cpu_ne h hc, hnone] at hp
        cases hp
      subst hc
      obtain ⟨i, rfl, hpick⟩ := exec_switches h hnone hp
      have hwalk : scanDiscipline.Walks none k none := by
        rcases scanning hr c with hstuck | ⟨t, ht⟩
        · rw [hstuck.not_exec hk] at h
          cases h
        · simp only [Kernel.ScanAt, schedulerCode, hnone, hk] at ht
          exact ht.2
      simp only [exec, hpick, some.injEq] at h
      subst h
      simpa [Kernel.ScanAt, schedulerCode, dispatch] using ⟨rfl, hwalk⟩
    · by_cases hc : c = c'
      · subst hc; simp [hnone] at hp
      · simp [hc, hnone] at hp
  have hahead : Kernel.Ahead p q (some (p.val + 1)) := .inl ⟨_, rfl, by omega, fun h => h⟩
  obtain ⟨-, hd | hstuck | ⟨t, ht, ha⟩⟩ := ahead_path hne (hr.step h₁.1) hstart hahead hpath
  · exact hd
  · obtain ⟨i, hi, -⟩ := h₂.scan
    obtain ⟨-, msg, hcode⟩ := hstuck
    rw [scanAt, hcode] at hi
    cases hi
  · by_contra hd
    have hrun := hq (by simpa using hd)
    obtain ⟨i, hi, hpick⟩ := h₂.scan
    obtain ⟨hip, -, hnear⟩ := Table.pick_spec hpick
    obtain ⟨k, hk⟩ : ∃ k, (s₂.cpu c).code = .schedScan i :: k := by
      unfold scanAt at hi
      split at hi
      · rename_i j k hk
        cases hi
        exact ⟨k, hk⟩
      · cases hi
    simp only [Kernel.ScanAt, schedulerCode, h₂.2.1, hk] at ht
    have hti : t = some i := ht.1
    subst hti
    rcases ha with ⟨j, hj, hpj, -⟩ | ⟨hqp, hj | ⟨j, hj, hjq⟩⟩
    · cases hj
      omega
    · cases hj
    · cases hj
      exact hnear q hjq hqp hrun

/-- The first process has forked and yields; its child is about to get processor 1. -/
def parentYields : List Kernel.Event :=
  execs 1 5 ++ [.syscall 1 .fork] ++ execs 1 4 ++ [.run 1 (.addr 1)] ++
    execs 1 4 ++ [.run 1 (.addr 1)] ++ execs 1 5 ++ [.timer 1] ++ execs 1 5

/-- The child has processor 1 and yields, and so does its parent. -/
def bothYield : List Kernel.Event :=
  execs 1 2 ++ [.timer 1] ++ execs 1 13 ++ [.timer 1] ++ execs 1 5

theorem bounded_bypass_yield :
    ∃ s₀ s₁ s₂ s₃ d, kernel.Reachable s₀ ∧ Kernel.Switches s₀ (.run 1 .done) s₁ 1 1 ∧
      (turnKernel 1 0).Path (waits 1 0) (s₁, false) (s₂, d) ∧
      Kernel.Switches s₂ (.run 1 .done) s₃ 1 1 ∧ d = true := by
  obtain ⟨s₀, s₁, hr, hs₁, ⟨hn₁, hp₁⟩, hrest⟩ := Machine.step_of_run (M := kernel)
    (Q := fun s₀ s₁ => ((s₀.cpu 1).proc = none ∧ (s₁.cpu 1).proc = some 1) ∧
      ((turnKernel 1 0).runBy (waits 1 0) (s₁, false) bothYield).any (fun x =>
        decide (x.2 = false → (x.1.proc 0).state = RUNNABLE) &&
        (x.1.step (.run 1 .done)).any fun s₃ =>
          (x.1.cpu 1).proc = none ∧ (s₃.cpu 1).proc = some 1) = true)
    boot parentYields (.run 1 .done) rfl (by decide)
  obtain ⟨⟨s₂, d⟩, hrun, hx⟩ := (any_eq_true _ _).1 hrest
  rw [Bool.and_eq_true] at hx
  obtain ⟨s₃, hs₃, hsw⟩ := (any_eq_true _ _).1 hx.2
  have hsw' := of_decide_eq_true hsw
  have hpath := Machine.path_of_runBy bothYield hrun
  have hfirst : Kernel.Switches s₀ (.run 1 .done) s₁ 1 1 := ⟨hs₁, hn₁, hp₁⟩
  have hsecond : Kernel.Switches s₂ (.run 1 .done) s₃ 1 1 := ⟨hs₃, hsw'.1, hsw'.2⟩
  exact ⟨s₀, s₁, s₂, s₃, d, hr, hfirst, hpath, hsecond,
    bounded_bypass (by decide) hr hfirst hpath (of_decide_eq_true hx.1) hsecond⟩

end Xv6
