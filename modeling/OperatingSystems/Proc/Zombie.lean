import OperatingSystems.Proc.Accounting

/-!
# The record of a zombie

A process that has exited keeps its slot until its parent asks for its times
with `wait` or `wait_stat`.

* `times_step_iff`: which steps leave those times as they are.
* `zombie_frozen`: they do not change until the zombie is reaped, unless a `kill`
  overwrites the termination time.
* `zombie_overwritten`: a run in which one does.
-/

namespace Xv6

open ProcState Kernel

/-- The termination record: `ctime`, `ttime`, `stime`, `retime` and `rutime`. -/
def Proc.times (q : Proc) : List UInt32 := [q.ctime, q.ttime, q.stime, q.retime, q.rutime]

namespace Kernel

variable {s s' : Kernel} {c : Cpu} {ch : Choice} {op : Op} {k : List Op}

/-- The operation an event executes. -/
def executes (s : Kernel) : Event → Option Op
  | .run c _ => (s.cpu c).code.head?
  | _ => none

/-- The process in slot `p` is a zombie, and the event is not a `kill` that
overwrites its termination time with another one. -/
def spares (p : Slot) (s : Kernel) (e : Event) : Prop :=
  (s.proc p).state = ZOMBIE ∧ (s.executes e = some (.killTtime p) → s.ticks = (s.proc p).ttime)

instance (p : Slot) (s : Kernel) (e : Event) : Decidable (spares p s e) :=
  inferInstanceAs (Decidable (_ ∧ _))

/-- An operation other than the one in `kill` leaves the record of a zombie alone
until it is reaped. -/
theorem Inv.times_exec (hi : s.Inv) (hk : (s.cpu c).code = op :: k)
    (h : s.exec c ch op k = some s') {p : Slot} (hz : (s.proc p).state = ZOMBIE)
    (hz' : (s'.proc p).state = ZOMBIE) (hop : op ≠ .killTtime p) :
    (s'.proc p).times = (s.proc p).times := by
  obtain ⟨emb, -, hpre, -⟩ := hi.next hk
  have htimes : ∀ q : Proc, q.times =
      [q.core.ctime, q.core.ttime, q.core.stime, q.core.retime, q.core.rutime] := fun _ => rfl
  have hemb : ∀ o, o.embryo = some p → op ≠ o := by
    rintro o ho rfl
    rw [hi.state_of_embryo hk ho] at hz
    cases hz
  have hch := exec_change h p
  rw [htimes (s'.proc p), htimes (s.proc p)]
  rw [← Proc.core_state (s'.proc p)] at hz'
  generalize (s'.proc p).core = q' at hch hz'
  cases hch with
  | tick => rw [tick_of_not_alive (by rw [hz]; simp)]
  | ctime | zero => exact absurd rfl (hemb _ rfl)
  | ttime hp =>
    -- a process samples its termination time while it is running
    have hm : s.mode c emb = ⟨none, true, true, false, true⟩ := hpre
    have hrun := (off_eq_false hp).1 (show s.off c = false from congrArg Mode.off hm)
    rw [hrun] at hz
    cases hz
  | reap _ | reapStat _ => cases hz'
  | killTtime => exact absurd rfl hop
  | _ => rfl

theorem Inv.ttime_killTtime (hi : s.Inv) {p : Slot} (hk : (s.cpu c).code = .killTtime p :: k)
    (h : s.exec c ch (.killTtime p) k = some s') :
    s'.proc p = { s.proc p with ttime := s.ticks } := by
  obtain ⟨emb, -, hpre, -⟩ := hi.next hk
  have hm : s.mode c emb = ⟨none, true, true, false, true⟩ := hpre
  obtain ⟨me, hme⟩ := Option.isSome_iff_exists.1
    (show (s.cpu c).proc.isSome = true from congrArg Mode.cur hm)
  simp only [Kernel.exec, effect, hme, procEffect, Option.map_some, Option.some.injEq] at h
  subst h
  simp [apply]

/-- **One step and the record of a zombie.**  A step that does not reap it leaves
the record as it is exactly if it spares the zombie. -/
theorem times_step_iff (hr : kernel.Reachable s) {e : Event} (hs : s.step e = some s')
    {p : Slot} (hz : (s.proc p).state = ZOMBIE) (hz' : (s'.proc p).state = ZOMBIE) :
    (s'.proc p).times = (s.proc p).times ↔ spares p s e := by
  have hi := inv hr
  unfold spares
  rcases step_cases hs with ⟨c, ch, op, k, rfl, hk, h⟩ | ⟨c, code, hne, -, rfl⟩
  · have hexec : s.executes (.run c ch) = some op := by simp [executes, hk]
    rw [hexec]
    by_cases hop : op = .killTtime p
    · subst hop
      rw [hi.ttime_killTtime hk h]
      simp [Proc.times, hz]
    · simp [hi.times_exec hk h hz hz' hop, hz, hop]
  · have hexec : s.executes e = none := by
      cases e with
      | run c' ch => exact absurd rfl (hne c' ch)
      | _ => rfl
    simp [hexec, hz]

end Kernel

/-- **The record of a zombie is frozen.**  As long as the process is not reaped,
and no `kill` overwrites its termination time, its times stay what they are. -/
theorem zombie_frozen {s s' : Kernel} {p : Slot} (hr : kernel.Reachable s)
    (hpath : kernel.Path (spares p) s s') (hz : (s'.proc p).state = ZOMBIE) :
    (s'.proc p).times = (s.proc p).times := by
  refine Machine.Path.induct (I := fun t => (t.proc p).state = ZOMBIE →
    (t.proc p).times = (s.proc p).times) ?_ hr (fun _ => rfl) hpath hz
  intro t e t' ht hold hok hs hz'
  rw [(times_step_iff ht hs hok.1 hz').2 hok, hold hok.1]

/-- The child has become a zombie, its parent has processor 1, and a tick has
passed. -/
def childIsZombie : List Kernel.Event := childExits [] ++ execs 1 10 ++ tick

theorem zombie_frozen_tick : ∃ s s', kernel.Reachable s ∧ kernel.Path (spares 1) s s' ∧
      (s'.proc 1).state = ZOMBIE ∧ s'.ticks = s.ticks + 1 ∧
      (s'.proc 1).times = (s.proc 1).times := by
  obtain ⟨s, s', hr, hpath, hz, ht⟩ := Machine.path_of_run (M := kernel)
    (Q := fun s s' => (s'.proc 1).state = ZOMBIE ∧ s'.ticks = s.ticks + 1) (spares 1)
    boot (childExits [] ++ execs 1 1) (execs 1 9 ++ tick) rfl
    (by set_option maxRecDepth 20000 in decide)
  exact ⟨s, s', hr, hpath, hz, ht, zombie_frozen hr hpath hz⟩

/-- **The record of a zombie is overwritten.**  Its parent kills the zombie a tick
after it exited. -/
theorem zombie_overwritten :
    ∃ s e s' p, kernel.Reachable s ∧ s.step e = some s' ∧ (s.proc p).state = ZOMBIE ∧
      (s'.proc p).state = ZOMBIE ∧ (s'.proc p).times ≠ (s.proc p).times := by
  obtain ⟨s, s', hr, hs, ⟨hz, hz'⟩, hne⟩ := Machine.step_of_run (M := kernel)
    (Q := fun s s' => ((s.proc 1).state = ZOMBIE ∧ (s'.proc 1).state = ZOMBIE) ∧
      (s'.proc 1).times ≠ (s.proc 1).times)
    boot (childIsZombie ++ [.syscall 1 (.kill 2)] ++ execs 1 4) (.run 1 .done) rfl
    (by set_option maxRecDepth 20000 in decide)
  exact ⟨s, .run 1 .done, s', 1, hr, hs, hz, hz', hne⟩

end Xv6
