import OperatingSystems.Proc.Zombie

/-!
# What `kill` kills

`kill` looks for a slot with the process ID it is given and does not look at the
state of the slot.  A slot that is not in use has a process ID too: `0`, or that
of a process that `fork` began and could not finish.

* `Table.kill`, `kill_run`: the whole of `kill`, and that a processor that
  executes it undisturbed computes it.
* `kills_live_iff`: it acts on processes only exactly if no slot out of use has
  the process ID, unless a process has it too.
* `marks`: when `kill` only finds processes, and `fork` never gives up a
  slot that was marked, a child is marked when it becomes runnable only if a
  `kill` named it.
* `kill_only_live` states both; `kill_marks_unused` is a run in which a process
  kills a slot that is not in use.
-/

namespace Xv6

open ProcState Function Kernel Machine

/-! ## The system call as a whole -/

namespace Table

/-- `kill`: its return value, and the table it leaves. -/
def kill (t : Table) (pid : Int32) (ticks : UInt32) : Int32 × Table :=
  match t.firstPid pid with
  | none => (-1, t)
  | some p =>
    (0, update t p
      { t p with killed := true, ttime := ticks,
                 state := if (t p).state = SLEEPING then RUNNABLE else (t p).state })

/-- Some process has the process ID. -/
def HasProcess (t : Table) (pid : Int32) : Prop := ∃ p, (t p).state ≠ UNUSED ∧ (t p).pid = pid

instance (t : Table) (pid : Int32) : Decidable (t.HasProcess pid) :=
  inferInstanceAs (Decidable (∃ _, _))

/-- `kill` returns `0` and changes a slot only if some process has the process
ID, and otherwise returns `-1` and leaves the table as it is. -/
def KillsLive (t : Table) (pid : Int32) (ticks : UInt32) : Prop :=
  ((t.kill pid ticks).1 = 0 → t.HasProcess pid) ∧
    (¬ t.HasProcess pid → (t.kill pid ticks).1 = -1 ∧ (t.kill pid ticks).2 = t)

/-- **When `kill` acts on processes only**: when a process has the process ID, or
no slot has it at all. -/
theorem kills_live_iff (t : Table) (pid : Int32) (ticks : UInt32) :
    t.KillsLive pid ticks ↔ ((∃ p, (t p).state = UNUSED ∧ (t p).pid = pid) → t.HasProcess pid) := by
  cases hf : t.firstPid pid with
  | none =>
    have hno := firstPid_eq_none.1 hf
    constructor
    · rintro - ⟨p, -, hp⟩
      exact absurd hp (hno p)
    · intro _
      simp [KillsLive, kill, hf]
  | some p =>
    have hp := firstPid_pid hf
    constructor
    · rintro ⟨h, -⟩ -
      exact h (by simp [kill, hf])
    · intro h
      have hlive : t.HasProcess pid := by
        by_cases hu : (t p).state = UNUSED
        · exact h ⟨p, hu, hp⟩
        · exact ⟨p, hu, hp⟩
      exact ⟨fun _ => hlive, fun hno => absurd hlive hno⟩

end Table

variable {named : Slot → Bool}

namespace Kernel

variable {s s' : Kernel} {c : Cpu} {ch : Choice} {op : Op} {k : List Op}

/-- What a processor that executes alone can see: the table, the clock, the two
locks, and its own process and code. -/
structure Sees (s : Kernel) (c : Cpu) (me : Slot) (t : Table) (ticks : UInt32)
    (pt tk : Option Cpu) (code : List Op) : Prop where
  table : s.proc = t
  ticks : s.ticks = ticks
  pt : s.lock .ptable = pt
  tk : s.lock .tickslock = tk
  cur : (s.cpu c).proc = some me
  code : (s.cpu c).code = code

section Alone

variable {me : Slot} {t : Table} {ticks : UInt32} {pt tk : Option Cpu}

/-- Processor `c` gets from `s` to a state of which `P` holds by executing alone. -/
def RunsTo (c : Cpu) (s : Kernel) (P : Kernel → Prop) : Prop :=
  ∃ n s', kernel.run s (execs c n) = some s' ∧ P s'

theorem RunsTo.step {P : Kernel → Prop} (hk : (s.cpu c).code = op :: k)
    (h : s.exec c .done op k = some s') (hP : RunsTo c s' P) : RunsTo c s P := by
  obtain ⟨n, s₁, hrun, hs₁⟩ := hP
  have hs : kernel.step s (.run c .done) = some s' := by
    simp only [kernel, Kernel.step, hk]
    exact h
  refine ⟨n + 1, s₁, ?_, hs₁⟩
  simpa [run, runBy, execs, List.replicate_succ, hs] using hrun

theorem Sees.acquire_tickslock (h : Sees s c me t ticks pt none (.acquire .tickslock :: k)) :
    ∃ s', s.exec c .done (.acquire .tickslock) k = some s' ∧
      Sees s' c me t ticks pt (some c) k := by
  simp only [exec, acquireLock, h.tk]
  exact ⟨_, rfl, h.table, h.ticks, by simpa using h.pt, by simp, by simpa using h.cur, by simp⟩

theorem Sees.release_tickslock
    (h : Sees s c me t ticks pt (some c) (.release .tickslock :: k)) :
    ∃ s', s.exec c .done (.release .tickslock) k = some s' ∧ Sees s' c me t ticks pt none k := by
  simp only [exec, releaseLock, h.tk, if_true]
  exact ⟨_, rfl, h.table, h.ticks, by simpa using h.pt, by simp, by simpa using h.cur, by simp⟩

theorem Sees.release_ptable (h : Sees s c me t ticks (some c) tk (.release .ptable :: k)) :
    ∃ s', s.exec c .done (.release .ptable) k = some s' ∧ Sees s' c me t ticks none tk k := by
  simp only [exec, releaseLock, h.pt, if_true]
  exact ⟨_, rfl, h.table, h.ticks, by simp, by simpa using h.tk, by simpa using h.cur, by simp⟩

/-- An operation on the table. -/
theorem Sees.effect (t' : Table) (code' : List Op) (h : Sees s c me t ticks pt tk (op :: k))
    (hexec : s.exec c .done op k = (s.effect (s.cpu c).proc .done op k).map (s.apply c))
    (he : s.effect (some me) .done op k = some ⟨t', s.nextpid, code'⟩) :
    ∃ s', s.exec c .done op k = some s' ∧ Sees s' c me t' ticks pt tk code' := by
  rw [hexec, h.cur, he]
  exact ⟨_, rfl, rfl, h.ticks, h.pt, h.tk, by simpa [apply] using h.cur, by simp [apply]⟩

theorem Sees.ret {v : Int32} (h : Sees s c me t ticks pt tk (.ret v :: k)) :
    RunsTo c s fun s' => (s'.cpu c).code = k ∧
      s'.proc = update t me { t me with eax := v } := by
  obtain ⟨s', h', g'⟩ := h.effect (update t me { t me with eax := v }) k
    rfl (by simp only [Kernel.effect, procEffect, h.table])
  exact .step h.code h' ⟨0, s', rfl, g'.code, g'.table⟩

end Alone

/-- **A processor that executes `kill` undisturbed** computes the function
`Table.kill`, and its process gets the return value. -/
theorem kill_run {pid : Int32} {me : Slot} {t : Table} {ticks : UInt32}
    (h : Sees s c me t ticks (some c) none (.killScan pid :: k)) :
    RunsTo c s fun s' => (s'.cpu c).code = k ∧
      s'.proc = update (t.kill pid ticks).2 me
        { (t.kill pid ticks).2 me with eax := (t.kill pid ticks).1 } := by
  cases hf : t.firstPid pid with
  | none =>
    have hkill : t.kill pid ticks = (-1, t) := by simp [Table.kill, hf]
    obtain ⟨s₁, h₁, g₁⟩ := h.effect t ([.release .ptable, .ret (-1)] ++ k) rfl
      (by simp only [effect, procEffect, h.table, hf])
    obtain ⟨s₂, h₂, g₂⟩ := g₁.release_ptable
    rw [hkill]
    exact .step h.code h₁ (.step g₁.code h₂ g₂.ret)
  | some p =>
    obtain ⟨s₁, h₁, g₁⟩ := h.effect (update t p { t p with killed := true })
      ([.acquire .tickslock, .killTtime p, .release .tickslock, .killWake p,
        .release .ptable, .ret 0] ++ k) rfl
      (by simp only [effect, procEffect, h.table, hf])
    obtain ⟨s₂, h₂, g₂⟩ := g₁.acquire_tickslock
    obtain ⟨s₃, h₃, g₃⟩ := g₂.effect
      (update t p { t p with killed := true, ttime := ticks })
      ([.release .tickslock, .killWake p, .release .ptable, .ret 0] ++ k) rfl
      (by simp [effect, procEffect, g₂.table, g₂.ticks])
    obtain ⟨s₄, h₄, g₄⟩ := g₃.release_tickslock
    have hkill : (t.kill pid ticks).1 = 0 := by simp [Table.kill, hf]
    obtain ⟨s₅, h₅, g₅⟩ := g₄.effect (t.kill pid ticks).2
      ([.release .ptable, .ret 0] ++ k) rfl (by
        by_cases hs : (t p).state = SLEEPING <;>
          simp [effect, procEffect, g₄.table, Table.kill, hf, hs])
    obtain ⟨s₆, h₆, g₆⟩ := g₅.release_ptable
    rw [hkill]
    exact .step h.code h₁ (.step g₁.code h₂ (.step g₂.code h₃
      (RunsTo.step g₃.code h₄ (RunsTo.step g₄.code h₅ (RunsTo.step g₅.code h₆ g₆.ret)))))

theorem kill_run_self : ∃ s k, kernel.Reachable s ∧ RunsTo 1 s fun s' => (s'.cpu 1).code = k ∧
    s'.proc = update (s.proc.kill 1 s.ticks).2 0
      { (s.proc.kill 1 s.ticks).2 0 with eax := (s.proc.kill 1 s.ticks).1 } := by
  obtain ⟨s, hr, hpt, htk, hcur, hcode⟩ := reachable_of_run (M := kernel)
    (P := fun s => s.lock .ptable = some 1 ∧ s.lock .tickslock = none ∧ (s.cpu 1).proc = some 0 ∧
      (s.cpu 1).code = [.killScan 1, .sysKilled])
    boot (execs 1 5 ++ [.syscall 1 (.kill 1)] ++ execs 1 2) rfl (by decide)
  exact ⟨s, _, hr, kill_run ⟨rfl, rfl, hpt, htk, hcur, hcode⟩⟩

/-! ## Who is marked -/

/-- The slots whose process was named by a `kill` since it was allocated. -/
def naming (s : Kernel) (e : Event) (named : Slot → Bool) : Slot → Bool := fun p =>
  match s.executes e with
  | some (.killScan pid) => named p || pid = (s.proc p).pid
  | some .allocScan => named p && s.proc.firstUnused ≠ some p
  | _ => named p

/-- The event is not a `kill` that finds a slot out of use, nor the failure of a
`fork` whose child was marked meanwhile. -/
def gentle (s : Kernel) (e : Event) : Bool :=
  match e, s.executes e with
  | _, some (.killScan pid) => (s.proc.firstPid pid).all fun p => (s.proc p).state ≠ UNUSED
  | .run _ (.addr 0), some (.allocStack p) => !(s.proc p).killed
  | .run _ (.addr 0), some (.forkCopy p) => !(s.proc p).killed
  | _, _ => true

/-- Slots out of use are not marked, and children are marked only if a `kill` named
them. -/
structure Marks (s : Kernel) (named : Slot → Bool) : Prop where
  unused : ∀ p, (s.proc p).state = UNUSED → (s.proc p).killed = false
  embryo : ∀ p, (s.proc p).state = EMBRYO → (s.proc p).killed = true → named p = true

theorem naming_of_named {e : Event} {p : Slot} (h : named p = true)
    (hu : (s.proc p).state ≠ UNUSED) : s.naming e named p = true := by
  have hfirst : s.proc.firstUnused ≠ some p := fun hf => hu (Table.firstUnused_state hf)
  unfold naming
  split <;> simp [h, hfirst]

theorem executes_run (ch : Choice) (hk : (s.cpu c).code = op :: k) :
    s.executes (.run c ch) = some op := by
  simp [executes, hk]

/-- **An operation that is gentle** marks nothing by mistake. -/
theorem Marks.exec (hm : s.Marks named) (hi : s.Inv)
    (hk : (s.cpu c).code = op :: k) (h : s.exec c ch op k = some s')
    (hok : s.gentle (.run c ch) = true) : s'.Marks (s.naming (.run c ch) named) := by
  have hex := executes_run ch hk
  -- what holds of a slot whose state and mark did not change
  have same : ∀ p, ((s.proc p).state = UNUSED → (s.proc p).killed = false) ∧
      ((s.proc p).state = EMBRYO → (s.proc p).killed = true →
        s.naming (.run c ch) named p = true) := by
    refine fun p => ⟨hm.unused p, fun he hkilled => ?_⟩
    exact naming_of_named (hm.embryo p he hkilled) (by rw [he]; simp)
  suffices key : ∀ p, ((s'.proc p).core.state = UNUSED → (s'.proc p).core.killed = false) ∧
      ((s'.proc p).core.state = EMBRYO → (s'.proc p).core.killed = true →
        s.naming (.run c ch) named p = true) from
    ⟨fun p => (key p).1, fun p => (key p).2⟩
  intro p
  have hch := exec_change h p
  generalize (s'.proc p).core = q' at hch
  cases hch with
  | wake _ _ => simp
  | tick => simpa using same p
  | alloc hf =>
    have hfree := hm.unused p (Table.firstUnused_state hf)
    simp [hfree]
  | allocFail hch | forkFail hch =>
    subst hch
    have hnot : (s.proc p).killed = false := by simpa [gentle, hex] using hok
    simp [hnot]
  | forkRun => simp
  | sleep _ => simp
  | yield _ => simp
  | zombie _ => simp
  | reap _ => simp [Table.reap]
  | reapStat _ => simp [Table.reapStat]
  | @kill pid _ hp =>
    have hlive : (s.proc p).state ≠ UNUSED := by simpa [gentle, hex, hp] using hok
    refine ⟨fun hu => absurd hu hlive, fun _ _ => ?_⟩
    simp [naming, hex, Table.firstPid_pid hp]
  | fault hp =>
    obtain ⟨hu, he⟩ := hi.live c p hp
    exact ⟨fun hc => absurd hc hu, fun hc => absurd hc he⟩
  | dispatch _ => simp
  | _ => exact same p

theorem marks_boot : boot.Marks fun _ => false where
  unused := by
    intro p _
    by_cases hp : p = 0 <;> simp [boot, hp]
  embryo := by
    intro p he
    by_cases hp : p = 0 <;> simp [boot, hp] at he

end Kernel

/-- The kernel with the record of who was named by a `kill`. -/
def namedKernel : Machine (Kernel × (Slot → Bool)) Kernel.Event :=
  kernel.ghost (fun _ => false) naming

/-- In a run of gentle events nothing is marked by mistake. -/
theorem marks {s : Kernel}
    (h : namedKernel.ReachableBy (fun x e => x.1.gentle e = true) (s, named)) : s.Marks named := by
  refine Machine.ReachableBy.induct (I := fun x => x.1.Marks x.2) ?_ ?_ h
  · rintro ⟨s, named⟩ ⟨hs, hg⟩
    obtain rfl : s = boot := hs
    obtain rfl : named = fun _ => false := hg
    exact marks_boot
  · rintro ⟨s, named⟩ e ⟨s', named'⟩ hr hm hok hs
    have hr₀ : kernel.Reachable s := ghost_reachable hr.reachable
    obtain ⟨hstep, hg⟩ := ghost_step hs
    subst hg
    rcases step_cases hstep with ⟨c, ch, op, k, rfl, hk, h⟩ | ⟨c, code, hne, -, rfl⟩
    · exact hm.exec (inv hr₀) hk h hok
    · have hrec : s.naming e named = named := by
        cases e with
        | run c' ch => exact absurd rfl (hne c' ch)
        | _ => rfl
      rw [hrec]
      exact ⟨hm.unused, hm.embryo⟩

/-- **`kill` acts only on processes, and when.**  Of any table and process ID it
does so exactly if a process has the ID whenever a slot out of use has it.  And
in a run in which no `kill` finds a slot out of use, and no `fork` fails whose
child was marked, a child that `fork` makes runnable is marked only if a `kill`
named it. -/
theorem kill_only_live (t : Table) (pid : Int32) (ticks : UInt32) (s : Kernel)
    (named : Slot → Bool) :
    (t.KillsLive pid ticks ↔
      ((∃ p, (t p).state = UNUSED ∧ (t p).pid = pid) → t.HasProcess pid)) ∧
    (namedKernel.ReachableBy (fun x e => x.1.gentle e = true) (s, named) →
      ∀ c ch p s', s.executes (.run c ch) = some (.forkRun p) → s.step (.run c ch) = some s' →
        (s'.proc p).killed = true → named p = true) := by
  refine ⟨Table.kills_live_iff t pid ticks, ?_⟩
  intro hr c ch p s' hex hs hkilled
  have hm := marks hr
  have hi := inv (ghost_reachable hr.reachable)
  rcases step_cases hs with ⟨c', ch', op, k, heq, hk, h⟩ | ⟨-, -, hne, -, -⟩
  · cases heq
    obtain rfl : op = .forkRun p := by
      rw [executes_run _ hk] at hex
      exact Option.some.inj hex
    refine hm.embryo p (hi.state_of_embryo hk rfl) ?_
    have hch := exec_change h p
    rw [← Proc.core_killed (s'.proc p)] at hkilled
    generalize (s'.proc p).core = q' at hch hkilled
    cases hch with
    | none | wake _ _ | forkRun => exact hkilled
  · exact absurd rfl (hne c ch)

/-- The first process is about to make its child runnable. -/
def forkEnds : List Kernel.Event :=
  [.syscall 1 .fork] ++ execs 1 4 ++ [.run 1 (.addr 1)] ++ execs 1 4 ++
    [.run 1 (.addr 1)] ++ execs 1 1

theorem kill_only_live_fork :
    ∃ s named s', namedKernel.ReachableBy (fun x e => x.1.gentle e = true) (s, named) ∧
      s.executes (.run 1 .done) = some (.forkRun 1) ∧ s.step (.run 1 .done) = some s' ∧
      ((s'.proc 1).killed = true → named 1 = true) := by
  obtain ⟨⟨s, named⟩, hr, hex, hs⟩ := reachableBy_of_runBy (M := namedKernel)
    (P := fun x => x.1.executes (.run 1 .done) = some (.forkRun 1) ∧
      (x.1.step (.run 1 .done)).isSome = true)
    (fun x e => x.1.gentle e = true) (boot, fun _ => false)
    (execs 1 5 ++ [.syscall 1 (.kill 7)] ++ execs 1 6 ++ forkEnds) ⟨rfl, rfl⟩
    (by decide)
  obtain ⟨s', hs'⟩ := Option.isSome_iff_exists.1 hs
  exact ⟨s, named, s', hr, hex, hs', (kill_only_live s.proc 0 s.ticks s named).2 hr 1 .done 1 s' hex hs'⟩

/-- **A slot out of use is killed.**  The first process kills the process ID `0`,
which every slot out of use has.  The child it forks next takes one of them and
is marked from the start. -/
theorem kill_marks_unused :
    (∃ s, kernel.Reachable s ∧ s.executes (.run 1 .done) = some (.killScan 0) ∧
      ¬ s.proc.KillsLive 0 s.ticks) ∧
    (∃ s named s', namedKernel.Reachable (s, named) ∧
      s.executes (.run 1 .done) = some (.forkRun 1) ∧ s.step (.run 1 .done) = some s' ∧
      (s'.proc 1).killed = true ∧ named 1 = false) := by
  constructor
  · obtain ⟨s, hr, hex, hu, hno⟩ := reachable_of_run (M := kernel)
      (P := fun s => s.executes (.run 1 .done) = some (.killScan 0) ∧
        (∃ p, (s.proc p).state = UNUSED ∧ (s.proc p).pid = 0) ∧ ¬ s.proc.HasProcess 0)
      boot (execs 1 5 ++ [.syscall 1 (.kill 0)] ++ execs 1 2) rfl
      (by set_option maxRecDepth 20000 in decide)
    exact ⟨s, hr, hex, fun h => hno ((Table.kills_live_iff _ _ _).1 h hu)⟩
  · obtain ⟨⟨s, named⟩, ⟨s', named'⟩, hr, hs, hex, hkilled, hnamed⟩ :=
      step_of_run (M := namedKernel)
      (Q := fun x x' => x.1.executes (.run 1 .done) = some (.forkRun 1) ∧
        (x'.1.proc 1).killed = true ∧ x.2 1 = false)
      (boot, fun _ => false)
      (execs 1 5 ++ [.syscall 1 (.kill 0)] ++ execs 1 10 ++ forkEnds)
      (.run 1 .done) ⟨rfl, rfl⟩ (by decide)
    exact ⟨s, named, s', hr, hex, (ghost_step hs).1, hkilled, hnamed⟩

end Xv6
