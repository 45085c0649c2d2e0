import OperatingSystems.Proc.Kernel

/-!
# What one step can do

Everything proved about the kernel model goes through the facts of this file
and never unfolds the operations again.

* `Exec`, `exec_cases`: the ways in which an operation is executed.
* `Core`: the fields of a slot that the results are about.
* `Change s c ch op k p q'`: executing `op` on processor `c` can turn the core
  of slot `p` into `q'`.  It has one constructor for each way in which an
  operation changes a slot, and `exec_change` says that there are no others.
* `exec_cpu_ne`, `exec_lock`, `exec_ticks`: the processor that executes changes
  only its own state and only its own locks, and only `ticks++` moves the
  clock.
* `Calls`, `exec_code`: the code the processor goes on with.
* `step_cases`: a step executes an operation, or enters the kernel.
-/

namespace Xv6

open ProcState Option

/-- The part of a slot that the operations of this model work on. -/
structure Core where
  state : ProcState
  pid : Int32
  killed : Bool
  context : List Op
  ctime : UInt32
  ttime : UInt32
  stime : UInt32
  retime : UInt32
  rutime : UInt32

/-- The core of a slot. -/
@[simps]
def Proc.core (q : Proc) : Core :=
  ⟨q.state, q.pid, q.killed, q.context, q.ctime, q.ttime, q.stime, q.retime, q.rutime⟩

namespace Kernel

/-- The ways in which the execution of `op` on processor `c`, with `k` to follow,
changes the core of the slot `p`. -/
inductive Change (s : Kernel) (c : Cpu) (ch : Choice) (k : List Op) : Op → Slot → Core → Prop
  /-- Not at all. -/
  | none {op p} : Change s c ch k op p (s.proc p).core
  /-- `wakeup1`, the loop of `exit`, or the end of `kill` makes a sleeper runnable. -/
  | wake {op p} (hop : op = .exitPass ∨ (∃ chan, op = .wakeup1 chan) ∨ op = .killWake p)
      (hs : (s.proc p).state = SLEEPING) :
      Change s c ch k op p { (s.proc p).core with state := RUNNABLE }
  /-- `update_stat` charges a tick. -/
  | tick {p} : Change s c ch k .updateStat p (Table.tick (s.proc p)).core
  /-- `allocproc` takes the slot. -/
  | alloc {p} (hp : s.proc.firstUnused = some p) :
      Change s c ch k .allocScan p { (s.proc p).core with state := EMBRYO, pid := s.nextpid }
  /-- `allocproc` gets no kernel stack. -/
  | allocFail {p} (hch : ch = .addr 0) :
      Change s c ch k (.allocStack p) p { (s.proc p).core with state := UNUSED }
  /-- `allocproc` sets up the context. -/
  | allocStack {p} :
      Change s c ch k (.allocStack p) p { (s.proc p).core with context := forkret }
  /-- `allocproc` samples the creation time. -/
  | ctime {p} : Change s c ch k (.allocCtime p) p { (s.proc p).core with ctime := s.ticks }
  /-- `allocproc` clears the counters. -/
  | zero {p} : Change s c ch k (.allocZero p) p
      { (s.proc p).core with stime := 0, retime := 0, rutime := 0, ttime := 0 }
  /-- `fork` cannot copy the memory. -/
  | forkFail {p} (hch : ch = .addr 0) :
      Change s c ch k (.forkCopy p) p { (s.proc p).core with state := UNUSED }
  /-- `fork` makes the child runnable. -/
  | forkRun {p} : Change s c ch k (.forkRun p) p { (s.proc p).core with state := RUNNABLE }
  /-- The current process goes to sleep. -/
  | sleep {chan p} (hp : (s.cpu c).proc = some p) :
      Change s c ch k (.sleepSet chan) p { (s.proc p).core with state := SLEEPING }
  /-- The current process gives up the processor. -/
  | yield {p} (hp : (s.cpu c).proc = some p) :
      Change s c ch k .yieldSet p { (s.proc p).core with state := RUNNABLE }
  /-- The current process samples its termination time. -/
  | ttime {p} (hp : (s.cpu c).proc = some p) :
      Change s c ch k .exitTtime p { (s.proc p).core with ttime := s.ticks }
  /-- The current process becomes a zombie. -/
  | zombie {p} (hp : (s.cpu c).proc = some p) :
      Change s c ch k .exitZombie p { (s.proc p).core with state := ZOMBIE }
  /-- `wait` reaps the slot. -/
  | reap {p} (hz : (s.proc p).state = ZOMBIE) :
      Change s c ch k (.waitScan false) p (Table.reap (s.proc p)).core
  /-- `wait_stat` reaps the slot. -/
  | reapStat {p} (hz : (s.proc p).state = ZOMBIE) :
      Change s c ch k (.waitScan true) p (Table.reapStat (s.proc p)).core
  /-- `kill` marks the slot. -/
  | kill {pid p} (hp : s.proc.firstPid pid = some p) :
      Change s c ch k (.killScan pid) p { (s.proc p).core with killed := true }
  /-- `kill` overwrites the termination time. -/
  | killTtime {p} : Change s c ch k (.killTtime p) p { (s.proc p).core with ttime := s.ticks }
  /-- `trap` marks a process whose user code faulted. -/
  | fault {p} (hp : (s.cpu c).proc = some p) :
      Change s c ch k .setKilled p { (s.proc p).core with killed := true }
  /-- `sched` switches away from the current process. -/
  | switch {p} (hp : (s.cpu c).proc = some p) :
      Change s c ch k .sched p { (s.proc p).core with context := k }
  /-- The scheduler switches to the slot. -/
  | dispatch {i p} (hp : s.proc.pick i = some p) :
      Change s c ch k (.schedScan i) p { (s.proc p).core with state := RUNNING }

variable {s s' : Kernel} {c : Cpu} {ch : Choice} {op : Op} {k : List Op}

/-- A table in which one slot was replaced. -/
theorem Change.of_update {p p' : Slot} {q : Proc} (h : Change s c ch k op p' q.core) :
    Change s c ch k op p (Function.update s.proc p' q p).core := by
  by_cases hp : p = p'
  · subst hp; simpa using h
  · simpa [hp] using Change.none

theorem Change.of_wakes {p : Slot} {t : Table} (ht : Table.Wakes s.proc t)
    (hop : op = .exitPass ∨ (∃ chan, op = .wakeup1 chan) ∨ op = .killWake p) :
    Change s c ch k op p (t p).core := by
  obtain ⟨st, pa, hp, hst⟩ := ht p
  rw [hp]
  rcases hst with rfl | ⟨hs, rfl⟩
  · exact .none
  · exact .wake hop hs

theorem procEffect_change {me : Slot} {e : Effect} (hme : (s.cpu c).proc = some me)
    (h : s.procEffect me ch op k = some e) (p : Slot) : Change s c ch k op p (e.proc p).core := by
  cases op with
  | ret v | sleepTidy | waitStatus v => cases h; exact .of_update Change.none
  | io => cases ch <;> cases h <;> exact .none
  | sleepSet chan => cases h; exact .of_update (.sleep hme)
  | yieldSet => cases h; exact .of_update (.yield hme)
  | allocScan =>
    simp only [procEffect] at h
    split at h
    · cases h; exact .none
    · rename_i q hq
      cases h
      exact .of_update (.alloc hq)
  | allocStack q =>
    simp only [procEffect] at h
    split at h
    · cases h; exact .of_update (.allocFail rfl)
    · cases h; exact .of_update Change.allocStack
    · cases h
  | allocCtime q => cases h; exact .of_update Change.ctime
  | allocZero q => cases h; exact .of_update Change.zero
  | forkCopy q =>
    simp only [procEffect] at h
    split at h
    · cases h; exact .of_update (.forkFail rfl)
    · cases h; exact .of_update Change.none
    · cases h
  | forkRun q => cases h; exact .of_update Change.forkRun
  | exitCheck | sleepLoop n t =>
    simp only [procEffect] at h
    split_ifs at h <;> cases h <;> exact .none
  | exitPass =>
    simp only [procEffect, some.injEq] at h
    have he : e.proc = (s.proc.wakeup1 ((s.proc me).parent.map .proc)).passChildren me
        s.initproc := by rw [← h]
    rw [he]
    exact .of_wakes ((Table.wakes_wakeup1 _ _).trans (Table.wakes_passChildren _ _ _)) (.inl rfl)
  | exitTtime => cases h; exact .of_update (.ttime hme)
  | exitZombie => cases h; exact .of_update (.zombie hme)
  | waitScan stat =>
    simp only [procEffect] at h
    split at h
    · rename_i q kids hq
      have hz := (Table.lookChildren_zombie hq).1
      split_ifs at h with hst
      · cases h
        subst hst
        -- the parent's variables are written before the child's slot is cleared
        by_cases hp : p = q
        · subst hp; simpa using Change.reapStat hz
        · simp only [Function.update_of_ne hp]
          exact .of_update Change.none
      · cases h
        have : stat = false := by simpa using hst
        subst this
        exact .of_update (.reap hz)
    · split_ifs at h <;> cases h <;> exact .none
  | killScan pid =>
    simp only [procEffect] at h
    split at h
    · cases h; exact .none
    · rename_i q hq
      cases h
      exact .of_update (.kill hq)
  | killTtime q => cases h; exact .of_update Change.killTtime
  | killWake q =>
    simp only [procEffect] at h
    split_ifs at h with hs <;> cases h
    · exact .of_update (.wake (.inr (.inr rfl)) hs)
    · exact .none
  | sleepStart n | uptime | sysKilled | trapKilled u | trapYield => cases h; exact .none
  | setKilled => cases h; exact .of_update (.fault hme)
  | _ => cases h

theorem effect_change {e : Effect} (h : s.effect (s.cpu c).proc ch op k = some e) (p : Slot) :
    Change s c ch k op p (e.proc p).core := by
  unfold effect at h
  split at h
  · cases h; exact .none
  · cases h
    exact .of_wakes (Table.wakes_wakeup1 _ _) (.inr (.inl ⟨_, rfl⟩))
  · cases h; exact .tick
  · cases h; exact .none
  · split at h
    · rename_i me hme
      exact procEffect_change hme h p
    · split at h <;> cases h <;> exact .none

/-- The ways in which an operation is executed. -/
inductive Exec (s : Kernel) (c : Cpu) (ch : Choice) (k : List Op) : Op → Kernel → Prop
  /-- `acquire`, `release` and `sched` check the locks first. -/
  | panic {op : Op} (msg : String)
      (hop : (∃ lk, op = .acquire lk) ∨ (∃ lk, op = .release lk) ∨ op = .sched) :
      Exec s c ch k op (s.goto c [.panic msg])
  | acquire {lk} (hfree : s.lock lk = none) : Exec s c ch k (.acquire lk)
      (((s.setLock lk (some c)).modifyCpu c fun x => { x with held := lk :: x.held }).goto c k)
  | release {lk} (hmine : s.lock lk = some c) : Exec s c ch k (.release lk)
      (((s.setLock lk none).modifyCpu c fun x => { x with held := x.held.erase lk }).goto c k)
  | ticksInc : Exec s c ch k .ticksInc ({ s with ticks := s.ticks + 1 }.goto c k)
  /-- A process switches to the scheduler. -/
  | switch {me} (hme : (s.cpu c).proc = some me) (hpt : s.lock .ptable = some c) :
      Exec s c ch k .sched ((s.modify me fun q => { q with context := k }).modifyCpu c
        fun x => { x with proc := none, code := x.scheduler })
  | dispatch {i p} (hp : s.proc.pick i = some p) :
      Exec s c ch k (.schedScan i) (s.dispatch c p k)
  /-- The scan has found no process. -/
  | scanned {i} : Exec s c ch k (.schedScan i) (s.goto c k)
  | effect {op : Op} {e : Effect} (hop : op ≠ .ticksInc ∧ op ≠ .sched ∧ ∀ i, op ≠ .schedScan i)
      (he : s.effect (s.cpu c).proc ch op k = some e) : Exec s c ch k op (s.apply c e)

section

variable (h : s.exec c ch op k = some s')

include h

theorem exec_cases : Exec s c ch k op s' := by
  unfold exec at h
  split at h
  · rename_i lk
    unfold acquireLock at h
    split at h
    · cases h; exact .acquire ‹_›
    · split_ifs at h; cases h; exact .panic _ (.inl ⟨lk, rfl⟩)
  · rename_i lk
    cases h
    unfold releaseLock
    split_ifs with hmine
    · exact .release hmine
    · exact .panic _ (.inr (.inl ⟨lk, rfl⟩))
  · cases h; exact .ticksInc
  · split at h
    · cases h
    · rename_i me hme
      cases h
      unfold schedSwitch
      split_ifs with h1
      · exact .panic _ (.inr (.inr rfl))
      · exact .panic _ (.inr (.inr rfl))
      · exact .panic _ (.inr (.inr rfl))
      · exact .switch hme (not_not.1 h1)
  · split at h
    · cases h; exact .dispatch ‹_›
    · cases h; exact .scanned
  · rename_i hticks hsched hscan
    obtain ⟨e, he, rfl⟩ := map_eq_some_iff.1 h
    exact .effect ⟨hticks, hsched, hscan⟩ he

/-- **The ways in which a slot can change.** -/
theorem exec_change (p : Slot) : Change s c ch k op p (s'.proc p).core := by
  cases exec_cases h with
  | switch hme _ => exact .of_update (.switch hme)
  | dispatch hp => exact .of_update (.dispatch hp)
  | effect _ he => exact effect_change he p
  | _ => exact .none

/-! ## The rest of the state -/

theorem exec_cpu_ne {c' : Cpu} (hc : c' ≠ c) : s'.cpu c' = s.cpu c' := by
  cases exec_cases h with
  | dispatch _ => simp [dispatch, hc]
  | effect _ _ => simp [apply, hc]
  | _ => simp [hc]

/-- A lock changes hands only from or to the processor that executes. -/
theorem exec_lock (lk : Lock) {c' : Cpu} (hc : c' ≠ c) :
    s'.lock lk = some c' ↔ s.lock lk = some c' := by
  cases exec_cases h with
  | @acquire lk' hfree =>
    by_cases hlk : lk = lk'
    · subst hlk; simp [hfree, hc.symm]
    · simp [hlk]
  | @release lk' hmine =>
    by_cases hlk : lk = lk'
    · subst hlk; simp [hmine, hc.symm]
    · simp [hlk]
  | dispatch _ => simp [dispatch]
  | effect _ _ => simp [apply]
  | _ => simp

theorem exec_ticks : s'.ticks = if op = .ticksInc then s.ticks + 1 else s.ticks := by
  cases exec_cases h with
  | panic _ hop => rcases hop with ⟨lk, rfl⟩ | ⟨lk, rfl⟩ | rfl <;> simp
  | effect hop _ => rw [if_neg hop.1]; rfl
  | dispatch _ => simp [dispatch]
  | _ => simp

end

/-! ## The code that is executed next -/

/-- The operation `op` may go on with the code `l` before it goes on with what
follows it: it calls a routine, or takes one of the ways through the rest of its
own. -/
inductive Calls : Op → List Op → Prop
  | sleepOn (lk chan : Nat) : Calls .io ([.acquire (.other lk)] ++
      sleep (.other chan) (.other lk) ++ [.release (.other lk), .io])
  | wake (lk chan : Nat) : Calls .io ([.acquire (.other lk)] ++ wakeup (.other chan) ++
      [.release (.other lk), .io])
  | noSlot : Calls .allocScan [.release .ptable, .ret (-1)]
  | slot (p : Slot) : Calls .allocScan [.release .ptable, .allocStack p]
  | noStack (p : Slot) : Calls (.allocStack p) [.ret (-1)]
  | stack (p : Slot) : Calls (.allocStack p) [.acquire .tickslock, .allocCtime p,
      .release .tickslock, .allocZero p, .forkCopy p]
  | noCopy (p : Slot) : Calls (.forkCopy p) [.ret (-1)]
  | copy (p : Slot) (pid : Int32) : Calls (.forkCopy p) [.acquire .ptable, .forkRun p,
      .release .ptable, .ret pid]
  | reapStat (pid : Int32) : Calls (.waitScan true) [.release .ptable, .waitStatus pid, .ret pid]
  | reap (pid : Int32) : Calls (.waitScan false) [.release .ptable, .ret pid]
  | noChildStat : Calls (.waitScan true) [.release .ptable, .waitStatus (-1), .ret (-1)]
  | noChild : Calls (.waitScan false) [.release .ptable, .ret (-1)]
  | waitSleep (stat : Bool) (me : Slot) : Calls (.waitScan stat)
      (sleep (.proc me) .ptable ++ [.waitScan stat])
  | noPid (pid : Int32) : Calls (.killScan pid) [.release .ptable, .ret (-1)]
  | found (pid : Int32) (p : Slot) : Calls (.killScan pid) [.acquire .tickslock, .killTtime p,
      .release .tickslock, .killWake p, .release .ptable, .ret 0]
  | sleepStart (n t : UInt32) : Calls (.sleepStart n) [.sleepLoop n t]
  | sleepEnd (n t : UInt32) (v : Int32) : Calls (.sleepLoop n t) [.release .tickslock, .ret v]
  | sleepMore (n t : UInt32) : Calls (.sleepLoop n t) (sleep .ticks .tickslock ++ [.sleepLoop n t])
  | uptime (v : Int32) : Calls .uptime [.release .tickslock, .ret v]
  | sysKilled : Calls .sysKilled exit
  | trapKilled : Calls (.trapKilled true) exit
  | trapYield : Calls .trapYield yield
  | schedLoop : Calls .schedLoop [.acquire .ptable, .schedScan 0, .release .ptable, .schedLoop]

theorem procEffect_code {me : Slot} {e : Effect} (h : s.procEffect me ch op k = some e) :
    e.code = k ∨ (∃ msg, e.code = [.panic msg]) ∨ ∃ l, Calls op l ∧ e.code = l ++ k := by
  have called : ∀ {l}, Calls op l → e.code = l ++ k →
      e.code = k ∨ (∃ msg, e.code = [.panic msg]) ∨ ∃ l, Calls op l ∧ e.code = l ++ k :=
    fun hl he => .inr (.inr ⟨_, hl, he⟩)
  cases op with
  | io =>
    cases ch with
    | done => cases h; exact .inl rfl
    | addr a => cases h
    | sleepOn lk chan => cases h; exact called (.sleepOn lk chan) rfl
    | wake lk chan => cases h; exact called (.wake lk chan) rfl
  | allocScan =>
    simp only [procEffect] at h
    split at h <;> cases h
    · exact called Calls.noSlot rfl
    · exact called (.slot _) rfl
  | allocStack p =>
    simp only [procEffect] at h
    split at h <;> cases h
    · exact called (.noStack p) rfl
    · exact called (.stack p) rfl
  | forkCopy p =>
    simp only [procEffect] at h
    split at h <;> cases h
    · exact called (.noCopy p) rfl
    · exact called (.copy p _) rfl
  | exitCheck =>
    simp only [procEffect] at h
    split_ifs at h <;> cases h
    · exact .inr (.inl ⟨_, rfl⟩)
    · exact .inl rfl
  | exitPass =>
    simp only [procEffect, some.injEq] at h
    exact .inl (by rw [← h])
  | waitScan stat =>
    simp only [procEffect] at h
    split at h
    · split_ifs at h with hst <;> cases h
      · subst hst; exact called (.reapStat _) rfl
      · have : stat = false := by simpa using hst
        subst this
        exact called (.reap _) rfl
    · split_ifs at h with hkids hst <;> cases h
      · subst hst; exact called Calls.noChildStat rfl
      · have : stat = false := by simpa using hst
        subst this
        exact called Calls.noChild rfl
      · exact called (.waitSleep stat me) rfl
  | killScan pid =>
    simp only [procEffect] at h
    split at h <;> cases h
    · exact called (.noPid pid) rfl
    · exact called (.found pid _) rfl
  | killWake p =>
    simp only [procEffect] at h
    split_ifs at h <;> cases h <;> exact .inl rfl
  | sleepStart n => cases h; exact called (.sleepStart n _) rfl
  | sleepLoop n t =>
    simp only [procEffect] at h
    split_ifs at h <;> cases h
    · exact called (.sleepEnd n t _) rfl
    · exact called (.sleepMore n t) rfl
    · exact called (.sleepEnd n t _) rfl
  | uptime => cases h; exact called (.uptime _) rfl
  | sysKilled =>
    simp only [procEffect, some.injEq] at h
    subst h
    split_ifs at called ⊢
    · exact called Calls.sysKilled rfl
    · exact .inl rfl
  | trapKilled user =>
    simp only [procEffect, some.injEq] at h
    subst h
    split_ifs at called ⊢ with hu
    · have : user = true := by simpa using (Bool.and_eq_true_iff.1 hu).2
      subst this
      exact called Calls.trapKilled rfl
    · exact .inl rfl
  | trapYield =>
    simp only [procEffect, some.injEq] at h
    subst h
    split_ifs at called ⊢
    · exact called Calls.trapYield rfl
    · exact .inl rfl
  | _ => cases h <;> exact .inl rfl

/-- **What a processor goes on with**: the code that follows the operation, or a
`panic` and nothing else, or a call before that code, or a context that was
saved. -/
theorem exec_code (h : s.exec c ch op k = some s') :
    (s'.cpu c).code = k ∨ (∃ msg, (s'.cpu c).code = [.panic msg]) ∨
    (∃ l, Calls op l ∧ (s'.cpu c).code = l ++ k) ∨
    (op = .sched ∧ (s'.cpu c).proc = none ∧ (s'.cpu c).code = (s.cpu c).scheduler) ∨
    (∃ i p, op = .schedScan i ∧ s.proc.pick i = some p ∧ (s'.cpu c).code = (s.proc p).context) := by
  cases exec_cases h with
  | panic msg _ => exact .inr (.inl ⟨msg, by simp⟩)
  | acquire _ | release _ | ticksInc | scanned => exact .inl (by simp)
  | switch _ _ => exact .inr (.inr (.inr (.inl ⟨rfl, by simp, by simp⟩)))
  | @dispatch i p hp => exact .inr (.inr (.inr (.inr ⟨i, p, rfl, hp, by simp [dispatch]⟩)))
  | @effect _ e _ he =>
    have hcode : ((s.apply c e).cpu c).code = e.code := by simp [apply]
    rw [hcode]
    unfold effect at he
    split at he
    · cases he; exact .inl rfl
    · cases he; exact .inl rfl
    · cases he; exact .inl rfl
    · cases he; exact .inr (.inr (.inl ⟨_, .schedLoop, rfl⟩))
    · split at he
      · rcases procEffect_code he with hc | hc | hc
        · exact .inl hc
        · exact .inr (.inl hc)
        · exact .inr (.inr (.inl hc))
      · split at he <;> cases he <;> exact .inl rfl

/-- The scheduler's context is set when the scheduler switches to a process. -/
theorem exec_scheduler (h : s.exec c ch op k = some s') :
    (s'.cpu c).scheduler = (s.cpu c).scheduler ∨
      ∃ i p, op = .schedScan i ∧ (s'.cpu c).scheduler = .schedScan (p + 1) :: k := by
  cases exec_cases h with
  | @dispatch i p _ => exact .inr ⟨i, p.val, rfl, by simp [dispatch]⟩
  | effect _ _ => exact .inl (by simp [apply])
  | _ => exact .inl (by simp)

/-- What holds of every saved scheduler context still does, if it holds of the one
that a switch to a process saves. -/
theorem exec_scheduler_forall {P : List Op → Prop} (hP : ∀ c, P (s.cpu c).scheduler)
    (hswitch : ∀ i p, op = .schedScan i → P (.schedScan p :: k))
    (h : s.exec c ch op k = some s') (c' : Cpu) : P (s'.cpu c').scheduler := by
  by_cases hc : c' = c
  · subst hc
    rcases exec_scheduler h with hsched | ⟨i, p, hop, hsched⟩
    · rw [hsched]; exact hP c'
    · rw [hsched]; exact hswitch i _ hop
  · rw [exec_cpu_ne h hc]; exact hP c'

/-- The same of the contexts of the processes, which `allocproc` and `sched` set. -/
theorem exec_context_forall {P : List Op → Prop} (hP : ∀ p, P (s.proc p).context)
    (hnew : P forkret) (hswitch : op = .sched → P k) (h : s.exec c ch op k = some s')
    (p : Slot) : P (s'.proc p).context := by
  have hch := exec_change h p
  rw [← Proc.core_context (s'.proc p)]
  generalize (s'.proc p).core = q' at hch
  cases hch with
  | tick => rw [Proc.core_context, Table.tick_context]; exact hP p
  | allocStack => exact hnew
  | switch _ => exact hswitch rfl
  | _ => exact hP p

theorem scheduler_goto (s : Kernel) (c c' : Cpu) (code : List Op) :
    ((s.goto c code).cpu c').scheduler = (s.cpu c').scheduler := by
  by_cases hc : c' = c
  · subst hc; simp
  · simp [hc]

/-- The code with which a processor enters the kernel. -/
inductive Entry (s : Kernel) (c : Cpu) : List Op → Prop
  | syscall {me} (call : Syscall) (hme : (s.cpu c).proc = some me) (hu : (s.cpu c).code = []) :
      Entry s c (trapSyscall (s.proc me) call)
  | timer (hi : s.interruptible c = true) : Entry s c (trapTimer c (s.inUser c))
  | intr (lk chan : Nat) (hi : s.interruptible c = true) :
      Entry s c (trapIntr lk chan (s.inUser c))
  | fault (hu : s.inUser c = true) : Entry s c trapFault

/-- **What a step is**: the execution of an operation, or an entry into the
kernel on top of the code that was being executed. -/
theorem step_cases {e : Event} (h : s.step e = some s') :
    (∃ c ch op k, e = .run c ch ∧ (s.cpu c).code = op :: k ∧ s.exec c ch op k = some s') ∨
    (∃ c code, (∀ c' ch, e ≠ .run c' ch) ∧ Entry s c code ∧
      s' = s.goto c (code ++ (s.cpu c).code)) := by
  cases e with
  | run c ch =>
    simp only [step] at h
    split at h
    · cases h
    · rename_i op k hk
      exact .inl ⟨c, ch, op, k, rfl, hk, h⟩
  | syscall c call =>
    simp only [step] at h
    split at h
    · cases h
    · rename_i me hme
      split_ifs at h with hu
      cases h
      exact .inr ⟨c, _, by simp, .syscall call hme hu, by simp [hu]⟩
  | timer c =>
    simp only [step] at h
    split_ifs at h with hi
    cases h
    exact .inr ⟨c, _, by simp, .timer hi, rfl⟩
  | intr c lk chan =>
    simp only [step] at h
    split_ifs at h with hi
    cases h
    exact .inr ⟨c, _, by simp, .intr lk chan hi, rfl⟩
  | fault c =>
    simp only [step] at h
    split_ifs at h with hu
    cases h
    have hcode : (s.cpu c).code = [] := by
      simp only [inUser, Bool.and_eq_true, List.isEmpty_iff] at hu
      exact hu.2
    exact .inr ⟨c, _, by simp, .fault hu, by simp [hcode]⟩

end Kernel

end Xv6
