import Mathlib.Algebra.Ring.Int.Defs
import Mathlib.Algebra.Ring.Nat
import Mathlib.Data.List.FinRange
import Mathlib.Data.Fintype.Basic

/-!
# The process table

The data of `proc.h` and the loops over `ptable.proc` in `proc.c`, as functions
on tables: what `wakeup1`, `update_stat`, `allocproc`, `kill`, `wait`,
`wait_stat`, `exit` and `scheduler` read and write while they hold
`ptable.lock`.  The locks themselves, and the order in which the processors
take them, are the business of `OperatingSystems.Proc.Kernel`.

A pointer to a `struct proc` is a slot number, and a null pointer is `none`.
The `uint` counters wrap as they do in C.  Left out of `struct proc` are `tf`
(only its `eax`, the value a system call returns, is kept), `ofile` and `cwd`,
which no loop over the table reads.

* `Wakes` — some sleepers have been made runnable and some parents changed: what
  `wakeup1` and the loop of `exit` do to a table.
* `pick_eq_find` — the loop of `scheduler` takes the first runnable slot: `first` is
  declared inside it, so that creation times are never compared.
-/

namespace Xv6

/-- Maximum number of processes. -/
def NPROC : Nat := 64

/-- Maximum number of CPUs. -/
def NCPU : Nat := 8

instance : NeZero NPROC := ⟨by decide⟩

instance : NeZero NCPU := ⟨by decide⟩

/-- A pointer into `ptable.proc`. -/
abbrev Slot := Fin NPROC

/-- An index into `cpus`. -/
abbrev Cpu := Fin NCPU

/-- `enum procstate`. -/
inductive ProcState
  | UNUSED | EMBRYO | SLEEPING | RUNNABLE | RUNNING | ZOMBIE
  deriving DecidableEq, Repr

/-- What a sleep channel points to: a process slot (`wait`), the tick counter
(`sys_sleep`), or some other kernel object. -/
inductive Chan
  | proc (p : Slot)
  | ticks
  | other (n : Nat)
  deriving DecidableEq, Repr

/-- The spinlocks: the two of `proc.c` and `trap.c`, and those of the drivers
and the file system. -/
inductive Lock
  | ptable
  | tickslock
  | other (n : Nat)
  deriving DecidableEq, Repr

/-! What holds of all machine integers is not decided by trying them one after the other,
which is what an instance found by enumeration would do. -/

noncomputable instance (priority := high) decidableForallInt32 {P : Int32 → Prop} :
    Decidable (∀ n, P n) :=
  Classical.propDecidable _

noncomputable instance (priority := high) decidableForallUInt32 {P : UInt32 → Prop} :
    Decidable (∀ n, P n) :=
  Classical.propDecidable _

/-- The atomic steps of the kernel code of `proc.c`, `trap.c` and `sysproc.c`.
A routine is a list of them; `OperatingSystems.Proc.Kernel` says what each one
does.  Those with a slot argument work on the slot a `struct proc *` variable
of the routine points to. -/
inductive Op
  | acquire (lk : Lock)
  | release (lk : Lock)
  | panic (msg : String)
  | ret (v : Int32)
  | iret
  | io
  | wakeup1 (chan : Chan)
  | sleepSet (chan : Chan)
  | sched
  | sleepTidy
  | yieldSet
  | allocScan
  | allocStack (p : Slot)
  | allocCtime (p : Slot)
  | allocZero (p : Slot)
  | forkCopy (p : Slot)
  | forkRun (p : Slot)
  | exitCheck
  | exitPass
  | exitTtime
  | exitZombie
  | waitScan (stat : Bool)
  | waitStatus (v : Int32)
  | killScan (pid : Int32)
  | killTtime (p : Slot)
  | killWake (p : Slot)
  | sleepStart (n : UInt32)
  | sleepLoop (n ticks0 : UInt32)
  | uptime
  | ticksInc
  | updateStat
  | sysKilled
  | setKilled
  | trapKilled (user : Bool)
  | trapYield
  | schedLoop
  | schedScan (i : Nat)
  deriving DecidableEq, Repr

/-- The four integers `wait_stat` writes through its arguments. -/
structure WaitStat where
  wtime : UInt32 := 0
  rtime : UInt32 := 0
  iotime : UInt32 := 0
  status : Int32 := 0
  deriving DecidableEq, Repr, Inhabited

/-- `struct proc`. -/
structure Proc where
  /-- Size of process memory (bytes). -/
  sz : UInt32 := 0
  /-- Page table; `0` is the null pointer. -/
  pgdir : Nat := 0
  /-- Bottom of the kernel stack; `0` is the null pointer. -/
  kstack : Nat := 0
  /-- Process state. -/
  state : ProcState := .UNUSED
  /-- Process ID. -/
  pid : Int32 := 0
  /-- Parent process. -/
  parent : Option Slot := none
  /-- What the process resumes with when the scheduler switches to it. -/
  context : List Op := []
  /-- The value its last system call returned (`tf->eax`). -/
  eax : Int32 := 0
  /-- If not null, sleeping on chan. -/
  chan : Option Chan := none
  /-- If set, has been killed. -/
  killed : Bool := false
  /-- Process name (debugging). -/
  name : List UInt8 := []
  /-- Creation time. -/
  ctime : UInt32 := 0
  /-- Termination time. -/
  ttime : UInt32 := 0
  /-- Ticks spent sleeping. -/
  stime : UInt32 := 0
  /-- Ticks spent ready. -/
  retime : UInt32 := 0
  /-- Ticks spent running. -/
  rutime : UInt32 := 0
  /-- The caller's variables that `wait_stat` was given pointers to. -/
  wstat : WaitStat := {}
  deriving Inhabited

/-- `ptable.proc`. -/
abbrev Table := Slot → Proc

/-- The slots in the order in which every loop visits them. -/
def slots : List Slot := List.finRange NPROC

@[simp] theorem mem_slots (p : Slot) : p ∈ slots := List.mem_finRange p

variable {t : Table}

namespace Table

open ProcState

/-! ## Waking and counting -/

/-- `wakeup1`: make every process sleeping on `chan` runnable. -/
def wakeup1 (chan : Option Chan) (t : Table) : Table := fun p =>
  if (t p).state = SLEEPING ∧ (t p).chan = chan then { t p with state := RUNNABLE } else t p

/-- The body of the loop of `update_stat`. -/
def tick (q : Proc) : Proc :=
  if q.state = RUNNING then { q with rutime := q.rutime + 1 }
  else if q.state = SLEEPING then { q with stime := q.stime + 1 }
  else if q.state = RUNNABLE then { q with retime := q.retime + 1 }
  else q

/-- `update_stat`: charge the tick to what each process is doing. -/
def updateStat (t : Table) : Table := fun p => tick (t p)

/-! ## Allocation and reaping -/

/-- The loop of `allocproc`: the first unused slot. -/
def firstUnused (t : Table) : Option Slot := slots.find? fun p => (t p).state = UNUSED

/-- The loop of `kill`: the first slot with the given pid, whatever its state. -/
def firstPid (t : Table) (pid : Int32) : Option Slot := slots.find? fun p => (t p).pid = pid

/-- The loop of `wait` and `wait_stat`: the first zombie child of `me` from the
given slots on, and `havekids`. -/
def lookChildren (t : Table) (me : Slot) : List Slot → Bool → Option Slot × Bool
  | [], havekids => (none, havekids)
  | p :: ps, havekids =>
    if (t p).parent ≠ some me then lookChildren t me ps havekids
    else if (t p).state = ZOMBIE then (some p, true)
    else lookChildren t me ps true

/-- What `wait` leaves in the slot of the child it reaps. -/
def reap (q : Proc) : Proc :=
  { q with kstack := 0, state := UNUSED, pid := 0, parent := none, name := q.name.set 0 0,
           killed := false }

/-- What `wait_stat` leaves there. -/
def reapStat (q : Proc) : Proc :=
  { q with kstack := 0, state := UNUSED, pid := 0, parent := none, name := q.name.set 0 0,
           killed := false, retime := 0, rutime := 0, ttime := 0, ctime := 0, stime := 0 }

/-! ## Passing the children of an exiting process to init -/

/-- The body of the loop of `exit`, for the slot `p`. -/
def passChild (me initproc : Slot) (t : Table) (p : Slot) : Table :=
  if (t p).parent = some me then
    let t' := Function.update t p { t p with parent := some initproc }
    if (t' p).state = ZOMBIE then wakeup1 (some (.proc initproc)) t' else t'
  else t

/-- The loop of `exit`: pass abandoned children to init. -/
def passChildren (me initproc : Slot) (t : Table) : Table :=
  slots.foldl (passChild me initproc) t

/-! ## Choosing a process to run -/

/-- One iteration of the loop of `scheduler`: the slot it switches to, if it
switches at all. -/
def schedBody (t : Table) (p : Slot) : Option Slot :=
  -- `struct proc *first = 0;` stands inside the loop
  let first : Option Slot := none
  if (t p).state ≠ RUNNABLE then none
  else
    let first :=
      match first with
      | some f => if (t p).ctime < (t f).ctime then some p else first
      | none => some p
    match first with
    | some f => some f
    | none => some p

/-- The loop of `scheduler` from slot number `i` up to its next switch. -/
def pick (t : Table) (i : Nat) : Option Slot := (slots.drop i).findSome? (schedBody t)

/-! ## What these loops leave alone -/

/-- `t'` is `t` after some sleepers were made runnable and some parents were
replaced; nothing else about any slot differs. -/
def Wakes (t t' : Table) : Prop :=
  ∀ p, ∃ st pa, t' p = { t p with state := st, parent := pa } ∧
    (st = (t p).state ∨ ((t p).state = SLEEPING ∧ st = RUNNABLE))

theorem Wakes.refl (t : Table) : Wakes t t := fun _ => ⟨_, _, rfl, .inl rfl⟩

theorem Wakes.trans {t u v : Table} (h₁ : Wakes t u) (h₂ : Wakes u v) : Wakes t v := by
  intro p
  obtain ⟨st, pa, hu, hst⟩ := h₁ p
  obtain ⟨st', pa', hv, hst'⟩ := h₂ p
  refine ⟨st', pa', by rw [hv, hu], ?_⟩
  rw [hu] at hst'
  rcases hst' with rfl | ⟨hs, rfl⟩
  · exact hst
  · rcases hst with rfl | ⟨hs', rfl⟩
    · exact .inr ⟨hs, rfl⟩
    · exact .inr ⟨hs', rfl⟩

theorem wakes_wakeup1 (chan : Option Chan) (t : Table) : Wakes t (wakeup1 chan t) := by
  intro p
  by_cases h : (t p).state = SLEEPING ∧ (t p).chan = chan
  · exact ⟨RUNNABLE, (t p).parent, by simp [wakeup1, h], .inr ⟨h.1, rfl⟩⟩
  · exact ⟨(t p).state, (t p).parent, by simp [wakeup1, h], .inl rfl⟩

theorem wakes_passChild (me initproc : Slot) (t : Table) (p : Slot) :
    Wakes t (passChild me initproc t p) := by
  have hup : Wakes t (Function.update t p { t p with parent := some initproc }) := by
    intro q
    by_cases hq : q = p
    · subst hq
      exact ⟨(t q).state, some initproc, by simp, .inl rfl⟩
    · exact ⟨(t q).state, (t q).parent, by simp [hq], .inl rfl⟩
  unfold passChild
  split
  · simp only
    split
    · exact hup.trans (wakes_wakeup1 _ _)
    · exact hup
  · exact .refl t

/-- The whole loop of `exit` only wakes sleepers and changes parents. -/
theorem wakes_passChildren (me initproc : Slot) (t : Table) :
    Wakes t (passChildren me initproc t) := by
  unfold passChildren
  -- one iteration at a time
  induction slots generalizing t with
  | nil => exact .refl t
  | cons p ps ih => exact (wakes_passChild me initproc t p).trans (ih _)

section Wakes

variable {t t' : Table} (h : Wakes t t') (p : Slot)
include h

theorem Wakes.state_eq_or : (t' p).state = (t p).state ∨
    ((t p).state = SLEEPING ∧ (t' p).state = RUNNABLE) := by
  obtain ⟨st, pa, hp, hst⟩ := h p
  simpa [hp] using hst

theorem Wakes.state_iff {st : ProcState} (h1 : st ≠ SLEEPING) (h2 : st ≠ RUNNABLE) :
    (t' p).state = st ↔ (t p).state = st := by
  rcases h.state_eq_or p with he | ⟨hs, hr⟩
  · rw [he]
  · rw [hs, hr]
    exact ⟨fun hc => absurd hc.symm h2, fun hc => absurd hc.symm h1⟩

end Wakes

@[simp] theorem tick_state (q : Proc) : (tick q).state = q.state := by
  unfold tick; split_ifs <;> rfl

@[simp] theorem tick_context (q : Proc) : (tick q).context = q.context := by
  unfold tick; split_ifs <;> rfl

@[simp] theorem tick_killed (q : Proc) : (tick q).killed = q.killed := by
  unfold tick; split_ifs <;> rfl

@[simp] theorem tick_pid (q : Proc) : (tick q).pid = q.pid := by
  unfold tick; split_ifs <;> rfl

/-! ## What the loops find -/

theorem firstUnused_state {p : Slot} (h : firstUnused t = some p) : (t p).state = UNUSED := by
  have := List.find?_some h
  simpa using this

theorem firstPid_pid {pid : Int32} {p : Slot} (h : firstPid t pid = some p) : (t p).pid = pid := by
  have := List.find?_some h
  simpa using this

theorem firstPid_eq_none {pid : Int32} : firstPid t pid = none ↔ ∀ p, (t p).pid ≠ pid := by
  simp [firstPid, List.find?_eq_none]

theorem lookChildren_zombie {me : Slot} : ∀ {ps : List Slot} {kids kids' : Bool}
    {p : Slot}, lookChildren t me ps kids = (some p, kids') →
      (t p).state = ZOMBIE ∧ (t p).parent = some me := by
  intro ps
  induction ps with
  | nil => intro kids kids' p h; simp [lookChildren] at h
  | cons q ps ih =>
    intro kids kids' p h
    rw [lookChildren] at h
    split_ifs at h with hpar hz
    · exact ih h
    · obtain ⟨rfl, -⟩ := Prod.mk.inj h |>.imp Option.some.inj id
      exact ⟨hz, not_not.1 hpar⟩
    · exact ih h

/-- One iteration of `scheduler` switches to the slot it looks at, whenever that
slot is runnable: the creation time is never consulted. -/
theorem schedBody_eq (t : Table) (p : Slot) :
    schedBody t p = if (t p).state = RUNNABLE then some p else none := by
  by_cases h : (t p).state = RUNNABLE <;> simp [schedBody, h]

/-- **What `scheduler` selects**: the first runnable slot at or after the place
its loop has reached. -/
theorem pick_eq_find (t : Table) (i : Nat) :
    pick t i = (slots.drop i).find? fun p => (t p).state = RUNNABLE := by
  unfold pick
  -- the two searches agree on every list of slots
  induction slots.drop i with
  | nil => rfl
  | cons p ps ih =>
    rw [List.findSome?_cons, List.find?_cons, schedBody_eq]
    by_cases hp : (t p).state = RUNNABLE
    · simp [hp]
    · simp [hp, ih]

theorem pick_state {i : Nat} {p : Slot} (h : pick t i = some p) : (t p).state = RUNNABLE := by
  rw [pick_eq_find] at h
  have := List.find?_some h
  simpa using this

end Table

end Xv6
