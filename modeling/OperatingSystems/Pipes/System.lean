import Mathlib.Data.Fintype.Basic
import OperatingSystems.Lib.Machine
import OperatingSystems.Lib.Window

/-!
# Pipes

The model of `pipe.c`, with as much of `sleep`, `wakeup` and `kill` as concerns a pipe.  Any
number of processes call `pipewrite`, `piperead` and `pipeclose` on one pipe, in any
interleaving.  A process is at one of the places `Pc`; what it does there, up to the next
place, is `Pc.next`, and a step takes or gives back at most one lock (`Sync`).

Whoever is in `pipewrite` or `piperead` has a file for that end, so that an end is closed
only when no one uses it, and is not used after that.

* `machine`: the runs.
* `Pc.next_sync`: what a process holds before and after a step.
* `Locks`: who has the locks, in every state reached.
-/

namespace Xv6.Pipes

open Function Option

/-! ## The pipe -/

/-- `PIPESIZE`. -/
def PIPESIZE : Nat := 512

/-- `struct pipe`, without its lock. -/
structure Pipe where
  data : Nat → UInt8
  nread : UInt32
  nwrite : UInt32
  readopen : Bool
  writeopen : Bool

namespace Pipe

/-- What `pipealloc` makes. -/
def alloc (data : Nat → UInt8) : Pipe := ⟨data, 0, 0, true, true⟩

/-- `p->nwrite == p->nread + PIPESIZE`. -/
def Full (p : Pipe) : Prop := p.nwrite = p.nread + UInt32.ofNat PIPESIZE

/-- `p->nread == p->nwrite`. -/
def Empty (p : Pipe) : Prop := p.nread = p.nwrite

instance decidableFull (p : Pipe) : Decidable p.Full := inferInstanceAs (Decidable (_ = _))

instance decidableEmpty (p : Pipe) : Decidable p.Empty := inferInstanceAs (Decidable (_ = _))

/-- `p->data[p->nwrite++ % PIPESIZE] = x`. -/
def put (p : Pipe) (x : UInt8) : Pipe :=
  { p with
    data := update p.data (p.nwrite.toNat % PIPESIZE) x
    nwrite := p.nwrite + 1 }

/-- `p->data[p->nread % PIPESIZE]`. -/
def first (p : Pipe) : UInt8 := p.data (p.nread.toNat % PIPESIZE)

/-- `p->nread++`. -/
def drop (p : Pipe) : Pipe := { p with nread := p.nread + 1 }

/-- Whether the end for writing, or for reading, is open. -/
def isOpen (p : Pipe) (writable : Bool) : Bool := if writable then p.writeopen else p.readopen

/-- `p->writeopen = 0`, or `p->readopen = 0`. -/
def shut (p : Pipe) (writable : Bool) : Pipe :=
  if writable then { p with writeopen := false } else { p with readopen := false }

/-- What is in the pipe: the data at the positions `nread..nwrite` of the ring. -/
def content (p : Pipe) : List UInt8 := window PIPESIZE p.data p.nread p.nwrite

end Pipe

/-! ## Processes -/

/-- What processes sleep on: `&p->nread` and `&p->nwrite`. -/
inductive Chan
  | nread
  | nwrite
deriving DecidableEq

/-- The arguments of `pipewrite`. -/
structure Write where
  addr : Nat → UInt8
  n : Int

/-- A call that sleeps, with what it has done so far. -/
inductive Sleeper
  /-- `pipewrite`, which has stored `i` bytes. -/
  | write (c : Write) (i : Nat)
  /-- `piperead`. -/
  | read (n : Int)

/-- What the call sleeps on. -/
def Sleeper.chan : Sleeper → Chan
  | .write _ _ => .nwrite
  | .read _ => .nread

/-- Where a process is. -/
inductive Pc
  /-- Not in a call on the pipe; the last one has returned `ret`. -/
  | user (ret : Int)
  /-- `pipewrite`, at `acquire`. -/
  | writeStart (c : Write)
  /-- At the loop, after `i` bytes; `stored` is whether it has stored any since it got the
  lock. -/
  | writeLoop (c : Write) (i : Nat) (stored : Bool)
  /-- The pipe is full: at `wakeup(&p->nread)`. -/
  | writeFull (c : Write) (i : Nat)
  /-- After the loop: at `wakeup(&p->nread)`. -/
  | writeEnd (c : Write)
  /-- At `release`. -/
  | writeReturn (ret : Int)
  /-- `piperead`, at `acquire`. -/
  | readStart (n : Int)
  /-- At the loop that waits. -/
  | readWait (n : Int)
  /-- At the loop that copies, with what it has copied. -/
  | readLoop (n : Int) (got : List UInt8)
  /-- After the loop: at `wakeup(&p->nwrite)`. -/
  | readEnd (got : List UInt8)
  /-- At `release`. -/
  | readReturn (ret : Int) (got : List UInt8)
  /-- `pipeclose`, at `acquire`. -/
  | closeStart (writable : Bool)
  /-- With the lock. -/
  | closeFlag (writable : Bool)
  /-- At `wakeup`. -/
  | closeWake (writable : Bool)
  /-- At `release`. -/
  | closeEnd
  /-- `sleep`, with `p->lock`. -/
  | sleep (z : Sleeper)
  /-- `sleep`, with `ptable.lock`, about to be `SLEEPING`. -/
  | doze (z : Sleeper)
  /-- `SLEEPING`. -/
  | asleep (z : Sleeper)
  /-- Awake again: `sleep` is at `acquire(lk)`. -/
  | woken (z : Sleeper)

/-- What a step does with the locks. -/
inductive Sync
  | plain
  /-- `acquire(&p->lock)`. -/
  | acquire
  /-- `release(&p->lock)`. -/
  | release
  /-- `wakeup`, which takes `ptable.lock` and gives it back. -/
  | wakeup (ch : Chan)
  /-- `acquire(&ptable.lock); release(lk)`. -/
  | sleep
  /-- `proc->state = SLEEPING; sched()`, which gives `ptable.lock` back. -/
  | sched

/-- The next step of a process: what it does with the locks, the pipe and the place after
it.  A process that is asleep has none. -/
def Pc.next (p : Pipe) (killed : Bool) : Pc → Option (Sync × Pipe × Pc)
  | .user _ => none
  | .writeStart c => some (.acquire, p, .writeLoop c 0 false)
  | .writeLoop c i _ =>
    if i < c.n then
      if p.Full then
        if p.readopen = false ∨ killed = true then some (.plain, p, .writeReturn (-1))
        else some (.plain, p, .writeFull c i)
      else some (.plain, p.put (c.addr i), .writeLoop c (i + 1) true)
    else some (.plain, p, .writeEnd c)
  | .writeFull c i => some (.wakeup .nread, p, .sleep (.write c i))
  | .writeEnd c => some (.wakeup .nread, p, .writeReturn c.n)
  | .writeReturn ret => some (.release, p, .user ret)
  | .readStart n => some (.acquire, p, .readWait n)
  | .readWait n =>
    if p.Empty ∧ p.writeopen = true then
      if killed = true then some (.plain, p, .readReturn (-1) [])
      else some (.plain, p, .sleep (.read n))
    else some (.plain, p, .readLoop n [])
  | .readLoop n got =>
    if got.length < n ∧ ¬ p.Empty then some (.plain, p.drop, .readLoop n (got ++ [p.first]))
    else some (.plain, p, .readEnd got)
  | .readEnd got => some (.wakeup .nwrite, p, .readReturn got.length got)
  | .readReturn ret _ => some (.release, p, .user ret)
  | .closeStart writable => some (.acquire, p, .closeFlag writable)
  | .closeFlag writable => some (.plain, p.shut writable, .closeWake writable)
  | .closeWake writable => some (.wakeup (if writable then .nread else .nwrite), p, .closeEnd)
  | .closeEnd => some (.release, p, .user 0)
  | .sleep z => some (.sleep, p, .doze z)
  | .doze z => some (.sched, p, .asleep z)
  | .asleep _ => none
  | .woken (.write c i) => some (.acquire, p, .writeLoop c i false)
  | .woken (.read n) => some (.acquire, p, .readWait n)

namespace Pc

/-- The process has `p->lock`. -/
def Locked : Pc → Prop
  | .user _ | .writeStart _ | .readStart _ | .closeStart _ | .doze _ | .asleep _ | .woken _ => False
  | _ => True

/-- The process has `ptable.lock`. -/
def Dozes : Pc → Prop
  | .doze _ => True
  | _ => False

/-- The end of the pipe that the process reads or writes. -/
def uses : Pc → Option Bool
  | .writeStart _ | .writeLoop _ _ _ | .writeFull _ _ | .writeEnd _ | .writeReturn _ => some true
  | .readStart _ | .readWait _ | .readLoop _ _ | .readEnd _ | .readReturn _ _ => some false
  | .sleep (.write _ _) | .doze (.write _ _) | .asleep (.write _ _) | .woken (.write _ _) => some true
  | .sleep (.read _) | .doze (.read _) | .asleep (.read _) | .woken (.read _) => some false
  | _ => none

/-- The end of the pipe that the process is about to close. -/
def closes : Pc → Option Bool
  | .closeStart writable | .closeFlag writable => some writable
  | _ => none

def isUser : Pc → Bool
  | .user _ => true
  | _ => false

/-- `wakeup1` for one process. -/
def wake (ch : Chan) : Pc → Pc
  | .asleep z => if z.chan = ch then .woken z else .asleep z
  | q => q

/-- `kill`: a process that sleeps is woken. -/
def rouse : Pc → Pc
  | .asleep z => .woken z
  | q => q

end Pc

/-! ## Runs -/

/-- The pipe, its lock and `ptable.lock`, and the processes `ι`. -/
structure State (ι : Type) where
  pipe : Pipe
  lock : Option ι
  ptable : Option ι
  pc : ι → Pc
  killed : ι → Bool

inductive Event (ι : Type)
  /-- The process calls `pipewrite`. -/
  | write (i : ι) (c : Write)
  /-- The process calls `piperead`. -/
  | read (i : ι) (n : Int)
  /-- The last file for this end goes, and the process calls `pipeclose`. -/
  | close (i : ι) (writable : Bool)
  /-- The process is killed. -/
  | kill (i : ι)
  /-- Another process gets the slot. -/
  | reuse (i : ι)
  /-- The process goes on. -/
  | run (i : ι)

namespace State

variable {ι : Type} [DecidableEq ι]

def goto (s : State ι) (i : ι) (q : Pc) : State ι := { s with pc := update s.pc i q }

/-- `wakeup1`. -/
def wakeup (s : State ι) (ch : Chan) : State ι := { s with pc := fun j => (s.pc j).wake ch }

/-- What a step does with the locks, if they are free. -/
def sync (s : State ι) (i : ι) : Sync → Option (State ι)
  | .plain => some s
  | .acquire => if s.lock = none then some { s with lock := some i } else none
  | .release => some { s with lock := none }
  | .wakeup ch => if s.ptable = none then some (s.wakeup ch) else none
  | .sleep => if s.ptable = none then some { s with lock := none, ptable := some i } else none
  | .sched => some { s with ptable := none }

/-- A process goes on. -/
def run (s : State ι) (i : ι) : Option (State ι) :=
  match (s.pc i).next s.pipe (s.killed i) with
  | none => none
  | some (a, p, q) => (s.sync i a).map fun s' => { s' with pipe := p, pc := update s'.pc i q }

variable [Fintype ι]

/-- A call on an end of the pipe begins. -/
def enter (s : State ι) (i : ι) (writable : Bool) (q : Pc) : Option (State ι) :=
  if (s.pc i).isUser = true ∧ s.pipe.isOpen writable = true ∧
      ∀ j, (s.pc j).closes ≠ some writable then some (s.goto i q)
  else none

def step (s : State ι) : Event ι → Option (State ι)
  | .write i c => s.enter i true (.writeStart c)
  | .read i n => s.enter i false (.readStart n)
  | .close i writable =>
    if ∀ j, (s.pc j).uses ≠ some writable then s.enter i writable (.closeStart writable) else none
  | .kill i =>
    if s.ptable = none then
      some { s.goto i (s.pc i).rouse with killed := update s.killed i true }
    else none
  | .reuse i =>
    if (s.pc i).isUser = true then some { s with killed := update s.killed i false }
    else none
  | .run i => s.run i

end State

/-- The runs of the processes on a new pipe. -/
def machine (ι : Type) [DecidableEq ι] [Fintype ι] : Machine (State ι) (Event ι) where
  init s := ∃ (data : Nat → UInt8) (ret : ι → Int) (killed : ι → Bool),
    s = ⟨.alloc data, none, none, fun i => .user (ret i), killed⟩
  step := State.step

/-! ## Locks -/

/-- A step of this kind is made with `p->lock`. -/
def Sync.Holds : Sync → Prop
  | .acquire | .sched => False
  | _ => True

/-- A step of this kind leaves the process with `p->lock`. -/
def Sync.Keeps : Sync → Prop
  | .plain | .acquire | .wakeup _ => True
  | _ => False

section Next

variable {p p' : Pipe} {k : Bool} {a : Sync} {q q' : Pc}

/-- **What a step needs and leaves of the locks.** -/
theorem Pc.next_sync (h : q.next p k = some (a, p', q')) : (q.Locked ↔ a.Holds) ∧
    (q'.Locked ↔ a.Keeps) ∧ (q.Dozes ↔ a = .sched) ∧ (q'.Dozes ↔ a = .sleep) := by
  cases q with
  | user | asleep => cases h
  | writeLoop c i stored =>
    rw [Pc.next] at h
    split at h
    · split at h
      · split at h <;> (cases h; simp [Pc.Locked, Pc.Dozes, Sync.Holds, Sync.Keeps])
      · cases h
        simp [Pc.Locked, Pc.Dozes, Sync.Holds, Sync.Keeps]
    · cases h
      simp [Pc.Locked, Pc.Dozes, Sync.Holds, Sync.Keeps]
  | readWait n =>
    rw [Pc.next] at h
    split at h
    · split at h <;> (cases h; simp [Pc.Locked, Pc.Dozes, Sync.Holds, Sync.Keeps])
    · cases h
      simp [Pc.Locked, Pc.Dozes, Sync.Holds, Sync.Keeps]
  | readLoop n got =>
    rw [Pc.next] at h
    split at h <;> (cases h; simp [Pc.Locked, Pc.Dozes, Sync.Holds, Sync.Keeps])
  | woken z =>
    cases z <;> (cases h; simp [Pc.Locked, Pc.Dozes, Sync.Holds, Sync.Keeps])
  | writeStart | writeFull | writeEnd | writeReturn | readStart | readEnd | readReturn
  | closeStart | closeFlag | closeWake | closeEnd | sleep | doze =>
    cases h
    simp [Pc.Locked, Pc.Dozes, Sync.Holds, Sync.Keeps]

/-- Only a step that does nothing with the locks changes the pipe. -/
theorem Pc.next_pipe (h : q.next p k = some (a, p', q')) (ha : a ≠ .plain) : p' = p := by
  cases q with
  | user | asleep => cases h
  | writeLoop c i stored =>
    rw [Pc.next] at h
    split at h
    · split at h
      · split at h <;> (cases h; rfl)
      · cases h
        exact absurd rfl ha
    · cases h
      rfl
  | readWait n =>
    rw [Pc.next] at h
    split at h
    · split at h <;> (cases h; rfl)
    · cases h
      rfl
  | readLoop n got =>
    rw [Pc.next] at h
    split at h
    · cases h
      exact absurd rfl ha
    · cases h
      rfl
  | closeFlag writable =>
    cases h
    exact absurd rfl ha
  | woken z => cases z <;> (cases h; rfl)
  | writeStart | writeFull | writeEnd | writeReturn | readStart | readEnd | readReturn
  | closeStart | closeWake | closeEnd | sleep | doze =>
    cases h
    rfl

@[simp] theorem Pc.locked_wake (q : Pc) (ch : Chan) : (q.wake ch).Locked ↔ q.Locked := by
  cases q with
  | asleep z =>
    rw [Pc.wake]
    split <;> rfl
  | _ => rfl

@[simp] theorem Pc.dozes_wake (q : Pc) (ch : Chan) : (q.wake ch).Dozes ↔ q.Dozes := by
  cases q with
  | asleep z =>
    rw [Pc.wake]
    split <;> rfl
  | _ => rfl

theorem Pc.wake_of_locked {ch : Chan} (h : q.Locked) : q.wake ch = q := by
  cases q with
  | asleep z => exact h.elim
  | _ => rfl

theorem Pc.rouse_of_locked (h : q.Locked) : q.rouse = q := by
  cases q with
  | asleep z => exact h.elim
  | _ => rfl

end Next

section Synced

variable {ι : Type}

theorem State.run_some [DecidableEq ι] {s s' : State ι} {i : ι} (h : s.run i = some s') :
    ∃ a p q s₁, (s.pc i).next s.pipe (s.killed i) = some (a, p, q) ∧ s.sync i a = some s₁ ∧
      s' = { s₁ with pipe := p, pc := update s₁.pc i q } := by
  unfold State.run at h
  split at h
  next => cases h
  next a p q hn =>
    obtain ⟨s₁, hs, rfl⟩ := map_eq_some_iff.1 h
    exact ⟨a, p, q, s₁, hn, hs, rfl⟩

/-- Who has `p->lock` after it. -/
def Sync.lock (i : ι) (l : Option ι) : Sync → Option ι
  | .acquire => some i
  | .release | .sleep => none
  | _ => l

/-- Who has `ptable.lock` after it. -/
def Sync.ptable (i : ι) (l : Option ι) : Sync → Option ι
  | .sleep => some i
  | .sched => none
  | _ => l

/-- Where another process is after it. -/
def Sync.other (q : Pc) : Sync → Pc
  | .wakeup ch => q.wake ch
  | _ => q

/-- What is done with the locks. -/
structure Synced (s : State ι) (i : ι) (a : Sync) (s₁ : State ι) : Prop where
  lock : s₁.lock = a.lock i s.lock
  ptable : s₁.ptable = a.ptable i s.ptable
  pc : ∀ j, s₁.pc j = a.other (s.pc j)
  free : a = .acquire → s.lock = none
  quiet : (a = .sleep ∨ ∃ ch, a = .wakeup ch) → s.ptable = none
  killed : s₁.killed = s.killed

theorem State.sync_some {s s₁ : State ι} {i : ι} {a : Sync} (h : s.sync i a = some s₁) :
    Synced s i a s₁ := by
  cases a with
  | plain | release | sched =>
    cases h
    exact ⟨rfl, rfl, fun _ => rfl, (nomatch ·), by simp, rfl⟩
  | acquire =>
    rw [State.sync] at h
    split at h
    next hl =>
      cases h
      exact ⟨rfl, rfl, fun _ => rfl, fun _ => hl, by simp, rfl⟩
    next => cases h
  | wakeup ch | sleep =>
    rw [State.sync] at h
    split at h
    next hp =>
      cases h
      exact ⟨rfl, rfl, fun _ => rfl, (nomatch ·), fun _ => hp, rfl⟩
    next => cases h

/-- Who has the locks. -/
structure Locks (s : State ι) : Prop where
  lock : ∀ i, s.lock = some i ↔ (s.pc i).Locked
  ptable : ∀ i, s.ptable = some i ↔ (s.pc i).Dozes

theorem Locks.only {s : State ι} (h : Locks s) {i j : ι} (hi : (s.pc i).Locked)
    (hj : (s.pc j).Locked) : i = j :=
  some.inj (((h.lock i).2 hi).symm.trans ((h.lock j).2 hj))

theorem Pc.not_locked_of_isUser {q : Pc} (h : q.isUser = true) : ¬ q.Locked ∧ ¬ q.Dozes := by
  cases q with
  | user => exact ⟨id, id⟩
  | _ => cases h

end Synced

section Step

variable {ι : Type} [DecidableEq ι]

theorem Locks.goto {s : State ι} (h : Locks s) {i : ι} {q : Pc} (hl : ¬ (s.pc i).Locked)
    (hl' : ¬ q.Locked) (hd : (s.pc i).Dozes ↔ q.Dozes) : Locks (s.goto i q) where
  lock j := by
    show s.lock = some j ↔ (update s.pc i q j).Locked
    by_cases hj : j = i
    · rw [hj, update_self, h.lock]
      exact iff_of_false hl hl'
    · rw [update_of_ne hj, h.lock]
  ptable j := by
    show s.ptable = some j ↔ (update s.pc i q j).Dozes
    by_cases hj : j = i
    · rw [hj, update_self, h.ptable, hd]
    · rw [update_of_ne hj, h.ptable]

theorem Locks.run {s s' : State ι} (h : Locks s) {i : ι} (hs : s.run i = some s') : Locks s' := by
  obtain ⟨a, p, q, s₁, hn, hsync, rfl⟩ := State.run_some hs
  obtain ⟨hhold, hkeep, hdoze, hdoze'⟩ := Pc.next_sync hn
  obtain ⟨hlock, hptable, hpc, hfree, hquiet, -⟩ := State.sync_some hsync
  constructor
  · intro j
    show s₁.lock = some j ↔ (update s₁.pc i q j).Locked
    by_cases hj : j = i
    · rw [hj, update_self, hkeep, hlock]
      cases a with
      | plain | wakeup => exact iff_of_true ((h.lock i).2 (hhold.2 trivial)) trivial
      | acquire => exact iff_of_true rfl trivial
      | release | sleep => exact iff_of_false nofun id
      | sched => exact iff_of_false (fun hl => hhold.1 ((h.lock i).1 hl)) id
    · have hrest : (s₁.pc j).Locked ↔ s.lock = some j := by
        rw [hpc, h.lock]
        cases a <;> simp [Sync.other]
      rw [update_of_ne hj, hrest, hlock]
      cases a with
      | plain | wakeup | sched => exact .rfl
      | acquire =>
        rw [hfree rfl]
        exact iff_of_false (fun he => hj (some.inj he).symm) nofun
      | release | sleep =>
        rw [(h.lock i).2 (hhold.2 trivial)]
        exact iff_of_false nofun fun he => hj (some.inj he).symm
  · intro j
    show s₁.ptable = some j ↔ (update s₁.pc i q j).Dozes
    by_cases hj : j = i
    · rw [hj, update_self, hdoze', hptable]
      have hnot : a ≠ .sched → s.ptable ≠ some i := fun ha hp => ha (hdoze.1 ((h.ptable i).1 hp))
      cases a with
      | plain | acquire | release | wakeup => exact iff_of_false (hnot nofun) nofun
      | sleep => exact iff_of_true rfl rfl
      | sched => exact iff_of_false nofun nofun
    · have hrest : (s₁.pc j).Dozes ↔ s.ptable = some j := by
        rw [hpc, h.ptable]
        cases a <;> simp [Sync.other]
      rw [update_of_ne hj, hrest, hptable]
      cases a with
      | plain | acquire | release | wakeup => exact .rfl
      | sleep =>
        rw [hquiet (.inl rfl)]
        exact iff_of_false (fun he => hj (some.inj he).symm) nofun
      | sched =>
        rw [(h.ptable i).2 (hdoze.2 rfl)]
        exact iff_of_false nofun fun he => hj (some.inj he).symm

variable [Fintype ι]

theorem State.enter_some {s s' : State ι} {i : ι} {writable : Bool} {q : Pc}
    (h : s.enter i writable q = some s') : (s.pc i).isUser = true ∧ s.pipe.isOpen writable = true ∧
      (∀ j, (s.pc j).closes ≠ some writable) ∧ s' = s.goto i q := by
  unfold State.enter at h
  split at h
  next hc =>
    cases h
    exact ⟨hc.1, hc.2.1, hc.2.2, rfl⟩
  next => cases h

theorem State.step_close {s s' : State ι} {i : ι} {writable : Bool}
    (h : s.step (.close i writable) = some s') : (∀ j, (s.pc j).uses ≠ some writable) ∧
      s.enter i writable (.closeStart writable) = some s' :=
  ite_none_right_eq_some.1 h

theorem State.step_kill {s s' : State ι} {i : ι} (h : s.step (.kill i) = some s') :
    s' = { s.goto i (s.pc i).rouse with killed := update s.killed i true } := by
  obtain ⟨-, h⟩ := ite_none_right_eq_some.1 h
  exact (some.inj h).symm

theorem State.step_reuse {s s' : State ι} {i : ι} (h : s.step (.reuse i) = some s') :
    s' = { s with killed := update s.killed i false } := by
  obtain ⟨-, h⟩ := ite_none_right_eq_some.1 h
  exact (some.inj h).symm

theorem Locks.step {s s' : State ι} (h : Locks s) {ev : Event ι} (hs : s.step ev = some s') :
    Locks s' := by
  cases ev with
  | write i c | read i n =>
    obtain ⟨hu, -, -, rfl⟩ := State.enter_some hs
    obtain ⟨hl, hd⟩ := Pc.not_locked_of_isUser hu
    exact h.goto hl id (iff_of_false hd id)
  | close i writable =>
    obtain ⟨-, hs⟩ := State.step_close hs
    obtain ⟨hu, -, -, rfl⟩ := State.enter_some hs
    obtain ⟨hl, hd⟩ := Pc.not_locked_of_isUser hu
    exact h.goto hl id (iff_of_false hd id)
  | kill i =>
    obtain rfl := State.step_kill hs
    by_cases hl : (s.pc i).Locked
    · have hself : s.goto i (s.pc i).rouse = s := by
        rw [Pc.rouse_of_locked hl, State.goto, update_eq_self]
      rw [hself]
      exact ⟨h.lock, h.ptable⟩
    · have hrouse : ¬ (s.pc i).rouse.Locked ∧ ((s.pc i).Dozes ↔ (s.pc i).rouse.Dozes) := by
        cases hq : s.pc i with
        | asleep z => exact ⟨id, .rfl⟩
        | _ =>
          rw [hq] at hl
          exact ⟨hl, .rfl⟩
      have := h.goto hl hrouse.1 hrouse.2
      exact ⟨this.lock, this.ptable⟩
  | reuse i =>
    obtain rfl := State.step_reuse hs
    exact ⟨h.lock, h.ptable⟩
  | run i => exact h.run hs

end Step

end Xv6.Pipes
