import OperatingSystems.Lib.Machine
import OperatingSystems.Proc.Table

/-!
# The processors and the kernel code they run

The concurrent half of the model of `proc.c`, `trap.c`, `sysproc.c` and
`spinlock.c`.  Up to `NCPU` processors execute kernel code, and any
interleaving of their atomic steps is a run.

A routine of the source is a list of operations (`Op`), written in the order of
its statements, and every `acquire` and every `release` is an operation of its
own.  The kernel code a processor has still to execute is such a list too: its
head is executed next and may push the operations of the routine it calls.  The
empty list is user mode.  `sched` saves the rest of the list as the context of
the process and resumes the scheduler's; `schedScan` does the reverse.

What the model does not follow is passed in as a choice made when the operation
is executed: the pointer `kalloc` or `copyuvm` returns (`0` when memory is
exhausted), and what the rest of the kernel does at `io`: sleep on a channel of
its own under a lock of its own, wake such a channel, or return.  A processor
that panics stays at the `panic` and drops the rest of its code.

Interrupts arrive between any two operations of a processor that holds no lock
and is not already in an interrupt handler (`Event.timer`, `Event.intr`).
-/

namespace Xv6

open ProcState Function

/-- Per-CPU state. -/
structure CpuState where
  /-- The currently-running process. -/
  proc : Option Slot := none
  /-- The kernel code still to be executed; empty in user mode. -/
  code : List Op := []
  /-- The scheduler's context, to be resumed by `sched`. -/
  scheduler : List Op := []
  /-- The locks acquired and not yet released; their number is `ncli`, the depth
  of `pushcli` nesting. -/
  held : List Lock := []
  deriving Inhabited

/-- The state of the machine. -/
structure Kernel where
  /-- `ptable.proc`. -/
  proc : Table
  /-- The slot of the first user process. -/
  initproc : Slot
  /-- The next process ID to hand out. -/
  nextpid : Int32
  /-- The tick counter of `trap.c`. -/
  ticks : UInt32
  /-- The processor that holds each lock, if it is locked. -/
  lock : Lock → Option Cpu
  /-- `cpus`. -/
  cpu : Cpu → CpuState

/-- What the part of the kernel outside this model decides at an operation. -/
inductive Choice
  /-- Nothing: the operation takes no choice, or the I/O is over. -/
  | done
  /-- The address returned by `kalloc` or `copyuvm`; `0` is failure. -/
  | addr (a : Nat)
  /-- Sleep on a channel, under a lock of the caller's. -/
  | sleepOn (lk chan : Nat)
  /-- Wake up a channel, under a lock of the caller's. -/
  | wake (lk chan : Nat)
  deriving DecidableEq, Repr

/-! ## The routines -/

/-- `wakeup`. -/
def wakeup (chan : Chan) : List Op :=
  [.acquire .ptable, .wakeup1 chan, .release .ptable]

/-- `update_stat`. -/
def updateStat : List Op := [.acquire .ptable, .updateStat, .release .ptable]

/-- `sleep`, called with the lock `lk` held. -/
def sleep (chan : Chan) (lk : Lock) : List Op :=
  if lk = .ptable then [.sleepSet chan, .sched, .sleepTidy]
  else [.acquire .ptable, .release lk, .sleepSet chan, .sched, .sleepTidy, .release .ptable,
    .acquire lk]

/-- `yield`. -/
def yield : List Op := [.acquire .ptable, .yieldSet, .sched, .release .ptable]

/-- `forkret`: where a new process starts executing.  The `io` is the
initialisation of the file system, done by the first process to get here. -/
def forkret : List Op := [.release .ptable, .io]

/-- `fork`, which starts with the call to `allocproc`. -/
def fork : List Op := [.acquire .ptable, .allocScan]

/-- `exit`; the `io` closes the open files and drops the current directory. -/
def exit : List Op :=
  [.exitCheck, .io, .acquire .ptable, .exitPass, .acquire .tickslock, .exitTtime,
    .release .tickslock, .exitZombie, .sched, .panic "zombie exit"]

/-- `wait`. -/
def wait : List Op := [.acquire .ptable, .waitScan false]

/-- `wait_stat`. -/
def waitStat : List Op := [.acquire .ptable, .waitScan true]

/-- `kill`. -/
def kill (pid : Int32) : List Op := [.acquire .ptable, .killScan pid]

/-- `sys_sleep`.  The loop compares unsigned, so `n` is taken modulo `2^32`. -/
def sysSleep (n : UInt32) : List Op := [.acquire .tickslock, .sleepStart n]

/-- `sys_uptime`. -/
def sysUptime : List Op := [.acquire .tickslock, .uptime]

/-- The system calls. -/
inductive Syscall
  | fork | exit | wait | waitStat
  | kill (pid : Int32)
  | sleep (n : UInt32)
  | uptime
  | getpid
  /-- Any call into the part of the kernel outside this model. -/
  | other
  deriving DecidableEq, Repr

/-- `syscall`: the dispatch on the system call number. -/
def syscall (me : Proc) : Syscall → List Op
  | .fork => fork
  | .exit => exit
  | .wait => wait
  | .waitStat => waitStat
  | .kill pid => kill pid
  | .sleep n => sysSleep n
  | .uptime => sysUptime
  | .getpid => [.ret me.pid]
  | .other => [.io]

/-- `trap` on a system call. -/
def trapSyscall (me : Proc) (call : Syscall) : List Op :=
  [.sysKilled] ++ syscall me call ++ [.sysKilled]

/-- What `trap` does on the clock interrupt of processor 0. -/
def timerBranch : List Op :=
  [.acquire .tickslock, .ticksInc] ++ updateStat ++ wakeup .ticks ++ [.release .tickslock]

/-- `trap` on a timer interrupt of processor `c`, which interrupted user code
(`user`) or the kernel. -/
def trapTimer (c : Cpu) (user : Bool) : List Op :=
  (if c.val = 0 then timerBranch else []) ++
    [.trapKilled user, .trapYield, .trapKilled user, .iret]

/-- `trap` on a device interrupt whose handler takes its lock and wakes up a
channel (`ideintr`, `kbdintr`, `uartintr`). -/
def trapIntr (lk chan : Nat) (user : Bool) : List Op :=
  [.acquire (.other lk)] ++ wakeup (.other chan) ++
    [.release (.other lk), .trapKilled user, .trapKilled user, .iret]

/-- `trap` on a fault of user code. -/
def trapFault : List Op := [.setKilled, .trapKilled true, .trapKilled true, .iret]

/-! ## The atomic operations -/

namespace Kernel

/-- Replace the slot `p` by what `f` makes of it. -/
@[simps -fullyApplied]
def modify (s : Kernel) (p : Slot) (f : Proc → Proc) : Kernel :=
  { s with proc := update s.proc p (f (s.proc p)) }

/-- Replace the state of processor `c` by what `f` makes of it. -/
@[simps -fullyApplied]
def modifyCpu (s : Kernel) (c : Cpu) (f : CpuState → CpuState) : Kernel :=
  { s with cpu := update s.cpu c (f (s.cpu c)) }

/-- Processor `c` goes on with `code`. -/
@[simps! -fullyApplied]
def goto (s : Kernel) (c : Cpu) (code : List Op) : Kernel :=
  s.modifyCpu c fun x => { x with code := code }

/-- Set the holder of a lock. -/
@[simps -fullyApplied]
def setLock (s : Kernel) (lk : Lock) (holder : Option Cpu) : Kernel :=
  { s with lock := update s.lock lk holder }

/-- `acquire`, `pushcli` included.  While another processor holds the lock the
`xchg` loop spins and the operation is not enabled. -/
def acquireLock (s : Kernel) (c : Cpu) (lk : Lock) (k : List Op) : Option Kernel :=
  match s.lock lk with
  | none => some (((s.setLock lk (some c)).modifyCpu c fun x =>
    { x with held := lk :: x.held }).goto c k)
  | some h => if h = c then some (s.goto c [.panic "acquire"]) else none

/-- `release`, `popcli` included. -/
def releaseLock (s : Kernel) (c : Cpu) (lk : Lock) (k : List Op) : Kernel :=
  if s.lock lk = some c then
    ((s.setLock lk none).modifyCpu c fun x => { x with held := x.held.erase lk }).goto c k
  else s.goto c [.panic "release"]

/-- `sched`, for the process `me`.  After the `swtch` the scheduler sets its
`proc` to null and goes on with its loop. -/
def schedSwitch (s : Kernel) (c : Cpu) (me : Slot) (k : List Op) : Kernel :=
  if s.lock .ptable ≠ some c then s.goto c [.panic "sched ptable.lock"]
  else if (s.cpu c).held.length ≠ 1 then s.goto c [.panic "sched locks"]
  else if (s.proc me).state = RUNNING then s.goto c [.panic "sched running"]
  else (s.modify me fun q => { q with context := k }).modifyCpu c
    fun x => { x with proc := none, code := x.scheduler }

/-- The scheduler switches to `p`; its own loop is to be resumed at the slot
after `p`. -/
def dispatch (s : Kernel) (c : Cpu) (p : Slot) (k : List Op) : Kernel :=
  (s.modify p fun q => { q with state := RUNNING }).modifyCpu c
    fun x => { x with proc := some p, code := (s.proc p).context,
                      scheduler := .schedScan (p.val + 1) :: k }

/-- What an operation on the process table leaves: the table, the next process
ID, and the code to go on with. -/
structure Effect where
  proc : Table
  nextpid : Int32
  code : List Op

/-- The effect of an operation of the process `me`, with `k` left to execute
after it. -/
def procEffect (s : Kernel) (me : Slot) (ch : Choice) (op : Op) (k : List Op) : Option Effect :=
  let go (code : List Op) : Option Effect := some ⟨s.proc, s.nextpid, code⟩
  let set (p : Slot) (q : Proc) (code : List Op) : Option Effect :=
    some ⟨update s.proc p q, s.nextpid, code⟩
  match op with
  | .ret v => set me { s.proc me with eax := v } k
  | .io =>
    match ch with
    | .done => go k
    | .addr _ => none
    | .sleepOn lk chan => go ([.acquire (.other lk)] ++ sleep (.other chan) (.other lk) ++
        [.release (.other lk), .io] ++ k)
    | .wake lk chan => go ([.acquire (.other lk)] ++ wakeup (.other chan) ++
        [.release (.other lk), .io] ++ k)
  | .sleepSet chan => set me { s.proc me with chan := some chan, state := SLEEPING } k
  | .sleepTidy => set me { s.proc me with chan := none } k
  | .yieldSet => set me { s.proc me with state := RUNNABLE } k
  | .allocScan =>
    match s.proc.firstUnused with
    | none => go ([.release .ptable, .ret (-1)] ++ k)
    | some p => some
        { proc := update s.proc p { s.proc p with state := EMBRYO, pid := s.nextpid }
          nextpid := s.nextpid + 1
          code := [.release .ptable, .allocStack p] ++ k }
  | .allocStack p =>
    match ch with
    | .addr 0 => set p { s.proc p with kstack := 0, state := UNUSED } ([.ret (-1)] ++ k)
    | .addr a => set p { s.proc p with kstack := a, context := forkret }
        ([.acquire .tickslock, .allocCtime p, .release .tickslock, .allocZero p,
          .forkCopy p] ++ k)
    | _ => none
  | .allocCtime p => set p { s.proc p with ctime := s.ticks } k
  | .allocZero p => set p { s.proc p with stime := 0, retime := 0, rutime := 0, ttime := 0 } k
  | .forkCopy p =>
    match ch with
    | .addr 0 => set p { s.proc p with pgdir := 0, kstack := 0, state := UNUSED }
        ([.ret (-1)] ++ k)
    | .addr a => set p { s.proc p with pgdir := a, sz := (s.proc me).sz, parent := some me,
                                       eax := 0, name := (s.proc me).name }
        ([.acquire .ptable, .forkRun p, .release .ptable, .ret (s.proc p).pid] ++ k)
    | _ => none
  | .forkRun p => set p { s.proc p with state := RUNNABLE } k
  | .exitCheck => if me = s.initproc then go [.panic "init exiting"] else go k
  | .exitPass => some
      { proc := (s.proc.wakeup1 ((s.proc me).parent.map .proc)).passChildren me s.initproc
        nextpid := s.nextpid
        code := k }
  | .exitTtime => set me { s.proc me with ttime := s.ticks } k
  | .exitZombie => set me { s.proc me with state := ZOMBIE } k
  | .waitScan stat =>
    match s.proc.lookChildren me slots false with
    | (some p, _) =>
      let pid := (s.proc p).pid
      if stat then some
        { proc := update (update s.proc me
            { s.proc me with wstat := { (s.proc me).wstat with wtime := (s.proc p).retime,
                                                               rtime := (s.proc p).rutime,
                                                               iotime := (s.proc p).stime } })
            p (Table.reapStat (s.proc p))
          nextpid := s.nextpid
          code := [.release .ptable, .waitStatus pid, .ret pid] ++ k }
      else set p (Table.reap (s.proc p)) ([.release .ptable, .ret pid] ++ k)
    | (none, havekids) =>
      if !havekids || (s.proc me).killed then
        go ([.release .ptable] ++ (if stat then [.waitStatus (-1)] else []) ++ [.ret (-1)] ++ k)
      else go (sleep (.proc me) .ptable ++ [.waitScan stat] ++ k)
  | .waitStatus v => set me { s.proc me with wstat := { (s.proc me).wstat with status := v } } k
  | .killScan pid =>
    match s.proc.firstPid pid with
    | none => go ([.release .ptable, .ret (-1)] ++ k)
    | some p => set p { s.proc p with killed := true }
        ([.acquire .tickslock, .killTtime p, .release .tickslock, .killWake p,
          .release .ptable, .ret 0] ++ k)
  | .killTtime p => set p { s.proc p with ttime := s.ticks } k
  | .killWake p =>
    if (s.proc p).state = SLEEPING then set p { s.proc p with state := RUNNABLE } k else go k
  | .sleepStart n => go ([.sleepLoop n s.ticks] ++ k)
  | .sleepLoop n ticks0 =>
    if s.ticks - ticks0 < n then
      if (s.proc me).killed then go ([.release .tickslock, .ret (-1)] ++ k)
      else go (sleep .ticks .tickslock ++ [.sleepLoop n ticks0] ++ k)
    else go ([.release .tickslock, .ret 0] ++ k)
  | .uptime => go ([.release .tickslock, .ret s.ticks.toInt32] ++ k)
  | .sysKilled => go ((if (s.proc me).killed then exit else []) ++ k)
  | .setKilled => set me { s.proc me with killed := true } k
  | .trapKilled user => go ((if (s.proc me).killed && user then exit else []) ++ k)
  | .trapYield => go ((if (s.proc me).state = RUNNING then yield else []) ++ k)
  | _ => none

/-- The effect of an operation that does not need a current process; the others
are passed on to `procEffect`. -/
def effect (s : Kernel) (cur : Option Slot) (ch : Choice) (op : Op) (k : List Op) :
    Option Effect :=
  match op with
  | .iret => some ⟨s.proc, s.nextpid, k⟩
  | .wakeup1 chan => some ⟨s.proc.wakeup1 (some chan), s.nextpid, k⟩
  | .updateStat => some ⟨s.proc.updateStat, s.nextpid, k⟩
  | .schedLoop => some ⟨s.proc, s.nextpid,
      [.acquire .ptable, .schedScan 0, .release .ptable, .schedLoop] ++ k⟩
  | op =>
    match cur with
    | some me => s.procEffect me ch op k
    | none =>
      -- `if(proc && ...)` in `trap`
      match op with
      | .trapKilled _ => some ⟨s.proc, s.nextpid, k⟩
      | .trapYield => some ⟨s.proc, s.nextpid, k⟩
      | _ => none

/-- Processor `c` executed an operation with the effect `e`. -/
def apply (s : Kernel) (c : Cpu) (e : Effect) : Kernel :=
  { s with proc := e.proc, nextpid := e.nextpid }.goto c e.code

/-- Execute the operation `op` of processor `c`, with `k` left to execute after
it. -/
def exec (s : Kernel) (c : Cpu) (ch : Choice) (op : Op) (k : List Op) : Option Kernel :=
  match op with
  | .acquire lk => s.acquireLock c lk k
  | .release lk => some (s.releaseLock c lk k)
  | .ticksInc => some ({ s with ticks := s.ticks + 1 }.goto c k)
  | .sched =>
    match (s.cpu c).proc with
    | none => none
    | some me => some (s.schedSwitch c me k)
  | .schedScan i =>
    match s.proc.pick i with
    | some p => some (s.dispatch c p k)
    | none => some (s.goto c k)
  | op => (s.effect (s.cpu c).proc ch op k).map (s.apply c)

/-- What can happen next. -/
inductive Event
  /-- Processor `c` executes its next operation. -/
  | run (c : Cpu) (ch : Choice)
  /-- The process running on `c` makes a system call. -/
  | syscall (c : Cpu) (call : Syscall)
  /-- A timer interrupt on `c`. -/
  | timer (c : Cpu)
  /-- A device interrupt on `c`. -/
  | intr (c : Cpu) (lk chan : Nat)
  /-- The user code running on `c` faults. -/
  | fault (c : Cpu)
  deriving DecidableEq, Repr

/-- Processor `c` is executing user code. -/
def inUser (s : Kernel) (c : Cpu) : Bool := (s.cpu c).proc.isSome && (s.cpu c).code.isEmpty

/-- Processor `c` takes interrupts: it holds no lock, is not in an interrupt
handler, and has not panicked. -/
def interruptible (s : Kernel) (c : Cpu) : Bool :=
  (s.cpu c).held.isEmpty && !(s.cpu c).code.contains .iret &&
    match (s.cpu c).code with
    | .panic _ :: _ => false
    | _ => true

/-- One step of the machine. -/
def step (s : Kernel) : Event → Option Kernel
  | .run c ch =>
    match (s.cpu c).code with
    | [] => none
    | op :: k => s.exec c ch op k
  | .syscall c call =>
    match (s.cpu c).proc with
    | none => none
    | some me =>
      if (s.cpu c).code = [] then some (s.goto c (trapSyscall (s.proc me) call)) else none
  | .timer c =>
    if s.interruptible c then
      some (s.goto c (trapTimer c (s.inUser c) ++ (s.cpu c).code))
    else none
  | .intr c lk chan =>
    if s.interruptible c then
      some (s.goto c (trapIntr lk chan (s.inUser c) ++ (s.cpu c).code))
    else none
  | .fault c =>
    if s.inUser c then some (s.goto c trapFault) else none

/-- The machine after `userinit`: one process, ready to run, in slot 0, and
every processor at the top of its scheduler loop. -/
def boot : Kernel where
  proc := fun p =>
    if p.val = 0 then
      { sz := 4096, pgdir := 1, kstack := 1, state := RUNNABLE, pid := 1, context := forkret,
        name := "initcode".toUTF8.toList }
    else {}
  initproc := ⟨0, by decide⟩
  nextpid := 2
  ticks := 0
  lock := fun _ => none
  cpu := fun _ => { code := [.schedLoop] }

end Kernel

/-- The kernel as a machine. -/
def kernel : Machine Kernel Kernel.Event where
  init := fun s => s = Kernel.boot
  step := Kernel.step

/-- Processor `c` executes `n` operations that take no choice. -/
def Kernel.execs (c : Cpu) (n : Nat) : List Kernel.Event := List.replicate n (.run c .done)

end Xv6
