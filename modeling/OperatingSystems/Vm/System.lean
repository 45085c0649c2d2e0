import OperatingSystems.Proc.Table
import OperatingSystems.Vm.Exec
import OperatingSystems.Vm.Space

/-!
# Processes, pipes and their pages

The system calls that take pages and give them back: `fork`, `growproc`, `exec`, `exit`,
`wait` and `wait_stat`, and the creation, duplication and closing of pipes, from the
state that `main` leaves when it starts the first process.  Physical memory is that of
`OperatingSystems.Vm.Paging`; the process table and the file table have the fields that
matter for pages.

Operations are taken one after another, each to its end, by any process at any time.
One that panics ends the run.  A process may also write to its own memory.  Of the
states of a process, `RUNNABLE` stands for `RUNNING` and `SLEEPING` too.  Files other
than pipes hold no pages and are left out.

* `HasRole` — **what a page is used for**, read off memory and the tables.
* `paging` — the machine.
-/

namespace Xv6.Vm

/-- Open files per system. -/
def NFILE : Nat := 100

/-- `struct file`, of a pipe: its page, and which end it is.  With `none` the type is
`FD_NONE`. -/
structure File where
  ref : Nat := 0
  pipe : Option (Nat × Bool) := none

/-- `struct proc`. -/
structure Process where
  state : ProcState := .UNUSED
  kstack : Nat := 0
  pgdir : Nat := 0
  sz : UInt32 := 0
  parent : Option Nat := none
  ofile : Nat → Option Nat := fun _ => none

/-- Memory, and the tables. -/
structure Sys where
  mem : Vm
  proc : Nat → Process
  file : Nat → File
  /-- The page directory for when no process runs. -/
  kpgdir : Nat
  /-- The stacks of the other processors. -/
  cpuStack : List Nat

/-! ## Programs -/

section Programs

variable (K : Layout)

/-- `p->readopen` and `p->writeopen`, as words of the page of the pipe. -/
def openWord (writable : Bool) : Nat := if writable then 144 else 143

/-- The page of a new pipe. -/
def pipePage : M (Option Nat) := do
  match ← kalloc with
  | none => return none
  | some p =>
    write p fun f => setEntry (setEntry (setEntry (setEntry f 143 1) 144 1) 142 0) 141 0
    return some p

/-- `pipeclose`. -/
def pipeclose (p : Nat) (writable : Bool) : M Unit := do
  write p fun f => setEntry f (openWord writable) 0
  let readopen ← read p 143
  let writeopen ← read p 144
  if readopen = 0 ∧ writeopen = 0 then kfree K p else return ()

/-- The pages `fork` takes for the child: the kernel stack of `allocproc`, and the copy
of the memory of the parent.  The result is the stack, if there are both, and `np->pgdir`,
which was `old` and is set to `0` if the copy fails. -/
def forkPages (pgdir : Nat) (sz : UInt32) (old : Nat) : M (Option Nat × Nat) := do
  match ← kalloc with
  | none => return (none, old)
  | some kstack =>
    match ← copyuvm K pgdir sz with
    | none =>
      kfree K kstack
      return (none, 0)
    | some d => return (some kstack, d)

/-- What `wait` does with the pages of a child. -/
def reap (kstack pgdir : Nat) : M Unit := do
  kfree K kstack
  freevm K pgdir

/-- The pages `growproc` takes or gives back, and the new size; `0` is an error. -/
def growPages (pgdir : Nat) (sz : UInt32) (n : Int32) : M UInt32 :=
  if n > 0 then allocuvm K pgdir sz (sz + n.toUInt32)
  else if n < 0 then deallocuvm K pgdir sz (sz + n.toUInt32)
  else return sz

/-- A store of the process to its own memory, which may change a page that is mapped for
it in any way.  A fault changes nothing. -/
def userStore (pgdir : Nat) (va : UInt32) (g : Frame) : M Unit := do
  match ← walkpgdir pgdir va false with
  | none => return ()
  | some (pgtab, i) =>
    let pte ← read pgtab i
    if Present pte ∧ pte &&& PTE_W ≠ 0 ∧ pte &&& PTE_U ≠ 0 then
      write (ptePage pte) fun _ => g
    else return ()

/-- The stacks of `startothers`, for `n` processors.  One that gets the null pointer uses
memory that is not managed. -/
def allocStacks : Nat → M (List Nat)
  | 0 => return []
  | n + 1 => do
      match ← kalloc with
      | none => allocStacks n
      | some p => return p :: (← allocStacks n)

/-- The kernel's part of `main`: `kinit1`, `kvmalloc`, `startothers` and `kinit2`, with
`ncpu` other processors.  Without a page directory the machine faults. -/
def startKernel (ncpu : Nat) : M (Nat × List Nat) := do
  freerange K K.first (1024 - K.first)
  match ← setupkvm K with
  | none => .panic "trap"
  | some kpgdir =>
    let cpuStack ← allocStacks ncpu
    freerange K 1024 (57344 - 1024)
    return (kpgdir, cpuStack)

/-- `userinit`: the kernel stack and the page directory of the first process, with this
code. -/
def userinit (init : Nat → UInt8) (initsz : UInt32) : M (Nat × Nat) := do
  match ← kalloc with
  | none => .panic "trap"
  | some kstack =>
    match ← setupkvm K with
    | none => .panic "userinit: out of memory?"
    | some pgdir =>
      inituvm pgdir init initsz
      return (kstack, pgdir)

/-- What `main` leaves. -/
structure Boot where
  kpgdir : Nat
  cpuStack : List Nat
  kstack : Nat
  pgdir : Nat

/-- `main`, up to the first process. -/
def boot (ncpu : Nat) (init : Nat → UInt8) (initsz : UInt32) : M Boot := do
  let (kpgdir, cpuStack) ← startKernel K ncpu
  let (kstack, pgdir) ← userinit K init initsz
  return ⟨kpgdir, cpuStack, kstack, pgdir⟩

end Programs

/-! ## System calls -/

namespace Sys

/-- Replace a process. -/
def setProc (s : Sys) (i : Nat) (p : Process) : Sys :=
  { s with proc := fun j => if j = i then p else s.proc j }

/-- Replace a file. -/
def setFile (s : Sys) (f : Nat) (x : File) : Sys :=
  { s with file := fun g => if g = f then x else s.file g }

/-- Set a descriptor of a process. -/
def setOfile (s : Sys) (i fd : Nat) (f : Option Nat) : Sys :=
  s.setProc i { s.proc i with ofile := fun d => if d = fd then f else (s.proc i).ofile d }

variable (K : Layout)

/-- Run a program on memory; `none` if it panics. -/
def perform {α : Type} (s : Sys) (c : M α) : Option (α × Sys) :=
  match (Cmd.run (memory K) c s.mem []).1 with
  | (.ok a, m) => some (a, { s with mem := m })
  | (.error _, _) => none

/-- `filealloc`: the file it finds, whose reference count it sets. -/
def filealloc (s : Sys) : Option Nat := (List.range NFILE).find? fun f => (s.file f).ref = 0

/-- `fdalloc`: the descriptor it finds. -/
def fdalloc (s : Sys) (i : Nat) : Option Nat :=
  (List.range User.NOFILE).find? fun fd => (s.proc i).ofile fd = none

/-- `fileclose`. -/
def fileclose (s : Sys) (f : Nat) : Option Sys :=
  if (s.file f).ref < 1 then none
  else if (s.file f).ref - 1 > 0 then
    some (s.setFile f { s.file f with ref := (s.file f).ref - 1 })
  else
    match (s.file f).pipe with
    | none => some (s.setFile f {})
    | some (p, writable) => (perform K (s.setFile f {}) (pipeclose K p writable)).map (·.2)

/-- `filedup`. -/
def filedup (s : Sys) (f : Nat) : Option Sys :=
  if (s.file f).ref < 1 then none
  else some (s.setFile f { s.file f with ref := (s.file f).ref + 1 })

/-- `sys_close`. -/
def close (s : Sys) (i fd : Nat) : Option Sys :=
  match (s.proc i).ofile fd with
  | none => some s
  | some f => (s.setOfile i fd none).fileclose K f

/-- `sys_dup`. -/
def dup (s : Sys) (i fd : Nat) : Option Sys :=
  match (s.proc i).ofile fd with
  | none => some s
  | some f =>
    match s.fdalloc i with
    | none => some s
    | some fd' => (s.setOfile i fd' (some f)).filedup f

/-- `sys_pipe`. -/
def pipe (s : Sys) (i : Nat) : Option Sys :=
  match s.filealloc with
  | none => some s
  | some rf =>
    let s := s.setFile rf { s.file rf with ref := 1 }
    match s.filealloc with
    | none => s.fileclose K rf
    | some wf => do
        let (p, s) ← perform K (s.setFile wf { s.file wf with ref := 1 }) pipePage
        match p with
        | none => (← s.fileclose K rf).fileclose K wf
        | some p =>
          let s := (s.setFile rf ⟨1, some (p, false)⟩).setFile wf ⟨1, some (p, true)⟩
          match s.fdalloc i with
          | none => (← s.fileclose K rf).fileclose K wf
          | some fd0 =>
            let s := s.setOfile i fd0 (some rf)
            match s.fdalloc i with
            | none => (← (s.setOfile i fd0 none).fileclose K rf).fileclose K wf
            | some fd1 => some (s.setOfile i fd1 (some wf))

/-- The loop of `fork` over the open files of process `i`, for the child `j`. -/
def dupFiles (i j : Nat) : List Nat → Sys → Option Sys
  | [], s => some s
  | fd :: fds, s =>
    match (s.proc i).ofile fd with
    | none => dupFiles i j fds s
    | some f => do
        let s ← s.filedup f
        dupFiles i j fds (s.setOfile j fd (some f))

/-- The slot `allocproc` finds. -/
def findUnused (s : Sys) : Option Nat :=
  (List.range NPROC).find? fun j => (s.proc j).state = .UNUSED

/-- `fork`. -/
def fork (s : Sys) (i : Nat) : Option Sys :=
  match s.findUnused with
  | none => some s
  | some j => do
      let ((stack, d), s) ← perform K s
        (forkPages K (s.proc i).pgdir (s.proc i).sz (s.proc j).pgdir)
      match stack with
      | none => some (s.setProc j { s.proc j with kstack := 0, pgdir := d })
      | some kstack =>
        let np := { s.proc j with
          kstack := kstack, pgdir := d, sz := (s.proc i).sz, parent := some i }
        let s ← dupFiles i j (List.range User.NOFILE) (s.setProc j np)
        some (s.setProc j { s.proc j with state := .RUNNABLE })

/-- `growproc`. -/
def growproc (s : Sys) (i : Nat) (n : Int32) : Option Sys := do
  let (sz, s) ← perform K s (growPages K (s.proc i).pgdir (s.proc i).sz n)
  if n ≠ 0 ∧ sz = 0 then some s
  else some (s.setProc i { s.proc i with sz := sz })

/-- `sys_exec`, of a file that is there.  The arguments are strings in the memory of the
process. -/
def exec (s : Sys) (i : Nat) (im : Image) (argv : List Str) : Option Sys :=
  if argv.length < User.MAXARG ∧ ∀ a ∈ argv, a.len < (s.proc i).sz.toNat then do
    let (r, s) ← perform K s (Vm.exec K im (s.proc i).pgdir argv)
    match r with
    | none => some s
    | some l => some (s.setProc i { s.proc i with pgdir := l.pgdir, sz := l.sz })
  else some s

/-- A store of the process to its memory. -/
def store (s : Sys) (i : Nat) (va : UInt32) (g : Frame) : Option Sys :=
  (perform K s (userStore (s.proc i).pgdir va g)).map (·.2)

/-- The loop of `exit` over the open files. -/
def closeFiles (i : Nat) : List Nat → Sys → Option Sys
  | [], s => some s
  | fd :: fds, s =>
    match (s.proc i).ofile fd with
    | none => closeFiles i fds s
    | some f => do
        let s ← s.fileclose K f
        closeFiles i fds (s.setOfile i fd none)

/-- `exit`.  The first process is `initproc`, in slot `0`. -/
def exit (s : Sys) (i : Nat) : Option Sys :=
  if i = 0 then none
  else do
    let s ← closeFiles K i (List.range User.NOFILE) s
    let s := { s with proc := fun j =>
      if (s.proc j).parent = some i then { s.proc j with parent := some 0 } else s.proc j }
    some (s.setProc i { s.proc i with state := .ZOMBIE })

/-- The child that `wait` and `wait_stat` find. -/
def findZombie (s : Sys) (i : Nat) : Option Nat :=
  (List.range NPROC).find? fun j =>
    (s.proc j).parent = some i ∧ (s.proc j).state = .ZOMBIE

/-- `wait` and `wait_stat`: without a zombie, the process sleeps or returns. -/
def wait (s : Sys) (i : Nat) : Option Sys :=
  match s.findZombie i with
  | none => some s
  | some j => do
      let (_, s) ← perform K s (reap K (s.proc j).kstack (s.proc j).pgdir)
      some (s.setProc j { s.proc j with state := .UNUSED, kstack := 0, parent := none })

end Sys

/-! ## The machine -/

/-- What a process does. -/
inductive Call
  | fork
  | growproc (n : Int32)
  | exec (im : Image) (argv : List Str)
  | exit
  | wait
  | pipe
  | close (fd : Nat)
  | dup (fd : Nat)
  | store (va : UInt32) (g : Frame)

/-- Process `i` does something. -/
def Sys.call (K : Layout) (s : Sys) (i : Nat) : Call → Option Sys
  | .fork => s.fork K i
  | .growproc n => s.growproc K i n
  | .exec im argv => s.exec K i im argv
  | .exit => s.exit K i
  | .wait => s.wait K i
  | .pipe => s.pipe K i
  | .close fd => s.close K i fd
  | .dup fd => s.dup i fd
  | .store va g => s.store K i va g

/-- The state in which the first process starts. -/
def Sys.start (m : Vm) (b : Boot) : Sys where
  mem := m
  proc i := if i = 0 then
    { state := .RUNNABLE, kstack := b.kstack, pgdir := b.pgdir, sz := 4096 } else {}
  file _ := {}
  kpgdir := b.kpgdir
  cpuStack := b.cpuStack

/-- **The machine.**  It starts as `main` leaves it, and then processes that have not
exited make system calls. -/
def paging (K : Layout) : Machine Sys (Nat × Call) where
  init s := ∃ page ncpu init initsz m b t,
    Cmd.run (memory K) (boot K ncpu init initsz) ⟨page, 0⟩ [] = ((.ok b, m), t) ∧ s = Sys.start m b
  step s a :=
    if (s.proc a.1).state = .RUNNABLE then s.call K a.1 a.2 else none

/-! ## Roles -/

/-- The page table of entry `e` of a directory. -/
def tableOf (m : Vm) (d e : Nat) : Option Nat :=
  if e < 1024 ∧ Present (entry (m.page d) e) then some (ptePage (entry (m.page d) e)) else none

/-- The page that a directory maps for page `v` of the user part. -/
def userOf (m : Vm) (d v : Nat) : Option Nat := do
  let pgtab ← tableOf m d (v / 1024)
  if v < USERPAGES ∧ Present (entry (m.page pgtab) (v % 1024)) then
    some (ptePage (entry (m.page pgtab) (v % 1024)))
  else none

/-- What a page may be used for. -/
inductive Role
  /-- The `k`th page of the free list. -/
  | free (k : Nat)
  /-- The stack of a processor. -/
  | cpuStack (k : Nat)
  /-- The kernel stack of a process. -/
  | kstack (i : Nat)
  /-- The page directory of a process, or of the kernel. -/
  | dir (i : Option Nat)
  /-- A page table of a process, or of the kernel. -/
  | table (i : Option Nat) (e : Nat)
  /-- A page of the user part of a process. -/
  | user (i v : Nat)
  /-- A pipe. -/
  | pipe
  deriving DecidableEq, Repr

/-- The `k`th page of the free list from a pointer on. -/
def freeAt (m : Vm) : Nat → UInt32 → Option Nat
  | 0, v => if v = 0 then none else some (pageOf v)
  | k + 1, v => if v = 0 then none else freeAt m k (entry (m.page (pageOf v)) 0)

/-- A process has this page directory. -/
def Sys.HasDir (s : Sys) (d : Nat) : Option Nat → Prop
  | none => d = s.kpgdir
  | some i => (s.proc i).state ≠ .UNUSED ∧ d = (s.proc i).pgdir

/-- **Page `p` is used for this.** -/
def Sys.HasRole (s : Sys) (p : Nat) : Role → Prop
  | .free k => freeAt s.mem k s.mem.freelist = some p
  | .cpuStack k => s.cpuStack[k]? = some p
  | .kstack i => (s.proc i).state ≠ .UNUSED ∧ (s.proc i).kstack = p
  | .dir i => s.HasDir p i
  | .table i e => ∃ d, s.HasDir d i ∧ tableOf s.mem d e = some p
  | .user i v => ∃ d, s.HasDir d (some i) ∧ userOf s.mem d v = some p
  | .pipe => ∃ f writable, (s.file f).pipe = some (p, writable)

end Xv6.Vm
