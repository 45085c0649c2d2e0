import OperatingSystems.Proc.Invariant

/-!
# The bookkeeping of the clock

A tick of the clock is two operations, `ticks++` and the loop of `update_stat`,
with `tickslock` held over both.  The times of a process are sampled elsewhere:
the creation time when `fork` fills in its slot, the termination time in `exit`.
`tallyDiscipline` follows where a processor stands in this bookkeeping.

* `clock`: the number of ticks that have been charged to the processes.
* `clock_exec`: only `update_stat` moves it.
* `clock_eq_ticks`: whoever else holds `tickslock` reads it off `ticks`.
* `ptable_of_ended`: between sampling its termination time and becoming a zombie
  a process holds `ptable.lock`.
-/

namespace Xv6

open ProcState

/-- Where a processor stands in filling in the times of a process. -/
inductive Phase
  /-- Nowhere. -/
  | idle
  /-- `allocproc` is going to allocate the kernel stack. -/
  | stack
  /-- `allocproc` is going to sample the creation time. -/
  | ctime
  /-- `allocproc` is going to clear the counters. -/
  | zero
  /-- `exit` has sampled the termination time. -/
  | ended
  deriving DecidableEq

/-- Where a processor stands in the bookkeeping. -/
structure Tally where
  /-- The clock has moved, and the tick is still to be charged. -/
  due : Bool
  phase : Phase

/-- Nothing is half done. -/
def Tally.rest : Tally := ⟨false, .idle⟩

/-- What the bookkeeping asks of each operation. -/
def tallyDiscipline : Discipline Op Tally where
  pre := fun op t =>
    match op with
    | .updateStat => t.due = true ∧ t.phase ≠ .ended
    | .acquire .ptable => t.phase ≠ .ended
    | .release .tickslock => t.due = false
    | .allocStack _ => t = ⟨false, .stack⟩
    | .allocCtime _ => t = ⟨false, .ctime⟩
    | .allocZero _ => t = ⟨false, .zero⟩
    | .exitZombie => t = ⟨false, .ended⟩
    | .allocScan | .forkCopy _ | .forkRun _ | .exitTtime | .exitPass | .exitCheck | .io
    | .sysKilled | .trapKilled true | .schedLoop | .schedScan _ => t = .rest
    | _ => t.due = false ∧ t.phase ≠ .ended
  post := fun op t =>
    match op with
    | .ticksInc => { t with due := true }
    | .updateStat => { t with due := false }
    | .allocCtime _ => { t with phase := .zero }
    | .allocStack _ | .allocZero _ => { t with phase := .idle }
    | .exitTtime => { t with phase := .ended }
    | .exitZombie => { t with phase := .idle }
    | _ => t

/-- The phase an operation belongs to. -/
def Op.phase : Op → Option Phase
  | .allocStack _ => some .stack
  | .allocCtime _ => some .ctime
  | .allocZero _ => some .zero
  | .exitZombie => some .ended
  | .allocScan | .forkCopy _ | .forkRun _ | .exitTtime | .exitPass | .exitCheck | .io
  | .sysKilled | .trapKilled true | .schedLoop | .schedScan _ => some .idle
  | _ => none

/-- The code is going to charge a tick before it does anything else. -/
def dueOf : List Op → Bool
  | .updateStat :: _ => true
  | .acquire .ptable :: k => dueOf k
  | _ => false

/-- The phase the code is in. -/
def phaseOf (code : List Op) : Phase := (code.findSome? Op.phase).getD .idle

theorem phaseOf_cons (op : Op) (k : List Op) : phaseOf (op :: k) = op.phase.getD (phaseOf k) := by
  cases h : op.phase <;> simp [phaseOf, h]

variable {t : Tally}

theorem phase_of_pre {op : Op} {ph : Phase} (h : op.phase = some ph)
    (hpre : tallyDiscipline.pre op t) : t.phase = ph := by
  cases op with
  | trapKilled user =>
    cases user with
    | true => cases h; exact congrArg Tally.phase (show t = .rest from hpre)
    | false => cases h
  | _ => cases h <;> exact congrArg Tally.phase (show t = _ from hpre)

theorem post_phase {op : Op} (h : op.phase = none) (t : Tally) :
    (tallyDiscipline.post op t).phase = t.phase := by
  cases op <;> first | rfl | cases h

/-- The bookkeeping can be read off the code. -/
theorem tally_of_walks : ∀ {code : List Op} {t : Tally},
    tallyDiscipline.Walks t code .rest → t = ⟨dueOf code, phaseOf code⟩ := by
  intro code
  induction code with
  | nil => intro t h; exact h
  | cons op k ih =>
    rintro ⟨due, phase⟩ ⟨hpre, hk⟩
    have hphase : phase = phaseOf (op :: k) := by
      rw [phaseOf_cons]
      cases hop : op.phase with
      | none => exact (post_phase hop ⟨due, phase⟩).symm.trans (congrArg Tally.phase (ih hk))
      | some ph => exact phase_of_pre hop hpre
    have hdue : due = dueOf (op :: k) := by
      cases op with
      | updateStat => exact hpre.1
      | acquire lk =>
        cases lk with
        | ptable => exact congrArg Tally.due (ih hk)
        | _ => exact hpre.1
      | release lk =>
        cases lk with
        | tickslock => exact hpre
        | _ => exact hpre.1
      | trapKilled user =>
        cases user with
        | true => exact congrArg Tally.due (show Tally.mk due phase = .rest from hpre)
        | false => exact hpre.1
      | _ =>
        first
        | exact hpre.1
        | exact congrArg Tally.due (show Tally.mk due phase = _ from hpre)
    rw [hphase, hdue]

/-! ## The routines -/

theorem tally_exit : tallyDiscipline.Walks .rest exit .rest := by
  simp [exit, tallyDiscipline, Tally.rest]

theorem tally_trapSyscall (me : Proc) (call : Syscall) :
    tallyDiscipline.Walks .rest (trapSyscall me call) .rest := by
  cases call <;>
    simp [trapSyscall, syscall, fork, exit, wait, waitStat, kill, sysSleep, sysUptime,
      tallyDiscipline, Tally.rest]

/-- Code called by an operation leaves the bookkeeping as it would.  Only
`allocproc` starts on something new. -/
theorem Kernel.Calls.tally {op : Op} {l : List Op} (h : Kernel.Calls op l)
    (hpre : tallyDiscipline.pre op t) :
    ∃ ph, tallyDiscipline.Walks ⟨t.due, ph⟩ l (tallyDiscipline.post op t) ∧
      (ph = (tallyDiscipline.post op t).phase ∨ op = .allocScan ∨ ∃ p, op = .allocStack p) ∧
      ph ≠ .ended := by
  -- where nothing is half done when the operation is executed
  have rest : ∀ {l}, t = .rest → tallyDiscipline.Walks .rest l .rest →
      tallyDiscipline.post op .rest = .rest →
      ∃ ph, tallyDiscipline.Walks ⟨t.due, ph⟩ l (tallyDiscipline.post op t) ∧
        (ph = (tallyDiscipline.post op t).phase ∨ op = .allocScan ∨ ∃ p, op = .allocStack p) ∧
        ph ≠ .ended := by
    rintro l rfl hl hpost
    exact ⟨.idle, by rw [hpost]; exact hl, .inl (by rw [hpost]; rfl), by simp⟩
  cases h with
  | stack p =>
    obtain rfl : t = ⟨false, .stack⟩ := hpre
    exact ⟨.ctime, by simp [tallyDiscipline, Tally.rest], .inr (.inr ⟨p, rfl⟩), by simp⟩
  | noStack p =>
    obtain rfl : t = ⟨false, .stack⟩ := hpre
    exact ⟨.idle, by simp [tallyDiscipline], .inl rfl, by simp⟩
  | noSlot | noCopy p | copy p pid | schedLoop =>
    exact rest hpre (by simp [tallyDiscipline, Tally.rest]) rfl
  | slot p =>
    obtain rfl : t = .rest := hpre
    exact ⟨.stack, by simp [tallyDiscipline, Tally.rest], .inr (.inl rfl), by simp⟩
  | sysKilled | trapKilled => exact rest hpre tally_exit rfl
  | sleepOn lk chan => exact rest hpre (by simp [sleep, tallyDiscipline, Tally.rest]) rfl
  | wake lk chan => exact rest hpre (by simp [wakeup, tallyDiscipline, Tally.rest]) rfl
  | _ =>
    obtain ⟨due, phase⟩ := t
    obtain ⟨hdue, hphase⟩ : due = false ∧ phase ≠ .ended := hpre
    subst hdue
    exact ⟨phase, by simp [sleep, yield, tallyDiscipline, hphase], .inl rfl, hphase⟩

section Traps

variable {t : Tally} {user : Bool} (hdue : t.due = false) (hend : t.phase ≠ .ended)
  (hu : user = true → t = .rest)
include hdue hend hu

theorem tally_trapEnd :
    tallyDiscipline.Walks t [.trapKilled user, .trapYield, .trapKilled user, .iret] t := by
  cases user with
  | true => exact ⟨hu rfl, ⟨hdue, hend⟩, hu rfl, ⟨hdue, hend⟩, rfl⟩
  | false => exact ⟨⟨hdue, hend⟩, ⟨hdue, hend⟩, ⟨hdue, hend⟩, ⟨hdue, hend⟩, rfl⟩

theorem tally_trapTimer (c : Cpu) : tallyDiscipline.Walks t (trapTimer c user) t := by
  refine Discipline.Walks.append ?_ (tally_trapEnd hdue hend hu)
  obtain ⟨due, phase⟩ := t
  obtain rfl : due = false := hdue
  split_ifs
  · simp only [timerBranch, updateStat, wakeup]
    simpa [tallyDiscipline] using hend
  · rfl

theorem tally_trapIntr (lk chan : Nat) : tallyDiscipline.Walks t (trapIntr lk chan user) t := by
  have hhead : tallyDiscipline.Walks t ([.acquire (.other lk)] ++ wakeup (.other chan) ++
      [.release (.other lk)]) t :=
    ⟨⟨hdue, hend⟩, hend, ⟨hdue, hend⟩, ⟨hdue, hend⟩, ⟨hdue, hend⟩, rfl⟩
  have htail : tallyDiscipline.Walks t [.trapKilled user, .trapKilled user, .iret] t := by
    cases user with
    | true => exact ⟨hu rfl, hu rfl, ⟨hdue, hend⟩, rfl⟩
    | false => exact ⟨⟨hdue, hend⟩, ⟨hdue, hend⟩, ⟨hdue, hend⟩, rfl⟩
  have h := hhead.append htail
  rwa [List.append_assoc] at h

end Traps

variable {code : List Op}

namespace Kernel

variable {s s' : Kernel} {c : Cpu} {ch : Choice} {op : Op} {k : List Op}

/-! ## All code keeps the books -/

/-- Where processor `c` stands in the bookkeeping. -/
def tally (s : Kernel) (c : Cpu) : Tally := ⟨dueOf (s.cpu c).code, phaseOf (s.cpu c).code⟩

/-- All code there is walks under the bookkeeping. -/
structure Tallied (s : Kernel) : Prop where
  code : ∀ c, tallyDiscipline.Walks (s.tally c) (s.cpu c).code .rest
  sched : ∀ c, tallyDiscipline.Walks .rest (s.cpu c).scheduler .rest
  ctx : ∀ p, ∃ ph, ph ≠ Phase.ended ∧ tallyDiscipline.Walks ⟨false, ph⟩ (s.proc p).context .rest

theorem tally_eq (h : tallyDiscipline.Walks t (s.cpu c).code .rest) :
    s.tally c = t := (tally_of_walks h).symm

theorem Tallied.next (ht : s.Tallied) (hk : (s.cpu c).code = op :: k) :
    tallyDiscipline.pre op (s.tally c) ∧
      tallyDiscipline.Walks (tallyDiscipline.post op (s.tally c)) k .rest := by
  have h := ht.code c
  rw [hk] at h
  exact h

theorem due_of_pre (hpre : tallyDiscipline.pre op t) (h1 : op ≠ .ticksInc)
    (h2 : op ≠ .updateStat) (h3 : op ≠ .acquire .ptable) :
    t.due = false ∧ (tallyDiscipline.post op t).due = false := by
  cases op with
  | ticksInc => exact absurd rfl h1
  | updateStat => exact absurd rfl h2
  | acquire lk =>
    cases lk with
    | ptable => exact absurd rfl h3
    | _ => exact ⟨hpre.1, hpre.1⟩
  | release lk =>
    cases lk with
    | tickslock => exact ⟨hpre, hpre⟩
    | _ => exact ⟨hpre.1, hpre.1⟩
  | trapKilled user =>
    cases user with
    | true => obtain rfl : t = .rest := hpre; exact ⟨rfl, rfl⟩
    | false => exact ⟨hpre.1, hpre.1⟩
  | _ => first | exact ⟨hpre.1, hpre.1⟩ | (obtain rfl : t = _ := hpre; exact ⟨rfl, rfl⟩)

/-- Having sampled the termination time, a process gives `tickslock` back and
becomes a zombie. -/
theorem post_ended (hpre : tallyDiscipline.pre op t)
    (hend : (tallyDiscipline.post op t).phase = .ended) :
    op = .exitTtime ∨ op = .release .tickslock := by
  cases op with
  | exitTtime => exact .inl rfl
  | release lk =>
    cases lk with
    | tickslock => exact .inr rfl
    | _ => exact absurd hend hpre.2
  | acquire lk =>
    cases lk with
    | ptable => exact absurd hend hpre
    | _ => exact absurd hend hpre.2
  | trapKilled user =>
    cases user with
    | true => rw [show t = .rest from hpre] at hend; cases hend
    | false => exact absurd hend hpre.2
  | _ =>
    first
    | exact absurd hend hpre.2
    | (rw [show t = _ from hpre] at hend; cases hend)

/-- **The bookkeeping of the processor that executes.** -/
theorem Tallied.exec_self (ht : s.Tallied) (hi : s.Inv) (hk : (s.cpu c).code = op :: k)
    (h : s.exec c ch op k = some s') :
    tallyDiscipline.Walks (s'.tally c) (s'.cpu c).code .rest ∧
      (s'.tally c).due = (tallyDiscipline.post op (s.tally c)).due ∧
      ((s'.tally c).phase = (tallyDiscipline.post op (s.tally c)).phase ∨
        (∃ msg, (s'.cpu c).code = [.panic msg]) ∨
        ((op = .allocScan ∨ ∃ p, op = .allocStack p) ∧ (s'.tally c).phase ≠ .ended) ∨
        (op = .sched ∧ (s'.cpu c).proc = none) ∨
        ((∃ i, op = .schedScan i) ∧ (s'.tally c).phase ≠ .ended)) := by
  obtain ⟨hpre, hw⟩ := ht.next hk
  -- the operations on the clock go on with what follows them
  by_cases hclock : op = .ticksInc ∨ op = .updateStat ∨ op = .acquire .ptable
  · have hcode : (s'.cpu c).code = k := by
      rcases hclock with rfl | rfl | rfl
      · simp only [exec, Option.some.injEq] at h
        subst h
        simp
      · simp only [exec, effect, Option.map_some, Option.some.injEq] at h
        subst h
        simp [apply]
      · obtain ⟨emb, -, hpre', -⟩ := hi.next hk
        have hfree : s.lock .ptable ≠ some c := by simpa [mode] using hpre'.1
        simp only [exec, acquireLock] at h
        split at h
        · cases h; simp
        · rename_i h' hlk
          split_ifs at h with hc
          exact absurd (by rw [hlk, hc]) hfree
    have hw' : tallyDiscipline.Walks (tallyDiscipline.post op (s.tally c)) (s'.cpu c).code .rest := by
      rw [hcode]; exact hw
    rw [tally_eq hw']
    exact ⟨hw', rfl, .inl rfl⟩
  · have hne : op ≠ .ticksInc ∧ op ≠ .updateStat ∧ op ≠ .acquire .ptable := by
      simpa only [not_or] using hclock
    obtain ⟨hdue, hdue'⟩ := due_of_pre hpre hne.1 hne.2.1 hne.2.2
    rw [hdue']
    rcases exec_code h with hc | ⟨msg, hc⟩ | ⟨l, hl, hc⟩ | ⟨hop, hp, hc⟩ | ⟨i, p, hop, -, hc⟩
    · have hw' : tallyDiscipline.Walks (tallyDiscipline.post op (s.tally c)) (s'.cpu c).code
          .rest := by rw [hc]; exact hw
      rw [tally_eq hw']
      exact ⟨hw', hdue', .inl rfl⟩
    · have hw' : tallyDiscipline.Walks .rest (s'.cpu c).code .rest := by
        rw [hc]; simp [tallyDiscipline, Tally.rest]
      rw [tally_eq hw']
      exact ⟨hw', rfl, .inr (.inl ⟨msg, hc⟩)⟩
    · obtain ⟨ph, hwl, hph, hend⟩ := hl.tally hpre
      have hw' : tallyDiscipline.Walks ⟨(s.tally c).due, ph⟩ (s'.cpu c).code .rest := by
        rw [hc]; exact hwl.append hw
      rw [tally_eq hw']
      refine ⟨hw', hdue, ?_⟩
      rcases hph with hph | hph
      · exact .inl hph
      · exact .inr (.inr (.inl ⟨hph, hend⟩))
    · have hw' : tallyDiscipline.Walks .rest (s'.cpu c).code .rest := by
        rw [hc]; exact ht.sched c
      rw [tally_eq hw']
      exact ⟨hw', rfl, .inr (.inr (.inr (.inl ⟨hop, hp⟩)))⟩
    · obtain ⟨ph, hph, hwc⟩ := ht.ctx p
      have hw' : tallyDiscipline.Walks ⟨false, ph⟩ (s'.cpu c).code .rest := by
        rw [hc]; exact hwc
      rw [tally_eq hw']
      exact ⟨hw', rfl, .inr (.inr (.inr (.inr ⟨⟨i, hop⟩, hph⟩)))⟩

theorem tally_ne (h : s.exec c ch op k = some s') {c' : Cpu} (hc : c' ≠ c) :
    s'.tally c' = s.tally c' := by
  rw [tally, tally, exec_cpu_ne h hc]

/-! ### What the locks say about it -/

theorem tk_of_due : ∀ {code : List Op} {m : Mode} {b : Bool},
    lockDiscipline.Walks m code (.rest b) → dueOf code = true → m.tk = true := by
  intro code
  induction code with
  | nil => intro m b _ h; cases h
  | cons op k ih =>
    intro m b hw hdue
    cases op with
    | updateStat => exact hw.1.2.1
    | acquire lk =>
      cases lk with
      | ptable => exact ih (m := { m with pt := true }) hw.2 hdue
      | _ => cases hdue
    | _ => cases hdue

theorem Inv.tickslock_of_due (hi : s.Inv) (hdue : (s.tally c).due = true) :
    s.lock .tickslock = some c := by
  obtain ⟨emb, hw⟩ := hi.typed c
  exact mode_tk emb (tk_of_due hw hdue)

/-- Between the two ends of `exit` nothing but `tickslock` is given back. -/
theorem pt_of_ended : ∀ {code : List Op} {m : Mode} {b : Bool} {t : Tally},
    lockDiscipline.Walks m code (.rest b) → tallyDiscipline.Walks t code .rest →
    t.phase = .ended → m.pt = true ∧ m.off = false := by
  intro code
  induction code with
  | nil =>
    intro m b t _ ht hend
    rw [show t = .rest from ht] at hend
    cases hend
  | cons op k ih =>
    intro m b t hw ht hend
    cases op with
    | exitZombie =>
      have hm : m = .resumed none true := hw.1
      rw [hm]
      exact ⟨rfl, rfl⟩
    | release lk =>
      cases lk with
      | tickslock => exact ih (m := { m with tk := false }) hw.2 ht.2 hend
      | _ => exact absurd hend ht.1.2
    | updateStat => exact absurd hend ht.1.2
    | acquire lk =>
      cases lk with
      | ptable => exact absurd hend ht.1
      | _ => exact absurd hend ht.1.2
    | trapKilled user =>
      cases user with
      | true => rw [show t = .rest from ht.1] at hend; cases hend
      | false => exact absurd hend ht.1.2
    | _ =>
      first
      | exact absurd hend ht.1.2
      | (rw [show t = _ from ht.1] at hend; cases hend)

section

variable (ht : s.Tallied) (hi : s.Inv)

include ht hi

/-- **A process that has sampled its termination time** holds `ptable.lock` and
is still running. -/
theorem Tallied.ptable_of_ended
    (hend : (s.tally c).phase = .ended) : s.lock .ptable = some c ∧ s.off c = false := by
  obtain ⟨emb, hw⟩ := hi.typed c
  obtain ⟨hpt, hoff⟩ := pt_of_ended hw (ht.code c) hend
  exact ⟨mode_pt emb hpt, hoff⟩

/-! ### Every reachable state -/

theorem Tallied.exec (hk : (s.cpu c).code = op :: k)
    (h : s.exec c ch op k = some s') : s'.Tallied where
  code := by
    intro c'
    by_cases hc : c' = c
    · subst hc; exact (ht.exec_self hi hk h).1
    · rw [tally_ne h hc, exec_cpu_ne h hc]; exact ht.code c'
  sched := by
    refine exec_scheduler_forall (P := fun l => tallyDiscipline.Walks .rest l .rest) ht.sched ?_ h
    rintro i p rfl
    obtain ⟨hpre, hw⟩ := ht.next hk
    have hrest : s.tally c = .rest := hpre
    rw [hrest] at hw
    exact ⟨rfl, hw⟩
  ctx := by
    refine exec_context_forall (P := fun l => ∃ ph, ph ≠ .ended ∧
      tallyDiscipline.Walks ⟨false, ph⟩ l .rest) ht.ctx ?_ ?_ h
    · exact ⟨.idle, by simp, by simp [forkret, tallyDiscipline, Tally.rest]⟩
    · rintro rfl
      obtain ⟨⟨hdue, hend⟩, hw⟩ := ht.next hk
      refine ⟨(s.tally c).phase, hend, ?_⟩
      rw [← hdue]
      exact hw

/-- The code with which a processor enters the kernel leaves the bookkeeping where
it was. -/
theorem Tallied.entry_walks
    (he : Entry s c code) : tallyDiscipline.Walks (s.tally c) code (s.tally c) := by
  have user : s.inUser c = true → s.tally c = .rest := by
    intro hu
    simp only [inUser, Bool.and_eq_true, List.isEmpty_iff] at hu
    simp [tally, hu.2, dueOf, phaseOf, Tally.rest]
  have hints : s.interruptible c = true → (s.tally c).due = false ∧ (s.tally c).phase ≠ .ended := by
    intro hint
    obtain ⟨emb, -⟩ := hi.typed c
    obtain ⟨hpt, htk, -⟩ := hi.mode_interruptible hint emb
    constructor
    · by_contra hdue
      have := hi.tickslock_of_due (by simpa using hdue)
      simp [mode, this] at htk
    · intro hend
      have := (ht.ptable_of_ended hi hend).1
      simp [mode, this] at hpt
  cases he with
  | syscall call hme hu =>
    rw [user (by simp [inUser, hme, hu])]
    exact tally_trapSyscall _ call
  | timer hint =>
    obtain ⟨hdue, hend⟩ := hints hint
    exact tally_trapTimer hdue hend user c
  | intr lk chan hint =>
    obtain ⟨hdue, hend⟩ := hints hint
    exact tally_trapIntr hdue hend user lk chan
  | fault hu =>
    rw [user hu]
    simp [trapFault, tallyDiscipline, Tally.rest]

theorem Tallied.tally_entry (he : Entry s c code) (c' : Cpu) :
    (s.goto c (code ++ (s.cpu c).code)).tally c' = s.tally c' := by
  by_cases hc : c' = c
  · subst hc
    exact tally_eq (by simpa using (ht.entry_walks hi he).append (ht.code c'))
  · simp [tally, hc]

theorem Tallied.entry (he : Entry s c code) : (s.goto c (code ++ (s.cpu c).code)).Tallied where
  code := by
    intro c'
    rw [ht.tally_entry hi he]
    by_cases hc : c' = c
    · subst hc
      simpa using (ht.entry_walks hi he).append (ht.code c')
    · simpa [hc] using ht.code c'
  sched := fun c' => by rw [scheduler_goto]; exact ht.sched c'
  ctx := ht.ctx

end

theorem tallied_boot : boot.Tallied where
  code := fun c => by simp [boot, tally, dueOf, phaseOf, Op.phase, tallyDiscipline, Tally.rest]
  sched := fun c => rfl
  ctx := by
    intro p
    refine ⟨.idle, by simp, ?_⟩
    rcases boot_context p with h | ⟨h, -⟩
    · rw [h]; simp [forkret, tallyDiscipline, Tally.rest]
    · rw [h]; rfl

/-! ## The clock of the processes -/

/-- The number of ticks that have been charged. -/
def clock (s : Kernel) : UInt32 := if ∃ c, (s.tally c).due = true then s.ticks - 1 else s.ticks

/-- **Under `tickslock` the clock is `ticks`**, except for the clock interrupt
itself. -/
theorem Inv.clock_eq_ticks (hi : s.Inv) (htk : s.lock .tickslock = some c)
    (hdue : (s.tally c).due = false) : s.clock = s.ticks := by
  refine if_neg ?_
  rintro ⟨c', hc'⟩
  obtain rfl : c = c' := Option.some.inj (htk.symm.trans (hi.tickslock_of_due hc'))
  rw [hc'] at hdue
  cases hdue

theorem post_due (h1 : op ≠ .ticksInc) (h2 : op ≠ .updateStat) (t : Tally) :
    (tallyDiscipline.post op t).due = t.due := by
  cases op <;> first | rfl | exact absurd rfl h1 | exact absurd rfl h2

/-- **Only `update_stat` moves the clock of the processes.** -/
theorem Tallied.clock_exec (ht : s.Tallied) (hi : s.Inv) (hk : (s.cpu c).code = op :: k)
    (h : s.exec c ch op k = some s') :
    s'.clock = if op = .updateStat then s.clock + 1 else s.clock := by
  obtain ⟨emb, -, hpre, -⟩ := hi.next hk
  have hself := (ht.exec_self hi hk h).2.1
  have hticks := exec_ticks h
  by_cases h1 : op = .ticksInc
  · subst h1
    rw [if_neg (by simp), hi.clock_eq_ticks (mode_tk emb hpre.2.1) (ht.next hk).1.1, clock,
      if_pos ⟨c, hself⟩, hticks]
    grind
  · rw [if_neg h1] at hticks
    by_cases h2 : op = .updateStat
    · subst h2
      have hnone : ¬ ∃ c', (s'.tally c').due = true := by
        rintro ⟨c', hc'⟩
        by_cases hc : c' = c
        · subst hc
          rw [hself] at hc'
          cases hc'
        · rw [tally_ne h hc] at hc'
          have := hi.tickslock_of_due hc'
          exact hc (Option.some.inj (this.symm.trans (mode_tk emb hpre.2.1)))
      rw [if_pos rfl, clock, if_neg hnone, clock, if_pos ⟨c, (ht.next hk).1.1⟩, hticks]
      grind
    · rw [post_due h1 h2] at hself
      have hiff : (∃ c', (s'.tally c').due = true) ↔ ∃ c', (s.tally c').due = true := by
        refine exists_congr fun c' => ?_
        by_cases hc : c' = c
        · subst hc; rw [hself]
        · rw [tally_ne h hc]
      rw [if_neg h2, clock, clock, hticks]
      simp only [hiff]

theorem Tallied.clock_entry (ht : s.Tallied) (hi : s.Inv)
    (he : Entry s c code) : (s.goto c (code ++ (s.cpu c).code)).clock = s.clock := by
  simp only [clock, ht.tally_entry hi he, goto_ticks]

end Kernel

/-- **In every reachable state all code keeps the books.** -/
theorem tallied {s : Kernel} (h : kernel.Reachable s) : s.Tallied := by
  refine kernel_induct Kernel.tallied_boot ?_ ?_ h
  · intro s s' c ch op k hi ht hk h
    exact ht.exec hi hk h
  · intro s c code hi ht he
    exact ht.entry hi he

end Xv6
