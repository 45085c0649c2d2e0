import OperatingSystems.Proc.Steps

/-!
# The locking discipline of the kernel code

Which locks a processor holds, whether its current process is running, and
which half-built child it is working on can all be read off the code it has
still to execute.  `lockDiscipline` says what each operation needs of that
`Mode` and what it leaves.

* `embOf_of_walks`: code that walks under the discipline names at most one
  slot that `fork` is filling in, and that is the slot of its mode.
* `walks_exit`, `walks_trapSyscall`, `walks_trapTimer` and the other lemmas on
  routines: every routine of the source walks.
* `effect_walks`: what an operation pushes on the code that follows it walks
  too, so the discipline survives execution.
-/

namespace Xv6

open ProcState

/-- What the code of a processor knows about the state it runs in. -/
structure Mode where
  /-- The slot that `fork` is filling in. -/
  emb : Option Slot
  /-- `ptable.lock` is held. -/
  pt : Bool
  /-- `tickslock` is held. -/
  tk : Bool
  /-- The current process has left the state `RUNNING`. -/
  off : Bool
  /-- There is a current process. -/
  cur : Bool
  deriving DecidableEq

namespace Mode

/-- The mode in which kernel code ends: no lock held, nothing half done. -/
def rest (cur : Bool) : Mode := ⟨none, false, false, false, cur⟩

/-- The mode in which a context saved by `sched` resumes: `ptable.lock` held. -/
def resumed (emb : Option Slot) (cur : Bool) : Mode := ⟨emb, true, false, false, cur⟩

end Mode

/-- What each operation needs and leaves. -/
def lockDiscipline : Discipline Op Mode where
  pre := fun op m =>
    match op with
    | .acquire .ptable => m.pt = false ∧ m.off = false
    | .release .ptable => m.pt = true ∧ m.off = false
    | .acquire .tickslock => m.tk = false ∧ m.off = false
    | .release .tickslock => m.tk = true ∧ m.off = false
    | .acquire (.other _) | .release (.other _) => m.tk = false ∧ m.off = false
    | .panic _ => m.emb = none ∧ (m.off = true → m.pt = true)
    | .ret _ | .waitStatus _ | .setKilled => m.off = false ∧ m.cur = true
    | .iret | .trapYield => m.pt = false ∧ m.tk = false ∧ m.off = false
    | .io | .exitCheck | .sysKilled => m = .rest true
    | .wakeup1 _ => m.pt = true ∧ m.off = false
    | .sleepSet _ | .yieldSet => m.pt = true ∧ m.tk = false ∧ m.off = false ∧ m.cur = true
    | .sched => m.pt = true ∧ m.tk = false ∧ m.off = true ∧ m.cur = true
    | .sleepTidy => m.pt = true ∧ m.off = false ∧ m.cur = true
    | .allocScan | .exitPass | .waitScan _ | .killScan _ | .exitZombie => m = .resumed none true
    | .allocStack p | .allocZero p | .forkCopy p => m = ⟨some p, false, false, false, true⟩
    | .allocCtime p => m = ⟨some p, false, true, false, true⟩
    | .forkRun p => m = .resumed (some p) true
    | .exitTtime | .killTtime _ => m = ⟨none, true, true, false, true⟩
    | .killWake _ => m = .resumed none true
    | .sleepStart _ | .sleepLoop _ _ | .uptime => m = ⟨none, false, true, false, true⟩
    | .ticksInc => m.pt = false ∧ m.tk = true ∧ m.off = false
    | .updateStat => m.pt = true ∧ m.tk = true ∧ m.off = false
    | .trapKilled user =>
      m.pt = false ∧ m.tk = false ∧ m.off = false ∧ (user = true → m = .rest true)
    | .schedLoop => m = .rest false
    | .schedScan _ => m = .resumed none false
  post := fun op m =>
    match op with
    | .acquire .ptable => { m with pt := true }
    | .release .ptable => { m with pt := false }
    | .acquire .tickslock => { m with tk := true }
    | .release .tickslock => { m with tk := false }
    | .panic _ => .rest m.cur
    | .sleepSet _ | .yieldSet | .exitZombie => { m with off := true }
    | .sched => { m with off := false }
    | .allocScan | .waitScan _ | .killScan _ => { m with pt := false }
    | .allocStack _ | .forkCopy _ | .forkRun _ => { m with emb := none }
    | .sleepStart _ | .sleepLoop _ _ | .uptime => { m with tk := false }
    | _ => m

/-- The slot an operation of `fork` fills in. -/
def Op.embryo : Op → Option Slot
  | .allocStack p | .allocCtime p | .allocZero p | .forkCopy p | .forkRun p => some p
  | _ => none

/-- The slot the code of a `fork` is filling in. -/
def embOf (code : List Op) : Option Slot := code.findSome? Op.embryo

theorem embOf_cons (op : Op) (k : List Op) : embOf (op :: k) = op.embryo.or (embOf k) := by
  cases h : op.embryo <;> simp [embOf, h]

theorem emb_of_embryo {op : Op} {m : Mode} {p : Slot} (h : op.embryo = some p)
    (hpre : lockDiscipline.pre op m) : m.emb = some p := by
  cases op <;> cases h <;> exact congrArg Mode.emb (show m = _ from hpre)

theorem post_emb_of_embryo {op : Op} {m : Mode} (h : op.embryo = none)
    (hpre : lockDiscipline.pre op m) : (lockDiscipline.post op m).emb = m.emb := by
  cases op with
  | acquire lk | release lk => cases lk <;> rfl
  | panic msg => exact hpre.1.symm
  | allocStack p | allocCtime p | allocZero p | forkCopy p | forkRun p => cases h
  | _ => rfl

/-- Code that walks under the discipline names the slot of its mode and no
other. -/
theorem embOf_of_walks : ∀ {code : List Op} {m : Mode} {b : Bool},
    lockDiscipline.Walks m code (.rest b) → embOf code = m.emb := by
  intro code
  induction code with
  | nil =>
    intro m b h
    rw [h]; rfl
  | cons op k ih =>
    intro m b h
    obtain ⟨hpre, hk⟩ := h
    rw [embOf_cons]
    cases hop : op.embryo with
    | none => rw [Option.none_or, ih hk, post_emb_of_embryo hop hpre]
    | some p => rw [Option.some_or, emb_of_embryo hop hpre]

/-! ## The routines walk -/

section Routines

variable {m : Mode}

theorem walks_wakeup (chan : Chan) (hpt : m.pt = false) (hoff : m.off = false) :
    lockDiscipline.Walks m (wakeup chan) m := by
  obtain ⟨emb, pt, tk, off, cur⟩ := m
  subst hpt hoff
  exact ⟨⟨rfl, rfl⟩, ⟨rfl, rfl⟩, ⟨rfl, rfl⟩, rfl⟩

theorem walks_updateStat (hpt : m.pt = false) (htk : m.tk = true) (hoff : m.off = false) :
    lockDiscipline.Walks m updateStat m := by
  obtain ⟨emb, pt, tk, off, cur⟩ := m
  subst hpt htk hoff
  exact ⟨⟨rfl, rfl⟩, ⟨rfl, rfl, rfl⟩, ⟨rfl, rfl⟩, rfl⟩

theorem walks_sleep_ptable (chan : Chan) :
    lockDiscipline.Walks (.resumed none true) (sleep chan .ptable) (.resumed none true) :=
  ⟨⟨rfl, rfl, rfl, rfl⟩, ⟨rfl, rfl, rfl, rfl⟩, ⟨rfl, rfl, rfl⟩, rfl⟩

theorem walks_sleep_tickslock (chan : Chan) :
    lockDiscipline.Walks ⟨none, false, true, false, true⟩ (sleep chan .tickslock)
      ⟨none, false, true, false, true⟩ :=
  ⟨⟨rfl, rfl⟩, ⟨rfl, rfl⟩, ⟨rfl, rfl, rfl, rfl⟩, ⟨rfl, rfl, rfl, rfl⟩, ⟨rfl, rfl, rfl⟩,
    ⟨rfl, rfl⟩, ⟨rfl, rfl⟩, rfl⟩

theorem walks_sleep_other (chan : Chan) (lk : Nat) :
    lockDiscipline.Walks (.rest true) (sleep chan (.other lk)) (.rest true) :=
  ⟨⟨rfl, rfl⟩, ⟨rfl, rfl⟩, ⟨rfl, rfl, rfl, rfl⟩, ⟨rfl, rfl, rfl, rfl⟩, ⟨rfl, rfl, rfl⟩,
    ⟨rfl, rfl⟩, ⟨rfl, rfl⟩, rfl⟩

theorem walks_yield (emb : Option Slot) :
    lockDiscipline.Walks ⟨emb, false, false, false, true⟩ yield ⟨emb, false, false, false, true⟩ :=
  ⟨⟨rfl, rfl⟩, ⟨rfl, rfl, rfl, rfl⟩, ⟨rfl, rfl, rfl, rfl⟩, ⟨rfl, rfl⟩, rfl⟩

theorem walks_exit : lockDiscipline.Walks (.rest true) exit (.rest true) :=
  ⟨rfl, rfl, ⟨rfl, rfl⟩, rfl, ⟨rfl, rfl⟩, rfl, ⟨rfl, rfl⟩, rfl, ⟨rfl, rfl, rfl, rfl⟩,
    ⟨rfl, fun _ => rfl⟩, rfl⟩

theorem walks_forkret : lockDiscipline.Walks (.resumed none true) forkret (.rest true) :=
  ⟨⟨rfl, rfl⟩, rfl, rfl⟩

theorem walks_trapSyscall (me : Proc) (call : Syscall) :
    lockDiscipline.Walks (.rest true) (trapSyscall me call) (.rest true) := by
  have hbody : lockDiscipline.Walks (.rest true) (syscall me call) (.rest true) := by
    cases call with
    | fork | wait | waitStat | kill pid | sleep n | uptime => exact ⟨⟨rfl, rfl⟩, rfl, rfl⟩
    | exit => exact walks_exit
    | getpid => exact ⟨⟨rfl, rfl⟩, rfl⟩
    | other => exact ⟨rfl, rfl⟩
  have hkill : lockDiscipline.Walks (.rest true) [.sysKilled] (.rest true) := ⟨rfl, rfl⟩
  exact (hkill.append hbody).append hkill

section

variable (hpt : m.pt = false) (htk : m.tk = false) (hoff : m.off = false)

include hpt htk hoff

theorem walks_timerBranch : lockDiscipline.Walks m timerBranch m := by
  obtain ⟨emb, pt, tk, off, cur⟩ := m
  subst hpt htk hoff
  have hstart : lockDiscipline.Walks ⟨emb, false, false, false, cur⟩
      [.acquire .tickslock, .ticksInc] ⟨emb, false, true, false, cur⟩ :=
    ⟨⟨rfl, rfl⟩, ⟨rfl, rfl, rfl⟩, rfl⟩
  have hend : lockDiscipline.Walks ⟨emb, false, true, false, cur⟩ [.release .tickslock]
      ⟨emb, false, false, false, cur⟩ := ⟨⟨rfl, rfl⟩, rfl⟩
  exact ((hstart.append (walks_updateStat rfl rfl rfl)).append
    (walks_wakeup .ticks rfl rfl)).append hend

/-- What follows the interrupt proper in `trap`. -/
theorem walks_trapEnd {user : Bool} (hu : user = true → m = .rest true) :
    lockDiscipline.Walks m [.trapKilled user, .trapYield, .trapKilled user, .iret] m :=
  ⟨⟨hpt, htk, hoff, hu⟩, ⟨hpt, htk, hoff⟩, ⟨hpt, htk, hoff, hu⟩, ⟨hpt, htk, hoff⟩, rfl⟩

theorem walks_trapTimer {c : Cpu} {user : Bool} (hu : user = true → m = .rest true) :
    lockDiscipline.Walks m (trapTimer c user) m := by
  refine .append ?_ (walks_trapEnd hpt htk hoff hu)
  split_ifs
  · exact walks_timerBranch hpt htk hoff
  · rfl

theorem walks_trapIntr {lk chan : Nat} {user : Bool} (hu : user = true → m = .rest true) :
    lockDiscipline.Walks m (trapIntr lk chan user) m := by
  have hstart : lockDiscipline.Walks m [.acquire (.other lk)] m := ⟨⟨htk, hoff⟩, rfl⟩
  exact (hstart.append (walks_wakeup _ hpt hoff)).append
    ⟨⟨htk, hoff⟩, ⟨hpt, htk, hoff, hu⟩, ⟨hpt, htk, hoff, hu⟩, ⟨hpt, htk, hoff⟩, rfl⟩

end

theorem walks_trapFault : lockDiscipline.Walks (.rest true) trapFault (.rest true) :=
  ⟨⟨rfl, rfl⟩, ⟨rfl, rfl, rfl, fun _ => rfl⟩, ⟨rfl, rfl, rfl, fun _ => rfl⟩, ⟨rfl, rfl, rfl⟩, rfl⟩

end Routines

/-! ## The code an operation goes on with -/

namespace Kernel

variable {s s' : Kernel} {c : Cpu} {ch : Choice} {op : Op} {k : List Op}

/-- **The code after an operation walks.**  It starts in the mode of the
operation, except that the process may now be off the processor, and that
`allocproc` may have taken a slot. -/
theorem procEffect_walks {me : Slot} {e : Effect} {m : Mode}
    (h : s.procEffect me ch op k = some e) (hpre : lockDiscipline.pre op m) (hcur : m.cur = true)
    (hk : lockDiscipline.Walks (lockDiscipline.post op m) k (.rest true)) :
    ∃ emb, lockDiscipline.Walks { m with emb := emb, off := (lockDiscipline.post op m).off } e.code
        (.rest true) ∧
      (emb = m.emb ∨ emb = none ∨ (op = .allocScan ∧ s.proc.firstUnused = emb)) := by
  cases op with
  | ret v | sleepSet chan | sleepTidy | yieldSet | allocCtime p | allocZero p | exitTtime
  | exitZombie | waitStatus v | killTtime p | setKilled =>
    cases h; exact ⟨m.emb, hk, .inl rfl⟩
  | io =>
    obtain rfl : m = .rest true := hpre
    have hstart (lk : Nat) : lockDiscipline.Walks (.rest true) [.acquire (.other lk)] (.rest true) :=
      ⟨⟨rfl, rfl⟩, rfl⟩
    have hend (lk : Nat) :
        lockDiscipline.Walks (.rest true) [.release (.other lk), .io] (.rest true) :=
      ⟨⟨rfl, rfl⟩, rfl, rfl⟩
    cases ch with
    | done => cases h; exact ⟨none, hk, .inl rfl⟩
    | addr a => cases h
    | sleepOn lk chan =>
      cases h
      refine ⟨none, ?_, .inl rfl⟩
      exact (((hstart lk).append (walks_sleep_other (.other chan) lk)).append (hend lk)).append hk
    | wake lk chan =>
      cases h
      refine ⟨none, ?_, .inl rfl⟩
      exact (((hstart lk).append (walks_wakeup (.other chan) rfl rfl)).append (hend lk)).append hk
  | allocScan =>
    obtain rfl : m = .resumed none true := hpre
    simp only [procEffect] at h
    split at h
    · cases h; exact ⟨none, ⟨⟨rfl, rfl⟩, ⟨rfl, rfl⟩, hk⟩, .inl rfl⟩
    · rename_i p hp
      cases h
      exact ⟨some p, ⟨⟨rfl, rfl⟩, rfl, hk⟩, .inr (.inr ⟨rfl, hp⟩)⟩
  | allocStack p =>
    obtain rfl : m = ⟨some p, false, false, false, true⟩ := hpre
    simp only [procEffect] at h
    split at h
    · cases h; exact ⟨none, ⟨⟨rfl, rfl⟩, hk⟩, .inr (.inl rfl)⟩
    · cases h; exact ⟨some p, ⟨⟨rfl, rfl⟩, rfl, ⟨rfl, rfl⟩, rfl, rfl, hk⟩, .inl rfl⟩
    · cases h
  | forkCopy p =>
    obtain rfl : m = ⟨some p, false, false, false, true⟩ := hpre
    simp only [procEffect] at h
    split at h
    · cases h; exact ⟨none, ⟨⟨rfl, rfl⟩, hk⟩, .inr (.inl rfl)⟩
    · cases h; exact ⟨some p, ⟨⟨rfl, rfl⟩, rfl, ⟨rfl, rfl⟩, ⟨rfl, rfl⟩, hk⟩, .inl rfl⟩
    · cases h
  | forkRun p => cases h; exact ⟨none, hk, .inr (.inl rfl)⟩
  | exitCheck =>
    obtain rfl : m = .rest true := hpre
    simp only [procEffect] at h
    split_ifs at h
    · cases h; exact ⟨none, ⟨⟨rfl, fun h => h⟩, rfl⟩, .inl rfl⟩
    · cases h; exact ⟨none, hk, .inl rfl⟩
  | exitPass =>
    simp only [procEffect, Option.some.injEq] at h
    have he : e.code = k := by rw [← h]
    rw [he]
    exact ⟨m.emb, hk, .inl rfl⟩
  | waitScan stat =>
    obtain rfl : m = .resumed none true := hpre
    simp only [procEffect] at h
    split at h
    · split_ifs at h
      · cases h; exact ⟨none, ⟨⟨rfl, rfl⟩, ⟨rfl, rfl⟩, ⟨rfl, rfl⟩, hk⟩, .inl rfl⟩
      · cases h; exact ⟨none, ⟨⟨rfl, rfl⟩, ⟨rfl, rfl⟩, hk⟩, .inl rfl⟩
    · split_ifs at h
      · cases h; exact ⟨none, ⟨⟨rfl, rfl⟩, ⟨rfl, rfl⟩, ⟨rfl, rfl⟩, hk⟩, .inl rfl⟩
      · cases h; exact ⟨none, ⟨⟨rfl, rfl⟩, ⟨rfl, rfl⟩, hk⟩, .inl rfl⟩
      · cases h
        have hagain : lockDiscipline.Walks (.resumed none true) [.waitScan stat] (.rest true) :=
          ⟨rfl, rfl⟩
        exact ⟨none, ((walks_sleep_ptable _).append hagain).append hk, .inl rfl⟩
  | killScan pid =>
    obtain rfl : m = .resumed none true := hpre
    simp only [procEffect] at h
    split at h
    · cases h; exact ⟨none, ⟨⟨rfl, rfl⟩, ⟨rfl, rfl⟩, hk⟩, .inl rfl⟩
    · cases h
      exact ⟨none, ⟨⟨rfl, rfl⟩, rfl, ⟨rfl, rfl⟩, rfl, ⟨rfl, rfl⟩, ⟨rfl, rfl⟩, hk⟩, .inl rfl⟩
  | killWake p =>
    simp only [procEffect] at h
    split_ifs at h <;> cases h <;> exact ⟨m.emb, hk, .inl rfl⟩
  | sleepStart n =>
    obtain rfl : m = ⟨none, false, true, false, true⟩ := hpre
    cases h
    exact ⟨none, ⟨rfl, hk⟩, .inl rfl⟩
  | sleepLoop n t =>
    obtain rfl : m = ⟨none, false, true, false, true⟩ := hpre
    simp only [procEffect] at h
    split_ifs at h
    · cases h; exact ⟨none, ⟨⟨rfl, rfl⟩, ⟨rfl, rfl⟩, hk⟩, .inl rfl⟩
    · cases h
      have hagain : lockDiscipline.Walks ⟨none, false, true, false, true⟩ [.sleepLoop n t]
          (.rest true) := ⟨rfl, rfl⟩
      exact ⟨none, ((walks_sleep_tickslock _).append hagain).append hk, .inl rfl⟩
    · cases h; exact ⟨none, ⟨⟨rfl, rfl⟩, ⟨rfl, rfl⟩, hk⟩, .inl rfl⟩
  | uptime =>
    obtain rfl : m = ⟨none, false, true, false, true⟩ := hpre
    cases h
    exact ⟨none, ⟨⟨rfl, rfl⟩, ⟨rfl, rfl⟩, hk⟩, .inl rfl⟩
  | sysKilled =>
    obtain rfl : m = .rest true := hpre
    cases h
    refine ⟨none, .append ?_ hk, .inl rfl⟩
    split_ifs
    · exact walks_exit
    · rfl
  | trapKilled user =>
    cases h
    refine ⟨m.emb, .append ?_ hk, .inl rfl⟩
    split_ifs with hu
    · obtain rfl : m = .rest true := hpre.2.2.2 (by simp at hu; exact hu.2)
      exact walks_exit
    · rfl
  | trapYield =>
    obtain ⟨emb, pt, tk, off, cur⟩ := m
    obtain ⟨rfl, rfl, rfl⟩ : pt = false ∧ tk = false ∧ off = false := hpre
    obtain rfl : cur = true := hcur
    cases h
    refine ⟨emb, .append ?_ hk, .inl rfl⟩
    split_ifs
    · exact walks_yield emb
    · rfl
  | _ => cases h

theorem effect_walks {e : Effect} {m : Mode} (h : s.effect (s.cpu c).proc ch op k = some e)
    (hpre : lockDiscipline.pre op m) (hcur : m.cur = (s.cpu c).proc.isSome)
    (hk : lockDiscipline.Walks (lockDiscipline.post op m) k (.rest m.cur)) :
    ∃ emb, lockDiscipline.Walks { m with emb := emb, off := (lockDiscipline.post op m).off } e.code
        (.rest m.cur) ∧
      (emb = m.emb ∨ emb = none ∨ (op = .allocScan ∧ s.proc.firstUnused = emb)) := by
  unfold effect at h
  split at h
  · cases h; exact ⟨m.emb, hk, .inl rfl⟩
  · cases h; exact ⟨m.emb, hk, .inl rfl⟩
  · cases h; exact ⟨m.emb, hk, .inl rfl⟩
  · obtain rfl : m = .rest false := hpre
    cases h
    exact ⟨none, ⟨⟨rfl, rfl⟩, rfl, ⟨rfl, rfl⟩, rfl, hk⟩, .inl rfl⟩
  · split at h
    · rename_i me hme
      rw [hme, Option.isSome_some] at hcur
      rw [show Mode.rest m.cur = .rest true by rw [hcur]] at hk ⊢
      exact procEffect_walks h hpre hcur hk
    · split at h
      · cases h; exact ⟨m.emb, hk, .inl rfl⟩
      · cases h; exact ⟨m.emb, hk, .inl rfl⟩
      · cases h

end Kernel

end Xv6
