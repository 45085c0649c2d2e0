import OperatingSystems.Proc.Accounting

/-!
# Parents and children

Who is whose parent, and who sleeps in `wait` for whom.  `fork` makes the caller
the parent of the new process, `exit` passes the children of the caller to init
and wakes its parent, and `wait` and `wait_stat` clear the parent of a child they
reap.

* `KinChange`, `exec_kin`: the ways in which an operation changes the parent and
  the sleep channel of a slot.
* `kinDiscipline`: where a process stands in `fork`, `exit` and `wait`, read off
  the code it has still to execute.
* `Family`: the invariant.  Every process but init has a parent that takes part
  in the scheduling, and nobody sleeps in `wait` past a zombie child.
* `family`: it holds in every reachable state.
* `no_sleep_past_zombie`: the part about `wait`.
-/

namespace Xv6

open ProcState Function Kernel Option

namespace Table

/-- The process in slot `q` sleeps in `wait` or `wait_stat`: on its own slot. -/
def Dozes (t : Table) (q : Slot) : Prop := (t q).state = SLEEPING ∧ (t q).chan = some (.proc q)

instance (t : Table) (q : Slot) : Decidable (t.Dozes q) := inferInstanceAs (Decidable (_ ∧ _))

/-! ## The loop of `exit` -/

theorem Wakes.chan {t t' : Table} (h : Wakes t t') (p : Slot) : (t' p).chan = (t p).chan := by
  obtain ⟨_, _, hp, _⟩ := h p
  simp [hp]

/-- Waking puts nobody to sleep. -/
theorem Wakes.dozes {t t' : Table} (h : Wakes t t') {q : Slot} (hd : t'.Dozes q) : t.Dozes q := by
  refine ⟨?_, by rw [← h.chan q]; exact hd.2⟩
  rcases h.state_eq_or q with hs | ⟨hs, -⟩
  · rw [← hs]; exact hd.1
  · exact hs

@[simp] theorem wakeup1_parent (chan : Option Chan) (t : Table) (p : Slot) :
    (wakeup1 chan t p).parent = (t p).parent := by
  unfold wakeup1
  split_ifs <;> rfl

theorem not_dozes_wakeup1 (t : Table) (q : Slot) : ¬ (wakeup1 (some (.proc q)) t).Dozes q := by
  rintro ⟨hs, hc⟩
  unfold wakeup1 at hs hc
  split_ifs at hs hc with h
  exact h ⟨hs, hc⟩

theorem passChild_parent (me initproc : Slot) (t : Table) (p q : Slot) :
    (passChild me initproc t p q).parent =
      if q = p ∧ (t q).parent = some me then some initproc else (t q).parent := by
  unfold passChild
  by_cases hp : (t p).parent = some me
  · simp only [if_pos hp]
    split_ifs <;> simp_all
  · rw [if_neg hp, if_neg]
    rintro ⟨rfl, h⟩
    exact hp h

theorem passChildren_parent (me initproc : Slot) (t : Table) (q : Slot) :
    (passChildren me initproc t q).parent =
      if (t q).parent = some me then some initproc else (t q).parent := by
  -- of the slots visited so far, those whose parent was `me` have been passed on
  have key : ∀ (ps : List Slot) (t : Table), (ps.foldl (passChild me initproc) t q).parent =
      if q ∈ ps ∧ (t q).parent = some me then some initproc else (t q).parent := by
    intro ps
    induction ps with
    | nil => intro t; simp
    | cons p ps ih =>
      intro t
      rw [List.foldl_cons, ih, passChild_parent]
      by_cases hq : q = p
      · subst hq
        by_cases hme : (t q).parent = some me <;> simp [hme]
      · simp [hq]
  simpa [passChildren] using key slots t

theorem passChild_state (me initproc : Slot) (t : Table) (p q : Slot) :
    (passChild me initproc t p q).state = ZOMBIE ↔ (t q).state = ZOMBIE :=
  (wakes_passChild me initproc t p).state_iff q (by simp) (by simp)

/-- A zombie that is passed to init finds init awake. -/
theorem not_dozes_passChildren (me initproc : Slot) (t : Table) {q : Slot}
    (hz : (t q).state = ZOMBIE) (hq : (t q).parent = some me) :
    ¬ (passChildren me initproc t).Dozes initproc := by
  have later : ∀ (ps : List Slot) (t : Table), Wakes t (ps.foldl (passChild me initproc) t) := by
    intro ps
    induction ps with
    | nil => intro t; exact .refl t
    | cons p ps ih => intro t; exact (wakes_passChild me initproc t p).trans (ih _)
  have key : ∀ (ps : List Slot) (t : Table), q ∈ ps → (t q).state = ZOMBIE →
      (t q).parent = some me → ¬ (ps.foldl (passChild me initproc) t).Dozes initproc := by
    intro ps
    induction ps with
    | nil => intro t h; simp at h
    | cons p ps ih =>
      intro t hmem hz hq hd
      rw [List.foldl_cons] at hd
      by_cases hqp : q = p
      · subst hqp
        have hpass : passChild me initproc t q = wakeup1 (some (.proc initproc))
            (update t q { t q with parent := some initproc }) := by
          simp [passChild, hq, hz]
        rw [hpass] at hd
        exact not_dozes_wakeup1 _ initproc ((later ps _).dozes hd)
      · have hpar : (passChild me initproc t p q).parent = some me := by
          rw [passChild_parent, if_neg (by simp [hqp]), hq]
        exact ih _ ((List.mem_cons.1 hmem).resolve_left hqp)
          ((passChild_state me initproc t p q).2 hz) hpar hd
  exact key slots t (mem_slots q) hz hq

theorem lookChildren_none {t : Table} {me : Slot} : ∀ {ps : List Slot} {kids kids' : Bool},
    lookChildren t me ps kids = (none, kids') →
      ∀ p ∈ ps, (t p).parent = some me → (t p).state ≠ ZOMBIE := by
  intro ps
  induction ps with
  | nil => intro kids kids' _ p hp; simp at hp
  | cons q ps ih =>
    intro kids kids' h p hp hpar
    rw [lookChildren] at h
    split_ifs at h with hq hz
    · rcases List.mem_cons.1 hp with rfl | hp
      · exact absurd hpar hq
      · exact ih h p hp hpar
    · cases h
    · rcases List.mem_cons.1 hp with rfl | hp
      · exact hz
      · exact ih h p hp hpar

end Table

/-! ## What an operation does to a parent and a sleep channel -/

/-- The parent of a slot and what it sleeps on. -/
def Proc.kin (q : Proc) : Option Slot × Option Chan := (q.parent, q.chan)

theorem Proc.parent_of_kin {q : Proc} {x : Option Slot × Option Chan} (h : q.kin = x) :
    q.parent = x.1 := by rw [← h]; rfl

theorem Proc.chan_of_kin {q : Proc} {x : Option Slot × Option Chan} (h : q.kin = x) :
    q.chan = x.2 := by rw [← h]; rfl

namespace Kernel

/-- The ways in which the execution of `op` on processor `c` changes the parent and
the sleep channel of the slot `p`, of which it makes `q`. -/
inductive KinChange (s : Kernel) (c : Cpu) (p : Slot) (q : Proc) : Op → Prop
  /-- Not at all. -/
  | none {op} (h : q.kin = (s.proc p).kin) : KinChange s c p q op
  /-- `fork` makes the caller the parent. -/
  | copy {me} (hme : (s.cpu c).proc = some me) (h : q.kin = (some me, (s.proc p).chan)) :
      KinChange s c p q (.forkCopy p)
  /-- `exit` passes the child to init. -/
  | pass {me} (hme : (s.cpu c).proc = some me) (hp : (s.proc p).parent = some me)
      (h : q.kin = (some s.initproc, (s.proc p).chan)) : KinChange s c p q .exitPass
  /-- `wait` or `wait_stat` reaps the child. -/
  | reap {stat me} (hme : (s.cpu c).proc = some me) (hp : (s.proc p).parent = some me)
      (hz : (s.proc p).state = ZOMBIE) (h : q.kin = (none, (s.proc p).chan))
      (hu : q.state = UNUSED) : KinChange s c p q (.waitScan stat)
  /-- The current process goes to sleep. -/
  | sleep {chan} (hme : (s.cpu c).proc = some p) (h : q.kin = ((s.proc p).parent, some chan)) :
      KinChange s c p q (.sleepSet chan)
  /-- The current process was awakened. -/
  | tidy (hme : (s.cpu c).proc = some p) (h : q.kin = ((s.proc p).parent, none)) :
      KinChange s c p q .sleepTidy

variable {s s' : Kernel} {c : Cpu} {ch : Choice} {op : Op} {k : List Op}

theorem KinChange.of_update {p p' : Slot} {q : Proc} (h : KinChange s c p' q op) :
    KinChange s c p (update s.proc p' q p) op := by
  by_cases hp : p = p'
  · subst hp; simpa using h
  · exact .none (by rw [update_of_ne hp])

theorem procEffect_kin {me : Slot} {e : Effect} (hme : (s.cpu c).proc = some me)
    (h : s.procEffect me ch op k = some e) (p : Slot) : KinChange s c p (e.proc p) op := by
  cases op with
  | io => cases ch <;> cases h <;> exact .none rfl
  | sleepSet chan => cases h; exact .of_update (.sleep hme rfl)
  | sleepTidy => cases h; exact .of_update (.tidy hme rfl)
  | allocScan | killScan pid =>
    simp only [procEffect] at h
    split at h <;> cases h
    · exact .none rfl
    · exact .of_update (.none rfl)
  | allocStack q =>
    simp only [procEffect] at h
    split at h <;> cases h
    · exact .of_update (.none rfl)
    · exact .of_update (.none rfl)
  | forkCopy q =>
    simp only [procEffect] at h
    split at h <;> cases h
    · exact .of_update (.none rfl)
    · exact .of_update (.copy hme rfl)
  | exitCheck | sleepLoop n t =>
    simp only [procEffect] at h
    split_ifs at h <;> cases h <;> exact .none rfl
  | exitPass =>
    simp only [procEffect, some.injEq] at h
    have he : e.proc = (s.proc.wakeup1 ((s.proc me).parent.map .proc)).passChildren me
        s.initproc := by rw [← h]
    have hw : Table.Wakes s.proc e.proc := by
      rw [he]
      exact (Table.wakes_wakeup1 _ _).trans (Table.wakes_passChildren _ _ _)
    have hpar : (e.proc p).parent =
        if (s.proc p).parent = some me then some s.initproc else (s.proc p).parent := by
      rw [he, Table.passChildren_parent, Table.wakeup1_parent]
    have hkin : (e.proc p).kin =
        (if (s.proc p).parent = some me then some s.initproc else (s.proc p).parent,
          (s.proc p).chan) := by
      rw [Proc.kin, hpar, hw.chan p]
    by_cases hp : (s.proc p).parent = some me
    · exact .pass hme hp (by rw [hkin, if_pos hp])
    · exact .none (by rw [hkin, if_neg hp]; rfl)
  | waitScan stat =>
    simp only [procEffect] at h
    split at h
    · rename_i q kids hq
      obtain ⟨hz, hpar⟩ := Table.lookChildren_zombie hq
      split_ifs at h with hst <;> cases h
      · by_cases hp : p = q
        · subst hp
          simp only [update_self]
          exact .reap hme hpar hz rfl rfl
        · simp only [update_of_ne hp]
          exact .of_update (.none rfl)
      · exact .of_update (.reap hme hpar hz rfl rfl)
    · split_ifs at h <;> cases h <;> exact .none rfl
  | killWake q =>
    simp only [procEffect] at h
    split_ifs at h <;> cases h
    · exact .of_update (.none rfl)
    · exact .none rfl
  | _ =>
    first
    | (cases h; exact .none rfl)
    | (cases h; exact .of_update (.none rfl))
    | cases h

theorem tick_kin (q : Proc) : (Table.tick q).kin = q.kin := by
  unfold Table.tick
  split_ifs <;> rfl

/-- **The ways in which a parent and a sleep channel can change.** -/
theorem exec_kin (h : s.exec c ch op k = some s') (p : Slot) : KinChange s c p (s'.proc p) op := by
  cases exec_cases h with
  | switch _ _ | dispatch _ => exact .of_update (.none rfl)
  | @effect _ e _ he =>
    show KinChange s c p (e.proc p) op
    unfold effect at he
    split at he
    · cases he; exact .none rfl
    · cases he
      refine .none ?_
      unfold Proc.kin
      rw [Table.wakeup1_parent, (Table.wakes_wakeup1 _ _).chan]
    · cases he; exact .none (tick_kin _)
    · cases he; exact .none rfl
    · split at he
      · rename_i me hme
        exact procEffect_kin hme he p
      · split at he <;> cases he <;> exact .none rfl
  | _ => exact .none rfl

theorem exec_initproc (h : s.exec c ch op k = some s') : s'.initproc = s.initproc := by
  cases exec_cases h <;> rfl

end Kernel

/-! ## Where a process stands in `fork`, `exit` and `wait` -/

/-- What the code a process has still to execute says about its family. -/
inductive Kin
  /-- Nothing. -/
  | idle
  /-- In `exit`, past the check that the process is not init. -/
  | exiting
  /-- In `exit`, with the children passed to init and the parent woken. -/
  | passed
  /-- In `fork`, with the child `p` filled in and its process ID to be returned. -/
  | parented (p : Slot) (pid : Int32)
  /-- In `fork`, about to return. -/
  | returning (pid : Int32)
  /-- In `wait`, about to sleep on the slot `q`. -/
  | dozing (q : Slot)
  deriving DecidableEq

/-- The process may be interrupted, or give up its processor. -/
def Kin.calm : Kin → Bool
  | .passed | .dozing _ => false
  | _ => true

/-- What the family asks of each operation. -/
def kinDiscipline : Discipline Op Kin where
  pre := fun op t =>
    match op with
    | .exitCheck | .sysKilled | .trapKilled true | .allocScan | .allocStack _ | .allocCtime _
    | .allocZero _ | .forkCopy _ | .panic _ | .waitScan _ | .killScan _ | .sleepStart _
    | .sleepLoop _ _ | .uptime | .schedLoop | .schedScan _ => t = .idle
    | .io => t = .idle ∨ t = .exiting
    | .exitPass => t = .exiting
    | .exitTtime | .exitZombie => t = .passed
    | .acquire .tickslock | .release .tickslock => ∀ q, t ≠ .dozing q
    | .forkRun p => ∃ pid, t = .parented p pid
    | .ret v => t = .idle ∨ t = .returning v
    | .sleepSet (.proc q) => t = .dozing q
    | _ => t.calm = true
  post := fun op t =>
    match op with
    | .exitCheck => .exiting
    | .exitPass => .passed
    | .exitZombie | .ret _ | .panic _ | .sleepSet (.proc _) => .idle
    | .forkRun _ =>
      match t with
      | .parented _ pid => .returning pid
      | t => t
    | _ => t

theorem kin_exit : kinDiscipline.Walks .idle exit .idle := by
  simp [exit, kinDiscipline, Kin.calm]

theorem kin_forkret : kinDiscipline.Walks .idle forkret .idle := by
  simp [forkret, kinDiscipline, Kin.calm]

theorem kin_trapSyscall (me : Proc) (call : Syscall) :
    kinDiscipline.Walks .idle (trapSyscall me call) .idle := by
  cases call <;>
    simp [trapSyscall, syscall, fork, exit, wait, waitStat, kill, sysSleep, sysUptime,
      kinDiscipline, Kin.calm]

theorem kin_trapTimer {t : Kin} {user : Bool} (ht : t.calm = true) (hu : user = true → t = .idle)
    (c : Cpu) : kinDiscipline.Walks t (trapTimer c user) t := by
  have hdoze : ∀ q, t ≠ .dozing q := by rintro q rfl; cases ht
  have hend : kinDiscipline.Walks t [.trapKilled user, .trapYield, .trapKilled user, .iret] t := by
    cases user with
    | true => exact ⟨hu rfl, ht, hu rfl, ht, rfl⟩
    | false => exact ⟨ht, ht, ht, ht, rfl⟩
  refine .append ?_ hend
  split_ifs
  · exact ⟨hdoze, ht, ht, ht, ht, ht, ht, ht, hdoze, rfl⟩
  · rfl

theorem kin_trapIntr {t : Kin} {user : Bool} (ht : t.calm = true) (hu : user = true → t = .idle)
    (lk chan : Nat) : kinDiscipline.Walks t (trapIntr lk chan user) t := by
  cases user with
  | true => exact ⟨ht, ht, ht, ht, ht, hu rfl, hu rfl, ht, rfl⟩
  | false => exact ⟨ht, ht, ht, ht, ht, ht, ht, ht, rfl⟩

/-- Code called by an operation leaves a process where the operation would.  Only
`fork` and `wait` learn something. -/
theorem Kernel.Calls.kin {op : Op} {l : List Op} (h : Kernel.Calls op l) {t : Kin}
    (hpre : kinDiscipline.pre op t) :
    (kinDiscipline.Walks t l t ∧ kinDiscipline.post op t = t) ∨
    (∃ p pid, op = .forkCopy p ∧ t = .idle ∧
      l = [.acquire .ptable, .forkRun p, .release .ptable, .ret pid]) ∨
    (∃ stat me, op = .waitScan stat ∧ t = .idle ∧
      l = sleep (.proc me) .ptable ++ [.waitScan stat]) := by
  cases h with
  | copy p pid => exact .inr (.inl ⟨p, pid, rfl, hpre, rfl⟩)
  | waitSleep stat me => exact .inr (.inr ⟨stat, me, rfl, hpre, rfl⟩)
  | sleepOn lk chan =>
    refine .inl ⟨?_, rfl⟩
    rcases hpre with rfl | rfl <;> simp [sleep, kinDiscipline, Kin.calm]
  | wake lk chan =>
    refine .inl ⟨?_, rfl⟩
    rcases hpre with rfl | rfl <;> simp [wakeup, kinDiscipline, Kin.calm]
  | sysKilled | trapKilled =>
    obtain rfl : t = .idle := hpre
    exact .inl ⟨kin_exit, rfl⟩
  | trapYield =>
    replace hpre : t.calm = true := hpre
    exact .inl ⟨⟨hpre, hpre, hpre, hpre, rfl⟩, rfl⟩
  | _ =>
    obtain rfl : t = .idle := hpre
    exact .inl ⟨by simp [sleep, kinDiscipline, Kin.calm], rfl⟩

/-- A process about to become a zombie, or to sleep in `wait`, holds
`ptable.lock`. -/
theorem pt_of_kin : ∀ {code : List Op} {m : Mode} {b : Bool} {t : Kin},
    lockDiscipline.Walks m code (.rest b) → kinDiscipline.Walks t code .idle →
    t.calm = false → m.pt = true := by
  intro code
  induction code with
  | nil =>
    intro m b t _ ht hc
    rw [show t = .idle from ht] at hc
    cases hc
  | cons op k ih =>
    intro m b t hw ht hc
    have no : t.calm = true → m.pt = true := fun h => absurd (h.symm.trans hc) (by simp)
    cases op with
    | acquire lk =>
      cases lk with
      | ptable | other n => exact no ht.1
      | tickslock => exact ih (m := { m with tk := true }) hw.2 ht.2 hc
    | release lk =>
      cases lk with
      | ptable | other n => exact no ht.1
      | tickslock => exact ih (m := { m with tk := false }) hw.2 ht.2 hc
    | exitTtime | exitZombie => exact congrArg Mode.pt (show m = _ from hw.1)
    | sleepSet chan => exact hw.1.1
    | forkRun p =>
      obtain ⟨pid, rfl⟩ := ht.1
      cases hc
    | trapKilled user =>
      cases user with
      | true => rw [show t = .idle from ht.1] at hc; cases hc
      | false => exact no ht.1
    | io | ret v => rcases ht.1 with rfl | rfl <;> cases hc
    | _ =>
      first
      | exact no ht.1
      | (rw [show t = _ from ht.1] at hc; cases hc)

variable {p : Slot}

/-- A process that has filled in the slot of its child is going to make it
runnable. -/
theorem embOf_of_parented {pid : Int32} : ∀ {code : List Op},
    kinDiscipline.Walks (.parented p pid) code .idle → embOf code = some p := by
  intro code
  induction code with
  | nil => intro h; cases h
  | cons op k ih =>
    intro h
    obtain ⟨hpre, hk⟩ := h
    rw [embOf_cons]
    cases op with
    | forkRun q =>
      obtain ⟨pid', heq⟩ := hpre
      cases heq
      rfl
    | acquire lk | release lk => cases lk <;> exact ih hk
    | trapKilled user =>
      cases user with
      | true => cases hpre
      | false => exact ih hk
    | sleepSet chan =>
      cases chan with
      | proc q => cases hpre
      | _ => exact ih hk
    | io | ret v => rcases hpre with h | h <;> cases h
    | _ => first | exact ih hk | cases hpre

/-! ## The invariant -/

namespace Kernel

variable {s s' : Kernel} {c : Cpu} {ch : Choice} {op : Op} {k : List Op} {t : Kin} {i : Slot}

/-- What is true of the process in slot `i` when its code says `t`. -/
def Means (s : Kernel) (i : Slot) : Kin → Prop
  | .exiting => i ≠ s.initproc
  | .passed => i ≠ s.initproc ∧ (∀ p, (s.proc p).parent ≠ some i) ∧
      ∀ q, (s.proc i).parent = some q → ¬ s.proc.Dozes q
  | .parented p pid => (s.proc p).parent = some i ∧ (s.proc p).pid = pid
  | .dozing q => q = i ∧ ∀ p, (s.proc p).parent = some i → (s.proc p).state ≠ ZOMBIE
  | _ => True

/-- The invariant of the family. -/
structure Family (s : Kernel) : Prop where
  /-- The code of every processor says what is true of its process. -/
  cpu : ∀ c, ∃ t, kinDiscipline.Walks t (s.cpu c).code .idle ∧
    ∀ i, (s.cpu c).proc = some i → s.Means i t
  /-- The scheduler knows nothing of families. -/
  sched : ∀ c, kinDiscipline.Walks .idle (s.cpu c).scheduler .idle
  /-- The contexts of the processes waiting to run say what is true of them. -/
  ctx : ∀ p, s.Waiting p → ∃ t, t.calm = true ∧
    kinDiscipline.Walks t (s.proc p).context .idle ∧ s.Means p t
  /-- The first process does not go away. -/
  init : s.Alive s.initproc
  /-- It has no parent. -/
  initParent : (s.proc s.initproc).parent = none
  /-- Nobody is its own parent. -/
  irrefl : ∀ p, (s.proc p).parent ≠ some p
  /-- Every other process has a parent that takes part in the scheduling. -/
  parent : ∀ p, p ≠ s.initproc → s.Alive p ∨ (s.proc p).state = ZOMBIE →
    ∃ q, (s.proc p).parent = some q ∧ s.Alive q
  /-- Nobody sleeps in `wait` past a zombie child. -/
  asleep : ∀ q p, s.proc.Dozes q → (s.proc p).parent = some q → (s.proc p).state ≠ ZOMBIE

/-! ### What changes only in one way -/

theorem exec_sleepSet {chan : Chan} (h : s.exec c ch (.sleepSet chan) k = some s') :
    ∃ me, (s.cpu c).proc = some me ∧ s'.proc =
      update s.proc me { s.proc me with chan := some chan, state := SLEEPING } := by
  cases hme : (s.cpu c).proc with
  | none => simp [exec, effect, hme] at h
  | some me =>
    simp only [exec, effect, hme, procEffect, map_some, some.injEq] at h
    subst h
    exact ⟨me, rfl, rfl⟩

/-- A process goes to sleep in `wait` by itself. -/
theorem dozes_exec (h : s.exec c ch op k = some s') {q : Slot} (hd : s'.proc.Dozes q) :
    s.proc.Dozes q ∨ (op = .sleepSet (.proc q) ∧ (s.cpu c).proc = some q) := by
  obtain ⟨hs, hc⟩ := hd
  by_cases hop : ∃ chan, op = .sleepSet chan
  · obtain ⟨chan, rfl⟩ := hop
    obtain ⟨me, hme, hproc⟩ := exec_sleepSet h
    rw [hproc] at hs hc
    by_cases hq : q = me
    · subst hq
      simp only [update_self, some.injEq] at hc
      exact .inr ⟨by rw [hc], hme⟩
    · rw [update_of_ne hq] at hs hc
      exact .inl ⟨hs, hc⟩
  · have hchan : (s.proc q).chan = some (.proc q) := by
      have hkin := exec_kin h q
      generalize s'.proc q = q' at hkin hc
      cases hkin with
      | none hk | copy _ hk | pass _ _ hk | reap _ _ _ hk _ =>
        rw [← hc]; exact (Proc.chan_of_kin hk).symm
      | sleep _ _ => exact absurd ⟨_, rfl⟩ hop
      | tidy _ hk =>
        rw [Proc.chan_of_kin hk] at hc
        cases hc
    refine .inl ⟨?_, hchan⟩
    have hch := exec_change h q
    rw [← Proc.core_state (s'.proc q)] at hs
    generalize (s'.proc q).core = q' at hch hs
    cases hch with
    | tick => simpa using hs
    | sleep _ => exact absurd ⟨_, rfl⟩ hop
    | _ => first | exact hs | simp [Table.reap, Table.reapStat] at hs

/-- A process becomes a zombie by itself. -/
theorem zombie_exec (h : s.exec c ch op k = some s') (hz : (s'.proc p).state = ZOMBIE) :
    (s.proc p).state = ZOMBIE ∨ (op = .exitZombie ∧ (s.cpu c).proc = some p) := by
  have hch := exec_change h p
  rw [← Proc.core_state (s'.proc p)] at hz
  generalize (s'.proc p).core = q' at hch hz
  cases hch with
  | tick => exact .inl (by simpa using hz)
  | zombie hp => exact .inr ⟨rfl, hp⟩
  | _ => first | exact .inl hz | simp [Table.reap, Table.reapStat] at hz

theorem Inv.lives_exec (hi : s.Inv) (hk : (s.cpu c).code = op :: k)
    (h : s.exec c ch op k = some s') (hl : s'.Alive p ∨ (s'.proc p).state = ZOMBIE) :
    (s.Alive p ∨ (s.proc p).state = ZOMBIE) ∨ op = .forkRun p := by
  rcases hl with ha | hz
  · exact (hi.alive_exec hk h ha).imp .inl id
  · rcases zombie_exec h hz with hz | ⟨rfl, hci⟩
    · exact .inl (.inr hz)
    · obtain ⟨emb, -, hpre, -⟩ := hi.next hk
      have hm : s.mode c emb = .resumed none true := hpre
      exact .inl (.inl (.inr (.inr ((off_eq_false hci).1 (congrArg Mode.off hm)))))

/-- A process takes part in the scheduling until it exits. -/
theorem Inv.alive_stays (hi : s.Inv) (hk : (s.cpu c).code = op :: k)
    (h : s.exec c ch op k = some s') (ha : s.Alive p) :
    s'.Alive p ∨ (op = .exitZombie ∧ (s.cpu c).proc = some p) := by
  obtain ⟨he, hu, hz⟩ := ha.not
  have hch := exec_change h p
  unfold Alive at ha ⊢
  rw [← Proc.core_state (s'.proc p)]
  generalize (s'.proc p).core = q' at hch
  cases hch with
  | tick => exact .inl (by simpa using ha)
  | alloc hf => exact absurd (Table.firstUnused_state hf) hu
  | allocFail _ | forkFail _ => exact absurd (hi.state_of_embryo hk rfl) he
  | zombie hp => exact .inr ⟨rfl, hp⟩
  | reap hz' | reapStat hz' => exact absurd hz' hz
  | _ => first | exact .inl ha | exact .inl (by simp)

/-- The process ID of a process does not change while it has one. -/
theorem pid_of_exec (h : s.exec c ch op k = some s') (hu : (s.proc p).state ≠ UNUSED)
    (hz : (s.proc p).state ≠ ZOMBIE) : (s'.proc p).pid = (s.proc p).pid := by
  have hch := exec_change h p
  rw [← Proc.core_pid (s'.proc p)]
  generalize (s'.proc p).core = q' at hch
  cases hch with
  | tick => simp
  | alloc hf => exact absurd (Table.firstUnused_state hf) hu
  | reap hz' | reapStat hz' => exact absurd hz' hz
  | _ => rfl

/-- Parents change only in `fork`, `exit` and `wait`. -/
theorem parent_exec (h : s.exec c ch op k = some s') {p q : Slot}
    (hp : (s'.proc p).parent = some q) :
    (s.proc p).parent = some q ∨ (op = .forkCopy p ∧ (s.cpu c).proc = some q) ∨
      (op = .exitPass ∧ q = s.initproc ∧ ∃ me, (s.cpu c).proc = some me ∧
        (s.proc p).parent = some me) := by
  have hkin := exec_kin h p
  generalize s'.proc p = q' at hkin hp
  cases hkin with
  | none hk | sleep _ hk | tidy _ hk => exact .inl ((Proc.parent_of_kin hk).symm.trans hp)
  | copy hme hk =>
    exact .inr (.inl ⟨rfl, hme.trans ((Proc.parent_of_kin hk).symm.trans hp)⟩)
  | pass hme hpar hk =>
    have : some s.initproc = some q := (Proc.parent_of_kin hk).symm.trans hp
    exact .inr (.inr ⟨rfl, (some.inj this).symm, _, hme, hpar⟩)
  | reap _ _ _ hk _ =>
    rw [Proc.parent_of_kin hk] at hp
    cases hp

/-! ### What stays true of a process -/

/-- What the code of a process says stays true unless an operation of `fork`, `exit`
or `wait` is executed by the process itself, or under its lock. -/
theorem Inv.means_keep (hi : s.Inv) (hk : (s.cpu c).code = op :: k)
    (h : s.exec c ch op k = some s') {code : List Op} (hst : s.Stack i code)
    (hw : kinDiscipline.Walks t code .idle) (hm : s.Means i t)
    (hfork : ∀ p, op = .forkCopy p → (s.cpu c).proc ≠ some i)
    (hexit : op = .exitPass → (s.cpu c).proc ≠ some i)
    (hlock : t.calm = false → (∃ c', (s.cpu c').proc = some i) ∧ op ≠ .exitPass ∧
      op ≠ .exitZombie ∧ ∀ q, op ≠ .sleepSet (.proc q)) : s'.Means i t := by
  cases t with
  | idle | returning pid => trivial
  | exiting =>
    show i ≠ s'.initproc
    rw [exec_initproc h]
    exact hm
  | passed =>
    obtain ⟨⟨c', hc'⟩, hpass, -, hsleep⟩ := hlock rfl
    obtain ⟨hinit, hkids, hpar⟩ := hm
    refine ⟨by rw [exec_initproc h]; exact hinit, ?_, ?_⟩
    · intro p hp
      rcases parent_exec h hp with hp | ⟨hop, hme⟩ | ⟨hop, -⟩
      · exact hkids p hp
      · exact hfork p hop hme
      · exact hpass hop
    · intro q hq hd
      have hq₀ : (s.proc i).parent = some q := by
        rcases parent_exec h hq with hq | ⟨rfl, -⟩ | ⟨hop, -⟩
        · exact hq
        · exact absurd (hi.state_of_embryo hk rfl) (hi.live c' i hc').2
        · exact absurd hop hpass
      rcases dozes_exec h hd with hd | ⟨hop, -⟩
      · exact hpar q hq₀ hd
      · exact hsleep q hop
  | parented p pid =>
    obtain ⟨hpar, hpid⟩ := hm
    have hemb := embOf_of_parented hw
    have he := (hi.embryo i code p hst hemb).1
    refine ⟨?_, (pid_of_exec h (by rw [he]; simp) (by rw [he]; simp)).trans hpid⟩
    have hkin := exec_kin h p
    generalize s'.proc p = q' at hkin
    cases hkin with
    | none hq | sleep _ hq | tidy _ hq => exact (Proc.parent_of_kin hq).trans hpar
    | copy _ _ => exact absurd (hi.stack_embryo hk hst hemb rfl) (hfork p rfl)
    | pass hme hp _ =>
      rw [hpar] at hp
      exact absurd (hme.trans hp.symm) (hexit rfl)
    | reap _ _ hz _ _ => rw [he] at hz; cases hz
  | dozing q =>
    obtain ⟨-, hpass, hzombie, -⟩ := hlock rfl
    obtain ⟨rfl, hkids⟩ := hm
    refine ⟨rfl, fun p hp hz => ?_⟩
    have hp₀ : (s.proc p).parent = some q := by
      rcases parent_exec h hp with hp | ⟨hop, hme⟩ | ⟨hop, -⟩
      · exact hp
      · exact absurd hme (hfork p hop)
      · exact absurd hop hpass
    rcases zombie_exec h hz with hz | ⟨hop, -⟩
    · exact hkids p hp₀ hz
    · exact hzombie hop

theorem Inv.means_ne (hi : s.Inv) (hk : (s.cpu c).code = op :: k)
    (h : s.exec c ch op k = some s') {code : List Op} (hst : s.Stack i code)
    (hw : kinDiscipline.Walks t code .idle) (hm : s.Means i t) (hne : (s.cpu c).proc ≠ some i)
    (hlock : t.calm = false → (∃ c', (s.cpu c').proc = some i) ∧ s.lock .ptable ≠ some c) :
    s'.Means i t := by
  refine hi.means_keep hk h hst hw hm (fun _ _ => hne) (fun _ => hne) fun hc => ?_
  obtain ⟨hon, hfree⟩ := hlock hc
  obtain ⟨emb, -, hpre, -⟩ := hi.next hk
  -- these operations are executed under the lock
  have hpt : (s.mode c emb).pt ≠ true := fun hp => hfree (mode_pt emb hp)
  refine ⟨hon, ?_, ?_, ?_⟩
  · rintro rfl
    exact hpt (congrArg Mode.pt (show s.mode c emb = .resumed none true from hpre))
  · rintro rfl
    exact hpt (congrArg Mode.pt (show s.mode c emb = .resumed none true from hpre))
  · rintro q rfl
    exact hpt hpre.1

/-- What the process itself executes, where the operation tells it nothing new. -/
theorem Inv.means_self (hi : s.Inv) (hk : (s.cpu c).code = op :: k)
    (h : s.exec c ch op k = some s') (hme : (s.cpu c).proc = some i)
    (hw : kinDiscipline.Walks t (op :: k) .idle) (hm : s.Means i t)
    (hpost : kinDiscipline.post op t = t) : s'.Means i t := by
  by_cases hidle : t = .idle
  · subst hidle; trivial
  have hpre := hw.1
  have hw' : kinDiscipline.Walks t (s.cpu c).code .idle := by rw [hk]; exact hw
  refine hi.means_keep hk h (.onCpu c hme) hw' hm ?_ ?_ fun hc => ⟨⟨c, hme⟩, ?_, ?_, ?_⟩
  · rintro p rfl
    exact absurd hpre hidle
  · rintro rfl
    rw [show t = .exiting from hpre] at hpost
    cases hpost
  · rintro rfl
    rw [show t = .exiting from hpre] at hpost
    cases hpost
  · rintro rfl
    exact absurd hpost.symm hidle
  · rintro q rfl
    exact absurd hpost.symm hidle

/-! ### What `fork`, `exit` and `wait` find out -/

theorem exec_exitCheck (h : s.exec c ch .exitCheck k = some s') :
    ∃ me, (s.cpu c).proc = some me ∧ s'.proc = s.proc ∧
      ((s'.cpu c).code = [.panic "init exiting"] ∨ me ≠ s.initproc ∧ (s'.cpu c).code = k) := by
  cases hme : (s.cpu c).proc with
  | none => simp [exec, effect, hme] at h
  | some me =>
    simp only [exec, effect, hme, procEffect] at h
    split_ifs at h with hinit
    · cases h; exact ⟨me, rfl, rfl, .inl (by simp [apply])⟩
    · cases h; exact ⟨me, rfl, rfl, .inr ⟨hinit, by simp [apply]⟩⟩

theorem exec_exitPass (h : s.exec c ch .exitPass k = some s') :
    ∃ me, (s.cpu c).proc = some me ∧ (s'.cpu c).proc = some me ∧ (s'.cpu c).code = k ∧
      s'.proc = (s.proc.wakeup1 ((s.proc me).parent.map .proc)).passChildren me s.initproc := by
  cases hme : (s.cpu c).proc with
  | none => simp [exec, effect, hme] at h
  | some me =>
    simp only [exec, effect, hme, procEffect, map_some, some.injEq] at h
    refine ⟨me, rfl, ?_, ?_, ?_⟩
    · rw [← h]; simpa only [apply, goto_cpu, update_self] using hme
    · rw [← h]; simp only [apply, goto_cpu, update_self]
    · rw [← h]; simp only [apply, goto_proc]

theorem exec_forkCopy {pid : Int32} (h : s.exec c ch (.forkCopy p) k = some s')
    (hcode : (s'.cpu c).code = [.acquire .ptable, .forkRun p, .release .ptable, .ret pid] ++ k) :
    ∃ me, (s.cpu c).proc = some me ∧ (s'.proc p).parent = some me ∧ (s'.proc p).pid = pid := by
  cases hme : (s.cpu c).proc with
  | none => simp [exec, effect, hme] at h
  | some me =>
    simp only [exec, effect, hme, procEffect] at h
    split at h
    · cases h
      have := congrArg List.head? hcode
      simp [apply] at this
    · cases h
      simp only [apply, goto_cpu, update_self, List.cons_append, List.cons.injEq,
        Op.ret.injEq] at hcode
      exact ⟨me, rfl, by simp [apply], by simp [apply, hcode]⟩
    · cases h

/-- A process that is going to sleep in `wait` has found no zombie. -/
theorem exec_waitScan {stat : Bool} {q : Slot} (h : s.exec c ch (.waitScan stat) k = some s')
    (hcode : (s'.cpu c).code = sleep (.proc q) .ptable ++ [.waitScan stat] ++ k) :
    (s.cpu c).proc = some q ∧ s'.proc = s.proc ∧
      ∀ p, (s.proc p).parent = some q → (s.proc p).state ≠ ZOMBIE := by
  cases hme : (s.cpu c).proc with
  | none => simp [exec, effect, hme] at h
  | some me =>
    simp only [exec, effect, hme, procEffect] at h
    split at h
    · split_ifs at h <;> cases h <;> simp [apply, sleep] at hcode
    · rename_i kids hlook
      split_ifs at h
      · cases h; simp [apply, sleep] at hcode
      · cases h; simp [apply, sleep] at hcode
      · cases h
        obtain rfl : me = q := by simpa [apply, sleep] using hcode
        exact ⟨rfl, rfl, fun p hp => Table.lookChildren_none hlook p (mem_slots p) hp⟩

/-- `exit` passes on all children, and its parent does not sleep in `wait`
afterwards. -/
theorem Family.exitPass (hf : s.Family) (h : s.exec c ch .exitPass k = some s')
    (hme : (s.cpu c).proc = some i) (hne : i ≠ s.initproc) : s'.Means i .passed := by
  obtain ⟨me, hme', -, -, hproc⟩ := exec_exitPass h
  obtain rfl : me = i := some.inj (hme'.symm.trans hme)
  have hpar : ∀ p, (s'.proc p).parent =
      if (s.proc p).parent = some me then some s.initproc else (s.proc p).parent := by
    intro p
    rw [hproc, Table.passChildren_parent, Table.wakeup1_parent]
  refine ⟨by rw [exec_initproc h]; exact hne, ?_, ?_⟩
  · intro p hp
    rw [hpar p] at hp
    split_ifs at hp with hme
    · exact hne (some.inj hp).symm
    · exact hme hp
  · intro q hq hd
    rw [hpar me, if_neg (hf.irrefl me)] at hq
    rw [hproc, hq] at hd
    exact Table.not_dozes_wakeup1 _ q ((Table.wakes_passChildren _ _ _).dozes hd)

theorem kin_post (hpre : kinDiscipline.pre op t) :
    kinDiscipline.post op t = t ∨ kinDiscipline.post op t = .idle ∨
      (∃ pid, kinDiscipline.post op t = .returning pid) ∨ op = .exitCheck ∨ op = .exitPass := by
  cases op with
  | exitCheck => exact .inr (.inr (.inr (.inl rfl)))
  | exitPass => exact .inr (.inr (.inr (.inr rfl)))
  | exitZombie | ret v | panic msg => exact .inr (.inl rfl)
  | forkRun p =>
    obtain ⟨pid, rfl⟩ := hpre
    exact .inr (.inr (.inl ⟨pid, rfl⟩))
  | sleepSet chan =>
    cases chan with
    | proc q => exact .inr (.inl rfl)
    | _ => exact .inl rfl
  | _ => exact .inl rfl

/-! ### One operation -/

section

variable (hf : s.Family)

include hf

/-- **The processor that executes** goes on with code that says what is true. -/
theorem Family.cpu_exec (hi : s.Inv) (hk : (s.cpu c).code = op :: k)
    (h : s.exec c ch op k = some s') :
    ∃ t, kinDiscipline.Walks t (s'.cpu c).code .idle ∧
      ∀ i, (s'.cpu c).proc = some i → s'.Means i t := by
  obtain ⟨t, hw, hm⟩ := hf.cpu c
  rw [hk] at hw
  obtain ⟨emb, -, hself⟩ := hi.exec_self hk h
  rcases hself with ⟨hproc, -, -⟩ | ⟨rfl, hproc, -⟩ | ⟨j, p, rfl, hpick, hproc, hcode, -⟩
  · -- the same process
    rw [hproc]
    by_cases hcheck : op = .exitCheck
    · subst hcheck
      obtain ⟨me, hme, -, hcode | ⟨hne, hcode⟩⟩ := exec_exitCheck h
      · exact ⟨.idle, by rw [hcode]; exact ⟨rfl, rfl⟩, fun _ _ => trivial⟩
      · refine ⟨.exiting, by rw [hcode]; exact hw.2, fun i hci => ?_⟩
        obtain rfl : me = i := some.inj (hme.symm.trans hci)
        show me ≠ s'.initproc
        rw [exec_initproc h]
        exact hne
    rcases exec_code h with hcode | ⟨msg, hcode⟩ | ⟨l, hl, hcode⟩ | ⟨-, hp, hcode⟩ |
      ⟨j, p, rfl, hpick, -⟩
    · refine ⟨kinDiscipline.post op t, by rw [hcode]; exact hw.2, fun i hci => ?_⟩
      rcases kin_post hw.1 with hpost | hpost | ⟨pid, hpost⟩ | hop | rfl
      · rw [hpost]
        exact hi.means_self hk h hci hw (hm i hci) hpost
      · rw [hpost]; trivial
      · rw [hpost]; trivial
      · exact absurd hop hcheck
      · have ht : t = .exiting := hw.1
        subst ht
        exact hf.exitPass h hci (hm i hci)
    · exact ⟨.idle, by rw [hcode]; exact ⟨rfl, rfl⟩, fun _ _ => trivial⟩
    · rcases hl.kin hw.1 with ⟨hwl, hpost⟩ | ⟨p, pid, rfl, rfl, rfl⟩ | ⟨stat, q, rfl, rfl, rfl⟩
      · refine ⟨t, ?_, fun i hci => hi.means_self hk h hci hw (hm i hci) hpost⟩
        rw [hcode]
        exact hwl.append (by rw [← hpost]; exact hw.2)
      · refine ⟨.parented p pid, ?_, fun i hci => ?_⟩
        · rw [hcode]
          exact ⟨rfl, ⟨pid, rfl⟩, rfl, .inr rfl, hw.2⟩
        · obtain ⟨me, hme, hpar, hpid⟩ := exec_forkCopy h hcode
          obtain rfl : me = i := some.inj (hme.symm.trans hci)
          exact ⟨hpar, hpid⟩
      · refine ⟨.dozing q, ?_, fun i hci => ?_⟩
        · rw [hcode]
          exact ⟨rfl, rfl, rfl, rfl, hw.2⟩
        · obtain ⟨hme, hsame, hkids⟩ := exec_waitScan h hcode
          obtain rfl : q = i := some.inj (hme.symm.trans hci)
          exact ⟨rfl, by rw [hsame]; exact hkids⟩
    · exact ⟨.idle, by rw [hcode]; exact hf.sched c, fun _ _ => trivial⟩
    · simp only [exec, hpick, some.injEq] at h
      subst h
      have hcur : (s.cpu c).proc = some p := by rw [← hproc]; simp [dispatch]
      exact absurd hk (hi.not_schedScan hcur)
  · -- back to the scheduler
    refine ⟨.idle, ?_, fun i hci => by rw [hproc] at hci; cases hci⟩
    rw [sched_code h hproc]
    exact hf.sched c
  · -- on to a process that was waiting
    have hwait := hi.pick_waiting hk hpick
    obtain ⟨t, hcalm, hwc, hmp⟩ := hf.ctx p hwait
    refine ⟨t, by rw [hcode]; exact hwc, fun i hci => ?_⟩
    obtain rfl : p = i := some.inj (hproc.symm.trans hci)
    exact hi.means_ne hk h (.waiting hwait) hwc hmp (hwait.2 c)
      fun hc => absurd (hcalm.symm.trans hc) (by simp)

theorem Family.cpu_ne (hi : s.Inv) (hk : (s.cpu c).code = op :: k)
    (h : s.exec c ch op k = some s') {c' : Cpu} (hc : c' ≠ c) :
    ∃ t, kinDiscipline.Walks t (s'.cpu c').code .idle ∧
      ∀ i, (s'.cpu c').proc = some i → s'.Means i t := by
  obtain ⟨t, hw, hm⟩ := hf.cpu c'
  rw [exec_cpu_ne h hc]
  refine ⟨t, hw, fun i hci => ?_⟩
  refine hi.means_ne hk h (.onCpu c' hci) hw (hm i hci) ?_ fun hcalm => ⟨⟨c', hci⟩, ?_⟩
  · exact fun hci' => hc (hi.uniq _ _ _ hci hci')
  · obtain ⟨emb, hwl⟩ := hi.typed c'
    have hpt := mode_pt emb (pt_of_kin hwl hw hcalm)
    rw [hpt]
    exact fun heq => hc (some.inj heq)

theorem Family.ctx_exec (hi : s.Inv) (hk : (s.cpu c).code = op :: k)
    (h : s.exec c ch op k = some s') (hwait : s'.Waiting p) :
    ∃ t, t.calm = true ∧ kinDiscipline.Walks t (s'.proc p).context .idle ∧ s'.Means p t := by
  rcases hi.waiting_exec hk h hwait with ⟨hwait₀, hctx⟩ | ⟨-, hctx⟩ | ⟨rfl, hci, hctx⟩
  · obtain ⟨t, hcalm, hw, hm⟩ := hf.ctx p hwait₀
    refine ⟨t, hcalm, by rw [hctx]; exact hw, ?_⟩
    exact hi.means_ne hk h (.waiting hwait₀) hw hm (hwait₀.2 c)
      fun hc => absurd (hcalm.symm.trans hc) (by simp)
  · exact ⟨.idle, rfl, by rw [hctx]; exact kin_forkret, trivial⟩
  · obtain ⟨t, hw, hm⟩ := hf.cpu c
    rw [hk] at hw
    exact ⟨t, hw.1, by rw [hctx]; exact hw.2, hi.means_self hk h hci hw (hm p hci) rfl⟩

theorem Family.next (hk : (s.cpu c).code = op :: k) :
    ∃ t, kinDiscipline.pre op t ∧ ∀ i, (s.cpu c).proc = some i → s.Means i t := by
  obtain ⟨t, hw, hm⟩ := hf.cpu c
  rw [hk] at hw
  exact ⟨t, hw.1, hm⟩

/-- A process that becomes a zombie is not init, has no children, and its parent does
not sleep in `wait`. -/
theorem Family.exitZombie (hk : (s.cpu c).code = .exitZombie :: k)
    (hci : (s.cpu c).proc = some i) : s.Means i .passed := by
  obtain ⟨t, hpre, hm⟩ := hf.next hk
  obtain rfl : t = .passed := hpre
  exact hm i hci

theorem Family.forkRun (hi : s.Inv) (hk : (s.cpu c).code = .forkRun p :: k) :
    ∃ me pid, (s.cpu c).proc = some me ∧ s.Means me (.parented p pid) ∧
      (s.proc me).state = RUNNING := by
  obtain ⟨t, ⟨pid, rfl⟩, hm⟩ := hf.next hk
  obtain ⟨emb, -, hpre, -⟩ := hi.next hk
  have hmode : s.mode c emb = .resumed (some p) true := hpre
  obtain ⟨me, hme⟩ := isSome_iff_exists.1
    (show (s.cpu c).proc.isSome = true from congrArg Mode.cur hmode)
  exact ⟨me, pid, hme, hm me hme, (off_eq_false hme).1 (congrArg Mode.off hmode)⟩

section

variable (hi : s.Inv) (hk : (s.cpu c).code = op :: k) (h : s.exec c ch op k = some s')

include hi hk h

theorem Family.init_exec : s'.Alive s'.initproc := by
  rw [exec_initproc h]
  rcases hi.alive_stays hk h hf.init with ha | ⟨rfl, hci⟩
  · exact ha
  · exact absurd rfl (hf.exitZombie hk hci).1

theorem Family.initParent_exec : (s'.proc s'.initproc).parent = none := by
  rw [exec_initproc h]
  cases hp : (s'.proc s.initproc).parent with
  | none => rfl
  | some q =>
    rcases parent_exec h hp with hp | ⟨rfl, -⟩ | ⟨-, -, me, -, hp⟩
    · rw [hf.initParent] at hp; cases hp
    · exact absurd (hi.state_of_embryo hk rfl) hf.init.not.1
    · rw [hf.initParent] at hp; cases hp

theorem Family.irrefl_exec (p : Slot) : (s'.proc p).parent ≠ some p := by
  intro hp
  rcases parent_exec h hp with hp | ⟨rfl, hci⟩ | ⟨-, rfl, me, -, hp⟩
  · exact hf.irrefl p hp
  · exact (hi.live c p hci).2 (hi.state_of_embryo hk rfl)
  · rw [hf.initParent] at hp; cases hp

/-- A parent that takes part in the scheduling still does, or is about to exit and
has no children. -/
theorem Family.parent_exec (hne : p ≠ s'.initproc) (hp : s'.Alive p ∨ (s'.proc p).state = ZOMBIE) :
    ∃ q, (s'.proc p).parent = some q ∧ s'.Alive q := by
  rw [exec_initproc h] at hne
  have stays : ∀ q, (s.proc p).parent = some q → s.Alive q → s'.Alive q := by
    intro q hq ha
    rcases hi.alive_stays hk h ha with ha | ⟨rfl, hci⟩
    · exact ha
    · exact absurd hq ((hf.exitZombie hk hci).2.1 p)
  rcases hi.lives_exec hk h hp with hold | rfl
  · obtain ⟨q, hq, ha⟩ := hf.parent p hne hold
    have hkin := exec_kin h p
    have hembryo : (s.proc p).state ≠ EMBRYO := by
      rcases hold with ha | hz
      · exact ha.not.1
      · rw [hz]; simp
    have hinit := hf.init_exec hi hk h
    rw [exec_initproc h] at hinit
    have hunused : (s'.proc p).state ≠ UNUSED := by
      rcases hp with ha | hz
      · exact ha.not.2.1
      · rw [hz]; simp
    generalize s'.proc p = q' at hkin hunused ⊢
    cases hkin with
    | none hq' | sleep _ hq' | tidy _ hq' =>
      exact ⟨q, (Proc.parent_of_kin hq').trans hq, stays q hq ha⟩
    | copy _ _ => exact absurd (hi.state_of_embryo hk rfl) hembryo
    | pass _ _ hq' => exact ⟨_, Proc.parent_of_kin hq', hinit⟩
    | reap _ _ _ _ hu => exact absurd hu hunused
  · obtain ⟨me, pid, hme, ⟨hpar, -⟩, hrun⟩ := hf.forkRun hi hk
    refine ⟨me, ?_, ?_⟩
    · have hkin := exec_kin h p
      generalize s'.proc p = q' at hkin
      cases hkin with
      | none hq' => exact (Proc.parent_of_kin hq').trans hpar
    · rcases hi.alive_stays hk h (.inr (.inr hrun)) with ha | ⟨hop, -⟩
      · exact ha
      · cases hop

/-- **Nobody falls asleep past a zombie, and no zombie appears behind a sleeper.** -/
theorem Family.asleep_exec {q p : Slot} (hd : s'.proc.Dozes q)
    (hp : (s'.proc p).parent = some q) : (s'.proc p).state ≠ ZOMBIE := by
  intro hz
  rcases dozes_exec h hd with hd₀ | ⟨rfl, hci⟩
  · rcases zombie_exec h hz with hz₀ | ⟨rfl, hci⟩
    · rcases Kernel.parent_exec h hp with hp | ⟨rfl, -⟩ | ⟨rfl, rfl, me, hme, hp⟩
      · exact hf.asleep q p hd₀ hp hz₀
      · rw [hi.state_of_embryo hk rfl] at hz₀; cases hz₀
      · -- passed to init
        obtain ⟨me', hme', -, -, hproc⟩ := exec_exitPass h
        obtain rfl : me' = me := some.inj (hme'.symm.trans hme)
        rw [hproc] at hd
        refine Table.not_dozes_passChildren me' s.initproc _ (q := p) ?_ ?_ hd
        · exact ((Table.wakes_wakeup1 _ _).state_iff p (by simp) (by simp)).2 hz₀
        · rw [Table.wakeup1_parent, hp]
    · rcases Kernel.parent_exec h hp with hp | ⟨hop, -⟩ | ⟨hop, -⟩
      · exact (hf.exitZombie hk hci).2.2 q hp hd₀
      · cases hop
      · cases hop
  · obtain ⟨t, hpre, hm⟩ := hf.next hk
    obtain rfl : t = .dozing q := hpre
    rcases Kernel.parent_exec h hp with hp | ⟨hop, -⟩ | ⟨hop, -⟩
    · rcases zombie_exec h hz with hz | ⟨hop, -⟩
      · exact (hm q hci).2 p hp hz
      · cases hop
    · cases hop
    · cases hop

/-- **An operation keeps the invariant.** -/
theorem Family.exec : s'.Family where
  cpu := by
    intro c'
    by_cases hc : c' = c
    · subst hc; exact hf.cpu_exec hi hk h
    · exact hf.cpu_ne hi hk h hc
  sched := by
    refine exec_scheduler_forall (P := fun l => kinDiscipline.Walks .idle l .idle) hf.sched ?_ h
    rintro i p rfl
    obtain ⟨t, hw, -⟩ := hf.cpu c
    rw [hk] at hw
    have ht : t = .idle := hw.1
    subst ht
    exact ⟨rfl, hw.2⟩
  ctx := fun _ hwait => hf.ctx_exec hi hk h hwait
  init := hf.init_exec hi hk h
  initParent := hf.initParent_exec hi hk h
  irrefl := hf.irrefl_exec hi hk h
  parent := fun _ hne hp => hf.parent_exec hi hk h hne hp
  asleep := fun _ _ hd hp => hf.asleep_exec hi hk h hd hp

end

/-- **Entering the kernel keeps the invariant.** -/
theorem Family.entry (hi : s.Inv) {code : List Op} (he : Entry s c code) :
    (s.goto c (code ++ (s.cpu c).code)).Family where
  cpu := by
    intro c'
    obtain ⟨t, hw, hm⟩ := hf.cpu c'
    by_cases hc : c' = c
    · subst hc
      have hcode : kinDiscipline.Walks t code t := by
        have user : s.inUser c' = true → t = .idle := by
          intro hu
          simp only [inUser, Bool.and_eq_true, List.isEmpty_iff] at hu
          rw [hu.2] at hw
          exact hw
        have calm : s.interruptible c' = true → t.calm = true := by
          intro hint
          obtain ⟨emb, hwl⟩ := hi.typed c'
          by_contra hcalm
          have hpt := pt_of_kin hwl hw (by simpa using hcalm)
          rw [(hi.mode_interruptible hint emb).1] at hpt
          cases hpt
        cases he with
        | syscall call hme hu =>
          rw [user (by simp [inUser, hme, hu])]
          exact kin_trapSyscall _ call
        | timer hint => exact kin_trapTimer (calm hint) user c'
        | intr lk chan hint => exact kin_trapIntr (calm hint) user lk chan
        | fault hu =>
          rw [user hu]
          exact ⟨rfl, rfl, rfl, rfl, rfl⟩
      refine ⟨t, ?_, fun i hci => hm i (by simpa using hci)⟩
      simpa using hcode.append hw
    · exact ⟨t, by simpa [hc] using hw, fun i hci => hm i (by simpa [hc] using hci)⟩
  sched := fun c' => by rw [scheduler_goto]; exact hf.sched c'
  ctx := fun p hwait => hf.ctx p (waiting_goto.1 hwait)
  init := hf.init
  initParent := hf.initParent
  irrefl := hf.irrefl
  parent := hf.parent
  asleep := hf.asleep

end

theorem boot_parent (p : Slot) : (boot.proc p).parent = none := by
  unfold boot
  simp only
  split_ifs <;> rfl

theorem family_boot : boot.Family where
  cpu := fun c => ⟨.idle, ⟨rfl, rfl⟩, fun _ _ => trivial⟩
  sched := fun c => rfl
  ctx := by
    intro p hw
    refine ⟨.idle, rfl, ?_, trivial⟩
    rcases boot_context p with h | ⟨h, -⟩
    · rw [h]; exact kin_forkret
    · rw [h]; rfl
  init := .inl rfl
  initParent := boot_parent _
  irrefl := fun p => by rw [boot_parent]; simp
  parent := by
    intro p hne hp
    have hp0 : p ≠ 0 := fun h0 => hne h0
    have hstate : (boot.proc p).state = UNUSED := by simp [boot, hp0]
    rcases hp with ha | hz
    · exact absurd hstate ha.not.2.1
    · rw [hstate] at hz; cases hz
  asleep := fun q p _ hp => absurd hp (by rw [boot_parent]; simp)

end Kernel

/-- **The family is in order in every reachable state.** -/
theorem family {s : Kernel} (h : kernel.Reachable s) : s.Family := by
  refine kernel_induct family_boot ?_ ?_ h
  · intro s s' c ch op k hi hf hk h
    exact hf.exec hi hk h
  · intro s c code hi hf he
    exact hf.entry hi he

/-- **No parent sleeps past a zombie.**  A process asleep in `wait` or `wait_stat` has
no zombie child, whoever holds `ptable.lock`. -/
theorem no_sleep_past_zombie {s : Kernel} (h : kernel.Reachable s) {q p : Slot}
    (hs : (s.proc q).state = SLEEPING) (hc : (s.proc q).chan = some (.proc q))
    (hp : (s.proc p).parent = some q) : (s.proc p).state ≠ ZOMBIE :=
  (family h).asleep q p ⟨hs, hc⟩ hp

/-- The first process has processor 1 and forks. -/
def forks : List Kernel.Event :=
  execs 1 5 ++ [.syscall 1 .fork] ++ execs 1 4 ++ [.run 1 (.addr 1)] ++
    execs 1 4 ++ [.run 1 (.addr 1)] ++ execs 1 5

theorem no_sleep_past_zombie_wait :
    ∃ s, kernel.Reachable s ∧ s.lock .ptable = none ∧ s.proc.Dozes 0 ∧
      (s.proc 1).parent = some 0 ∧ (s.proc 1).state ≠ ZOMBIE := by
  obtain ⟨s, hr, hfree, hd, hp⟩ := Machine.reachable_of_run (M := kernel)
    (P := fun s => s.lock .ptable = none ∧ s.proc.Dozes 0 ∧ (s.proc 1).parent = some 0)
    boot (forks ++ [.syscall 1 .wait] ++ execs 1 7) rfl (by decide)
  exact ⟨s, hr, hfree, hd, hp, no_sleep_past_zombie hr hd.1 hd.2 hp⟩

end Xv6
