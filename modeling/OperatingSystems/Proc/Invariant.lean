import OperatingSystems.Proc.Discipline

/-!
# The invariant of the kernel

All code there is walks under the locking discipline: the code of every
processor, the saved context of the scheduler behind it, and the contexts of
the processes waiting to run.  From that follow the facts on which the results
about the process table rest:

* `Inv.next`: the operation a processor executes next finds its precondition,
  so an operation that needs a lock is executed by the holder of that lock, and
  the current process is in state `RUNNING` except at `sched`;
* `Inv.state_of_embryo`: the slot a `fork` is filling in is in state `EMBRYO`;
* `Inv.running_iff`: only the process itself and the scheduler move a process
  out of and into the state `RUNNING`.

`inv` is the result: the invariant holds in every reachable state.
-/

namespace Xv6

open ProcState Function Kernel Option

namespace Kernel

variable {s s' : Kernel} {c : Cpu} {ch : Choice} {op : Op} {k : List Op} {p : Slot} {code : List Op}
  {c' : Cpu}

/-! ## The invariant -/

/-- The current process of `c` has left the state `RUNNING`. -/
def off (s : Kernel) (c : Cpu) : Bool :=
  match (s.cpu c).proc with
  | none => false
  | some p => (s.proc p).state ≠ RUNNING

/-- The mode processor `c` is in while it fills in the slot `emb`. -/
def mode (s : Kernel) (c : Cpu) (emb : Option Slot) : Mode where
  emb := emb
  pt := s.lock .ptable = some c
  tk := s.lock .tickslock = some c
  off := s.off c
  cur := (s.cpu c).proc.isSome

/-- The code of processor `c` walks under the discipline. -/
def Typed (s : Kernel) (c : Cpu) : Prop :=
  ∃ emb, lockDiscipline.Walks (s.mode c emb) (s.cpu c).code (.rest (s.cpu c).proc.isSome)

/-- The process in slot `p` waits for the scheduler to switch to it. -/
def Waiting (s : Kernel) (p : Slot) : Prop :=
  ((s.proc p).state = RUNNABLE ∨ (s.proc p).state = SLEEPING) ∧ ∀ c, (s.cpu c).proc ≠ some p

/-- The kernel code that the process in slot `i` has still to execute. -/
inductive Stack (s : Kernel) (i : Slot) : List Op → Prop
  | onCpu (c : Cpu) (hc : (s.cpu c).proc = some i) : Stack s i (s.cpu c).code
  | waiting (hw : s.Waiting i) : Stack s i (s.proc i).context

/-- The invariant of the kernel. -/
structure Inv (s : Kernel) : Prop where
  /-- The code of every processor walks. -/
  typed : ∀ c, s.Typed c
  /-- So does the scheduler behind a running process. -/
  sched : ∀ c, (s.cpu c).proc.isSome = true →
    lockDiscipline.Walks (.resumed none false) (s.cpu c).scheduler (.rest false)
  /-- So do the contexts of the processes waiting to run. -/
  ctx : ∀ p, s.Waiting p →
    ∃ emb, lockDiscipline.Walks (.resumed emb true) (s.proc p).context (.rest true)
  /-- A processor knows the locks it holds. -/
  held : ∀ c lk, s.lock lk = some c → lk ∈ (s.cpu c).held
  /-- A process runs on one processor at a time. -/
  uniq : ∀ c c' p, (s.cpu c).proc = some p → (s.cpu c').proc = some p → c = c'
  /-- A current process is a process. -/
  live : ∀ c p, (s.cpu c).proc = some p → (s.proc p).state ≠ UNUSED ∧ (s.proc p).state ≠ EMBRYO
  /-- The slot a `fork` is filling in is an embryo, with its context set up once
  the kernel stack is there. -/
  embryo : ∀ i code p, s.Stack i code → embOf code = some p →
    (s.proc p).state = EMBRYO ∧ ((s.proc p).context = forkret ∨ Op.allocStack p ∈ code)
  /-- No two processes fill in the same slot. -/
  embUniq : ∀ i j a b p, s.Stack i a → s.Stack j b → embOf a = some p → embOf b = some p → i = j

/-! ### What the discipline says about the next operation -/

/-- The mode in which the next operation of `c` is executed. -/
theorem Inv.next (hi : s.Inv) (hk : (s.cpu c).code = op :: k) :
    ∃ emb, embOf (op :: k) = emb ∧ lockDiscipline.pre op (s.mode c emb) ∧
      lockDiscipline.Walks (lockDiscipline.post op (s.mode c emb)) k
        (.rest (s.cpu c).proc.isSome) := by
  obtain ⟨emb, hw⟩ := hi.typed c
  rw [hk] at hw
  exact ⟨emb, embOf_of_walks hw, hw.1, hw.2⟩

theorem mode_pt (emb : Option Slot) (h : (s.mode c emb).pt = true) : s.lock .ptable = some c := by
  simpa [mode] using h

theorem mode_tk (emb : Option Slot) (h : (s.mode c emb).tk = true) :
    s.lock .tickslock = some c := by
  simpa [mode] using h

theorem off_eq_false (hp : (s.cpu c).proc = some p) :
    s.off c = false ↔ (s.proc p).state = RUNNING := by
  simp [off, hp]

/-- Whatever is executed off the state `RUNNING` is executed under
`ptable.lock`. -/
theorem pt_of_off {m : Mode} (hpre : lockDiscipline.pre op m) (hoff : m.off = true) :
    m.pt = true := by
  have no : m.off = false → m.pt = true := fun h => absurd (hoff.symm.trans h) (by simp)
  cases op with
  | acquire lk | release lk => cases lk <;> exact no hpre.2
  | panic msg => exact hpre.2 hoff
  | sched => exact hpre.1
  | _ =>
    -- every other precondition asks for a running process
    first
    | exact no (congrArg Mode.off (show m = _ from hpre))
    | exact no hpre.1
    | exact no hpre.2
    | exact no hpre.2.1
    | exact no hpre.2.2
    | exact no hpre.2.2.1

/-- A processor whose current process is off the state `RUNNING` holds
`ptable.lock`. -/
theorem Inv.ptable_of_off (hi : s.Inv) (hoff : s.off c = true) : s.lock .ptable = some c := by
  obtain ⟨emb, hw⟩ := hi.typed c
  cases hcode : (s.cpu c).code with
  | nil =>
    rw [hcode] at hw
    have : s.off c = false := congrArg Mode.off (show s.mode c emb = _ from hw)
    rw [this] at hoff
    exact absurd hoff (by simp)
  | cons op k =>
    rw [hcode] at hw
    exact mode_pt emb (pt_of_off hw.1 hoff)

theorem Inv.not_schedScan (hi : s.Inv) {i : Nat} (hp : (s.cpu c).proc = some p) :
    (s.cpu c).code ≠ .schedScan i :: k := by
  intro hk
  obtain ⟨emb, -, hpre, -⟩ := hi.next hk
  have := congrArg Mode.cur (show s.mode c emb = .resumed none false from hpre)
  simp [mode, Mode.resumed, hp] at this

/-- A process that the scheduler picks runs on no processor. -/
theorem Inv.pick_waiting (hi : s.Inv) {i : Nat}
    (hk : (s.cpu c).code = .schedScan i :: k) (hp : s.proc.pick i = some p) : s.Waiting p := by
  have hrun := Table.pick_state hp
  refine ⟨.inl hrun, fun c' hc' => ?_⟩
  obtain ⟨emb, -, hpre, -⟩ := hi.next hk
  have hm : s.mode c emb = .resumed none false := hpre
  -- its processor would be at `sched` and hold the lock that the scheduler holds
  have hoff : s.off c' = true := by simp [off, hc', hrun]
  have hpt := hi.ptable_of_off hoff
  rw [mode_pt emb (by rw [hm]; rfl)] at hpt
  obtain rfl : c = c' := some.inj hpt
  exact hi.not_schedScan hc' hk

theorem Inv.state_of_embryo (hi : s.Inv) (hk : (s.cpu c).code = op :: k)
    (hp : op.embryo = some p) : (s.proc p).state = EMBRYO := by
  obtain ⟨emb, hemb, hpre, -⟩ := hi.next hk
  have hcur : (s.cpu c).proc.isSome = true := by
    have : (s.mode c emb).cur = true := by
      cases op <;> cases hp <;> exact congrArg Mode.cur (show s.mode c emb = _ from hpre)
    exact this
  obtain ⟨i, hci⟩ := isSome_iff_exists.1 hcur
  refine (hi.embryo i _ p (.onCpu c hci) ?_).1
  rw [hk, embOf_cons, hp, some_or]

/-! ### One operation -/

/-- The operations with which the current process leaves the state `RUNNING`. -/
def leaves : Op → Bool
  | .sleepSet _ | .yieldSet | .exitZombie => true
  | _ => false

/-- Which slots are running changes only where a process leaves the processor or
is switched to. -/
theorem Inv.running_iff (hi : s.Inv) (hk : (s.cpu c).code = op :: k)
    (h : s.exec c ch op k = some s') {q : Slot}
    (hl : leaves op = true → (s.cpu c).proc ≠ some q)
    (hd : ∀ i, op = .schedScan i → s.proc.pick i ≠ some q) :
    (s'.proc q).state = RUNNING ↔ (s.proc q).state = RUNNING := by
  have hc := exec_change h q
  rw [← Proc.core_state (s'.proc q)]
  generalize (s'.proc q).core = q' at hc
  cases hc with
  | none => simp
  | wake _ hs => simp [hs]
  | tick => simp
  | alloc hp => simp [Table.firstUnused_state hp]
  | allocFail _ | forkFail _ | forkRun => simp [hi.state_of_embryo hk rfl]
  | allocStack => simp
  | ctime => simp
  | zero => simp
  | sleep hp | yield hp | zombie hp => exact absurd hp (hl rfl)
  | ttime _ => simp
  | reap hz => simp [Table.reap, hz]
  | reapStat hz => simp [Table.reapStat, hz]
  | kill _ => simp
  | killTtime => simp
  | fault _ => simp
  | switch _ => simp
  | dispatch hp => exact absurd hp (hd _ rfl)

theorem mode_eq {emb : Option Slot} (hl : s'.lock = s.lock) (hp : (s'.cpu c).proc = (s.cpu c).proc)
    (b : Bool) (ho : s'.off c = b) : s'.mode c emb = { s.mode c emb with off := b } := by
  simp [mode, hl, hp, ho]

theorem off_congr (hp : (s'.cpu c).proc = (s.cpu c).proc) (hr : ∀ q, (s.cpu c).proc = some q →
      ((s'.proc q).state = RUNNING ↔ (s.proc q).state = RUNNING)) : s'.off c = s.off c := by
  unfold off
  rw [hp]
  cases h : (s.cpu c).proc with
  | none => rfl
  | some q => simp [hr q h]

theorem Inv.typed_ne (hi : s.Inv) (hk : (s.cpu c).code = op :: k)
    (h : s.exec c ch op k = some s') (hc : c' ≠ c) : s'.Typed c' := by
  obtain ⟨emb, hw⟩ := hi.typed c'
  have hcpu := exec_cpu_ne h hc
  have hoff : s'.off c' = s.off c' := by
    refine off_congr (by rw [hcpu]) fun q hq => hi.running_iff hk h ?_ ?_
    · intro _ hq'
      exact hc (hi.uniq _ _ _ hq hq')
    · rintro i rfl hp
      exact (hi.pick_waiting hk hp).2 c' hq
  refine ⟨emb, ?_⟩
  have hm : s'.mode c' emb = s.mode c' emb := by
    simp [mode, exec_lock h _ hc, hcpu, hoff]
  rw [hm, hcpu]
  exact hw

/-- Whether the current process is still running after an operation on the
table. -/
theorem Inv.off_apply (hi : s.Inv) (hk : (s.cpu c).code = op :: k) {e : Effect}
    (h : s.exec c ch op k = some (s.apply c e)) (he : s.effect (s.cpu c).proc ch op k = some e)
    (emb : Option Slot) (hpre : lockDiscipline.pre op (s.mode c emb)) (hns : op ≠ .sched)
    (hnd : ∀ i, op ≠ .schedScan i) :
    (s.apply c e).off c = (lockDiscipline.post op (s.mode c emb)).off := by
  have hproc : ((s.apply c e).cpu c).proc = (s.cpu c).proc := by simp [apply]
  by_cases hl : leaves op = true
  · have hcur : (s.cpu c).proc.isSome = true := by
      cases op with
      | sleepSet chan | yieldSet => exact hpre.2.2.2
      | exitZombie => exact congrArg Mode.cur (show s.mode c emb = _ from hpre)
      | _ => cases hl
    obtain ⟨me, hme⟩ := isSome_iff_exists.1 hcur
    have hpost : (lockDiscipline.post op (s.mode c emb)).off = true := by
      cases op <;> first | rfl | cases hl
    rw [hpost, off, hproc, hme]
    rw [hme] at he
    cases op with
    | sleepSet chan | yieldSet | exitZombie => cases he; simp [apply]
    | _ => cases hl
  · have hpost : (lockDiscipline.post op (s.mode c emb)).off = s.off c := by
      cases op with
      | acquire lk | release lk => cases lk <;> rfl
      | sched => exact absurd rfl hns
      | sleepSet chan | yieldSet | exitZombie => exact absurd rfl hl
      | panic msg => cases hcur : (s.cpu c).proc <;> rw [hcur] at he <;> cases he
      | _ => rfl
    rw [hpost]
    exact off_congr hproc fun q hq => hi.running_iff hk h (fun hc => absurd hc hl)
      fun i hop => absurd hop (hnd i)

/-- **The processor that executes** ends up in code that walks.  The slot that
its `fork` fills in stays, is given up, or is the one just taken, unless the
processor switched between a process and its scheduler. -/
theorem Inv.exec_self (hi : s.Inv) (hk : (s.cpu c).code = op :: k)
    (h : s.exec c ch op k = some s') :
    ∃ emb, lockDiscipline.Walks (s'.mode c emb) (s'.cpu c).code (.rest (s'.cpu c).proc.isSome) ∧
      (((s'.cpu c).proc = (s.cpu c).proc ∧ (s'.cpu c).scheduler = (s.cpu c).scheduler ∧
          (emb = embOf (op :: k) ∨ emb = none ∨ (op = .allocScan ∧ s.proc.firstUnused = emb))) ∨
        (op = .sched ∧ (s'.cpu c).proc = none ∧ emb = none) ∨
        (∃ i p, op = .schedScan i ∧ s.proc.pick i = some p ∧ (s'.cpu c).proc = some p ∧
          (s'.cpu c).code = (s.proc p).context ∧
          (s'.cpu c).scheduler = .schedScan (p.val + 1) :: k)) := by
  obtain ⟨emb, hemb, hpre, hw⟩ := hi.next hk
  -- a processor that panics has nothing more to execute
  have hpanic : ∀ msg, (s.off c = true → s.lock .ptable = some c) →
      lockDiscipline.Walks ((s.goto c [.panic msg]).mode c none) [.panic msg]
        (.rest ((s.goto c [.panic msg]).cpu c).proc.isSome) := by
    intro msg hpt
    refine ⟨⟨rfl, fun ho => ?_⟩, rfl⟩
    have ho' : (s.goto c [.panic msg]).off c = s.off c := off_congr (by simp) (by simp)
    have : s.off c = true := by rw [← ho']; exact ho
    simp [mode, hpt this]
  have hstay : ∀ s₁ : Kernel, (s₁.cpu c).code = k → (s₁.cpu c).proc = (s.cpu c).proc →
      s₁.mode c emb = lockDiscipline.post op (s.mode c emb) →
      lockDiscipline.Walks (s₁.mode c emb) (s₁.cpu c).code (.rest (s₁.cpu c).proc.isSome) := by
    intro s₁ hcode hproc hm
    rw [hm, hcode, hproc]
    exact hw
  cases exec_cases h with
  | panic msg _ =>
    exact ⟨none, by simpa using hpanic msg hi.ptable_of_off,
      .inl ⟨by simp, by simp, .inr (.inl rfl)⟩⟩
  | @acquire lk _ =>
    refine ⟨emb, hstay _ (by simp) (by simp) ?_, .inl ⟨by simp, by simp, .inl hemb.symm⟩⟩
    rw [mode, off_congr (s := s) (by simp) (by simp)]
    cases lk <;> simp [mode, lockDiscipline]
  | @release lk _ =>
    refine ⟨emb, hstay _ (by simp) (by simp) ?_, .inl ⟨by simp, by simp, .inl hemb.symm⟩⟩
    rw [mode, off_congr (s := s) (by simp) (by simp)]
    cases lk <;> simp [mode, lockDiscipline]
  | ticksInc =>
    refine ⟨emb, hstay _ (by simp) (by simp) ?_, .inl ⟨by simp, by simp, .inl hemb.symm⟩⟩
    exact mode_eq (by simp) (by simp) _ (off_congr (by simp) (by simp))
  | switch hme hpt =>
    refine ⟨none, ?_, .inr (.inl ⟨rfl, by simp, rfl⟩)⟩
    have hsched := hi.sched c (by simp [hme])
    have htk : s.lock .tickslock ≠ some c := by simpa [mode] using hpre.2.1
    simpa [mode, off, Mode.resumed, htk, hpt] using hsched
  | @dispatch i p hp =>
    obtain ⟨hpt, htk⟩ : s.lock .ptable = some c ∧ s.lock .tickslock ≠ some c := by
      have hm : s.mode c emb = .resumed none false := hpre
      simp only [mode, Mode.resumed, Mode.mk.injEq, decide_eq_true_eq, decide_eq_false_iff_not] at hm
      exact ⟨hm.2.1, hm.2.2.1⟩
    obtain ⟨emb', hctx⟩ := hi.ctx p (hi.pick_waiting hk hp)
    refine ⟨emb', ?_, .inr (.inr ⟨i, p, rfl, hp, by simp [dispatch], by simp [dispatch],
      by simp [dispatch]⟩)⟩
    simpa [dispatch, mode, off, Mode.resumed, hpt, htk] using hctx
  | scanned =>
    refine ⟨emb, hstay _ (by simp) (by simp) ?_, .inl ⟨by simp, by simp, .inl hemb.symm⟩⟩
    exact mode_eq (by simp) (by simp) _ (off_congr (by simp) (by simp))
  | @effect _ e hop he =>
    obtain ⟨emb', hw', hor⟩ := effect_walks he hpre rfl hw
    have hoff := hi.off_apply hk h he emb hpre hop.2.1 hop.2.2
    refine ⟨emb', ?_, .inl ⟨by simp [apply], by simp [apply], ?_⟩⟩
    · have hm : (s.apply c e).mode c emb' = { s.mode c emb with
          emb := emb', off := (lockDiscipline.post op (s.mode c emb)).off } :=
        mode_eq (by simp [apply]) (by simp [apply]) _ hoff
      have hcode : ((s.apply c e).cpu c).code = e.code := by simp [apply]
      have hproc : ((s.apply c e).cpu c).proc = (s.cpu c).proc := by simp [apply]
      rw [hm, hcode, hproc]
      exact hw'
    · rw [hemb]
      exact hor

/-- Unless it switched, the processor that executes goes on with what follows
the operation, or panics. -/
theorem exec_suffix (h : s.exec c ch op k = some s') (hns : (s'.cpu c).proc.isSome = true)
    (hnd : ∀ i, op ≠ .schedScan i) :
    k <:+ (s'.cpu c).code ∨ ∃ msg, (s'.cpu c).code = [.panic msg] := by
  rcases exec_code h with hc | hc | ⟨l, -, hc⟩ | ⟨-, hp, -⟩ | ⟨i, p, hop, -⟩
  · exact .inl (by rw [hc])
  · exact .inr hc
  · exact .inl (by rw [hc]; exact List.suffix_append l k)
  · rw [hp] at hns; cases hns
  · exact absurd hop (hnd i)

/-- Only the scheduler gives a processor a process. -/
theorem Inv.proc_exec (hi : s.Inv) (hk : (s.cpu c).code = op :: k)
    (h : s.exec c ch op k = some s') (hp : (s'.cpu c').proc = some p) :
    (s.cpu c').proc = some p ∨ (c' = c ∧ ∃ i, op = .schedScan i ∧ s.proc.pick i = some p) := by
  by_cases hc : c' = c
  · subst hc
    obtain ⟨emb, -, hself⟩ := hi.exec_self hk h
    rcases hself with ⟨hproc, -, -⟩ | ⟨-, hproc, -⟩ | ⟨i, q, hop, hq, hproc, -, -⟩
    · exact .inl (by rw [← hproc]; exact hp)
    · rw [hproc] at hp; cases hp
    · obtain rfl : q = p := some.inj (hproc.symm.trans hp)
      exact .inr ⟨rfl, i, hop, hq⟩
  · exact .inl (by rw [← exec_cpu_ne h hc]; exact hp)

/-- The processor of a process that was on one and no longer is has executed
`sched`. -/
theorem Inv.switch_exec (hi : s.Inv) (hk : (s.cpu c).code = op :: k)
    (h : s.exec c ch op k = some s') (hp : (s.cpu c').proc = some p)
    (hp' : (s'.cpu c').proc ≠ some p) :
    op = .sched ∧ (s.cpu c).proc = some p ∧ (s'.proc p).context = k := by
  by_cases hc : c' = c
  · subst hc
    obtain ⟨emb, -, hself⟩ := hi.exec_self hk h
    rcases hself with ⟨hproc, -, -⟩ | ⟨rfl, hproc, -⟩ | ⟨i, q, rfl, hq, hproc, -, -⟩
    · exact absurd (hproc.trans hp) hp'
    · refine ⟨rfl, hp, ?_⟩
      simp only [exec, hp, some.injEq] at h
      subst h
      unfold schedSwitch at hproc ⊢
      split_ifs at hproc ⊢ with h1 h2 h3
      · simp [hp] at hproc
      · simp [hp] at hproc
      · simp [hp] at hproc
      · simp
    · exact absurd hk (hi.not_schedScan hp)
  · rw [exec_cpu_ne h hc] at hp'
    exact absurd hp hp'

/-- A processor that has switched away from its process goes on with the scheduler. -/
theorem sched_code (h : s.exec c ch .sched k = some s') (hp : (s'.cpu c).proc = none) :
    (s'.cpu c).code = (s.cpu c).scheduler := by
  cases hme : (s.cpu c).proc with
  | none => simp [exec, hme] at h
  | some me =>
    simp only [exec, hme, some.injEq] at h
    subst h
    unfold schedSwitch at hp ⊢
    split_ifs at hp ⊢
    · simp [hme] at hp
    · simp [hme] at hp
    · simp [hme] at hp
    · simp

/-- How a process comes to wait: it did already, or `fork` made it runnable, or
it gave up its processor. -/
theorem Inv.waiting_exec (hi : s.Inv) (hk : (s.cpu c).code = op :: k)
    (h : s.exec c ch op k = some s') (hw : s'.Waiting p) :
    (s.Waiting p ∧ (s'.proc p).context = (s.proc p).context) ∨
    (op = .forkRun p ∧ (s'.proc p).context = forkret) ∨
    (op = .sched ∧ (s.cpu c).proc = some p ∧ (s'.proc p).context = k) := by
  by_cases hon : ∃ c', (s.cpu c').proc = some p
  · obtain ⟨c', hc'⟩ := hon
    exact .inr (.inr (hi.switch_exec hk h hc' (hw.2 c')))
  · have hoff : ∀ c', (s.cpu c').proc ≠ some p := fun c' hc' => hon ⟨c', hc'⟩
    have hch := exec_change h p
    have hst := hw.1
    rw [← Proc.core_state (s'.proc p)] at hst
    rw [← Proc.core_context (s'.proc p)]
    generalize (s'.proc p).core = q' at hch hst
    cases hch with
    | none | kill _ | killTtime => exact .inl ⟨⟨hst, hoff⟩, rfl⟩
    | wake _ hs => exact .inl ⟨⟨.inr hs, hoff⟩, rfl⟩
    | tick => exact .inl ⟨⟨by simpa using hst, hoff⟩, by simp⟩
    | alloc _ | allocFail _ | forkFail _ | dispatch _ => simp at hst
    | allocStack | ctime | zero => simp [hi.state_of_embryo hk rfl] at hst
    | forkRun =>
      refine .inr (.inl ⟨rfl, ?_⟩)
      obtain ⟨emb, hemb, hpre, hwk⟩ := hi.next hk
      have hm : s.mode c emb = .resumed (some p) true := hpre
      obtain ⟨i, hci⟩ : ∃ i, (s.cpu c).proc = some i :=
        isSome_iff_exists.1 (congrArg Mode.cur hm)
      have hnone : embOf k = none := embOf_of_walks hwk
      have hpe : embOf (s.cpu c).code = some p := by
        rw [hk, hemb]
        exact congrArg Mode.emb hm
      rcases (hi.embryo i _ p (Stack.onCpu c hci) hpe).2 with hctx | hmem
      · exact hctx
      · -- the stack was allocated before
        rw [hk] at hmem
        rcases List.mem_cons.1 hmem with hc | hmem
        · cases hc
        · have := List.findSome?_eq_none_iff.1 hnone _ hmem
          cases this
    | sleep hp | yield hp | ttime hp | zombie hp | fault hp | switch hp => exact absurd hp (hoff c)
    | reap _ => simp [Table.reap] at hst
    | reapStat _ => simp [Table.reapStat] at hst

/-- **Which slots are being filled in.**  A slot named by the code of a process
after an operation was named by its code before, which is the same or has been
executed on, or was just taken by `allocproc`. -/
theorem Inv.stack_exec (hi : s.Inv) (hk : (s.cpu c).code = op :: k)
    (h : s.exec c ch op k = some s') {i p : Slot} {code' : List Op} (hst : s'.Stack i code')
    (hemb : embOf code' = some p) :
    (∃ code, s.Stack i code ∧ embOf code = some p ∧ ((code' = code ∧ (s.cpu c).proc ≠ some i) ∨
        (code = op :: k ∧ (s.cpu c).proc = some i ∧ k <:+ code' ∧ ((op = .sched ∧ code' = k) ∨
            ((s'.cpu c).proc = some i ∧ code' = (s'.cpu c).code))))) ∨
    (op = .allocScan ∧ (s.cpu c).proc = some i ∧ s.proc.firstUnused = some p ∧
      code' = [.release .ptable, .allocStack p] ++ k) := by
  cases hst with
  | onCpu c' hc' =>
    by_cases hc : c' = c
    · subst hc
      obtain ⟨emb, hw, hself⟩ := hi.exec_self hk h
      have hemb' : emb = some p := by rw [← hemb]; exact (embOf_of_walks hw).symm
      subst hemb'
      rcases hself with ⟨hproc, -, hor⟩ | ⟨-, -, hno⟩ | ⟨j, q, hop, hq, hproc, hcode, -⟩
      · have hci := hc'
        rw [hproc] at hc'
        rcases hor with he | he | ⟨rfl, hfirst⟩
        · have hnd : ∀ j, op ≠ .schedScan j := by
            rintro j rfl
            exact hi.not_schedScan hc' hk
          have hsuf : k <:+ (s'.cpu c').code := by
            rcases exec_suffix h (by rw [hproc, hc']; rfl) hnd with hsuf | ⟨msg, hpanic⟩
            · exact hsuf
            · rw [hpanic] at hemb; cases hemb
          exact .inl ⟨_, .onCpu c' hc', by rw [hk, ← he], .inr ⟨hk, hc', hsuf, .inr ⟨hci, rfl⟩⟩⟩
        · cases he
        · refine .inr ⟨rfl, hc', hfirst, ?_⟩
          simp only [exec, effect, hc', procEffect, hfirst, map_some, some.injEq] at h
          subst h
          simp [apply]
      · cases hno
      · obtain rfl : q = i := some.inj (hproc.symm.trans hc')
        subst hop
        rw [hcode] at hemb ⊢
        have hw := hi.pick_waiting hk hq
        exact .inl ⟨_, .waiting hw, hemb, .inl ⟨rfl, hw.2 c'⟩⟩
    · rw [exec_cpu_ne h hc] at hc' hemb ⊢
      exact .inl ⟨_, .onCpu c' hc', hemb, .inl ⟨rfl, fun hc₀ => hc (hi.uniq _ _ _ hc' hc₀)⟩⟩
  | waiting hw =>
    rcases hi.waiting_exec hk h hw with ⟨hw', hctx⟩ | ⟨rfl, hctx⟩ | ⟨rfl, hci, hctx⟩
    · rw [hctx] at hemb ⊢
      exact .inl ⟨_, .waiting hw', hemb, .inl ⟨rfl, hw'.2 c⟩⟩
    · rw [hctx] at hemb
      cases hemb
    · rw [hctx] at hemb ⊢
      exact .inl ⟨_, .onCpu c hci, by rw [hk]; exact hemb,
        .inr ⟨hk, hci, List.suffix_refl k, .inl ⟨rfl, rfl⟩⟩⟩

theorem Inv.held_exec (hi : s.Inv) (h : s.exec c ch op k = some s') {lk : Lock}
    (hlk : s'.lock lk = some c') : lk ∈ (s'.cpu c').held := by
  by_cases hc : c' = c
  · subst hc
    cases exec_cases h with
    | @acquire lk' _ =>
      by_cases hne : lk = lk'
      · subst hne; simp
      · simp only [goto_lock, modifyCpu_lock, setLock_lock, update_of_ne hne] at hlk
        simp [hi.held _ _ hlk]
    | @release lk' _ =>
      by_cases hne : lk = lk'
      · subst hne; simp at hlk
      · simp only [goto_lock, modifyCpu_lock, setLock_lock, update_of_ne hne] at hlk
        simpa using (List.mem_erase_of_ne hne).2 (hi.held _ _ hlk)
    | dispatch _ => simpa [dispatch] using hi.held _ _ hlk
    | effect _ _ => simpa [apply] using hi.held _ _ hlk
    | _ => simpa using hi.held _ _ hlk
  · rw [exec_cpu_ne h hc]
    exact hi.held _ _ ((exec_lock h lk hc).1 hlk)

theorem Inv.not_zombie_of_waitScan (hi : s.Inv) {stat : Bool}
    (hk : (s.cpu c).code = .waitScan stat :: k) (hp : (s.cpu c').proc = some p) :
    (s.proc p).state ≠ ZOMBIE := by
  intro hz
  obtain ⟨emb, -, hpre, -⟩ := hi.next hk
  have hm : s.mode c emb = .resumed none true := hpre
  have hoff : s.off c' = true := by simp [off, hp, hz]
  have hpt := hi.ptable_of_off hoff
  rw [mode_pt emb (by rw [hm]; rfl)] at hpt
  obtain rfl : c = c' := some.inj hpt
  have := congrArg Mode.off hm
  rw [show (s.mode c emb).off = true from hoff] at this
  cases this

theorem Inv.live_exec (hi : s.Inv) (hk : (s.cpu c).code = op :: k)
    (h : s.exec c ch op k = some s') (hp : (s'.cpu c').proc = some p) :
    (s'.proc p).state ≠ UNUSED ∧ (s'.proc p).state ≠ EMBRYO := by
  have hch := exec_change h p
  rw [← Proc.core_state (s'.proc p)]
  rcases hi.proc_exec hk h hp with hp | ⟨rfl, i, rfl, hpick⟩
  · obtain ⟨hu, he⟩ := hi.live _ _ hp
    generalize (s'.proc p).core = q' at hch
    cases hch with
    | none | allocStack | ctime | zero | ttime _ | kill _ | killTtime | fault _ | switch _ =>
      exact ⟨hu, he⟩
    | wake _ _ => simp
    | tick => simpa using ⟨hu, he⟩
    | alloc hf => exact absurd (Table.firstUnused_state hf) hu
    | allocFail _ | forkFail _ => exact absurd (hi.state_of_embryo hk rfl) he
    | forkRun => simp
    | sleep _ => simp
    | yield _ => simp
    | zombie _ => simp
    | reap hz | reapStat hz => exact absurd hz (hi.not_zombie_of_waitScan hk hp)
    | dispatch _ => simp
  · simp only [exec, hpick, some.injEq] at h
    subst h
    simp [dispatch]

/-- The operations with which `fork` gives up or finishes the slot `p`. -/
def releases (p : Slot) (ch : Choice) (op : Op) : Prop :=
  (op = .allocStack p ∧ ch = .addr 0) ∨ (op = .forkCopy p ∧ ch = .addr 0) ∨ op = .forkRun p

/-- After them the process fills in no slot any more. -/
theorem Inv.embOf_releases (hi : s.Inv) (hk : (s.cpu c).code = op :: k)
    (h : s.exec c ch op k = some s') (hr : releases p ch op) :
    embOf (s'.cpu c).code = none := by
  obtain ⟨emb, -, hpre, hw⟩ := hi.next hk
  have hknone : embOf k = none := by
    rw [embOf_of_walks hw]
    rcases hr with ⟨rfl, -⟩ | ⟨rfl, -⟩ | rfl <;> rfl
  cases hcur : (s.cpu c).proc with
  | none => rcases hr with ⟨rfl, -⟩ | ⟨rfl, -⟩ | rfl <;> simp [exec, effect, hcur] at h
  | some me =>
    rcases hr with ⟨rfl, rfl⟩ | ⟨rfl, rfl⟩ | rfl <;>
      simp only [exec, effect, hcur, procEffect, map_some, some.injEq] at h <;>
      subst h <;> simpa [apply, embOf_cons, Op.embryo] using hknone

/-- A slot that is being filled in stays an embryo until `fork` gives it up or
finishes it. -/
theorem Inv.embryo_exec (hi : s.Inv) (hk : (s.cpu c).code = op :: k)
    (h : s.exec c ch op k = some s') (he : (s.proc p).state = EMBRYO)
    (hr : ¬ releases p ch op) :
    (s'.proc p).state = EMBRYO ∧
      ((s'.proc p).context = (s.proc p).context ∨ (s'.proc p).context = forkret) := by
  have hcur : (s.cpu c).proc ≠ some p := fun hp => (hi.live _ _ hp).2 he
  have hch := exec_change h p
  rw [← Proc.core_state (s'.proc p), ← Proc.core_context (s'.proc p)]
  generalize (s'.proc p).core = q' at hch
  cases hch with
  | none | ctime | zero | kill _ | killTtime => exact ⟨he, .inl rfl⟩
  | wake _ hs => rw [hs] at he; cases he
  | tick => simp [Table.tick, he]
  | alloc hf => rw [Table.firstUnused_state hf] at he; cases he
  | allocFail hch => exact absurd (.inl ⟨rfl, hch⟩) hr
  | allocStack => exact ⟨he, .inr rfl⟩
  | forkFail hch => exact absurd (.inr (.inl ⟨rfl, hch⟩)) hr
  | forkRun => exact absurd (.inr (.inr rfl)) hr
  | sleep hp | yield hp | ttime hp | zombie hp | fault hp | switch hp => exact absurd hp hcur
  | reap hz | reapStat hz => rw [hz] at he; cases he
  | dispatch hp => rw [Table.pick_state hp] at he; cases he

/-- The process whose code fills in the slot an operation works on executes that
operation. -/
theorem Inv.stack_embryo (hi : s.Inv) (hk : (s.cpu c).code = op :: k) {i p : Slot}
    (hst : s.Stack i code) (hemb : embOf code = some p)
    (hop : op.embryo = some p) : (s.cpu c).proc = some i := by
  obtain ⟨emb, hembk, hpre, -⟩ := hi.next hk
  have hcur : (s.mode c emb).cur = true := by
    cases op <;> cases hop <;> exact congrArg Mode.cur (show s.mode c emb = _ from hpre)
  obtain ⟨j, hcj⟩ := isSome_iff_exists.1 (show (s.cpu c).proc.isSome = true from hcur)
  have hp : embOf (s.cpu c).code = some p := by rw [hk, embOf_cons, hop, some_or]
  rw [hi.embUniq _ _ _ _ p hst (Stack.onCpu c hcj) hemb hp]
  exact hcj

section

variable (hi : s.Inv) (hk : (s.cpu c).code = op :: k) (h : s.exec c ch op k = some s')

include hi hk h

/-- The slot a `fork` is filling in is an embryo after an operation. -/
theorem Inv.stack_embryo_exec {i p : Slot} {code' : List Op} (hst : s'.Stack i code')
    (hemb : embOf code' = some p) :
    (s'.proc p).state = EMBRYO ∧ ((s'.proc p).context = forkret ∨ Op.allocStack p ∈ code') := by
  rcases hi.stack_exec hk h hst hemb with ⟨code, hst₀, hemb₀, hmem⟩ | ⟨rfl, hci, hf, hcode⟩
  · obtain ⟨he, hctx⟩ := hi.embryo _ _ _ hst₀ hemb₀
    have hr : ¬ releases p ch op := by
      intro hr
      -- the process that gave the slot up is the one whose code named it
      have hop : op.embryo = some p := by
        rcases hr with ⟨rfl, -⟩ | ⟨rfl, -⟩ | rfl <;> rfl
      have hci := hi.stack_embryo hk hst₀ hemb₀ hop
      have hns : op ≠ .sched := by rintro rfl; cases hop
      have hci' : (s'.cpu c).proc = some i := by
        by_contra hne
        exact hns (hi.switch_exec hk h hci hne).1
      cases hst with
      | onCpu c' hc' =>
        obtain rfl : c' = c := by
          rcases hi.proc_exec hk h hc' with hc' | ⟨rfl, -⟩
          · exact hi.uniq _ _ _ hc' hci
          · rfl
        rw [hi.embOf_releases hk h hr] at hemb
        cases hemb
      | waiting hw => exact hw.2 c hci'
    obtain ⟨he', hctx'⟩ := hi.embryo_exec hk h he hr
    refine ⟨he', ?_⟩
    rcases hctx with hctx | hstack
    · exact .inl (hctx'.elim (fun h => h.trans hctx) id)
    · have hmem' : Op.allocStack p ∈ code' ∨ op = .allocStack p := by
        rcases hmem with ⟨rfl, -⟩ | ⟨rfl, -, hsuf, -⟩
        · exact .inl hstack
        · exact (List.mem_cons.1 hstack).symm.imp hsuf.mem Eq.symm
      rcases hmem' with hmem | rfl
      · exact .inr hmem
      · refine .inl ?_
        have hci := hi.stack_embryo hk hst₀ hemb₀ rfl
        simp only [exec, effect, hci, procEffect] at h
        split at h
        · exact absurd (.inl ⟨rfl, rfl⟩) hr
        · cases h; simp [apply]
        · cases h
  · refine ⟨?_, .inr (by rw [hcode]; simp)⟩
    simp only [exec, effect, hci, procEffect, hf, map_some, some.injEq] at h
    subst h
    simp [apply]

theorem Inv.embUniq_exec {i j p : Slot} {a b : List Op} (ha : s'.Stack i a)
    (hb : s'.Stack j b) (hpa : embOf a = some p) (hpb : embOf b = some p) : i = j := by
  -- a slot just taken was unused, so nobody was filling it in
  have fresh : ∀ {i code}, s.Stack i code → embOf code = some p → s.proc.firstUnused ≠ some p := by
    intro i code hst hemb hf
    have := (hi.embryo _ _ _ hst hemb).1
    rw [Table.firstUnused_state hf] at this
    cases this
  rcases hi.stack_exec hk h ha hpa with ⟨a₀, ha₀, hpa₀, -⟩ | ⟨-, hci, hf, -⟩ <;>
    rcases hi.stack_exec hk h hb hpb with ⟨b₀, hb₀, hpb₀, -⟩ | ⟨-, hcj, hf', -⟩
  · exact hi.embUniq _ _ _ _ p ha₀ hb₀ hpa₀ hpb₀
  · exact absurd hf' (fresh ha₀ hpa₀)
  · exact absurd hf (fresh hb₀ hpb₀)
  · exact some.inj (hci.symm.trans hcj)

/-- **An operation keeps the invariant.** -/
theorem Inv.exec : s'.Inv where
  typed := by
    intro c'
    by_cases hc : c' = c
    · subst hc
      obtain ⟨emb, hw, -⟩ := hi.exec_self hk h
      exact ⟨emb, hw⟩
    · exact hi.typed_ne hk h hc
  sched := by
    intro c' hcur
    by_cases hc : c' = c
    · subst hc
      obtain ⟨emb, -, hself⟩ := hi.exec_self hk h
      rcases hself with ⟨hproc, hsched, -⟩ | ⟨-, hproc, -⟩ | ⟨i, p, rfl, -, -, -, hsched⟩
      · rw [hsched]
        exact hi.sched c' (by rw [← hproc]; exact hcur)
      · rw [hproc] at hcur; cases hcur
      · obtain ⟨emb', -, hpre, hw⟩ := hi.next hk
        have hm : s.mode c' emb' = .resumed none false := hpre
        have hnone : (s.cpu c').proc.isSome = false := congrArg Mode.cur hm
        rw [hsched]
        rw [hnone, hm] at hw
        exact ⟨rfl, hw⟩
    · rw [exec_cpu_ne h hc] at hcur ⊢
      exact hi.sched c' hcur
  ctx := by
    intro p hw
    rcases hi.waiting_exec hk h hw with ⟨hw₀, hctx⟩ | ⟨-, hctx⟩ | ⟨rfl, hci, hctx⟩
    · rw [hctx]; exact hi.ctx p hw₀
    · rw [hctx]; exact ⟨none, walks_forkret⟩
    · obtain ⟨emb, -, hpre, hwk⟩ := hi.next hk
      obtain ⟨hpt, htk, -, hcur⟩ := hpre
      have hm : lockDiscipline.post .sched (s.mode c emb) = .resumed emb true := by
        change Mode.mk emb (s.mode c emb).pt (s.mode c emb).tk false (s.mode c emb).cur = _
        rw [hpt, htk, hcur]
        rfl
      rw [hm, show (s.cpu c).proc.isSome = true from hcur] at hwk
      rw [hctx]
      exact ⟨emb, hwk⟩
  held := fun c' lk hlk => hi.held_exec h hlk
  uniq := by
    intro a b p ha hb
    rcases hi.proc_exec hk h ha with ha₀ | ⟨rfl, i, hop, hp⟩ <;>
      rcases hi.proc_exec hk h hb with hb₀ | ⟨rfl, j, hop', hp'⟩
    · exact hi.uniq a b p ha₀ hb₀
    · subst hop'
      exact absurd ha₀ ((hi.pick_waiting hk hp').2 a)
    · subst hop
      exact absurd hb₀ ((hi.pick_waiting hk hp).2 b)
    · rfl
  live := fun c' p hp => hi.live_exec hk h hp
  embryo := fun i code p hst hemb => hi.stack_embryo_exec hk h hst hemb
  embUniq := fun i j a b p ha hb hpa hpb => hi.embUniq_exec hk h ha hb hpa hpb

end

/-! ### Entering the kernel -/

theorem proc_goto (s : Kernel) (c c' : Cpu) (code : List Op) :
    ((s.goto c code).cpu c').proc = (s.cpu c').proc := by
  by_cases hc : c' = c
  · subst hc; simp
  · simp [hc]

theorem mode_goto {emb : Option Slot} : (s.goto c code).mode c' emb = s.mode c' emb :=
  mode_eq (by simp) (proc_goto s c c' code) _ (off_congr (proc_goto s c c' code) (by simp))

theorem waiting_goto : (s.goto c code).Waiting p ↔ s.Waiting p := by
  unfold Waiting
  simp only [proc_goto, goto_proc]

/-- The code of a process after code that walks was pushed on a processor's. -/
theorem Inv.stack_goto (hi : s.Inv)
    (hcode : ∀ emb, lockDiscipline.Walks (s.mode c emb) (s.cpu c).code
        (.rest (s.cpu c).proc.isSome) →
      lockDiscipline.Walks (s.mode c emb) code (s.mode c emb))
    {i : Slot} {code' : List Op} (hst : (s.goto c (code ++ (s.cpu c).code)).Stack i code') :
    ∃ code₀, s.Stack i code₀ ∧ embOf code' = embOf code₀ ∧
      (code' = code₀ ∨ (code₀ = (s.cpu c).code ∧ code' = code ++ code₀)) := by
  cases hst with
  | onCpu c' hc' =>
    by_cases hc : c' = c
    · subst hc
      simp only [goto_cpu, update_self] at hc' ⊢
      obtain ⟨emb, hw⟩ := hi.typed c'
      have hw' := (hcode emb hw).append hw
      exact ⟨_, .onCpu c' hc', (embOf_of_walks hw').trans (embOf_of_walks hw).symm, .inr ⟨rfl, rfl⟩⟩
    · simp only [goto_cpu, update_of_ne hc] at hc' ⊢
      exact ⟨_, .onCpu c' hc', rfl, .inl rfl⟩
  | waiting hw => exact ⟨_, .waiting (waiting_goto.1 hw), rfl, .inl rfl⟩

/-- Code that leaves the mode as it finds it can be pushed on a processor's. -/
theorem Inv.goto (hi : s.Inv) (hcode : ∀ emb, lockDiscipline.Walks (s.mode c emb) (s.cpu c).code
        (.rest (s.cpu c).proc.isSome) →
      lockDiscipline.Walks (s.mode c emb) code (s.mode c emb)) :
    (s.goto c (code ++ (s.cpu c).code)).Inv where
  typed := by
    intro c'
    obtain ⟨emb, hw⟩ := hi.typed c'
    refine ⟨emb, ?_⟩
    rw [mode_goto]
    by_cases hc : c' = c
    · subst hc
      simpa using (hcode emb hw).append hw
    · simpa [hc] using hw
  sched := by
    intro c' hcur
    rw [proc_goto] at hcur
    rw [scheduler_goto]
    exact hi.sched c' hcur
  ctx := fun p hw => hi.ctx p (waiting_goto.1 hw)
  held := by
    intro c' lk hlk
    by_cases hc : c' = c
    · subst hc
      simpa using hi.held c' lk hlk
    · simpa [hc] using hi.held c' lk hlk
  uniq := by
    intro a b p ha hb
    rw [proc_goto] at ha hb
    exact hi.uniq a b p ha hb
  live := by
    intro c' p hp
    rw [proc_goto] at hp
    exact hi.live c' p hp
  embryo := by
    intro i code' p hst hemb
    obtain ⟨code₀, hst₀, he, hor⟩ := hi.stack_goto hcode hst
    obtain ⟨hstate, hctx⟩ := hi.embryo i code₀ p hst₀ (by rw [← he]; exact hemb)
    refine ⟨hstate, hctx.imp id fun hmem => ?_⟩
    rcases hor with rfl | ⟨-, rfl⟩
    · exact hmem
    · exact List.mem_append_right _ hmem
  embUniq := by
    intro i j a b p ha hb hpa hpb
    obtain ⟨a₀, ha₀, hea, -⟩ := hi.stack_goto hcode ha
    obtain ⟨b₀, hb₀, heb, -⟩ := hi.stack_goto hcode hb
    exact hi.embUniq i j a₀ b₀ p ha₀ hb₀ (by rw [← hea]; exact hpa) (by rw [← heb]; exact hpb)

theorem Inv.mode_user (hu : s.inUser c = true) {emb : Option Slot}
    (hw : lockDiscipline.Walks (s.mode c emb) (s.cpu c).code (.rest (s.cpu c).proc.isSome)) :
    s.mode c emb = .rest true := by
  simp only [inUser, Bool.and_eq_true, List.isEmpty_iff] at hu
  rw [hu.1, hu.2] at hw
  exact hw

/-- A processor that takes an interrupt holds neither lock, and its process is
running. -/
theorem Inv.mode_interruptible (hi : s.Inv) (hint : s.interruptible c = true) (emb : Option Slot) :
    (s.mode c emb).pt = false ∧ (s.mode c emb).tk = false ∧ (s.mode c emb).off = false := by
  have hheld : (s.cpu c).held = [] := by
    simp only [interruptible, Bool.and_eq_true, List.isEmpty_iff] at hint
    exact hint.1.1
  have hfree : ∀ lk, s.lock lk ≠ some c := by
    intro lk hlk
    have := hi.held c lk hlk
    rw [hheld] at this
    cases this
  refine ⟨by simp [mode, hfree], by simp [mode, hfree], ?_⟩
  by_contra hoff
  exact hfree _ (hi.ptable_of_off (Bool.not_eq_false _ ▸ hoff))

/-- The code with which a processor enters the kernel leaves the mode as it finds
it. -/
theorem Inv.entry_walks (hi : s.Inv) (he : Entry s c code) (emb : Option Slot)
    (hw : lockDiscipline.Walks (s.mode c emb) (s.cpu c).code (.rest (s.cpu c).proc.isSome)) :
    lockDiscipline.Walks (s.mode c emb) code (s.mode c emb) := by
  cases he with
  | syscall call hme hu =>
    rw [Inv.mode_user (by simp [inUser, hme, hu]) hw]
    exact walks_trapSyscall _ call
  | timer hint =>
    obtain ⟨hpt, htk, hoff⟩ := hi.mode_interruptible hint emb
    exact walks_trapTimer hpt htk hoff fun hu => Inv.mode_user hu hw
  | intr lk chan hint =>
    obtain ⟨hpt, htk, hoff⟩ := hi.mode_interruptible hint emb
    exact walks_trapIntr hpt htk hoff fun hu => Inv.mode_user hu hw
  | fault hu =>
    rw [Inv.mode_user hu hw]
    exact walks_trapFault

/-- **Entering the kernel keeps the invariant.** -/
theorem Inv.entry (hi : s.Inv) (he : Entry s c code) : (s.goto c (code ++ (s.cpu c).code)).Inv :=
  hi.goto (hi.entry_walks he)

/-! ## The result -/

theorem boot_context (p : Slot) : (boot.proc p).context = forkret ∨
      ((boot.proc p).context = [] ∧ (boot.proc p).state = UNUSED) := by
  unfold boot
  simp only
  split_ifs
  · exact .inl rfl
  · exact .inr ⟨rfl, rfl⟩

theorem embOf_boot {i : Slot} (hst : boot.Stack i code) : embOf code = none := by
  cases hst with
  | onCpu c hc => simp [boot] at hc
  | waiting hw =>
    rcases boot_context i with h | ⟨h, -⟩
    · rw [h]; rfl
    · rw [h]; rfl

theorem inv_boot : boot.Inv where
  typed := fun c => ⟨none, rfl, rfl⟩
  sched := fun c hcur => absurd hcur (by simp [boot])
  ctx := by
    intro p hw
    refine ⟨none, ?_⟩
    rcases boot_context p with h | ⟨-, hu⟩
    · rw [h]; exact walks_forkret
    · have := hw.1
      rw [hu] at this
      simp at this
  held := fun c lk hlk => absurd hlk (by simp [boot])
  uniq := fun c c' p hc => absurd hc (by simp [boot])
  live := fun c p hc => absurd hc (by simp [boot])
  embryo := fun i code p hst hemb => absurd hemb (by simp [embOf_boot hst])
  embUniq := fun i j a b p ha hb hpa => absurd hpa (by simp [embOf_boot ha])

theorem Inv.step {e : Event} (hi : s.Inv) (h : s.step e = some s') : s'.Inv := by
  rcases step_cases h with ⟨c, ch, op, k, -, hk, h⟩ | ⟨c, code, -, he, rfl⟩
  · exact hi.exec hk h
  · exact hi.entry he

end Kernel

/-- **The invariant holds in every reachable state.** -/
theorem inv {s : Kernel} (h : kernel.Reachable s) : s.Inv := by
  refine h.induct ?_ ?_
  · rintro s rfl
    exact inv_boot
  · intro s e s' _ hi _ hs
    exact .step hi hs

/-- The induction rule for a second invariant: it holds at boot, and an operation
and an entry to the kernel keep it under the first. -/
theorem kernel_induct {I : Kernel → Prop} (hboot : I boot)
    (hexec : ∀ {s s' : Kernel} {c ch op k}, s.Inv → I s → (s.cpu c).code = op :: k →
      s.exec c ch op k = some s' → I s')
    (hentry : ∀ {s : Kernel} {c code}, s.Inv → I s → Kernel.Entry s c code →
      I (s.goto c (code ++ (s.cpu c).code)))
    {s : Kernel} (h : kernel.Reachable s) : I s := by
  refine h.induct ?_ ?_
  · rintro s rfl
    exact hboot
  · intro s e s' hr hI _ hs
    rcases step_cases hs with ⟨c, ch, op, k, -, hk, h⟩ | ⟨c, code, -, he, rfl⟩
    · exact hexec (inv hr) hI hk h
    · exact hentry (inv hr) hI he

end Xv6
