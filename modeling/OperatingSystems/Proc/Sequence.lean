import OperatingSystems.Proc.Invariant

/-!
# The order of the operations

The locking discipline says what an operation needs, but not who asks for it.
Which routine is taking a lock can be read off the operation that comes next:
`exit` and `kill` go on with `exitPass` and `killScan` when they have
`ptable.lock`, and the clock interrupt and `sys_sleep` with `ticksInc`,
`sleepStart` and `sleepLoop` when they have `tickslock`.

* `Op.follows`: the operations of which it matters what they come after, and
  what they may come after.
* `Sequenced`: code in which every operation comes after one it may come after.
* `sequence`: in every reachable state all code is of that kind.
* `Ordered.head_exec`: what a processor can come to execute after an operation.
-/

namespace Xv6

open ProcState

/-- The operation may come directly after `x`. -/
def Op.follows (x : Op) : Op → Bool
  | .acquire .tickslock =>
    match x with
    | .exitPass | .release .ptable | .sysKilled | .panic _ | .iret => true
    | _ => false
  | .acquire .ptable =>
    match x with
    | .sysKilled | .ticksInc | .release .ptable | .io | .acquire (.other _) | .panic _
    | .iret => true
    | _ => false
  | .exitPass | .killScan _ => x = .acquire .ptable
  | .ticksInc | .sleepStart _ | .sleepLoop _ _ => x = .acquire .tickslock
  | _ => true

/-- Something in particular may come after the operation. -/
def Op.leads : Op → Bool
  | .exitPass | .release .ptable | .sysKilled | .panic _ | .iret | .ticksInc | .io
  | .acquire _ => true
  | _ => false

/-- What comes after an operation with no particular continuation may come after
any. -/
theorem Op.follows_of_leads {x y : Op} (hx : x.leads = false) (h : x.follows y = true) (x' : Op) :
    x'.follows y = true := by
  cases y with
  | acquire lk =>
    cases lk with
    | other n => rfl
    | _ => simp only [Op.follows] at h; split at h <;> simp_all [Op.leads]
  | exitPass | killScan pid | ticksInc | sleepStart n | sleepLoop n t =>
    simp only [Op.follows, decide_eq_true_eq] at h; subst h; cases hx
  | _ => rfl

/-- The code `k` may come after `x`. -/
def After (x : Op) (k : List Op) : Prop := ∀ y ∈ k.head?, x.follows y = true

/-- Every operation of the code is one that may come where it does. -/
def Sequenced : List Op → Prop
  | [] => True
  | x :: k => After x k ∧ Sequenced k

theorem After.of_leads {x : Op} {k : List Op} (h : After x k) (hx : x.leads = false) (x' : Op) :
    After x' k :=
  fun y hy => Op.follows_of_leads hx (h y hy) x'

theorem Sequenced.append : ∀ {l k : List Op}, Sequenced l → Sequenced k →
    (∀ x ∈ l.getLast?, After x k) → Sequenced (l ++ k) := by
  intro l
  induction l with
  | nil => intro k _ hk _; exact hk
  | cons x l ih =>
    intro k hl hk hj
    cases l with
    | nil => exact ⟨hj x (by simp), hk⟩
    | cons y l =>
      refine ⟨fun z hz => hl.1 z (by simpa using hz), ?_⟩
      exact ih hl.2 hk fun z hz => hj z (by simpa using hz)

/-! ## The routines -/

theorem sequenced_exit : Sequenced exit := by simp [exit, Sequenced, After, Op.follows]

theorem sequenced_trapSyscall (me : Proc) (call : Syscall) : Sequenced (trapSyscall me call) := by
  cases call <;>
    simp [trapSyscall, syscall, fork, exit, wait, waitStat, kill, sysSleep, sysUptime, Sequenced,
      After, Op.follows]

theorem sequenced_trapTimer (c : Cpu) (user : Bool) : Sequenced (trapTimer c user) := by
  unfold trapTimer
  split_ifs <;> simp [timerBranch, updateStat, wakeup, Sequenced, After, Op.follows]

theorem sequenced_trapIntr (lk chan : Nat) (user : Bool) : Sequenced (trapIntr lk chan user) := by
  simp [trapIntr, wakeup, Sequenced, After, Op.follows]

theorem sequenced_trapFault : Sequenced trapFault := by
  simp [trapFault, Sequenced, After, Op.follows]

namespace Kernel

variable {s s' : Kernel} {c : Cpu} {ch : Choice} {op : Op} {k : List Op}

/-- The code of processor `c` and the two kinds of saved contexts are in order.
A context is resumed where `sched` was called. -/
structure Ordered (s : Kernel) : Prop where
  code : ∀ c, Sequenced (s.cpu c).code
  sched : ∀ c, Sequenced (.sched :: (s.cpu c).scheduler)
  ctx : ∀ p, Sequenced (.sched :: (s.proc p).context)

/-! ## The code an operation goes on with -/

/-- Code called by an operation may come before what comes after the operation. -/
theorem Calls.sequenced {l : List Op} (h : Calls op l) (hk : Sequenced (op :: k)) :
    Sequenced (l ++ k) := by
  have hl : Sequenced l := by
    cases h with
    | sysKilled | trapKilled => exact sequenced_exit
    | _ => simp [sleep, wakeup, yield, Sequenced, After, Op.follows]
  refine hl.append hk.2 fun x hx => ?_
  by_cases hop : op.leads = true
  · -- only these two calls come before something in particular
    cases h with
    | sleepOn lk chan =>
      obtain rfl : Op.io = x := by simpa [sleep] using hx
      exact hk.1
    | wake lk chan =>
      obtain rfl : Op.io = x := by simpa [wakeup] using hx
      exact hk.1
    | sysKilled =>
      obtain rfl : Op.panic "zombie exit" = x := by simpa [exit] using hx
      intro y hy
      have := hk.1 y hy
      cases y with
      | acquire lk => cases lk <;> rfl
      | _ => first | rfl | cases this
    | _ => cases hop
  · exact hk.1.of_leads (by simpa using hop) x

theorem Ordered.code_exec (ho : s.Ordered) (hk : (s.cpu c).code = op :: k)
    (h : s.exec c ch op k = some s') : Sequenced (s'.cpu c).code := by
  have hseq : Sequenced (op :: k) := by rw [← hk]; exact ho.code c
  rcases exec_code h with hc | ⟨msg, hc⟩ | ⟨l, hl, hc⟩ | ⟨-, -, hc⟩ | ⟨i, p, -, -, hc⟩
  · rw [hc]; exact hseq.2
  · rw [hc]; simp [Sequenced, After]
  · rw [hc]; exact hl.sequenced hseq
  · rw [hc]; exact (ho.sched c).2
  · rw [hc]; exact (ho.ctx p).2

theorem Ordered.exec (ho : s.Ordered) (hk : (s.cpu c).code = op :: k)
    (h : s.exec c ch op k = some s') : s'.Ordered where
  code := by
    intro c'
    by_cases hc : c' = c
    · subst hc; exact ho.code_exec hk h
    · rw [exec_cpu_ne h hc]; exact ho.code c'
  sched := by
    refine exec_scheduler_forall (P := fun l => Sequenced (.sched :: l)) ho.sched ?_ h
    rintro i p rfl
    have hseq : Sequenced (.schedScan i :: k) := by rw [← hk]; exact ho.code c
    exact ⟨by simp [After, Op.follows], hseq.1.of_leads rfl _, hseq.2⟩
  ctx := by
    refine exec_context_forall (P := fun l => Sequenced (.sched :: l)) ho.ctx ?_ ?_ h
    · simp [forkret, Sequenced, After, Op.follows]
    · rintro rfl
      rw [← hk]; exact ho.code c

theorem Ordered.entry (hi : s.Inv) (ho : s.Ordered) {code : List Op} (he : Entry s c code) :
    (s.goto c (code ++ (s.cpu c).code)).Ordered where
  code := by
    intro c'
    by_cases hc : c' = c
    · subst hc
      have hcode := ho.code c'
      -- interrupted code is not inside a critical section
      have iret : s.interruptible c' = true → After .iret (s.cpu c').code := by
        intro hint y hy
        obtain ⟨k, hk⟩ : ∃ k, (s.cpu c').code = y :: k := by
          cases hk : (s.cpu c').code with
          | nil => rw [hk] at hy; cases hy
          | cons z k => rw [hk] at hy; cases hy; exact ⟨k, rfl⟩
        obtain ⟨emb, -, hpre, -⟩ := hi.next hk
        obtain ⟨hpt, htk, -⟩ := hi.mode_interruptible hint emb
        have nopt : s.mode c' emb ≠ .resumed none true := fun hm => by rw [hm] at hpt; cases hpt
        have notk : s.mode c' emb ≠ ⟨none, false, true, false, true⟩ :=
          fun hm => by rw [hm] at htk; cases htk
        cases y with
        | acquire lk => cases lk <;> rfl
        | exitPass | killScan pid => exact absurd hpre nopt
        | ticksInc => exact absurd (hpre.2.1.symm.trans htk) (by simp)
        | sleepStart n | sleepLoop n t => exact absurd hpre notk
        | _ => rfl
      suffices Sequenced (code ++ (s.cpu c').code) by simpa using this
      cases he with
      | syscall call hme hu => rw [hu, List.append_nil]; exact sequenced_trapSyscall _ call
      | timer hint =>
        refine (sequenced_trapTimer c' _).append hcode fun x hx => ?_
        obtain rfl : Op.iret = x := by simpa [trapTimer] using hx
        exact iret hint
      | intr lk chan hint =>
        refine (sequenced_trapIntr lk chan _).append hcode fun x hx => ?_
        obtain rfl : Op.iret = x := by simpa [trapIntr, wakeup] using hx
        exact iret hint
      | fault hu =>
        simp only [inUser, Bool.and_eq_true, List.isEmpty_iff] at hu
        rw [hu.2, List.append_nil]
        exact sequenced_trapFault
    · simpa [hc] using ho.code c'
  sched := fun c' => by rw [scheduler_goto]; exact ho.sched c'
  ctx := ho.ctx

theorem ordered_boot : boot.Ordered where
  code := fun c => by simp [boot, Sequenced, After]
  sched := fun c => by simp [boot, Sequenced, After]
  ctx := by
    intro p
    rcases boot_context p with h | ⟨h, -⟩
    · rw [h]; simp [forkret, Sequenced, After, Op.follows]
    · rw [h]; simp [Sequenced, After]

end Kernel

/-- **In every reachable state all code is in order.** -/
theorem sequence {s : Kernel} (h : kernel.Reachable s) : s.Ordered := by
  refine kernel_induct Kernel.ordered_boot ?_ ?_ h
  · intro s s' c ch op k hi ho hk h
    exact ho.exec hk h
  · intro s c code hi ho he
    exact ho.entry hi he

/-! ## The operation that is executed next -/

/-- The operation `y`, of which it matters what it comes after, is the first of a
routine that `op` calls. -/
def Op.calls (op y : Op) : Bool :=
  match op, y with
  | .allocStack _, .acquire .tickslock | .killScan _, .acquire .tickslock => true
  | .forkCopy _, .acquire .ptable | .sleepLoop _ _, .acquire .ptable
  | .trapYield, .acquire .ptable | .schedLoop, .acquire .ptable => true
  | .sleepStart _, .sleepLoop _ _ => true
  | _, _ => false

namespace Kernel

variable {s s' : Kernel} {c : Cpu} {ch : Choice} {op : Op} {k : List Op}

theorem Calls.head {l : List Op} (h : Calls op l) :
    ∀ y ∈ l.head?, op.follows y = true ∨ op.calls y = true := by
  intro y hy
  cases h <;> first | (cases hy; exact .inl rfl) | (cases hy; exact .inr rfl)

/-- **The operation a processor executes next** is one that comes after the last,
is called by it, or is the one a context goes on with. -/
theorem Ordered.head_exec (ho : s.Ordered) (hk : (s.cpu c).code = op :: k)
    (h : s.exec c ch op k = some s') {y : Op} (hy : y ∈ (s'.cpu c).code.head?) :
    op.follows y = true ∨ op.calls y = true ∨
      ((∃ i, op = .schedScan i) ∧ Op.sched.follows y = true) := by
  have hafter : After op k := by
    have := ho.code c
    rw [hk] at this
    exact this.1
  rcases exec_code h with hc | ⟨msg, hc⟩ | ⟨l, hl, hc⟩ | ⟨rfl, -, hc⟩ | ⟨i, p, rfl, -, hc⟩
  · rw [hc] at hy
    exact .inl (hafter y hy)
  · rw [hc] at hy
    cases hy
    exact .inl rfl
  · rw [hc] at hy
    have hy' : y ∈ l.head? := by cases hl <;> exact hy
    exact (hl.head y hy').imp id .inl
  · rw [hc] at hy
    exact .inl ((ho.sched c).1 y hy)
  · rw [hc] at hy
    exact .inr (.inr ⟨⟨i, rfl⟩, (ho.ctx p).1 y hy⟩)

end Kernel

end Xv6
