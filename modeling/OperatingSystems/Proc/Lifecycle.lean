import OperatingSystems.Proc.Family

/-!
# The life of a process

A slot of the process table is used again and again, so a process is not known by
its slot, nor, since they wrap around, by its process ID.  A history variable
numbers the processes in the order in which `fork` makes them runnable, and keeps a
record of every `fork`, every `exit` and every child that `wait` or `wait_stat`
reaps.

* `Record.InOrder`, `Orderly`: a process is reaped once, after its exit, by its
  creator, or by init once the creator has exited, and the process ID that is
  returned is the one `fork` returned.
* `Annals.Truthful`: what the record says about the processes there are.
* `process_lifecycle`: in every reachable state every process has a parent that takes
  part in the scheduling, and the record is in order.
-/

namespace Xv6

open ProcState Function Kernel Option

/-- What is put on record.  A process is given by its number. -/
inductive Record
  /-- `fork` made `child` runnable and goes on to return `pid`. -/
  | forked (child parent : Nat) (pid : Option Int32)
  /-- The process became a zombie. -/
  | exited (n : Nat)
  /-- `wait` or `wait_stat`, called by `parent`, reaped `child` and goes on to return
  `pid`. -/
  | reaped (child parent : Nat) (pid : Option Int32)
  deriving DecidableEq

/-- The record is in order, coming after the records `before`. -/
def Record.InOrder (before : List Record) : Record → Prop
  | .forked child _ _ => ∀ parent pid, .forked child parent pid ∉ before
  | .exited n => .exited n ∉ before
  | .reaped child parent pid =>
    (∀ parent' pid', .reaped child parent' pid' ∉ before) ∧ .exited child ∈ before ∧
    .exited parent ∉ before ∧
    ∃ creator v, .forked child creator (some v) ∈ before ∧ pid = some v ∧
      (parent = creator ∨ parent = 0 ∧ .exited creator ∈ before)

/-- Every record is in order; the latest comes first. -/
def Orderly : List Record → Prop
  | [] => True
  | r :: before => r.InOrder before ∧ Orderly before

/-- The numbers of the processes, and the record. -/
structure Annals where
  /-- How many processes there have been.  The first process is number 0. -/
  count : Nat
  /-- The number of the process in each slot. -/
  number : Slot → Nat
  /-- The record, latest first. -/
  trace : List Record

/-- The value that the code returns next. -/
def returned (code : List Op) : Option Int32 :=
  code.findSome? fun
    | .ret v => some v
    | _ => none

namespace Annals

/-- One process, and nothing on record. -/
def start : Annals := ⟨1, fun _ => 0, []⟩

/-- What the event `e` puts on record. -/
def note (s : Kernel) (e : Kernel.Event) (g : Annals) : Annals :=
  match e with
  | .run c _ =>
    match (s.cpu c).proc, (s.cpu c).code with
    | some me, .forkRun p :: k =>
      { count := g.count + 1
        number := update g.number p g.count
        trace := .forked g.count (g.number me) (returned k) :: g.trace }
    | some me, .exitZombie :: _ => { g with trace := .exited (g.number me) :: g.trace }
    | some me, .waitScan _ :: _ =>
      match (s.proc.lookChildren me slots false).1 with
      | some p =>
        let pid := (s.step e).bind fun s' => returned (s'.cpu c).code
        { g with trace := .reaped (g.number p) (g.number me) pid :: g.trace }
      | none => g
    | _, _ => g
  | _ => g

end Annals

/-- The kernel with the numbers of its processes and the record. -/
def annalsKernel : Machine (Kernel × Annals) Kernel.Event := kernel.ghost .start Annals.note

/-- The value that `fork` is about to return is the one it returns. -/
theorem returned_of_walks {pid : Int32} : ∀ {code : List Op},
    kinDiscipline.Walks (.returning pid) code .idle → returned code = some pid := by
  intro code
  induction code with
  | nil => intro h; cases h
  | cons op k ih =>
    intro h
    obtain ⟨hpre, hk⟩ := h
    cases op with
    | ret v =>
      rcases hpre with h | h
      · cases h
      · cases h; rfl
    | forkRun p =>
      obtain ⟨pid', h⟩ := hpre
      cases h
    | acquire lk | release lk => cases lk <;> exact ih hk
    | trapKilled user =>
      cases user with
      | true => cases hpre
      | false => exact ih hk
    | sleepSet chan =>
      cases chan with
      | proc q => cases hpre
      | _ => exact ih hk
    | io => rcases hpre with h | h <;> cases h
    | _ => first | exact ih hk | cases hpre

namespace Kernel

variable {s s' : Kernel} {c : Cpu} {ch : Choice} {op : Op} {k : List Op} {g : Annals}

/-- The slot holds a process. -/
def Lives (s : Kernel) (p : Slot) : Prop := s.Alive p ∨ (s.proc p).state = ZOMBIE

/-- The process with number `n` is in `exit`, and has passed on its children. -/
def Leaving (s : Kernel) (g : Annals) (n : Nat) : Prop :=
  ∃ c i, (s.cpu c).proc = some i ∧ g.number i = n ∧
    kinDiscipline.Walks .passed (s.cpu c).code .idle

end Kernel

/-- What the record says about the processes there are. -/
structure Annals.Truthful (s : Kernel) (g : Annals) : Prop where
  /-- The first process is number 0 and does not exit. -/
  init : g.number s.initproc = 0 ∧ .exited 0 ∉ g.trace
  /-- Numbers are given out in order. -/
  fresh : 0 < g.count ∧ (∀ p, s.Lives p → g.number p < g.count) ∧
    (∀ child parent pid, .forked child parent pid ∈ g.trace → child < g.count) ∧
    (∀ n, .exited n ∈ g.trace → n < g.count) ∧
    (∀ child parent pid, .reaped child parent pid ∈ g.trace → child < g.count)
  /-- No two processes have the same number. -/
  inj : ∀ p q, s.Lives p → s.Lives q → g.number p = g.number q → p = q
  /-- The processes there are have not been reaped. -/
  unreaped : ∀ p, s.Lives p → ∀ parent pid, .reaped (g.number p) parent pid ∉ g.trace
  /-- The zombies are the processes that have exited. -/
  exited : ∀ p, s.Lives p → (.exited (g.number p) ∈ g.trace ↔ (s.proc p).state = ZOMBIE)
  /-- `fork` returned the process ID, and the parent is the creator, or init after the
  creator's exit. -/
  forked : ∀ p, s.Lives p → p ≠ s.initproc → ∃ creator,
    .forked (g.number p) creator (some (s.proc p).pid) ∈ g.trace ∧
    ∀ q, (s.proc p).parent = some q →
      g.number q = creator ∨
        (q = s.initproc ∧ (.exited creator ∈ g.trace ∨ s.Leaving g creator))
  /-- The record is in order. -/
  orderly : Orderly g.trace

namespace Kernel

variable {s s' : Kernel} {c : Cpu} {ch : Choice} {op : Op} {k : List Op} {g : Annals} {p : Slot}

/-! ## One operation -/

theorem Lives.not (hl : s.Lives p) :
    (s.proc p).state ≠ EMBRYO ∧ (s.proc p).state ≠ UNUSED := by
  rcases hl with ha | hz
  · exact ⟨ha.not.1, ha.not.2.1⟩
  · rw [hz]; simp

/-- A process keeps its process ID, and stays a zombie until it is reaped. -/
theorem Inv.lives_same (hi : s.Inv) (hk : (s.cpu c).code = op :: k)
    (h : s.exec c ch op k = some s') (hl : s.Lives p) (hl' : s'.Lives p) :
    (s'.proc p).pid = (s.proc p).pid ∧
      ((s.proc p).state = ZOMBIE → (s'.proc p).state = ZOMBIE) := by
  obtain ⟨he, hu⟩ := hl.not
  obtain ⟨he', hu'⟩ := hl'.not
  obtain ⟨emb, -, hpre, -⟩ := hi.next hk
  have hch := exec_change h p
  rw [← Proc.core_state (s'.proc p)] at he' hu' ⊢
  rw [← Proc.core_pid (s'.proc p)]
  generalize (s'.proc p).core = q' at hch he' hu' ⊢
  -- what the current process does it does while it is running
  have running : ∀ {m : Mode}, s.mode c emb = m → m.off = false → (s.cpu c).proc = some p →
      (s.proc p).state ≠ ZOMBIE := by
    intro m hm hoff hp hz
    rw [(off_eq_false hp).1 ((congrArg Mode.off hm).trans hoff)] at hz
    cases hz
  cases hch with
  | wake _ hs => exact ⟨rfl, fun hz => by rw [hs] at hz; cases hz⟩
  | tick => exact ⟨by simp, fun hz => by simpa using hz⟩
  | alloc hf => exact absurd (Table.firstUnused_state hf) hu
  | allocFail _ | forkFail _ | reap _ | reapStat _ => exact absurd rfl hu'
  | forkRun => exact absurd (hi.state_of_embryo hk rfl) he
  | sleep hp | yield hp => exact ⟨rfl, fun hz => absurd hz (running rfl hpre.2.2.1 hp)⟩
  | zombie _ => exact ⟨rfl, fun _ => rfl⟩
  | dispatch hp => exact ⟨rfl, fun hz => by rw [Table.pick_state hp] at hz; cases hz⟩
  | _ => exact ⟨rfl, id⟩

theorem pre_passed (hpre : kinDiscipline.pre op .passed) :
    op = .exitZombie ∨ op = .exitTtime ∨ op = .acquire .tickslock ∨ op = .release .tickslock := by
  cases op with
  | exitZombie => exact .inl rfl
  | exitTtime => exact .inr (.inl rfl)
  | acquire lk =>
    cases lk with
    | tickslock => exact .inr (.inr (.inl rfl))
    | _ => cases hpre
  | release lk =>
    cases lk with
    | tickslock => exact .inr (.inr (.inr rfl))
    | _ => cases hpre
  | trapKilled user => cases user <;> cases hpre
  | sleepSet chan => cases chan <;> cases hpre
  | io | ret v => rcases hpre with h | h <;> cases h
  | forkRun p => obtain ⟨pid, h⟩ := hpre; cases h
  | _ => cases hpre

/-- A process that has passed on its children goes on to become a zombie. -/
theorem Inv.leaving_exec (hi : s.Inv) (hk : (s.cpu c).code = op :: k)
    (h : s.exec c ch op k = some s') {n : Nat} (hl : s.Leaving g n) :
    s'.Leaving g n ∨ (op = .exitZombie ∧ ∃ i, (s.cpu c).proc = some i ∧ g.number i = n) := by
  obtain ⟨c', i, hci, hn, hw⟩ := hl
  by_cases hc : c' = c
  · subst hc
    rw [hk] at hw
    obtain ⟨emb, -, hpre, -⟩ := hi.next hk
    -- the locks are there to be taken and given back
    have hgo : op ≠ .exitZombie → (s'.cpu c').code = k ∧ (s'.cpu c').proc = (s.cpu c').proc := by
      intro hne
      rcases pre_passed hw.1 with rfl | rfl | rfl | rfl
      · exact absurd rfl hne
      · simp only [Kernel.exec, effect, hci, procEffect, map_some, some.injEq] at h
        subst h
        simp [apply]
      · have hfree : s.lock .tickslock ≠ some c' := by simpa [mode] using hpre.1
        simp only [Kernel.exec, acquireLock] at h
        split at h
        · cases h; simp
        · rename_i h' hlk
          split_ifs at h with hc
          exact absurd (by rw [hlk, hc]) hfree
      · have hmine : s.lock .tickslock = some c' := mode_tk emb hpre.1
        simp only [Kernel.exec, releaseLock, if_pos hmine, some.injEq] at h
        subst h
        simp
    by_cases hne : op = .exitZombie
    · exact .inr ⟨hne, i, hci, hn⟩
    · obtain ⟨hcode, hproc⟩ := hgo hne
      refine .inl ⟨c', i, by rw [hproc]; exact hci, hn, ?_⟩
      rw [hcode]
      rcases pre_passed hw.1 with rfl | rfl | rfl | rfl
      · exact absurd rfl hne
      · exact hw.2
      · exact hw.2
      · exact hw.2
  · exact .inl ⟨c', i, by rw [exec_cpu_ne h hc]; exact hci, hn,
      by rw [exec_cpu_ne h hc]; exact hw⟩

/-- Nobody is leaving while somebody else holds `ptable.lock`. -/
theorem Inv.not_leaving (hi : s.Inv) (hk : (s.cpu c).code = op :: k)
    (hpt : s.lock .ptable = some c) (hop : ¬ kinDiscipline.pre op .passed) (n : Nat) :
    ¬ s.Leaving g n := by
  rintro ⟨c', i, -, -, hw⟩
  obtain ⟨emb, hwl⟩ := hi.typed c'
  have hpt' := mode_pt emb (pt_of_kin hwl hw rfl)
  obtain rfl : c = c' := some.inj (hpt.symm.trans hpt')
  rw [hk] at hw
  exact hop hw.1

/-! ## What the record says after an operation -/

section

variable (hf : s.Family) (hi : s.Inv) (ht : g.Truthful s)

include hf hi ht

theorem Family.forked_exec (hk : (s.cpu c).code = op :: k) (h : s.exec c ch op k = some s')
    (hl : s.Lives p) (hne : p ≠ s.initproc) :
    ∃ creator, .forked (g.number p) creator (some (s.proc p).pid) ∈ g.trace ∧
      ∀ q, (s'.proc p).parent = some q → g.number q = creator ∨
        (q = s.initproc ∧ (.exited creator ∈ g.trace ∨ s'.Leaving g creator ∨
          (op = .exitZombie ∧ ∃ i, (s.cpu c).proc = some i ∧ g.number i = creator))) := by
  obtain ⟨creator, hmem, hpar⟩ := ht.forked p hl hne
  refine ⟨creator, hmem, fun q hq => ?_⟩
  rcases Kernel.parent_exec h hq with hq | ⟨rfl, -⟩ | ⟨rfl, rfl, me, hme, hq⟩
  · rcases hpar q hq with hn | ⟨hinit, hex | hl⟩
    · exact .inl hn
    · exact .inr ⟨hinit, .inl hex⟩
    · exact .inr ⟨hinit, .inr (hi.leaving_exec hk h hl)⟩
  · exact absurd (hi.state_of_embryo hk rfl) hl.not.1
  · -- the creator passes its child to init
    obtain ⟨t, hw, hm⟩ := hf.cpu c
    rw [hk] at hw
    have hexit : t = .exiting := hw.1
    subst hexit
    obtain ⟨me', hme', hproc, hcode, -⟩ := exec_exitPass h
    obtain rfl : me' = me := some.inj (hme'.symm.trans hme)
    rcases hpar me' hq with hn | ⟨hinit, -⟩
    · exact .inr ⟨rfl, .inr (.inl ⟨c, me', hproc, hn, by rw [hcode]; exact hw.2⟩)⟩
    · exact absurd hinit (hm me' hme)

theorem Family.truthful_keep (hk : (s.cpu c).code = op :: k) (h : s.exec c ch op k = some s')
    (hfork : ∀ p, op ≠ .forkRun p) (hexit : op ≠ .exitZombie) : g.Truthful s' := by
  have old : ∀ p, s'.Lives p → s.Lives p := fun p hl =>
    (hi.lives_exec hk h hl).resolve_right (hfork p)
  obtain ⟨hinit, hfresh⟩ := ht.fresh
  refine ⟨?_, ⟨hinit, fun p hl => hfresh.1 p (old p hl), hfresh.2⟩, ?_, ?_, ?_, ?_, ht.orderly⟩
  · rw [exec_initproc h]
    exact ht.init
  · exact fun p q hp hq => ht.inj p q (old p hp) (old q hq)
  · exact fun p hl => ht.unreaped p (old p hl)
  · intro p hl
    rw [ht.exited p (old p hl)]
    refine ⟨(hi.lives_same hk h (old p hl) hl).2, fun hz => ?_⟩
    exact (zombie_exec h hz).resolve_right fun hop => hexit hop.1
  · intro p hl hne
    rw [exec_initproc h] at hne ⊢
    obtain ⟨creator, hmem, hpar⟩ := hf.forked_exec hi ht hk h (old p hl) hne
    refine ⟨creator, by rw [(hi.lives_same hk h (old p hl) hl).1]; exact hmem, fun q hq => ?_⟩
    rcases hpar q hq with hn | ⟨hq, hex | hl | ⟨hop, -⟩⟩
    · exact .inl hn
    · exact .inr ⟨hq, .inl hex⟩
    · exact .inr ⟨hq, .inr hl⟩
    · exact absurd hop hexit

theorem Family.truthful_exit (hk : (s.cpu c).code = .exitZombie :: k)
    (h : s.exec c ch .exitZombie k = some s') {me : Slot} (hme : (s.cpu c).proc = some me) :
    Annals.Truthful s' { g with trace := .exited (g.number me) :: g.trace } := by
  have old : ∀ p, s'.Lives p → s.Lives p := fun p hl =>
    (hi.lives_exec hk h hl).resolve_right (by simp)
  have hne := (hf.exitZombie hk hme).1
  have halive : s.Alive me := by
    obtain ⟨emb, -, hpre, -⟩ := hi.next hk
    have hm : s.mode c emb = .resumed none true := hpre
    exact .inr (.inr ((off_eq_false hme).1 (congrArg Mode.off hm)))
  have hzombie : (s'.proc me).state = ZOMBIE := by
    simp only [Kernel.exec, effect, hme, procEffect, map_some, some.injEq] at h
    subst h
    simp [apply]
  obtain ⟨hcount, hnum, hforked, hexited, hreaped⟩ := ht.fresh
  have hnot : .exited (g.number me) ∉ g.trace := by
    rw [ht.exited me (.inl halive)]
    exact halive.not.2.2
  refine ⟨?_, ⟨hcount, fun p hl => hnum p (old p hl), ?_, ?_, ?_⟩, ?_, ?_, ?_, ?_, hnot, ht.orderly⟩
  · rw [exec_initproc h]
    refine ⟨ht.init.1, ?_⟩
    rw [List.mem_cons, not_or]
    refine ⟨fun heq => hne ?_, ht.init.2⟩
    refine ht.inj me s.initproc (.inl halive) (.inl hf.init) ?_
    rw [ht.init.1]
    exact (Record.exited.inj heq).symm
  · exact fun child parent pid hmem => hforked child parent pid (by simpa using hmem)
  · intro n hmem
    rcases List.mem_cons.1 hmem with heq | hmem
    · rw [Record.exited.inj heq]; exact hnum me (.inl halive)
    · exact hexited n hmem
  · exact fun child parent pid hmem => hreaped child parent pid (by simpa using hmem)
  · exact fun p q hp hq => ht.inj p q (old p hp) (old q hq)
  · exact fun p hl parent pid hmem => ht.unreaped p (old p hl) parent pid (by simpa using hmem)
  · intro p hl
    show .exited (g.number p) ∈ Record.exited (g.number me) :: g.trace ↔ _
    by_cases hp : p = me
    · subst hp
      simp [hzombie]
    · have hnum : g.number p ≠ g.number me := fun heq =>
        hp (ht.inj p me (old p hl) (.inl halive) heq)
      have hmem : .exited (g.number p) ∈ Record.exited (g.number me) :: g.trace ↔
          .exited (g.number p) ∈ g.trace := by simp [hnum]
      rw [hmem, ht.exited p (old p hl)]
      refine ⟨(hi.lives_same hk h (old p hl) hl).2, fun hz => ?_⟩
      refine (zombie_exec h hz).resolve_right fun hop => hp ?_
      exact some.inj (hop.2.symm.trans hme)
  · intro p hl hnp
    rw [exec_initproc h] at hnp ⊢
    obtain ⟨creator, hmem, hpar⟩ := hf.forked_exec hi ht hk h (old p hl) hnp
    refine ⟨creator, ?_, fun q hq => ?_⟩
    · rw [(hi.lives_same hk h (old p hl) hl).1]
      exact List.mem_cons_of_mem _ hmem
    · rcases hpar q hq with hn | ⟨hq, hex | hl | ⟨-, i, hci, hn⟩⟩
      · exact .inl hn
      · exact .inr ⟨hq, .inl (List.mem_cons_of_mem _ hex)⟩
      · exact .inr ⟨hq, .inr hl⟩
      · obtain rfl : i = me := some.inj (hci.symm.trans hme)
        exact .inr ⟨hq, .inl (by rw [← hn]; exact List.mem_cons_self)⟩

theorem Family.truthful_fork (hk : (s.cpu c).code = .forkRun p :: k)
    (h : s.exec c ch (.forkRun p) k = some s') {me : Slot} (hme : (s.cpu c).proc = some me) :
    Annals.Truthful s'
      { count := g.count + 1
        number := update g.number p g.count
        trace := .forked g.count (g.number me) (returned k) :: g.trace } := by
  have he := hi.state_of_embryo hk rfl
  have hnew : ∀ q, s.Lives q → q ≠ p := by
    rintro q hl rfl
    exact hl.not.1 he
  have old : ∀ q, s'.Lives q → q ≠ p → s.Lives q := by
    intro q hl hq
    refine (hi.lives_exec hk h hl).resolve_right fun hop => hq ?_
    cases hop
    rfl
  have hnum' : ∀ q, q ≠ p → update g.number p g.count q = g.number q :=
    fun q hq => update_of_ne hq _ _
  obtain ⟨hcount, hnum, hforked, hexited, hreaped⟩ := ht.fresh
  have hinit : s.initproc ≠ p := hnew _ (.inl hf.init)
  have hrun : (s'.proc p).state = RUNNABLE ∧ (s'.proc p).pid = (s.proc p).pid ∧
      (s'.proc p).parent = (s.proc p).parent := by
    simp only [Kernel.exec, effect, hme, procEffect, map_some, some.injEq] at h
    subst h
    simp [apply]
  refine ⟨?_, ⟨by simp, ?_, ?_, ?_, ?_⟩, ?_, ?_, ?_, ?_, ?_, ht.orderly⟩
  · rw [exec_initproc h]
    exact ⟨by rw [← ht.init.1]; exact hnum' _ hinit, by simpa using ht.init.2⟩
  · intro q hl
    by_cases hq : q = p
    · subst hq; simp
    · have := hnum q (old q hl hq)
      simp only [hnum' q hq]
      omega
  · intro child parent pid hmem
    rcases List.mem_cons.1 hmem with heq | hmem
    · cases heq; simp
    · have := hforked child parent pid hmem
      show child < g.count + 1
      omega
  · intro n hmem
    have := hexited n (by simpa using hmem)
    show n < g.count + 1
    omega
  · intro child parent pid hmem
    have := hreaped child parent pid (by simpa using hmem)
    show child < g.count + 1
    omega
  · intro q r hq hr heq
    by_cases hqp : q = p <;> by_cases hrp : r = p
    · rw [hqp, hrp]
    · subst hqp
      have := hnum r (old r hr hrp)
      simp only [update_self, hnum' r hrp] at heq
      omega
    · subst hrp
      have := hnum q (old q hq hqp)
      simp only [update_self, hnum' q hqp] at heq
      omega
    · simp only [hnum' q hqp, hnum' r hrp] at heq
      exact ht.inj q r (old q hq hqp) (old r hr hrp) heq
  · intro q hl parent pid hmem
    by_cases hq : q = p
    · subst hq
      have := hreaped g.count parent pid (by simpa using hmem)
      omega
    · exact ht.unreaped q (old q hl hq) parent pid (by simpa [hnum' q hq] using hmem)
  · intro q hl
    by_cases hq : q = p
    · subst hq
      rw [hrun.1]
      refine ⟨fun hmem => ?_, fun hz => by cases hz⟩
      have := hexited g.count (by simpa using hmem)
      omega
    · have hmem : .exited (update g.number p g.count q) ∈
          Record.forked g.count (g.number me) (returned k) :: g.trace ↔
          .exited (g.number q) ∈ g.trace := by simp [hnum' q hq]
      rw [hmem, ht.exited q (old q hl hq)]
      refine ⟨(hi.lives_same hk h (old q hl hq) hl).2, fun hz => ?_⟩
      exact (zombie_exec h hz).resolve_right (by simp)
  · intro q hl hne
    rw [exec_initproc h] at hne ⊢
    by_cases hq : q = p
    · -- the parent of the new process is its creator
      subst hq
      obtain ⟨t, hw, hm⟩ := hf.cpu c
      rw [hk] at hw
      obtain ⟨pid, rfl⟩ := hw.1
      obtain ⟨hpar, hpid⟩ := hm me hme
      have hret : returned k = some pid := returned_of_walks hw.2
      refine ⟨g.number me, ?_, fun r hr => .inl ?_⟩
      · rw [hrun.2.1, hpid]
        simp [hret]
      · rw [hrun.2.2, hpar] at hr
        obtain rfl : me = r := some.inj hr
        refine hnum' me ?_
        rintro rfl
        exact (hi.live c me hme).2 he
    · obtain ⟨creator, hmem, hpar⟩ := hf.forked_exec hi ht hk h (old q hl hq) hne
      refine ⟨creator, ?_, fun r hr => ?_⟩
      · rw [(hi.lives_same hk h (old q hl hq) hl).1]
        simp only [hnum' q hq]
        exact List.mem_cons_of_mem _ hmem
      · have hrp : r ≠ p := by
          obtain ⟨r', hr', ha⟩ := hf.parent q hne (old q hl hq)
          rcases Kernel.parent_exec h hr with hr | ⟨hop, -⟩ | ⟨hop, -⟩
          · obtain rfl : r' = r := some.inj (hr'.symm.trans hr)
            exact hnew r' (.inl ha)
          · cases hop
          · cases hop
        rcases hpar r hr with hn | ⟨hr, hex | ⟨c', i, hci, hn, hw⟩ | ⟨hop, -⟩⟩
        · exact .inl (by rw [← hn]; exact hnum' r hrp)
        · exact .inr ⟨hr, .inl (List.mem_cons_of_mem _ hex)⟩
        · refine .inr ⟨hr, .inr ⟨c', i, hci, ?_, hw⟩⟩
          rw [← hn]
          refine hnum' i ?_
          rintro rfl
          rcases hi.proc_exec hk h hci with hci | ⟨-, j, hop, -⟩
          · exact (hi.live c' i hci).2 he
          · cases hop
        · cases hop
  · intro parent pid hmem
    have := hforked g.count parent pid hmem
    omega

end

theorem exec_reap {stat : Bool} (h : s.exec c ch (.waitScan stat) k = some s') {me p : Slot}
    (hme : (s.cpu c).proc = some me) (hp : (s.proc.lookChildren me slots false).1 = some p) :
    (s'.proc p).state = UNUSED ∧ returned (s'.cpu c).code = some (s.proc p).pid := by
  obtain ⟨kids, hlook⟩ : ∃ kids, s.proc.lookChildren me slots false = (some p, kids) :=
    ⟨_, Prod.ext hp rfl⟩
  simp only [exec, effect, hme, procEffect, hlook] at h
  split_ifs at h
  · simp only [map_some, some.injEq] at h
    subst h
    simp [apply, returned, Table.reapStat]
  · simp only [map_some, some.injEq] at h
    subst h
    simp [apply, returned, Table.reap]

theorem Family.truthful_reap (hf : s.Family) (hi : s.Inv) (ht : g.Truthful s) {stat : Bool}
    (hk : (s.cpu c).code = .waitScan stat :: k) (h : s.exec c ch (.waitScan stat) k = some s')
    {me p : Slot} (hme : (s.cpu c).proc = some me)
    (hp : (s.proc.lookChildren me slots false).1 = some p) :
    Annals.Truthful s' { g with
      trace := .reaped (g.number p) (g.number me) (returned (s'.cpu c).code) :: g.trace } := by
  have hkeep := hf.truthful_keep hi ht hk h (by simp) (by simp)
  obtain ⟨hcount, hnum, hforked, hexited, hreaped⟩ := hkeep.fresh
  obtain ⟨hz, hpar⟩ := Table.lookChildren_zombie (Prod.ext hp rfl)
  obtain ⟨hunused, hret⟩ := exec_reap h hme hp
  obtain ⟨emb, -, hpre, -⟩ := hi.next hk
  have hm : s.mode c emb = .resumed none true := hpre
  have halive : s.Alive me := .inr (.inr ((off_eq_false hme).1 (congrArg Mode.off hm)))
  have hlive : s.Lives p := .inr hz
  have hne : p ≠ s.initproc := by
    rintro rfl
    exact hf.init.not.2.2 hz
  have gone : ∀ q, s'.Lives q → g.number q ≠ g.number p := by
    intro q hl heq
    have hq := (hi.lives_exec hk h hl).resolve_right (by simp)
    obtain rfl := ht.inj q p hq hlive heq
    exact hl.not.2 hunused
  refine ⟨⟨hkeep.init.1, by simpa using hkeep.init.2⟩, ⟨hcount, hnum, ?_, ?_, ?_⟩, hkeep.inj, ?_,
    ?_, ?_, ⟨ht.unreaped p hlive, (ht.exited p hlive).2 hz, ?_, ?_⟩, ht.orderly⟩
  · exact fun child parent pid hmem => hforked child parent pid (by simpa using hmem)
  · exact fun n hmem => hexited n (by simpa using hmem)
  · intro child parent pid hmem
    rcases List.mem_cons.1 hmem with heq | hmem
    · cases heq; exact ht.fresh.2.1 p hlive
    · exact hreaped child parent pid hmem
  · intro q hl parent pid hmem
    rcases List.mem_cons.1 hmem with heq | hmem
    · exact gone q hl (Record.reaped.inj heq).1
    · exact hkeep.unreaped q hl parent pid hmem
  · intro q hl
    rw [← hkeep.exited q hl]
    simp
  · intro q hl hq
    obtain ⟨creator, hmem, hq⟩ := hkeep.forked q hl hq
    refine ⟨creator, List.mem_cons_of_mem _ hmem, fun r hr => ?_⟩
    rcases hq r hr with hn | ⟨hr, hex | hl⟩
    · exact .inl hn
    · exact .inr ⟨hr, .inl (List.mem_cons_of_mem _ hex)⟩
    · exact .inr ⟨hr, .inr hl⟩
  · rw [ht.exited me (.inl halive)]
    exact halive.not.2.2
  · obtain ⟨creator, hmem, hq⟩ := ht.forked p hlive hne
    refine ⟨creator, _, hmem, hret, ?_⟩
    rcases hq me hpar with hn | ⟨rfl, hex | hl⟩
    · exact .inl hn
    · exact .inr ⟨ht.init.1, hex⟩
    · -- the creator would hold the lock
      refine absurd hl (hi.not_leaving hk (mode_pt emb (by rw [hm]; rfl)) ?_ creator)
      exact fun hpre => by cases hpre

/-! ## Every reachable state -/

theorem note_eq_self (hfork : ∀ p, op ≠ .forkRun p) (hexit : op ≠ .exitZombie)
    (hwait : ∀ stat, op ≠ .waitScan stat) (hk : (s.cpu c).code = op :: k) :
    g.note s (.run c ch) = g := by
  cases op with
  | forkRun p => exact absurd rfl (hfork p)
  | exitZombie => exact absurd rfl hexit
  | waitScan stat => exact absurd rfl (hwait stat)
  | _ => cases hme : (s.cpu c).proc <;> simp [Annals.note, hk, hme]

/-- **The record is truthful after an operation.** -/
theorem Family.truthful_exec (hf : s.Family) (hi : s.Inv) (ht : g.Truthful s)
    (hk : (s.cpu c).code = op :: k) (h : s.exec c ch op k = some s') :
    (g.note s (.run c ch)).Truthful s' := by
  have hstep : s.step (.run c ch) = some s' := by simp only [step, hk]; exact h
  have current : ∀ {emb : Option Slot}, (s.mode c emb).cur = true →
      ∃ me, (s.cpu c).proc = some me := fun hm => isSome_iff_exists.1 hm
  obtain ⟨emb, -, hpre, -⟩ := hi.next hk
  by_cases hfork : ∃ p, op = .forkRun p
  · obtain ⟨p, rfl⟩ := hfork
    obtain ⟨me, hme⟩ := current (congrArg Mode.cur (show s.mode c emb = _ from hpre))
    simpa [Annals.note, hme, hk] using hf.truthful_fork hi ht hk h hme
  by_cases hexit : op = .exitZombie
  · subst hexit
    obtain ⟨me, hme⟩ := current (congrArg Mode.cur (show s.mode c emb = _ from hpre))
    simpa [Annals.note, hme, hk] using hf.truthful_exit hi ht hk h hme
  have hkeep := hf.truthful_keep hi ht hk h (fun p hp => hfork ⟨p, hp⟩) hexit
  by_cases hwait : ∃ stat, op = .waitScan stat
  · obtain ⟨stat, rfl⟩ := hwait
    obtain ⟨me, hme⟩ := current (congrArg Mode.cur (show s.mode c emb = _ from hpre))
    cases hp : (s.proc.lookChildren me slots false).1 with
    | none => simpa [Annals.note, hme, hk, hp] using hkeep
    | some p =>
      simpa [Annals.note, hme, hk, hp, hstep] using hf.truthful_reap hi ht hk h hme hp
  · rw [note_eq_self (fun p hp => hfork ⟨p, hp⟩) hexit (fun b hb => hwait ⟨b, hb⟩) hk]
    exact hkeep

theorem Inv.not_passed_entry (hi : s.Inv) {code : List Op} (he : Entry s c code) :
    ¬ kinDiscipline.Walks .passed (s.cpu c).code .idle := by
  intro hw
  have hint : s.interruptible c ≠ true := by
    intro hint
    obtain ⟨emb, hwl⟩ := hi.typed c
    have hpt := pt_of_kin hwl hw rfl
    rw [(hi.mode_interruptible hint emb).1] at hpt
    cases hpt
  cases he with
  | syscall call hme hu => rw [hu] at hw; cases hw
  | timer h | intr lk chan h => exact hint h
  | fault hu =>
    simp only [inUser, Bool.and_eq_true, List.isEmpty_iff] at hu
    rw [hu.2] at hw
    cases hw

theorem Inv.truthful_entry (hi : s.Inv) (ht : g.Truthful s) {code : List Op}
    (he : Entry s c code) : g.Truthful (s.goto c (code ++ (s.cpu c).code)) where
  init := ht.init
  fresh := ht.fresh
  inj := ht.inj
  unreaped := ht.unreaped
  exited := ht.exited
  forked := by
    intro p hl hne
    obtain ⟨creator, hmem, hpar⟩ := ht.forked p hl hne
    refine ⟨creator, hmem, fun q hq => ?_⟩
    rcases hpar q hq with hn | ⟨hq, hex | ⟨c', i, hci, hn, hw⟩⟩
    · exact .inl hn
    · exact .inr ⟨hq, .inl hex⟩
    · have hc : c' ≠ c := by
        rintro rfl
        exact hi.not_passed_entry he hw
      exact .inr ⟨hq, .inr ⟨c', i, by simpa [hc] using hci, hn, by simpa [hc] using hw⟩⟩
  orderly := ht.orderly

theorem boot_lives (hl : boot.Lives p) : p = boot.initproc := by
  by_contra hne
  have hp0 : p ≠ 0 := fun h0 => hne h0
  exact hl.not.2 (by simp [boot, hp0])

theorem truthful_boot : Annals.start.Truthful boot where
  init := ⟨rfl, by simp [Annals.start]⟩
  fresh := by simp [Annals.start]
  inj := fun p q hp hq _ => (boot_lives hp).trans (boot_lives hq).symm
  unreaped := by simp [Annals.start]
  exited := by
    intro p hl
    obtain rfl := boot_lives hl
    simp [Annals.start, boot]
  forked := fun p hl hne => absurd (boot_lives hl) hne
  orderly := trivial

end Kernel

/-- **The record is truthful in every reachable state.** -/
theorem truthful {s : Kernel} {g : Annals} (h : annalsKernel.Reachable (s, g)) :
    g.Truthful s := by
  refine Machine.ReachableBy.induct (I := fun x => x.2.Truthful x.1) ?_ ?_ h
  · rintro ⟨s, g⟩ ⟨hs, hg⟩
    obtain rfl : s = boot := hs
    obtain rfl : g = .start := hg
    exact truthful_boot
  · rintro ⟨s, g⟩ e ⟨s', g'⟩ hr ht _ hs
    have hr₀ : kernel.Reachable s := Machine.ghost_reachable hr
    obtain ⟨hstep, hg⟩ := Machine.ghost_step hs
    subst hg
    rcases step_cases hstep with ⟨c, ch, op, k, rfl, hk, h⟩ | ⟨c, code, hne, he, rfl⟩
    · exact (family hr₀).truthful_exec (inv hr₀) ht hk h
    · have hnote : g.note s e = g := by
        cases e with
        | run c' ch => exact absurd rfl (hne c' ch)
        | _ => rfl
      rw [hnote]
      exact (inv hr₀).truthful_entry ht he

/-- **The life of a process.**  In every reachable state every process but init has a
parent that takes part in the scheduling.  And whatever has been put on record is in
order: a process is reaped at most once, after its exit, by a `wait` or `wait_stat`
of its creator, or of init after the creator's exit, which returns the process ID
that `fork` returned. -/
theorem process_lifecycle {s : Kernel} {g : Annals} (h : annalsKernel.Reachable (s, g)) :
    (∀ p, p ≠ s.initproc → s.Alive p ∨ (s.proc p).state = ZOMBIE →
      ∃ q, (s.proc p).parent = some q ∧ s.Alive q) ∧ Orderly g.trace :=
  ⟨(family (Machine.ghost_reachable h)).parent, (truthful h).orderly⟩

/-- The child of the first process exits, and its parent reaps it. -/
theorem process_lifecycle_reap :
    ∃ s g, annalsKernel.Reachable (s, g) ∧
      g.trace = [.reaped 1 0 (some 2), .exited 1, .forked 1 0 (some 2)] ∧ Orderly g.trace := by
  obtain ⟨⟨s, g⟩, hr, htrace⟩ := Machine.reachable_of_run (M := annalsKernel)
    (P := fun x => x.2.trace = [.reaped 1 0 (some 2), .exited 1, .forked 1 0 (some 2)])
    (boot, .start)
    (forks ++ [.syscall 1 .wait] ++ execs 1 8 ++ [.syscall 1 .exit] ++ execs 1 17)
    ⟨rfl, rfl⟩ (by set_option maxRecDepth 20000 in decide)
  exact ⟨s, g, hr, htrace, (process_lifecycle hr).2⟩

end Xv6
