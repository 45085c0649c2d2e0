import OperatingSystems.Proc.Family
import OperatingSystems.Proc.Zombie

/-!
# Who changes the process table, and what cannot go wrong

* `state_changes_locked`: the state of a slot is changed under `ptable.lock`, except when
  a `fork` gives up the slot it has taken.
* `running_on_one_cpu`: a process that is running is on one processor.
* `only_init_panics`: of the panics of `acquire`, `release`, `sched` and `exit` only that of
  an `initproc` that exits is reached.
-/

namespace Xv6

open ProcState Kernel Option

namespace Kernel

variable {s s' : Kernel} {c : Cpu} {ch : Choice} {op : Op} {k : List Op}

/-! ## The states of the slots -/

/-- An operation that changes the state of a slot needs `ptable.lock`, or gives up the slot
its `fork` has taken. -/
theorem Inv.state_exec (hi : s.Inv) (hk : (s.cpu c).code = op :: k)
    (h : s.exec c ch op k = some s') (p : Slot) :
    (s'.proc p).state = (s.proc p).state ∨ s.lock .ptable = some c ∨
      ((op = .allocStack p ∨ op = .forkCopy p) ∧ (s.proc p).state = EMBRYO ∧
        (s'.proc p).state = UNUSED) := by
  obtain ⟨emb, -, hpre, -⟩ := hi.next hk
  have locked : (s.mode c emb).pt = true → s.lock .ptable = some c := mode_pt emb
  have resumed {emb' : Option Slot} {b : Bool} (hm : s.mode c emb = .resumed emb' b) :
      s.lock .ptable = some c := locked (by rw [hm]; rfl)
  have hch := exec_change h p
  rw [← Proc.core_state (s'.proc p)]
  generalize (s'.proc p).core = q' at hch
  cases hch with
  | wake hop _ =>
    refine .inr (.inl ?_)
    obtain rfl | ⟨chan, rfl⟩ | rfl := hop
    · exact resumed hpre
    · exact locked hpre.1
    · exact resumed hpre
  | alloc _ | forkRun | zombie _ | reap _ | reapStat _ | dispatch _ =>
    exact .inr (.inl (resumed hpre))
  | sleep _ | yield _ => exact .inr (.inl (locked hpre.1))
  | allocFail _ =>
    exact .inr (.inr ⟨.inl rfl, hi.state_of_embryo hk rfl, rfl⟩)
  | forkFail _ =>
    exact .inr (.inr ⟨.inr rfl, hi.state_of_embryo hk rfl, rfl⟩)
  | tick => exact .inl (by simp)
  | _ => exact .inl rfl

/-- A process that is running is on a processor. -/
theorem Inv.running_exec (hi : s.Inv) (hk : (s.cpu c).code = op :: k)
    (h : s.exec c ch op k = some s')
    (hs : ∀ p, (s.proc p).state = RUNNING → ∃ c, (s.cpu c).proc = some p) (p : Slot)
    (hp : (s'.proc p).state = RUNNING) : ∃ c, (s'.cpu c).proc = some p := by
  by_cases hd : ∃ i, op = .schedScan i ∧ s.proc.pick i = some p
  · obtain ⟨i, rfl, hpick⟩ := hd
    simp only [Kernel.exec, hpick, some.injEq] at h
    exact ⟨c, by simp [← h, dispatch]⟩
  have hrun : (s.proc p).state = RUNNING := by
    have hch := exec_change h p
    rw [← Proc.core_state (s'.proc p)] at hp
    generalize (s'.proc p).core = q' at hch hp
    cases hch with
    | dispatch hpick => exact absurd ⟨_, rfl, hpick⟩ hd
    | tick => simpa using hp
    | _ => first | exact hp | simp [Table.reap, Table.reapStat] at hp
  obtain ⟨c', hc'⟩ := hs p hrun
  refine ⟨c', by_contra fun hne => ?_⟩
  -- the process has called `sched`, for which it has to be off
  obtain ⟨rfl, hme, -⟩ := hi.switch_exec hk h hc' hne
  obtain ⟨emb, -, hpre, -⟩ := hi.next hk
  have hoff : s.off c = true := hpre.2.2.1
  simp [off, hme, hrun] at hoff

end Kernel

/-- **States change under the lock.**  In every reachable state, a step that changes the
state of a slot is the operation of a processor that holds `ptable.lock`, or of a `fork`
that fails and gives back the slot it was filling in. -/
theorem state_changes_locked {s s' : Kernel} (h : kernel.Reachable s) {e : Kernel.Event}
    (hs : s.step e = some s') {p : Slot} (hp : (s'.proc p).state ≠ (s.proc p).state) :
    ∃ c ch, e = .run c ch ∧ (s.lock .ptable = some c ∨
      ((s.executes e = some (.allocStack p) ∨ s.executes e = some (.forkCopy p)) ∧
        (s.proc p).state = EMBRYO ∧ (s'.proc p).state = UNUSED)) := by
  rcases step_cases hs with ⟨c, ch, op, k, rfl, hk, hx⟩ | ⟨c, code, -, -, rfl⟩
  · refine ⟨c, ch, rfl, ?_⟩
    obtain heq | hl | ⟨hop, hrest⟩ := (inv h).state_exec hk hx p
    · exact absurd heq hp
    · exact .inl hl
    · exact .inr ⟨by simpa [executes, hk] using hop, hrest⟩
  · exact absurd rfl hp

theorem state_changes_locked_dispatch :
    ∃ s, kernel.Reachable s ∧ (s.proc 0).state = RUNNABLE ∧ s.lock .ptable = some 1 := by
  obtain ⟨s, s', hr, hs, hrun, hp⟩ := Machine.step_of_run (M := kernel)
    (Q := fun s s' => (s.proc 0).state = RUNNABLE ∧ (s'.proc 0).state = RUNNING)
    boot (execs 1 2) (.run 1 .done) rfl (by decide)
  have hs : s.step (.run 1 .done) = some s' := hs
  obtain ⟨c, ch, he, hl | ⟨-, hemb, -⟩⟩ := state_changes_locked hr hs (p := 0) (by simp [hrun, hp])
  · cases he
    exact ⟨s, hr, hrun, hl⟩
  · rw [hrun] at hemb
    cases hemb

/-- **A running process is on one processor.**  In every reachable state no process is on
two processors, every process that is running is on one, and while `ptable.lock` is free
every process on a processor is running. -/
theorem running_on_one_cpu {s : Kernel} (h : kernel.Reachable s) (p : Slot) :
    (∀ c c', (s.cpu c).proc = some p → (s.cpu c').proc = some p → c = c') ∧
    ((s.proc p).state = RUNNING → ∃ c, (s.cpu c).proc = some p) ∧
    (s.lock .ptable = none → (∃ c, (s.cpu c).proc = some p) → (s.proc p).state = RUNNING) := by
  have hi := inv h
  refine ⟨fun c c' => hi.uniq c c' p, ?_, ?_⟩
  · refine kernel_induct (I := fun s => ∀ p, (s.proc p).state = RUNNING →
      ∃ c, (s.cpu c).proc = some p) ?_ ?_ ?_ h p
    · intro p hp
      by_cases h0 : p = 0 <;> simp [boot, h0] at hp
    · intro s s' c ch op k hi hI hk hx
      exact hi.running_exec hk hx hI
    · intro s c code _ hI _ p hp
      obtain ⟨c', hc'⟩ := hI p hp
      refine ⟨c', ?_⟩
      by_cases hc : c' = c
      · subst hc
        simpa using hc'
      · simpa [hc] using hc'
  · rintro hfree ⟨c, hc⟩
    by_contra hne
    have hl := hi.ptable_of_off (c := c) (by simp [off, hc, hne])
    rw [hfree] at hl
    cases hl

theorem running_on_one_cpu_first : ∃ s, kernel.Reachable s ∧ (s.proc 0).state = RUNNING ∧
    ∀ c, (s.cpu c).proc = some 0 → c = 1 := by
  obtain ⟨s, hr, hc, hfree⟩ := Machine.reachable_of_run (M := kernel)
    (P := fun s => (s.cpu 1).proc = some 0 ∧ s.lock .ptable = none)
    boot (execs 1 5) rfl (by decide)
  obtain ⟨huniq, -, hrun⟩ := running_on_one_cpu hr 0
  exact ⟨s, hr, hrun hfree ⟨1, hc⟩, fun c h => huniq c 1 h hc⟩

/-! ## Panics -/

/-- How far the process of a processor has got with exiting. -/
inductive Life
  | runs
  /-- It is a zombie, and has still to call `sched`. -/
  | exits
  /-- It has returned from there. -/
  | over
deriving DecidableEq

/-- What each operation needs and leaves of the locks its processor holds, and of the life of
its process. -/
def panicDiscipline : Discipline Op (List Lock × Life) where
  pre := fun op m =>
    match op with
    | .acquire lk => lk ∉ m.1 ∧ m.2 = .runs
    | .release lk => lk ∈ m.1 ∧ m.2 = .runs
    | .sched => m.1 = [.ptable]
    | .panic msg => m.2 = .over ∨ msg = "init exiting"
    | .io | .allocStack _ | .forkCopy _ | .sysKilled | .trapKilled _ | .trapYield | .schedLoop =>
      m = ([], .runs)
    | .allocScan | .waitScan _ | .killScan _ | .schedScan _ => m = ([.ptable], .runs)
    | .sleepStart _ | .sleepLoop _ _ | .uptime => m = ([.tickslock], .runs)
    | _ => m.2 = .runs
  post := fun op m =>
    match op with
    | .acquire lk => (lk :: m.1, m.2)
    | .release lk => (m.1.erase lk, m.2)
    | .sched => (m.1, if m.2 = .runs then .runs else .over)
    | .exitZombie => (m.1, .exits)
    | .panic _ | .allocScan | .waitScan _ | .killScan _ | .sleepStart _ | .sleepLoop _ _
    | .uptime => ([], .runs)
    | _ => m

namespace Kernel

variable {s s' : Kernel} {c : Cpu} {ch : Choice} {op : Op} {k l : List Op} {m : List Lock × Life}

/-- What an operation calls leaves what the operation does. -/
theorem Calls.walks (h : Calls op l) (hpre : panicDiscipline.pre op m) :
    op ≠ .exitZombie ∧ panicDiscipline.Walks m l (panicDiscipline.post op m) := by
  cases h <;> cases hpre <;>
    simp [panicDiscipline, Discipline.Walks, sleep, wakeup, yield, exit]

theorem Entry.walks (h : Entry s c l) : panicDiscipline.Walks ([], .runs) l ([], .runs) := by
  cases h with
  | syscall call _ _ =>
    cases call <;> simp [panicDiscipline, Discipline.Walks, trapSyscall, Xv6.syscall, fork, exit,
      wait, waitStat, kill, sysSleep, sysUptime]
  | timer _ =>
    unfold trapTimer
    split_ifs <;> simp [panicDiscipline, Discipline.Walks, timerBranch, updateStat, wakeup]
  | intr _ _ _ => simp [panicDiscipline, Discipline.Walks, trapIntr, wakeup]
  | fault _ => simp [panicDiscipline, Discipline.Walks, trapFault]

theorem forkret_walks : panicDiscipline.Walks ([.ptable], .runs) forkret ([], .runs) := by
  simp [panicDiscipline, Discipline.Walks, forkret]

/-- The life of the process of a processor. -/
def life (s : Kernel) (c : Cpu) : Life :=
  match (s.cpu c).proc with
  | none => .runs
  | some p => if (s.proc p).state = ZOMBIE then .exits else .runs

theorem life_ne_over (s : Kernel) (c : Cpu) : s.life c ≠ .over := by
  unfold life
  split
  · nofun
  · split <;> nofun

/-- Nothing is about to panic. -/
structure Composed (s : Kernel) : Prop where
  nodup : ∀ c, (s.cpu c).held.Nodup
  held : ∀ c lk, lk ∈ (s.cpu c).held → s.lock lk = some c
  code : ∀ c, panicDiscipline.Walks ((s.cpu c).held, s.life c) (s.cpu c).code ([], .runs)
  sched : ∀ c, (s.cpu c).scheduler = [] ∨
    panicDiscipline.Walks ([.ptable], .runs) (s.cpu c).scheduler ([], .runs)
  ctx : ∀ p, s.Waiting p → panicDiscipline.Walks ([.ptable], .runs) (s.proc p).context ([], .runs)

theorem Composed.next (hc : s.Composed) (hk : (s.cpu c).code = op :: k) :
    panicDiscipline.pre op ((s.cpu c).held, s.life c) ∧
      panicDiscipline.Walks (panicDiscipline.post op ((s.cpu c).held, s.life c)) k ([], .runs) := by
  have hw := hc.code c
  rwa [hk] at hw

/-- An operation on the table panics only in `exit`, and falls through only if it has
nothing to release. -/
theorem procEffect_panic {me : Slot} {e : Effect} (h : s.procEffect me ch op k = some e) :
    (∀ msg, e.code = [.panic msg] → k = [.panic msg] ∨ msg = "init exiting") ∧
    (e.code = k → panicDiscipline.pre op m →
      panicDiscipline.post op m = (m.1, if op = .exitZombie then .exits else m.2)) := by
  unfold procEffect at h
  constructor
  · intro msg he
    grind [sleep, exit, yield]
  · rintro rfl hpre
    have hne : ∀ (x : Op) (l : List Op), x :: (l ++ e.code) ≠ e.code := fun x l he => by
      have := congrArg List.length he
      simp at this
      omega
    cases op with
    | allocScan | waitScan | killScan | sleepStart | sleepLoop | uptime =>
      exfalso
      grind [sleep]
    | acquire | release | sched | panic => cases h
    | _ => rfl

theorem effect_panic {cur : Option Slot} {e : Effect} (h : s.effect cur ch op k = some e) :
    (∀ msg, e.code = [.panic msg] → k = [.panic msg] ∨ msg = "init exiting") ∧
    (e.code = k → panicDiscipline.pre op m →
      panicDiscipline.post op m = (m.1, if op = .exitZombie then .exits else m.2)) := by
  unfold effect at h
  split at h
  · cases h; exact ⟨fun _ he => .inl he, fun _ _ => rfl⟩
  · cases h; exact ⟨fun _ he => .inl he, fun _ _ => rfl⟩
  · cases h; exact ⟨fun _ he => .inl he, fun _ _ => rfl⟩
  · cases h; exact ⟨nofun, fun _ _ => rfl⟩
  · split at h
    · exact procEffect_panic h
    · split at h <;> cases h <;> exact ⟨fun _ he => .inl he, fun _ _ => rfl⟩

/-- Only a process that is not exiting works on the table. -/
theorem runs_of_effect {cur : Option Slot} {e : Effect} (h : s.effect cur ch op k = some e)
    (hop : op ≠ .sched) (hpre : panicDiscipline.pre op m) : m.2 = .runs := by
  cases op with
  | acquire | release => exact hpre.2
  | sched => exact absurd rfl hop
  | panic => cases cur <;> cases h
  | _ => first | exact hpre | exact congrArg Prod.snd hpre

section Step

variable (h : s.exec c ch op k = some s')

include h

theorem Composed.held_exec (hc : s.Composed) (c' : Cpu) :
    (s'.cpu c').held.Nodup ∧ ∀ lk ∈ (s'.cpu c').held, s'.lock lk = some c' := by
  by_cases hcc : c' = c
  · subst hcc
    have hn := hc.nodup c'
    have hh := hc.held c'
    cases exec_cases h with
    | @acquire lk hfree =>
      have hnot : lk ∉ (s.cpu c').held := fun hm => by simp [hh lk hm] at hfree
      refine ⟨by simp [hn, hnot], fun lk' hlk' => ?_⟩
      by_cases hne : lk' = lk
      · subst hne
        simp
      · simpa [hne] using hh lk' (by simpa [hne] using hlk')
    | @release lk _ =>
      refine ⟨by simpa using hn.erase lk, fun lk' hlk' => ?_⟩
      obtain ⟨hne, hlk'⟩ := hn.mem_erase_iff.1 (by simpa using hlk')
      simpa [hne] using hh lk' hlk'
    | dispatch _ => simpa [dispatch] using ⟨hn, hh⟩
    | effect _ _ => simpa [apply] using ⟨hn, hh⟩
    | _ => simpa using ⟨hn, hh⟩
  · rw [exec_cpu_ne h hcc]
    exact ⟨hc.nodup c', fun lk hlk => (exec_lock h lk hcc).2 (hc.held c' lk hlk)⟩

/-- Whether the process of another processor is a zombie does not change: a zombie holds
the lock until it calls `sched`. -/
theorem Inv.life_ne (hi : s.Inv) (hk : (s.cpu c).code = op :: k) {c' : Cpu} (hcc : c' ≠ c) :
    s'.life c' = s.life c' := by
  unfold life
  rw [exec_cpu_ne h hcc]
  split
  · rfl
  · rename_i p hp
    refine if_congr ⟨fun hz => ?_, fun hz => ?_⟩ rfl rfl
    · obtain hz | ⟨-, hp'⟩ := zombie_exec h hz
      · exact hz
      · exact absurd (hi.uniq c' c p hp hp') hcc
    · have hl := hi.ptable_of_off (c := c') (by simp [off, hp, hz])
      obtain heq | hl' | ⟨-, he, -⟩ := hi.state_exec hk h p
      · rw [heq, hz]
      · exact absurd (some.inj (hl.symm.trans hl')) hcc
      · rw [hz] at he
        cases he

/-- The process of a processor becomes a zombie in `exit`. -/
theorem life_effect {e : Effect} (he : s.effect (s.cpu c).proc ch op k = some e)
    (hs : s' = s.apply c e) (hl : s.life c = .runs) :
    s'.life c = if op = .exitZombie then .exits else .runs := by
  subst hs
  cases hme : (s.cpu c).proc with
  | none =>
    have hop : op ≠ .exitZombie := by
      rintro rfl
      rw [hme] at he
      cases he
    simp [life, apply, hme, hop]
  | some p =>
    have hz : (s.proc p).state ≠ ZOMBIE := by
      intro hz
      simp [life, hme, hz] at hl
    simp only [life, show ((s.apply c e).cpu c).proc = some p by simpa [apply] using hme]
    refine if_congr ⟨fun hz' => ?_, ?_⟩ rfl rfl
    · exact ((zombie_exec h hz').resolve_left hz).1
    · rintro rfl
      rw [hme] at he
      cases he
      simp [apply]

/-- The checks of `acquire`, `release` and `sched` are passed. -/
theorem Composed.not_panic (hc : s.Composed) (hi : s.Inv) (hk : (s.cpu c).code = op :: k)
    (hop : (∃ lk, op = .acquire lk) ∨ (∃ lk, op = .release lk) ∨ op = .sched) {msg : String} :
    s' ≠ s.goto c [.panic msg] := by
  rintro rfl
  obtain ⟨hpre, -⟩ := hc.next hk
  obtain ⟨lk, rfl⟩ | ⟨lk, rfl⟩ | rfl := hop
  · simp only [exec, acquireLock] at h
    split at h
    next hfree => simpa [hfree] using congrArg (fun s => s.lock lk) (some.inj h)
    next hl =>
      split_ifs at h with hme
      exact hpre.1 (hi.held c lk (hme ▸ hl))
  · have hmine := hc.held c lk hpre.1
    simp only [exec, releaseLock, if_pos hmine, some.injEq] at h
    simpa [hmine] using congrArg (fun s => s.lock lk) h
  · have hheld : (s.cpu c).held = [.ptable] := hpre
    have hpt := hc.held c .ptable (by simp [hheld])
    obtain ⟨emb, -, hmode, -⟩ := hi.next hk
    have hoff : s.off c = true := hmode.2.2.1
    cases hme : (s.cpu c).proc with
    | none => simp [exec, hme] at h
    | some me =>
      have hrun : (s.proc me).state ≠ RUNNING := by simpa [off, hme] using hoff
      simp only [exec, hme, schedSwitch, hpt, hheld, hrun, ne_eq, not_true, if_false,
        List.length_singleton, some.injEq] at h
      simpa [hme] using congrArg (fun s => (s.cpu c).proc) h

theorem Composed.exec_self (hc : s.Composed) (hi : s.Inv) (hk : (s.cpu c).code = op :: k) :
    panicDiscipline.Walks ((s'.cpu c).held, s'.life c) (s'.cpu c).code ([], .runs) := by
  obtain ⟨hpre, hw⟩ := hc.next hk
  cases exec_cases h with
  | panic msg hop => exact absurd rfl (hc.not_panic h hi hk hop)
  | acquire _ | release _ | ticksInc | scanned => simpa [life] using! hw
  | switch hme hpt =>
    have hheld : (s.cpu c).held = [.ptable] := hpre
    have hsched := (hc.sched c).resolve_left fun h0 => by
      have := hi.sched c (by simp [hme])
      rw [h0] at this
      cases this
    simpa [life, hheld] using hsched
  | @dispatch i p hp =>
    have hheld : (s.cpu c).held = [.ptable] := congrArg Prod.fst hpre
    simpa [life, dispatch, hheld] using hc.ctx p (hi.pick_waiting hk hp)
  | @effect _ e hop he =>
    have hruns : s.life c = .runs := runs_of_effect he hop.2.1 hpre
    obtain ⟨hpanic, hpost⟩ := effect_panic (m := ((s.cpu c).held, s.life c)) he
    have hcode : ((s.apply c e).cpu c).code = e.code := by simp [apply]
    have hheld : ((s.apply c e).cpu c).held = (s.cpu c).held := by simp [apply]
    rw [hheld, life_effect h he rfl hruns]
    by_cases hek : e.code = k
    · rw [hpost hek hpre, hruns] at hw
      rwa [hcode, hek]
    rcases exec_code h with h' | ⟨msg, h'⟩ | ⟨l, hl, h'⟩ | ⟨rfl, -, -⟩ | ⟨i, p, rfl, -, -⟩
    · exact absurd (hcode.symm.trans h') hek
    · obtain rfl | rfl := hpanic msg (hcode.symm.trans h')
      · exact absurd (hcode.symm.trans h') hek
      · rw [h']
        exact ⟨.inr rfl, rfl⟩
    · obtain ⟨hne, hl⟩ := hl.walks hpre
      have hall := hl.append hw
      rw [hruns] at hall
      rwa [h', if_neg hne]
    · exact absurd rfl hop.2.1
    · exact absurd rfl (hop.2.2 i)

theorem Composed.exec (hc : s.Composed) (hi : s.Inv) (hk : (s.cpu c).code = op :: k) :
    s'.Composed where
  nodup c' := (hc.held_exec h c').1
  held c' := (hc.held_exec h c').2
  code c' := by
    by_cases hcc : c' = c
    · subst hcc
      exact hc.exec_self h hi hk
    · rw [hi.life_ne h hk hcc, exec_cpu_ne h hcc]
      exact hc.code c'
  sched := by
    refine exec_scheduler_forall
      (P := fun l => l = [] ∨ panicDiscipline.Walks ([.ptable], .runs) l ([], .runs)) hc.sched ?_ h
    rintro i p rfl
    obtain ⟨hpre, hw⟩ := hc.next hk
    rw [show ((s.cpu c).held, s.life c) = ([.ptable], .runs) from hpre] at hw
    exact .inr ⟨rfl, hw⟩
  ctx p hp := by
    obtain ⟨hw, hctx⟩ | ⟨-, hctx⟩ | ⟨rfl, hme, hctx⟩ := hi.waiting_exec hk h hp
    · rw [hctx]
      exact hc.ctx p hw
    · rw [hctx]
      exact forkret_walks
    · -- the process is not a zombie, since it waits to run
      have hz : (s.proc p).state ≠ ZOMBIE := by
        intro hz
        have hch := exec_change h p
        have hst := hp.1
        rw [← Proc.core_state (s'.proc p)] at hst
        generalize (s'.proc p).core = q' at hch hst
        cases hch with
        | none | switch _ => simp [hz] at hst
        | wake hop _ => simp at hop
      obtain ⟨hpre, hw⟩ := hc.next hk
      have hheld : (s.cpu c).held = [.ptable] := hpre
      simpa [hctx, life, hme, hz, hheld, panicDiscipline] using hw

end Step

theorem cpu_goto (s : Kernel) (c c' : Cpu) (code : List Op) : (s.goto c code).cpu c' =
    { s.cpu c' with code := if c' = c then code else (s.cpu c').code } := by
  by_cases h : c' = c
  · subst h
    simp
  · simp [h]

/-- A processor that enters the kernel holds nothing. -/
theorem Composed.at_rest (hc : s.Composed) (hi : s.Inv) (he : Entry s c l) :
    ((s.cpu c).held, s.life c) = ([], .runs) := by
  have hw := hc.code c
  have free : s.interruptible c = true → ((s.cpu c).held, s.life c) = ([], .runs) := by
    intro hint
    have hoff : s.off c = false := (hi.mode_interruptible hint none).2.2
    simp only [interruptible, Bool.and_eq_true, List.isEmpty_iff] at hint
    rw [hint.1.1]
    cases hme : (s.cpu c).proc with
    | none => simp [life, hme]
    | some p =>
      have hrun : (s.proc p).state = RUNNING := (off_eq_false hme).1 hoff
      simp [life, hme, hrun]
  cases he with
  | syscall _ _ hu =>
    rw [hu] at hw
    exact hw
  | timer hint => exact free hint
  | intr _ _ hint => exact free hint
  | fault hu =>
    simp only [inUser, Bool.and_eq_true, List.isEmpty_iff] at hu
    rw [hu.2] at hw
    exact hw

theorem Composed.entry (hc : s.Composed) (hi : s.Inv) (he : Entry s c l) :
    (s.goto c (l ++ (s.cpu c).code)).Composed where
  nodup c' := by
    rw [cpu_goto]
    exact hc.nodup c'
  held c' := by
    rw [cpu_goto]
    exact hc.held c'
  code c' := by
    have hlife : (s.goto c (l ++ (s.cpu c).code)).life c' = s.life c' := by
      unfold life
      rw [cpu_goto]
      rfl
    rw [hlife, cpu_goto]
    split_ifs with hcc
    · subst hcc
      have hw := hc.code c'
      rw [hc.at_rest hi he] at hw ⊢
      exact he.walks.append hw
    · exact hc.code c'
  sched c' := by
    rw [scheduler_goto]
    exact hc.sched c'
  ctx p hp := by
    refine hc.ctx p ⟨hp.1, fun c' hp' => hp.2 c' ?_⟩
    rw [cpu_goto]
    exact hp'

theorem composed_boot : boot.Composed where
  nodup c := by simp [boot]
  held c := by simp [boot]
  code c := ⟨rfl, rfl⟩
  sched c := .inl rfl
  ctx p hp := by
    rcases boot_context p with h | ⟨-, h⟩
    · rw [h]
      exact forkret_walks
    · obtain ⟨h' | h', -⟩ := hp <;> (rw [h] at h'; cases h')

end Kernel

/-- **Only `initproc` panics.**  In every reachable state a processor that has panicked has
done so because the first process has exited: no lock is acquired twice or released by a
processor that does not hold it, `sched` is called as it should be, and no zombie runs
again. -/
theorem only_init_panics {s : Kernel} (h : kernel.Reachable s) {c : Cpu} {msg : String}
    {k : List Op} (hk : (s.cpu c).code = .panic msg :: k) : msg = "init exiting" := by
  have hc : s.Composed := by
    refine kernel_induct composed_boot ?_ ?_ h
    · intro s s' c ch op k hi hc hk h
      exact hc.exec h hi hk
    · intro s c code hi hc he
      exact hc.entry hi he
  exact (hc.next hk).1.resolve_left (s.life_ne_over c)

theorem only_init_panics_exit : ∃ s, kernel.Reachable s ∧ ∃ msg k,
    (s.cpu 1).code = .panic msg :: k ∧ msg = "init exiting" := by
  obtain ⟨s, hr, hk⟩ := Machine.reachable_of_run (M := kernel)
    (P := fun s => ∃ msg ∈ ["init exiting", "zombie exit"], (s.cpu 1).code = [.panic msg])
    boot (execs 1 5 ++ [.syscall 1 .exit] ++ execs 1 2) rfl (by decide)
  obtain ⟨msg, -, hk⟩ := hk
  exact ⟨s, hr, msg, [], hk, only_init_panics hr hk⟩

end Xv6
