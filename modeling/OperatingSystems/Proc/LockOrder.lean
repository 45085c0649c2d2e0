import OperatingSystems.Proc.Sequence

/-!
# The order in which two locks are taken

The clock interrupt and `sys_sleep` take `tickslock` first and `ptable.lock`
inside it.  `exit` and `kill` take `ptable.lock` first and `tickslock` inside
it.  When one processor is on the way down and another on the way up, each ends
up spinning for the lock the other holds.

* `circular_wait_reachable`: a run of two processors that ends like that.
* `no_circular_wait`: it takes an overlap of the two ways.  In a run in which no
  processor starts on one of them while another processor is on the other, no
  circular wait is ever reached.
-/

namespace Xv6

open ProcState Kernel Option

namespace Kernel

variable {s s' : Kernel} {c : Cpu} {ch : Choice} {op : Op} {k : List Op} {code : List Op}

/-- One processor holds `ptable.lock` and spins for `tickslock`, another holds
`tickslock` and spins for `ptable.lock`. -/
def CircularWait (s : Kernel) : Prop :=
  ∃ a b, s.lock .ptable = some a ∧ (s.cpu a).code.head? = some (.acquire .tickslock) ∧
    s.lock .tickslock = some b ∧ (s.cpu b).code.head? = some (.acquire .ptable) ∧ a ≠ b

/-- A processor that holds `ptable.lock` and is about to execute `op` takes
`tickslock` before it gives `ptable.lock` back: it is in `exit`, or in a `kill`
that finds its process. -/
def descends (s : Kernel) : Op → Bool
  | .exitPass => true
  | .killScan pid => (s.proc.firstPid pid).isSome
  | .acquire .tickslock => true
  | _ => false

/-- A processor that holds `tickslock` and is about to execute `op` may take
`ptable.lock` before it gives `tickslock` back: it is in the clock interrupt, or
in `sys_sleep`. -/
def climbs : Op → Bool
  | .ticksInc | .acquire .ptable | .sleepStart _ | .sleepLoop _ _ => true
  | _ => false

/-- Processor `c` has `ptable.lock` and is going to take `tickslock`. -/
def Descending (s : Kernel) (c : Cpu) : Prop :=
  s.lock .ptable = some c ∧ (s.cpu c).code.head?.any s.descends = true

/-- Processor `c` has `tickslock` and may be going to take `ptable.lock`. -/
def Climbing (s : Kernel) (c : Cpu) : Prop :=
  s.lock .tickslock = some c ∧ (s.cpu c).code.head?.any climbs = true

/-- The event does not start one of the two ways while another processor is on
the other: `exit` and a successful `kill` take `ptable.lock` only when no other
processor is climbing, and the clock interrupt and `sys_sleep` take `tickslock`
only when no other processor is descending. -/
def apart (s : Kernel) : Event → Prop
  | .run c _ =>
    ((s.cpu c).code.head? = some (.acquire .ptable) → (s.cpu c).code[1]?.any s.descends = true →
      ∀ b, b ≠ c → ¬ s.Climbing b) ∧
    ((s.cpu c).code.head? = some (.acquire .tickslock) → (s.cpu c).code[1]?.any climbs = true →
      ∀ a, a ≠ c → ¬ s.Descending a)
  | _ => True

instance (s : Kernel) : Decidable s.CircularWait := inferInstanceAs (Decidable (∃ _ _, _))

instance (s : Kernel) (c : Cpu) : Decidable (s.Descending c) :=
  inferInstanceAs (Decidable (_ ∧ _))

instance (s : Kernel) (c : Cpu) : Decidable (s.Climbing c) :=
  inferInstanceAs (Decidable (_ ∧ _))

instance (s : Kernel) : DecidablePred s.apart
  | .run _ _ => inferInstanceAs (Decidable (_ ∧ _))
  | .syscall _ _ | .timer _ | .intr _ _ _ | .fault _ => inferInstanceAs (Decidable True)

/-! ## Locks and process IDs while another processor executes -/

theorem exec_lock_self (h : s.exec c ch op k = some s') {lk : Lock} (hlk : s'.lock lk = some c) :
    s.lock lk = some c ∨ (op = .acquire lk ∧ s.lock lk = none ∧ s'.proc = s.proc ∧
      (s'.cpu c).code = k) := by
  cases exec_cases h with
  | @acquire lk' hfree =>
    by_cases hne : lk = lk'
    · subst hne
      exact .inr ⟨rfl, hfree, rfl, by simp⟩
    · exact .inl (by simpa [hne] using hlk)
  | @release lk' _ =>
    by_cases hne : lk = lk'
    · subst hne; simp at hlk
    · exact .inl (by simpa [hne] using hlk)
  | _ => exact .inl hlk

/-- Process IDs change under `ptable.lock` only. -/
theorem Inv.pid_exec (hi : s.Inv) (hk : (s.cpu c).code = op :: k)
    (h : s.exec c ch op k = some s') (hpt : s.lock .ptable ≠ some c) (p : Slot) :
    (s'.proc p).pid = (s.proc p).pid := by
  obtain ⟨emb, -, hpre, -⟩ := hi.next hk
  have no : s.mode c emb ≠ .resumed none true :=
    fun hm => hpt (mode_pt emb (by rw [hm]; rfl))
  have hch := exec_change h p
  rw [← Proc.core_pid (s'.proc p)]
  generalize (s'.proc p).core = q' at hch
  cases hch with
  | tick => rw [Proc.core_pid, Table.tick_pid]
  | alloc _ | reap _ | reapStat _ => exact absurd hpre no
  | _ => rfl

theorem firstPid_congr {t t' : Table} (h : ∀ p, (t' p).pid = (t p).pid) (pid : Int32) :
    t'.firstPid pid = t.firstPid pid := by
  unfold Table.firstPid
  simp only [h]

theorem descends_congr (h : ∀ p, (s'.proc p).pid = (s.proc p).pid) : s'.descends = s.descends := by
  funext op
  cases op with
  | killScan pid => simp only [descends, firstPid_congr h pid]
  | acquire lk => cases lk <;> rfl
  | _ => rfl

/-! ## Starting on one of the ways -/

theorem any_head {f : Op → Bool} : code.head?.any f = true ↔ ∃ y, y ∈ code.head? ∧ f y = true := by
  cases code <;> simp

theorem cons_of_head {y : Op} (h : y ∈ code.head?) : ∃ k, code = y :: k := by
  cases code with
  | nil => cases h
  | cons x k => cases h; exact ⟨k, rfl⟩

theorem Inv.climbing_exec (hi : s.Inv) (ho : s.Ordered) (hk : (s.cpu c).code = op :: k)
    (h : s.exec c ch op k = some s') (hpt : s.lock .ptable ≠ some c) (hcl : s'.Climbing c) :
    s.Climbing c ∨ ∃ y k', op = .acquire .tickslock ∧ k = y :: k' ∧ climbs y = true := by
  obtain ⟨hlk, hany⟩ := hcl
  obtain ⟨y, hy, hclimb⟩ := any_head.1 hany
  rcases exec_lock_self h hlk with hlk₀ | ⟨rfl, -, -, hcode⟩
  · by_cases hop : climbs op = true
    · exact .inl ⟨hlk₀, by rw [hk]; simpa using hop⟩
    · exfalso
      obtain ⟨emb, -, hpre, -⟩ := hi.next hk
      have htk : (s.mode c emb).tk = true := by simp [mode, hlk₀]
      have hpt' : (s.mode c emb).pt = false := by simp [mode, hpt]
      -- nothing else that can be executed under `tickslock` alone leads there
      have notk : (s.mode c emb).tk ≠ false := by simp [htk]
      have nopt : (s.mode c emb).pt ≠ true := by simp [hpt']
      have norest : ∀ {b}, s.mode c emb ≠ .rest b := fun hm => notk (by rw [hm]; rfl)
      have noemb : ∀ {e b}, s.mode c emb ≠ ⟨e, false, false, false, b⟩ :=
        fun hm => notk (by rw [hm])
      rcases ho.head_exec hk h hy with hf | hcall | ⟨⟨i, rfl⟩, -⟩
      · have hacq : op ≠ .acquire .tickslock := by rintro rfl; exact notk hpre.1
        cases y with
        | ticksInc | sleepStart n | sleepLoop n t => exact hacq (by simpa [Op.follows] using hf)
        | acquire lk =>
          cases lk with
          | ptable =>
            simp only [Op.follows] at hf
            split at hf
            · exact norest hpre
            · exact hop rfl
            · exact nopt hpre.1
            · exact norest hpre
            · exact notk hpre.1
            · cases hcur : (s.cpu c).proc <;> simp [Kernel.exec, effect, procEffect, hcur] at h
            · exact notk hpre.2.1
            · cases hf
          | _ => cases hclimb
        | _ => cases hclimb
      · unfold Op.calls at hcall
        split at hcall
        · cases hclimb
        · cases hclimb
        · exact noemb hpre
        · exact hop rfl
        · exact notk hpre.2.1
        · exact norest hpre
        · exact hop rfl
        · cases hcall
      · exact notk (congrArg Mode.tk (show s.mode c emb = .resumed none false from hpre))
  · rw [hcode] at hy
    obtain ⟨k', rfl⟩ := cons_of_head hy
    exact .inr ⟨y, k', rfl, rfl, hclimb⟩

theorem Inv.descending_exec (hi : s.Inv) (ho : s.Ordered) (hk : (s.cpu c).code = op :: k)
    (h : s.exec c ch op k = some s') (hd : s'.Descending c) :
    s.Descending c ∨ ∃ y k', op = .acquire .ptable ∧ k = y :: k' ∧ s.descends y = true := by
  obtain ⟨hlk, hany⟩ := hd
  obtain ⟨y, hy, hdesc⟩ := any_head.1 hany
  rcases exec_lock_self h hlk with hlk₀ | ⟨rfl, -, hproc, hcode⟩
  · by_cases hop : s.descends op = true
    · exact .inl ⟨hlk₀, by rw [hk]; simpa using hop⟩
    · exfalso
      obtain ⟨emb, -, hpre, -⟩ := hi.next hk
      have hpt : (s.mode c emb).pt = true := by simp [mode, hlk₀]
      have nopt : (s.mode c emb).pt ≠ false := by simp [hpt]
      have norest : ∀ {b}, s.mode c emb ≠ .rest b := fun hm => nopt (by rw [hm]; rfl)
      have noemb : ∀ {e b}, s.mode c emb ≠ ⟨e, false, false, false, b⟩ :=
        fun hm => nopt (by rw [hm])
      have hacq : op ≠ .acquire .ptable := by rintro rfl; exact nopt hpre.1
      rcases ho.head_exec hk h hy with hf | hcall | ⟨⟨i, rfl⟩, hf⟩
      · cases y with
        | exitPass | killScan pid => exact hacq (by simpa [Op.follows] using hf)
        | acquire lk =>
          cases lk with
          | tickslock =>
            simp only [Op.follows] at hf
            split at hf
            · exact hop rfl
            · -- the lock was given back
              simp only [Kernel.exec, some.injEq] at h
              subst h
              simp [releaseLock, hlk₀] at hlk
            · exact norest hpre
            · cases hcur : (s.cpu c).proc <;> simp [Kernel.exec, effect, procEffect, hcur] at h
            · exact nopt hpre.1
            · cases hf
          | _ => cases hdesc
        | _ => cases hdesc
      · unfold Op.calls at hcall
        split at hcall
        · exact noemb hpre
        · -- `kill` calls for `tickslock` when it has found its process
          rename_i pid
          cases hcur : (s.cpu c).proc with
          | none => simp [Kernel.exec, effect, hcur] at h
          | some me =>
            cases hf : s.proc.firstPid pid with
            | some p => exact hop (by simp [descends, hf])
            | none =>
              simp only [Kernel.exec, effect, hcur, procEffect, hf, map_some, some.injEq] at h
              subst h
              simp [apply] at hy
        · cases hdesc
        · cases hdesc
        · cases hdesc
        · cases hdesc
        · cases hdesc
        · cases hcall
      · cases y with
        | acquire lk =>
          cases lk with
          | tickslock => cases hf
          | _ => cases hdesc
        | exitPass | killScan pid => cases hf
        | _ => cases hdesc
  · rw [hcode] at hy
    obtain ⟨k', rfl⟩ := cons_of_head hy
    refine .inr ⟨y, k', rfl, rfl, ?_⟩
    have hpid : ∀ p, (s'.proc p).pid = (s.proc p).pid := fun p => by rw [hproc]
    rw [← descends_congr hpid]
    exact hdesc

/-- The two ways do not overlap. -/
def Apart (s : Kernel) : Prop := ∀ a b, a ≠ b → s.Descending a → ¬ s.Climbing b

/-- An operation that starts neither way while the other is taken keeps the ways
apart. -/
theorem Inv.apart_exec (hi : s.Inv) (ho : s.Ordered) (hk : (s.cpu c).code = op :: k)
    (h : s.exec c ch op k = some s') (hok : s.apart (.run c ch)) (ha : s.Apart) : s'.Apart := by
  intro a b hab hd hcl
  -- what the other processors do is the same as before
  have climbing : b ≠ c → s.Climbing b := by
    intro hb
    rw [Climbing, exec_cpu_ne h hb] at hcl
    exact ⟨(exec_lock h _ hb).1 hcl.1, hcl.2⟩
  have descending : a ≠ c → s.Descending a := by
    intro hac
    have hpt : s.lock .ptable = some a := (exec_lock h _ hac).1 hd.1
    have hne : s.lock .ptable ≠ some c := fun hc => hac (some.inj (hpt.symm.trans hc))
    rw [Descending, exec_cpu_ne h hac, descends_congr (hi.pid_exec hk h hne)] at hd
    exact ⟨hpt, hd.2⟩
  by_cases hac : a = c
  · subst hac
    have hb := climbing hab.symm
    rcases hi.descending_exec ho hk h hd with hd₀ | ⟨y, k', rfl, rfl, hy⟩
    · exact ha a b hab hd₀ hb
    · simp only [apart, hk] at hok
      exact hok.1 rfl hy b hab.symm hb
  · have hd₀ := descending hac
    by_cases hbc : b = c
    · subst hbc
      have hpt : s.lock .ptable ≠ some b := fun hc => hab (some.inj (hd₀.1.symm.trans hc))
      rcases hi.climbing_exec ho hk h hpt hcl with hcl₀ | ⟨y, k', rfl, rfl, hy⟩
      · exact ha a b hab hd₀ hcl₀
      · simp only [apart, hk] at hok
        exact hok.2 rfl hy a hab hd₀
    · exact ha a b hab hd₀ (climbing hbc)

theorem Inv.entry_free (hi : s.Inv) (he : Entry s c code) :
    s.lock .ptable ≠ some c ∧ s.lock .tickslock ≠ some c := by
  obtain ⟨emb, hw⟩ := hi.typed c
  suffices hm : (s.mode c emb).pt = false ∧ (s.mode c emb).tk = false by
    simpa [mode] using hm
  have user : s.inUser c = true → (s.mode c emb).pt = false ∧ (s.mode c emb).tk = false := by
    intro hu
    rw [Inv.mode_user hu hw]
    exact ⟨rfl, rfl⟩
  cases he with
  | syscall call hme hu => exact user (by simp [inUser, hme, hu])
  | timer hint | intr lk chan hint =>
    obtain ⟨hpt, htk, -⟩ := hi.mode_interruptible hint emb
    exact ⟨hpt, htk⟩
  | fault hu => exact user hu

theorem Inv.apart_entry (hi : s.Inv) (he : Entry s c code) (ha : s.Apart) :
    (s.goto c (code ++ (s.cpu c).code)).Apart := by
  intro a b hab hd hcl
  obtain ⟨hpt, htk⟩ := hi.entry_free he
  have hac : a ≠ c := by rintro rfl; exact hpt hd.1
  have hbc : b ≠ c := by rintro rfl; exact htk hcl.1
  refine ha a b hab ⟨hd.1, ?_⟩ ⟨hcl.1, ?_⟩
  · rw [Descending, descends_congr (s := s) (by simp)] at hd
    simpa [hac] using hd.2
  · simpa [hbc] using hcl.2

end Kernel

/-- **No circular wait without overlap.**  In a run in which no processor starts
to take the two locks in one order while another processor is taking them in
the other, no circular wait is reached. -/
theorem no_circular_wait {s : Kernel} (h : kernel.ReachableBy apart s) : ¬ s.CircularWait := by
  have ha : s.Apart := by
    refine h.induct ?_ ?_
    · rintro s rfl a b - hd
      exact absurd hd.1 (by simp [boot])
    · intro s e s' hr ha hok hs
      have hi := inv hr.reachable
      rcases step_cases hs with ⟨c, ch, op, k, rfl, hk, h⟩ | ⟨c, code, -, he, rfl⟩
      · exact hi.apart_exec (sequence hr.reachable) hk h hok ha
      · exact hi.apart_entry he ha
  rintro ⟨a, b, hpt, hacq, htk, hacq', hab⟩
  exact ha a b hab ⟨hpt, by rw [hacq]; rfl⟩ ⟨htk, by rw [hacq']; rfl⟩

/-- Processor 1 kills its own process, and a clock interrupt comes to processor 0
while it has only `ptable.lock`. -/
def killDuringTick : List Kernel.Event :=
  execs 1 5 ++ [.syscall 1 (.kill 1)] ++ execs 1 3 ++ [.timer 0] ++ execs 0 2

theorem no_circular_wait_kill :
    ∃ s, kernel.ReachableBy apart s ∧ s.Descending 1 ∧ ¬ s.CircularWait := by
  obtain ⟨s, hs, hd⟩ := Machine.reachableBy_of_runBy (M := kernel) (P := fun s => s.Descending 1)
    apart boot (execs 1 5 ++ [.syscall 1 (.kill 1)] ++ execs 1 3) rfl
    (by decide)
  exact ⟨s, hs, hd, no_circular_wait hs⟩

/-- **The two processors wait for each other.** -/
theorem circular_wait_reachable : ∃ s, kernel.Reachable s ∧ s.CircularWait :=
  Machine.reachable_of_run boot killDuringTick rfl (by decide)

end Xv6
