import OperatingSystems.Proc.Tally

/-!
# Where the time of a process goes

Every tick of the clock `update_stat` charges each process with a tick of
running, of waiting to run, or of sleeping.  What it does not charge is a
process that `fork` has not finished yet, although the creation time may have
been sampled already.

The ledger of a run records, for each slot, the ticks that were not charged to
the process in it, and the turnaround time it had when it became a zombie.

* `books`: in every reachable state the ticks charged and the ticks not charged
  add up to the time since the creation.
* `turnaround_iff`: the counters of a process that exits, and what `wait_stat`
  reports of it, add up to its turnaround time exactly if no tick was left out.
* `turnaround_fails`: a run in which one is.
-/

namespace Xv6

open ProcState Kernel Option

/-- The ticks charged to a process. -/
def Proc.charged (q : Proc) : UInt32 := q.rutime + q.retime + q.stime

/-- What a run has done to the processes in the slots. -/
structure Ledger where
  /-- The ticks since the creation time was sampled that were not charged. -/
  lost : Slot → UInt32
  /-- The turnaround time at the moment of exit. -/
  turnaround : Slot → UInt32

namespace Ledger

/-- Nothing has happened yet. -/
def blank : Ledger := ⟨fun _ => 0, fun _ => 0⟩

/-- Enter the execution of `op` for the process in slot `me`. -/
def note (s : Kernel) (me : Option Slot) (op : Op) (g : Ledger) : Ledger :=
  match op with
  | .allocCtime p => { g with lost := Function.update g.lost p 0 }
  | .updateStat =>
    { g with lost := fun p => if (s.proc p).state = EMBRYO then g.lost p + 1 else g.lost p }
  | .exitZombie =>
    match me with
    | some p =>
      let time := (s.proc p).ttime - (s.proc p).ctime
      { g with turnaround := Function.update g.turnaround p time }
    | none => g
  | _ => g

/-- Enter an event. -/
def record (s : Kernel) (e : Kernel.Event) (g : Ledger) : Ledger :=
  match e with
  | .run c _ =>
    match (s.cpu c).code with
    | op :: _ => g.note s (s.cpu c).proc op
    | [] => g
  | _ => g

end Ledger

/-- The kernel with its ledger. -/
def ledgerKernel : Machine (Kernel × Ledger) Kernel.Event := kernel.ghost .blank Ledger.record

variable {p : Slot}

namespace Kernel

variable {s s' : Kernel} {c : Cpu} {ch : Choice} {op : Op} {k : List Op} {g : Ledger}

/-- A process that takes part in the scheduling. -/
def Alive (s : Kernel) (p : Slot) : Prop :=
  (s.proc p).state = RUNNABLE ∨ (s.proc p).state = SLEEPING ∨ (s.proc p).state = RUNNING

/-- The invariant of the accounts. -/
structure Books (s : Kernel) (g : Ledger) : Prop where
  /-- Every tick since the creation is charged or lost. -/
  alive : ∀ p, s.Alive p → (s.proc p).charged + g.lost p + (s.proc p).ctime = s.clock
  /-- While `fork` fills in a slot, every tick is lost. -/
  filling : ∀ i code p, s.Stack i code → embOf code = some p →
    phaseOf code = .stack ∨ phaseOf code = .ctime ∨
      (g.lost p + (s.proc p).ctime = s.clock ∧ (phaseOf code = .zero ∨ (s.proc p).charged = 0))
  /-- The termination time is that of the last tick charged. -/
  ended : ∀ c p, (s.cpu c).proc = some p → (s.tally c).phase = .ended →
    (s.proc p).ttime = s.clock
  /-- What was charged and what was lost make up the turnaround time. -/
  zombie : ∀ p, (s.proc p).state = ZOMBIE → (s.proc p).charged + g.lost p = g.turnaround p

/-! ## One operation -/

theorem charged_tick {q : Proc} (h : q.state = RUNNABLE ∨ q.state = SLEEPING ∨ q.state = RUNNING) :
    (Table.tick q).charged = q.charged + 1 := by
  rcases h with h | h | h <;> simp [Table.tick, Proc.charged, h] <;> grind

theorem tick_of_not_alive {q : Proc}
    (h : ¬ (q.state = RUNNABLE ∨ q.state = SLEEPING ∨ q.state = RUNNING)) : Table.tick q = q := by
  simp only [not_or] at h
  simp [Table.tick, h.1, h.2.1, h.2.2]

theorem exec_updateStat (h : s.exec c ch .updateStat k = some s') :
    s'.proc = s.proc.updateStat := by
  simp only [exec, effect, map_some, some.injEq] at h
  rw [← h]
  rfl

/-- Apart from the tick and from `allocproc`, an operation leaves the account of
a process alone until the slot is given up. -/
theorem exec_account (h : s.exec c ch op k = some s') (h1 : op ≠ .updateStat)
    (h2 : op ≠ .allocCtime p) (h3 : op ≠ .allocZero p) :
    (s'.proc p).state = UNUSED ∨
      ((s'.proc p).charged = (s.proc p).charged ∧ (s'.proc p).ctime = (s.proc p).ctime) := by
  have hch := exec_change h p
  have hcharged : ∀ q : Proc, q.charged = q.core.rutime + q.core.retime + q.core.stime :=
    fun _ => rfl
  rw [hcharged (s'.proc p), ← Proc.core_state (s'.proc p), ← Proc.core_ctime (s'.proc p)]
  generalize (s'.proc p).core = q' at hch
  cases hch with
  | tick => exact absurd rfl h1
  | ctime => exact absurd rfl h2
  | zero => exact absurd rfl h3
  | reap _ | reapStat _ => exact .inl rfl
  | _ => exact .inr ⟨rfl, rfl⟩

theorem note_lost {me : Option Slot} (h1 : op ≠ .updateStat)
    (h2 : op ≠ .allocCtime p) : (g.note s me op).lost p = g.lost p := by
  cases op with
  | allocCtime q =>
    have hq : p ≠ q := by rintro rfl; exact h2 rfl
    simp [Ledger.note, hq]
  | updateStat => exact absurd rfl h1
  | exitZombie => cases me <;> rfl
  | _ => rfl

theorem note_turnaround {me : Option Slot} (h : ¬ (op = .exitZombie ∧ me = some p)) :
    (g.note s me op).turnaround p = g.turnaround p := by
  cases op with
  | exitZombie =>
    cases me with
    | none => rfl
    | some q =>
      have hq : p ≠ q := by rintro rfl; exact h ⟨rfl, rfl⟩
      simp [Ledger.note, hq]
  | _ => rfl

theorem Alive.not (ha : s.Alive p) :
    (s.proc p).state ≠ EMBRYO ∧ (s.proc p).state ≠ UNUSED ∧ (s.proc p).state ≠ ZOMBIE := by
  rcases ha with h | h | h <;> rw [h] <;> simp

/-- A process takes part in the scheduling since `fork` made it runnable. -/
theorem Inv.alive_exec (hi : s.Inv) (hk : (s.cpu c).code = op :: k)
    (h : s.exec c ch op k = some s') (ha : s'.Alive p) :
    s.Alive p ∨ op = .forkRun p := by
  obtain ⟨emb, -, hpre, -⟩ := hi.next hk
  have hch := exec_change h p
  unfold Alive at ha
  rw [← Proc.core_state (s'.proc p)] at ha
  generalize (s'.proc p).core = q' at hch ha
  cases hch with
  | none | allocStack | ctime | zero | ttime _ | kill _ | killTtime | fault _ | switch _ =>
    exact .inl ha
  | wake _ hs => exact .inl (.inr (.inl hs))
  | tick => exact .inl (by simpa [Alive] using ha)
  | alloc _ | allocFail _ | forkFail _ | zombie _ => simp at ha
  | forkRun => exact .inr rfl
  | sleep hp | yield hp => exact .inl (.inr (.inr ((off_eq_false hp).1 hpre.2.2.1)))
  | reap _ => simp [Table.reap] at ha
  | reapStat _ => simp [Table.reapStat] at ha
  | dispatch hp => exact .inl (.inl (Table.pick_state hp))

theorem Inv.filling_stack (hi : s.Inv) (hk : (s.cpu c).code = op :: k)
    (h : s.exec c ch op k = some s') {i p : Slot} (hop : op = .allocStack p)
    (hci : (s.cpu c).proc = some i) (hemb : embOf (s'.cpu c).code = some p) :
    phaseOf (s'.cpu c).code = .ctime := by
  subst hop
  have hr : ¬ releases p ch (.allocStack p) := by
    intro hr
    rw [hi.embOf_releases hk h hr] at hemb
    cases hemb
  simp only [Kernel.exec, effect, hci, procEffect] at h
  split at h
  · exact absurd (.inl ⟨rfl, rfl⟩) hr
  · cases h
    simp only [apply, goto_cpu, Function.update_self]
    rfl
  · cases h

theorem Tallied.filling_ctime (ht : s.Tallied) (hi : s.Inv) (hk : (s.cpu c).code = op :: k)
    (h : s.exec c ch op k = some s') {i p : Slot} (hop : op = .allocCtime p)
    (hci : (s.cpu c).proc = some i) :
    (g.note s (s.cpu c).proc op).lost p + (s'.proc p).ctime = s'.clock := by
  rw [ht.clock_exec hi hk h]
  subst hop
  obtain ⟨emb, -, hpre', -⟩ := hi.next hk
  have hm : s.mode c emb = ⟨some p, false, true, false, true⟩ := hpre'
  have htk := mode_tk emb (by rw [hm])
  have hdue : (s.tally c).due = false :=
    congrArg Tally.due (show s.tally c = _ from (ht.next hk).1)
  rw [if_neg (by simp), hi.clock_eq_ticks htk hdue]
  simp only [Kernel.exec, effect, hci, procEffect, map_some, some.injEq] at h
  subst h
  simp [apply, Ledger.note]

section Step

variable (hb : s.Books g) (hi : s.Inv) (ht : s.Tallied) (hk : (s.cpu c).code = op :: k)
  (h : s.exec c ch op k = some s')
include hb hi ht hk h

theorem Books.alive_exec (p : Slot) (ha : s'.Alive p) :
    (s'.proc p).charged + (g.note s (s.cpu c).proc op).lost p + (s'.proc p).ctime = s'.clock := by
  rw [ht.clock_exec hi hk h]
  have hgone : (s'.proc p).state ≠ UNUSED := ha.not.2.1
  rcases hi.alive_exec hk h ha with ha₀ | rfl
  · have hemb : ∀ o, o.embryo = some p → op ≠ o := by
      rintro o ho rfl
      exact ha₀.not.1 (hi.state_of_embryo hk ho)
    have hold := hb.alive p ha₀
    by_cases h1 : op = .updateStat
    · subst h1
      have hp : s'.proc p = Table.tick (s.proc p) := by rw [exec_updateStat h]; rfl
      have hlost : (g.note s (s.cpu c).proc .updateStat).lost p = g.lost p :=
        if_neg ha₀.not.1
      have hctime : (Table.tick (s.proc p)).ctime = (s.proc p).ctime := by
        unfold Table.tick; split_ifs <;> rfl
      rw [if_pos rfl, hp, charged_tick ha₀, hlost, hctime, ← hold]
      grind
    · obtain hu | ⟨hc, hct⟩ := exec_account h h1 (hemb _ rfl) (hemb _ rfl)
      · exact absurd hu hgone
      · rw [if_neg h1, hc, hct, note_lost h1 (hemb _ rfl)]
        exact hold
  · -- the child that `fork` makes runnable has lost every tick so far
    obtain ⟨hpre, -⟩ := ht.next hk
    obtain ⟨emb, -, hpre', -⟩ := hi.next hk
    have hm : s.mode c emb = .resumed (some p) true := hpre'
    obtain ⟨i, hci⟩ := isSome_iff_exists.1
      (show (s.cpu c).proc.isSome = true from congrArg Mode.cur hm)
    have hphase : phaseOf (s.cpu c).code = .idle :=
      congrArg Tally.phase (show s.tally c = .rest from hpre)
    have hfill := hb.filling i _ p (Stack.onCpu c hci) (by rw [hk]; rfl)
    rw [hphase] at hfill
    simp only [reduceCtorEq, false_or] at hfill
    obtain hu | ⟨hc, hct⟩ := exec_account h (by simp) (by simp) (by simp)
    · exact absurd hu hgone
    · rw [if_neg (by simp), hc, hct, note_lost (by simp) (by simp), hfill.2, ← hfill.1]
      grind

theorem Books.ended_exec (c' : Cpu) (p : Slot) (hp : (s'.cpu c').proc = some p)
    (hend : (s'.tally c').phase = .ended) : (s'.proc p).ttime = s'.clock := by
  rw [ht.clock_exec hi hk h]
  obtain ⟨emb, -, hpre', -⟩ := hi.next hk
  obtain ⟨hpre, -⟩ := ht.next hk
  by_cases hc : c' = c
  · subst hc
    rcases (ht.exec_self hi hk h).2.2 with hph | ⟨msg, hpanic⟩ | ⟨-, hne⟩ | ⟨-, hnone⟩ | ⟨-, hne⟩
    · rw [hph] at hend
      have hp₀ : (s.cpu c').proc = some p := by
        rcases hi.proc_exec hk h hp with hp₀ | ⟨-, i, rfl, -⟩
        · exact hp₀
        · rw [show s.tally c' = .rest from hpre] at hend
          cases hend
      by_cases h1 : op = .exitTtime
      · subst h1
        have hm : s.mode c' emb = ⟨none, true, true, false, true⟩ := hpre'
        have htk := mode_tk emb (by rw [hm])
        have hdue : (s.tally c').due = false := by rw [show s.tally c' = .rest from hpre]; rfl
        rw [if_neg (by simp), hi.clock_eq_ticks htk hdue]
        simp only [exec, effect, hp₀, procEffect, map_some, some.injEq] at h
        subst h
        simp [apply]
      · -- nothing but the release of `tickslock` comes between
        obtain rfl := (post_ended hpre hend).resolve_left h1
        have hold := hb.ended c' p hp₀ hend
        simp only [exec, some.injEq] at h
        subst h
        rw [if_neg (by simp)]
        unfold releaseLock
        split_ifs <;> exact hold
    · rw [tally, hpanic] at hend
      cases hend
    · exact absurd hend hne
    · rw [hnone] at hp
      cases hp
    · exact absurd hend hne
  · rw [tally_ne h hc] at hend
    rw [exec_cpu_ne h hc] at hp
    obtain ⟨hpt, hoff⟩ := ht.ptable_of_ended hi hend
    have hrun := (off_eq_false hp).1 hoff
    have hnpt : s.lock .ptable ≠ some c := fun hc' => hc (some.inj (hpt.symm.trans hc'))
    have hcur : (s.cpu c).proc ≠ some p := fun hp' => hc (hi.uniq _ _ _ hp hp')
    have h1 : op ≠ .updateStat := by
      rintro rfl
      exact hnpt (mode_pt emb hpre'.1)
    rw [if_neg h1, ← hb.ended c' p hp hend, ← Proc.core_ttime (s'.proc p)]
    have hch := exec_change h p
    generalize (s'.proc p).core = q' at hch
    cases hch with
    | tick => exact absurd rfl h1
    | zero =>
      rw [hi.state_of_embryo hk rfl] at hrun
      cases hrun
    | ttime hp' => exact absurd hp' hcur
    | reap hz | reapStat hz => rw [hz] at hrun; cases hrun
    | killTtime =>
      have hm : s.mode c emb = ⟨none, true, true, false, true⟩ := hpre'
      exact absurd (mode_pt emb (by rw [hm])) hnpt
    | _ => rfl

/-- The slot a `fork` fills in, while another processor executes or the same one
does something else. -/
theorem Books.filling_same {i p : Slot} {code : List Op} (hst : s.Stack i code)
    (hemb : embOf code = some p) (he' : (s'.proc p).state = EMBRYO) (h2 : op ≠ .allocCtime p)
    (h3 : op ≠ .allocZero p) :
    phaseOf code = .stack ∨ phaseOf code = .ctime ∨
      ((g.note s (s.cpu c).proc op).lost p + (s'.proc p).ctime = s'.clock ∧
        (phaseOf code = .zero ∨ (s'.proc p).charged = 0)) := by
  have he := (hi.embryo i code p hst hemb).1
  refine (hb.filling i code p hst hemb).imp id (Or.imp id ?_)
  rintro ⟨hlost, hcharged⟩
  rw [ht.clock_exec hi hk h]
  by_cases h1 : op = .updateStat
  · subst h1
    have hp : s'.proc p = s.proc p := by
      rw [exec_updateStat h]
      exact tick_of_not_alive (by rw [he]; simp)
    have hnote : (g.note s (s.cpu c).proc .updateStat).lost p = g.lost p + 1 := if_pos he
    rw [if_pos rfl, hp, hnote, ← hlost]
    exact ⟨by grind, hcharged⟩
  · obtain hu | ⟨hc, hct⟩ := exec_account h h1 h2 h3
    · rw [hu] at he'
      cases he'
    · rw [if_neg h1, hc, hct, note_lost h1 h2]
      exact ⟨hlost, hcharged⟩

theorem Books.filling_zero {i p : Slot} (hop : op = .allocZero p) (hci : (s.cpu c).proc = some i) :
    (g.note s (s.cpu c).proc op).lost p + (s'.proc p).ctime = s'.clock ∧
      (s'.proc p).charged = 0 := by
  rw [ht.clock_exec hi hk h]
  subst hop
  have hfill := hb.filling i _ p (Stack.onCpu c hci) (by rw [hk]; rfl)
  have hphase : phaseOf (s.cpu c).code = .zero :=
    congrArg Tally.phase (show s.tally c = _ from (ht.next hk).1)
  rw [hphase] at hfill
  simp only [reduceCtorEq, false_or, true_or, and_true] at hfill
  simp only [exec, effect, hci, procEffect, map_some, some.injEq] at h
  subst h
  rw [if_neg (by simp), ← hfill]
  simp [apply, Ledger.note, Proc.charged]

theorem Books.filling_exec (i : Slot) (code' : List Op) (p : Slot) (hst : s'.Stack i code')
    (hemb : embOf code' = some p) :
    phaseOf code' = .stack ∨ phaseOf code' = .ctime ∨
      ((g.note s (s.cpu c).proc op).lost p + (s'.proc p).ctime = s'.clock ∧
        (phaseOf code' = .zero ∨ (s'.proc p).charged = 0)) := by
  have he' := (hi.stack_embryo_exec hk h hst hemb).1
  rcases hi.stack_exec hk h hst hemb with ⟨code, hst₀, hemb₀, hrel⟩ | ⟨-, -, -, hcode⟩
  · rcases hrel with ⟨rfl, hne⟩ | ⟨rfl, hci, -, hrel⟩
    · -- the process that executes is another one
      have hop : ∀ o, o.embryo = some p → op ≠ o := by
        rintro o ho rfl
        exact hne (hi.stack_embryo hk hst₀ hemb₀ ho)
      exact hb.filling_same hi ht hk h hst₀ hemb₀ he' (hop _ rfl) (hop _ rfl)
    · obtain ⟨emb, hembk, hpre', -⟩ := hi.next hk
      obtain rfl : some p = emb := hemb₀.symm.trans hembk
      obtain ⟨hpre, hw⟩ := ht.next hk
      have same : ∀ {o q}, o.embryo = some q → op = o → q = p := by
        rintro o q ho rfl
        exact some.inj ((emb_of_embryo ho hpre').symm.trans rfl)
      have noemb : ∀ {pt tk off cur}, s.mode c (some p) ≠ ⟨none, pt, tk, off, cur⟩ :=
        fun hm => absurd (congrArg Mode.emb hm) (by simp [mode])
      by_cases h1 : op = .allocStack p
      · rcases hrel with ⟨hs, -⟩ | ⟨-, rfl⟩
        · rw [hs] at h1
          cases h1
        · exact .inr (.inl (hi.filling_stack hk h h1 hci hemb))
      · have hphase : phaseOf code' = (tallyDiscipline.post op (s.tally c)).phase := by
          rcases hrel with ⟨rfl, rfl⟩ | ⟨hci', rfl⟩
          · exact (congrArg Tally.phase (tally_of_walks hw)).symm
          · rcases (ht.exec_self hi hk h).2.2 with
              hph | ⟨msg, hpanic⟩ | ⟨rfl | ⟨q, hq⟩, -⟩ | ⟨-, hnone⟩ | ⟨⟨j, rfl⟩, -⟩
            · exact hph
            · rw [hpanic] at hemb
              cases hemb
            · exact absurd hpre' noemb
            · exact absurd (by rw [hq, same rfl hq]) h1
            · rw [hnone] at hci'
              cases hci'
            · exact absurd hk (hi.not_schedScan hci)
        by_cases h2 : op = .allocCtime p
        · refine .inr (.inr ⟨ht.filling_ctime hi hk h h2 hci, .inl ?_⟩)
          rw [hphase, h2]
          rfl
        · by_cases h3 : op = .allocZero p
          · obtain ⟨hlost, hzero⟩ := hb.filling_zero hi ht hk h h3 hci
            exact .inr (.inr ⟨hlost, .inr hzero⟩)
          · have hkeep : phaseOf code' = phaseOf (op :: k) := by
              rw [hphase, ← hk]
              cases op with
              | allocStack q => exact absurd (by rw [same rfl rfl]) h1
              | allocCtime q => exact absurd (by rw [same rfl rfl]) h2
              | allocZero q => exact absurd (by rw [same rfl rfl]) h3
              | exitTtime | exitZombie => exact absurd hpre' noemb
              | _ => rfl
            rw [hkeep]
            exact hb.filling_same hi ht hk h hst₀ hemb₀ he' h2 h3
  · rw [hcode]
    exact .inl rfl

theorem Books.zombie_exec (p : Slot) (hz : (s'.proc p).state = ZOMBIE) :
    (s'.proc p).charged + (g.note s (s.cpu c).proc op).lost p =
      (g.note s (s.cpu c).proc op).turnaround p := by
  obtain ⟨hpre, -⟩ := ht.next hk
  obtain ⟨emb, -, hpre', -⟩ := hi.next hk
  by_cases hop : op = .exitZombie ∧ (s.cpu c).proc = some p
  · obtain ⟨rfl, hp⟩ := hop
    have hm : s.mode c emb = .resumed none true := hpre'
    have hrun : (s.proc p).state = RUNNING :=
      (off_eq_false hp).1 (show s.off c = false from congrArg Mode.off hm)
    have hold := hb.alive p (.inr (.inr hrun))
    have hend := hb.ended c p hp (congrArg Tally.phase (show s.tally c = _ from hpre))
    obtain hu | ⟨hc, -⟩ := exec_account h (by simp) (by simp) (by simp)
    · rw [hu] at hz
      cases hz
    · have hturn : (g.note s (s.cpu c).proc .exitZombie).turnaround p =
          (s.proc p).ttime - (s.proc p).ctime := by simp [Ledger.note, hp]
      rw [hturn, hc, note_lost (by simp) (by simp), hend, ← hold]
      grind
  · have hz₀ : (s.proc p).state = ZOMBIE := by
      have hch := exec_change h p
      rw [← Proc.core_state (s'.proc p)] at hz
      generalize (s'.proc p).core = q' at hch hz
      cases hch with
      | none | allocStack | ctime | zero | ttime _ | kill _ | killTtime | fault _ | switch _ =>
        exact hz
      | tick => simpa using hz
      | zombie hp => exact absurd ⟨rfl, hp⟩ hop
      | reap _ => cases hz
      | reapStat _ => cases hz
      | _ => cases hz
    have hemb : ∀ o, o.embryo = some p → op ≠ o := by
      rintro o ho rfl
      rw [hi.state_of_embryo hk ho] at hz₀
      cases hz₀
    rw [note_turnaround hop, ← hb.zombie p hz₀]
    by_cases h1 : op = .updateStat
    · subst h1
      have hp : s'.proc p = s.proc p := by
        rw [exec_updateStat h]
        exact tick_of_not_alive (by rw [hz₀]; simp)
      have hnote : (g.note s (s.cpu c).proc .updateStat).lost p = g.lost p :=
        if_neg (by rw [hz₀]; simp)
      rw [hp, hnote]
    · obtain hu | ⟨hc, -⟩ := exec_account h h1 (hemb _ rfl) (hemb _ rfl)
      · rw [hu] at hz
        cases hz
      · rw [hc, note_lost h1 (hemb _ rfl)]

/-- **An operation keeps the accounts.** -/
theorem Books.exec : s'.Books (g.note s (s.cpu c).proc op) where
  alive := hb.alive_exec hi ht hk h
  filling := hb.filling_exec hi ht hk h
  ended := hb.ended_exec hi ht hk h
  zombie := hb.zombie_exec hi ht hk h

end Step

theorem Books.entry (hb : s.Books g) (hi : s.Inv) (ht : s.Tallied) {code : List Op}
    (he : Entry s c code) : (s.goto c (code ++ (s.cpu c).code)).Books g where
  alive := by
    intro p ha
    rw [ht.clock_entry hi he]
    exact hb.alive p ha
  filling := by
    intro i code' p hst hemb
    rw [ht.clock_entry hi he]
    obtain ⟨code₀, hst₀, hemb₀, hor⟩ := hi.stack_goto (hi.entry_walks he) hst
    have hphase : phaseOf code' = phaseOf code₀ := by
      rcases hor with rfl | ⟨rfl, rfl⟩
      · rfl
      · simpa [tally] using congrArg Tally.phase (ht.tally_entry hi he c)
    rw [hphase]
    exact hb.filling i code₀ p hst₀ (by rw [← hemb₀]; exact hemb)
  ended := by
    intro c' p hp hend
    rw [proc_goto] at hp
    rw [ht.tally_entry hi he] at hend
    rw [ht.clock_entry hi he]
    exact hb.ended c' p hp hend
  zombie := hb.zombie

theorem books_boot : boot.Books .blank where
  alive := by
    intro p ha
    by_cases hp : p = 0
    · subst hp
      decide
    · exact absurd ha (by simp [Alive, boot, hp])
  filling := fun i code p hst hemb => absurd hemb (by simp [embOf_boot hst])
  ended := fun c p hp => absurd hp (by simp [boot])
  zombie := by
    intro p hz
    by_cases hp : p = 0
    · simp [boot, hp] at hz
    · simp [boot, hp] at hz

end Kernel

/-- **The accounts are right in every reachable state.** -/
theorem books {s : Kernel} {g : Ledger} (h : ledgerKernel.Reachable (s, g)) : s.Books g := by
  refine Machine.ReachableBy.induct (I := fun x => x.1.Books x.2) ?_ ?_ h
  · rintro ⟨s, g⟩ ⟨hs, hg⟩
    obtain rfl : s = boot := hs
    obtain rfl : g = .blank := hg
    exact books_boot
  · rintro ⟨s, g⟩ e ⟨s', g'⟩ hr hb - hs
    have hr₀ : kernel.Reachable s := Machine.ghost_reachable hr
    obtain ⟨hstep, hg⟩ := Machine.ghost_step hs
    dsimp only at hb hstep hg ⊢
    subst hg
    have hi := inv hr₀
    have ht := tallied hr₀
    rcases step_cases hstep with ⟨c, ch, op, k, rfl, hk, h⟩ | ⟨c, code, hne, he, rfl⟩
    · have hrec : g.record s (.run c ch) = g.note s (s.cpu c).proc op := by
        simp only [Ledger.record, hk]
      rw [hrec]
      exact hb.exec hi ht hk h
    · have hrec : g.record s e = g := by
        cases e with
        | run c' ch => exact absurd rfl (hne c' ch)
        | _ => rfl
      rw [hrec]
      exact hb.entry hi ht he

/-! ## Turnaround times -/

/-- The ticks charged to a process make up the time from its creation to its
termination. -/
def Proc.Turnaround (q : Proc) : Prop := q.rutime + q.retime + q.stime = q.ttime - q.ctime

/-- The sum of the times `wait_stat` reports. -/
def WaitStat.sum (w : WaitStat) : UInt32 := w.wtime + w.rtime + w.iotime

namespace Kernel

variable {s s' : Kernel} {c : Cpu} {ch : Choice} {op : Op} {k : List Op} {g : Ledger}

/-- Only `exit` makes a process a zombie. -/
theorem exec_zombie (h : s.exec c ch op k = some s')
    (hn : (s.proc p).state ≠ ZOMBIE) (hz : (s'.proc p).state = ZOMBIE) :
    op = .exitZombie ∧ (s.cpu c).proc = some p := by
  have hch := exec_change h p
  rw [← Proc.core_state (s'.proc p)] at hz
  generalize (s'.proc p).core = q' at hch hz
  cases hch with
  | zombie hp => exact ⟨rfl, hp⟩
  | none | allocStack | ctime | zero | ttime _ | kill _ | killTtime | fault _ | switch _ =>
    exact absurd hz hn
  | tick => exact absurd (by simpa using hz) hn
  | _ => cases hz

theorem Books.at_exit (hb : s.Books g) (hi : s.Inv) (ht : s.Tallied)
    (hk : (s.cpu c).code = .exitZombie :: k) (h : s.exec c ch .exitZombie k = some s')
    (hp : (s.cpu c).proc = some p) :
    (s'.proc p).charged + g.lost p = (s'.proc p).ttime - (s'.proc p).ctime := by
  obtain ⟨hpre, -⟩ := ht.next hk
  obtain ⟨emb, -, hpre', -⟩ := hi.next hk
  have hm : s.mode c emb = .resumed none true := hpre'
  have hrun : (s.proc p).state = RUNNING :=
    (off_eq_false hp).1 (show s.off c = false from congrArg Mode.off hm)
  have hold := hb.alive p (.inr (.inr hrun))
  have hend := hb.ended c p hp (congrArg Tally.phase (show s.tally c = _ from hpre))
  simp only [Kernel.exec, effect, hp, procEffect, map_some, some.injEq] at h
  subst h
  have hsum : (s.proc p).charged + g.lost p = (s.proc p).ttime - (s.proc p).ctime := by
    rw [hend, ← hold]
    grind
  simpa [apply, Proc.charged] using hsum

theorem exec_waitStat (hi : s.Inv) (hk : (s.cpu c).code = .waitScan true :: k)
    (h : s.exec c ch (.waitScan true) k = some s') {me p : Slot} {kids : Bool}
    (hme : (s.cpu c).proc = some me)
    (hp : s.proc.lookChildren me slots false = (some p, kids)) :
    (s'.proc me).wstat.sum = (s.proc p).charged := by
  obtain ⟨emb, -, hpre, -⟩ := hi.next hk
  have hm : s.mode c emb = .resumed none true := hpre
  have hrun : (s.proc me).state = RUNNING :=
    (off_eq_false hme).1 (show s.off c = false from congrArg Mode.off hm)
  have hne : me ≠ p := by
    rintro rfl
    rw [(Table.lookChildren_zombie hp).1] at hrun
    cases hrun
  simp only [exec, effect, hme, procEffect, hp, if_true, map_some, some.injEq] at h
  subst h
  have hsum : (s.proc p).retime + (s.proc p).rutime + (s.proc p).stime = (s.proc p).charged := by
    unfold Proc.charged
    grind
  simpa [apply, hne, WaitStat.sum] using hsum

end Kernel

/-- **Turnaround times, and when they are right.**  When a process becomes a
zombie, its counters add up to the time from its creation to its termination
exactly if no tick was lost since its creation; and the same decides whether
the times `wait_stat` reports of it add up to its turnaround time. -/
theorem turnaround_iff {s s' : Kernel} {g : Ledger} {e : Kernel.Event} {p : Slot}
    (hr : ledgerKernel.Reachable (s, g)) (hs : s.step e = some s') :
    ((s.proc p).state ≠ ZOMBIE → (s'.proc p).state = ZOMBIE →
      ((s'.proc p).Turnaround ↔ g.lost p = 0)) ∧
    ∀ c ch k me kids, e = .run c ch → (s.cpu c).code = .waitScan true :: k →
      (s.cpu c).proc = some me → s.proc.lookChildren me slots false = (some p, kids) →
      ((s'.proc me).wstat.sum = g.turnaround p ↔ g.lost p = 0) := by
  have hr₀ : kernel.Reachable s := Machine.ghost_reachable hr
  have hi := inv hr₀
  have hb := books hr
  constructor
  · intro hn hz
    rcases step_cases hs with ⟨c, ch, op, k, -, hk, h⟩ | ⟨c, code, -, -, rfl⟩
    · obtain ⟨rfl, hp⟩ := exec_zombie h hn hz
      have hexit := hb.at_exit hi (tallied hr₀) hk h hp
      unfold Proc.Turnaround
      unfold Proc.charged at hexit
      rw [← hexit]
      grind
    · exact absurd hz hn
  · rintro c ch k me kids rfl hk hme hp
    have h : s.exec c ch (.waitScan true) k = some s' := by
      simpa only [step, hk] using hs
    have hz := hb.zombie p (Table.lookChildren_zombie hp).1
    rw [exec_waitStat hi hk h hme hp, ← hz]
    grind

/-- A clock interrupt on processor 0, and all that processor does on it. -/
def tick : List Kernel.Event := [.timer 0] ++ execs 0 13

/-- The first process forks on processor 1, with the events `early` while the
child is not finished, and then the child has the processor. -/
def childRuns (early : List Kernel.Event) : List Kernel.Event :=
  execs 1 5 ++ [.syscall 1 .fork] ++ execs 1 4 ++ [.run 1 (.addr 1)] ++
    execs 1 3 ++ early ++ execs 1 1 ++ [.run 1 (.addr 1)] ++ execs 1 5 ++
    [.timer 1] ++ execs 1 8

/-- The child is about to become a zombie. -/
def childExits (early : List Kernel.Event) : List Kernel.Event :=
  childRuns early ++ [.syscall 1 .exit] ++ execs 1 8

theorem turnaround_iff_exit :
    ∃ s g s', ledgerKernel.Reachable (s, g) ∧ s.step (.run 1 .done) = some s' ∧
      (s.proc 1).state ≠ ZOMBIE ∧ (s'.proc 1).state = ZOMBIE ∧
      ((s'.proc 1).Turnaround ↔ g.lost 1 = 0) := by
  obtain ⟨⟨s, g⟩, ⟨s', g'⟩, hr, hs, hn, hz⟩ := Machine.step_of_run (M := ledgerKernel)
    (Q := fun x x' => (x.1.proc 1).state ≠ ZOMBIE ∧ (x'.1.proc 1).state = ZOMBIE)
    (boot, .blank) (childExits []) (.run 1 .done) ⟨rfl, rfl⟩
    (by set_option maxRecDepth 20000 in decide)
  have hstep : s.step (.run 1 .done) = some s' := (Machine.ghost_step hs).1
  exact ⟨s, g, s', hr, hstep, hn, hz, (turnaround_iff hr hstep).1 hn hz⟩

/-- **A tick is lost.**  The clock interrupt comes after the creation time of the
child was sampled and before `fork` made it runnable. -/
theorem turnaround_fails :
    ∃ s e s' p, kernel.Reachable s ∧ s.step e = some s' ∧ (s.proc p).state ≠ ZOMBIE ∧
      (s'.proc p).state = ZOMBIE ∧ ¬ (s'.proc p).Turnaround := by
  obtain ⟨s, s', hr, hs, ⟨hn, hz⟩, hne⟩ := Machine.step_of_run (M := kernel)
    (Q := fun s s' => ((s.proc 1).state ≠ ZOMBIE ∧ (s'.proc 1).state = ZOMBIE) ∧
      ¬ (s'.proc 1).rutime + (s'.proc 1).retime + (s'.proc 1).stime =
        (s'.proc 1).ttime - (s'.proc 1).ctime)
    boot (childExits tick) (.run 1 .done) rfl (by set_option maxRecDepth 20000 in decide)
  exact ⟨s, .run 1 .done, s', 1, hr, hs, hn, hz, hne⟩

end Xv6
