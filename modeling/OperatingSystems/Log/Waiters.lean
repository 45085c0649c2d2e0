import OperatingSystems.Log.Space

/-!
# Waiting for the log

`begin_op` sleeps on `&log` while there is a commit, and while the space that is left is
too little for one more operation.  `end_op` wakes the sleepers up: at once if other
operations are left, and after its commit if it was the last one.

* `Waiting`, `waitSystem`: the log, with the processes that sleep on `&log`.
* `Sys.Settled`: a commit is alone, and the log is empty when no one uses it.
* `waiters_not_stranded`: someone is left to wake the sleepers up, and neither
  `end_op` nor `log_write` panics over the state of the log.
-/

namespace Xv6

open Function

namespace Sys

/-- The process that takes the step. -/
def Event.process : Event → Option Nat
  | .beginOp p => some p
  | .bread p _ => some p
  | .change p _ _ => some p
  | .logWrite p _ => some p
  | .append p => some p
  | .brelse p _ => some p
  | .endOp p => some p
  | .commit p => some p
  | .recover => none
  | .crash => none

/-- `begin_op` goes to sleep. -/
def full (s : Sys) : Bool :=
  s.log.committing || decide (s.log.lh.length + (s.log.outstanding + 1) * MAXOPBLOCKS > LOGSIZE)

/-- The step calls `wakeup(&log)`, or leaves no one who could sleep. -/
def wakes (s : Sys) : Event → Bool
  | .endOp _ => decide (s.log.outstanding - 1 ≠ 0)
  | .commit p => decide ((s.thread p).pc = .commit .done)
  | .crash => true
  | _ => false

end Sys

/-- The log, and who sleeps on `&log`. -/
structure Waiting where
  sys : Sys
  asleep : Nat → Bool

namespace Waiting

inductive Event
  | act (e : Sys.Event)
  | sleep (p : Nat)
  | kill (p : Nat)

/-- A process that is awake takes a step of the log, or goes to sleep in `begin_op`; a
process that is killed wakes up. -/
def step (A : LogArea) (w : Waiting) : Event → Option Waiting
  | .act e =>
    if e.process.any w.asleep then none
    else (w.sys.step A e).map fun s =>
      ⟨s, if w.sys.wakes e then fun _ => false else w.asleep⟩
  | .sleep p =>
    if w.sys.mode = .running ∧ (w.sys.thread p).pc = .outside ∧ w.asleep p = false ∧
        w.sys.full = true then
      some { w with asleep := update w.asleep p true }
    else none
  | .kill p => some { w with asleep := update w.asleep p false }

end Waiting

/-- The log with its sleepers, on a disk that holds `d`. -/
def waitSystem (A : LogArea) (d : Disk) : Machine Waiting Waiting.Event where
  init := fun w => w.sys = Sys.boot d ∧ w.asleep = fun _ => false
  step := fun w e => w.step A e

namespace Sys

variable {A : LogArea} {s s' : Sys} {e : Event} {p : Nat} {t : Thread}

/-- A commit is alone, and the log is empty when no one uses it. -/
structure Settled (s : Sys) : Prop where
  alone : s.log.committing = true → s.log.outstanding = 0
  idle : s.mode = .running → s.log.committing = false → s.log.outstanding = 0 → s.log.lh = []
  erased : ∀ p, (s.thread p).pc = .commit .eraseHead ∨ (s.thread p).pc = .commit .done →
    s.log.lh = []
  booting : ∀ pc, s.mode = .recovering pc → ∀ p, (s.thread p).pc = .outside
  recovered : s.mode = .recovering .writeHead → s.log.lh = []
  committing : s.mode ≠ .panicked .logCommitting
  outside : s.mode ≠ .panicked .logWriteOutsideOfTrans

/-- There is an operation. -/
theorem Counting.outstanding_pos (hc : s.Counting) (hp : (s.thread p).pc.InOp) :
    0 < s.log.outstanding := by
  obtain ⟨F, hcard, hF⟩ := hc.count
  rw [← hcard]
  exact Finset.card_pos.2 ⟨p, (hF p).2 hp⟩

theorem boot_settled (d : Disk) : (boot d).Settled :=
  ⟨by simp [boot], by simp [boot], by simp [boot], by simp [boot], by simp [boot], by simp [boot],
    by simp [boot]⟩

theorem Settled.recover (h : s.Settled) {pc pc' : RecoverPc} (io : Bio) (lh : List Blockno)
    (hm : s.mode = .recovering pc) (hlh : pc' = .writeHead → lh = []) :
    ({ s with io, log := { s.log with lh }, mode := .recovering pc' } : Sys).Settled where
  alone := h.alone
  idle := fun hm => by cases hm
  erased := fun p hp => by simp [h.booting pc hm p] at hp
  booting := fun _ _ => h.booting pc hm
  recovered := fun hm' => hlh (by simpa using hm')
  committing := by simp
  outside := by simp

/-- A step of a process while the system runs.  What is left to show is that the log is
still as it should be. -/
theorem Settled.act (h : s.Settled) (hth : s'.thread = update s.thread p t)
    (hm : s'.mode = .running)
    (halone : s'.log.committing = true → s'.log.outstanding = 0)
    (hidle : s'.log.committing = false → s'.log.outstanding = 0 → s'.log.lh = [])
    (hlh : ∀ q c, (s.thread q).pc = .commit c → s.log.lh = [] → s'.log.lh = [])
    (hpc : t.pc = .commit .eraseHead ∨ t.pc = .commit .done → s'.log.lh = []) : s'.Settled where
  alone := halone
  idle := fun _ => hidle
  erased := by
    intro q hq
    rw [hth] at hq
    by_cases hqp : q = p
    · rw [hqp, update_self] at hq
      exact hpc hq
    · rw [update_of_ne hqp] at hq
      exact hq.elim (fun hq => hlh q _ hq (h.erased q (.inl hq)))
        fun hq => hlh q _ hq (h.erased q (.inr hq))
  booting := fun pc hpc => by simp [hm] at hpc
  recovered := by simp [hm]
  committing := by simp [hm]
  outside := by simp [hm]

section

variable (h : s.Settled) (hm : s.mode = .running) (hth : s'.thread = update s.thread p t)
  (hlog : s'.log = s.log) (hm' : s'.mode = .running)

include h hm hth hlog hm'

theorem Settled.same
    (hpc : t.pc = .commit .eraseHead ∨ t.pc = .commit .done → s.log.lh = []) : s'.Settled := by
  refine h.act hth hm' ?_ ?_ ?_ ?_ <;> rw [hlog]
  · exact h.alone
  · exact h.idle hm
  · exact fun _ _ _ => id
  · exact hpc

theorem Settled.inOp (ht : t.pc.InOp ∨ t.pc = .outside) : s'.Settled := by
  refine h.same hm hth hlog hm' fun hpc => ?_
  rcases hpc with hpc | hpc <;> simp [hpc] at ht

end

/-- **Every step keeps the log settled.** -/
theorem Settled.trans (h : s.Settled) (hc : s.Counting) (ht : Trans A s e s') : s'.Settled := by
  cases ht with
  | crash => exact boot_settled _
  | @panic _ why hwhy =>
    refine ⟨h.alone, by simp, h.erased, by simp, by simp, ?_, ?_⟩
    · rintro ⟨⟩
      obtain ⟨hcommit, p, hp⟩ := hwhy
      have := hc.outstanding_pos (p := p) (by simp [hp])
      have := h.alone hcommit
      omega
    · rintro ⟨⟩
      obtain ⟨hout, p, hp⟩ := hwhy
      have := hc.outstanding_pos (p := p) (by simp [hp])
      omega
  | readHead hm => exact h.recover _ _ hm (by simp)
  | reinstall hm => exact h.recover _ s.log.lh hm (by simp)
  | reinstalled hm => exact h.recover _ _ hm fun _ => rfl
  | recovered hm =>
    refine ⟨h.alone, fun _ _ _ => h.recovered hm, ?_, by simp, by simp, by simp, by simp⟩
    intro p hp
    simp [h.booting _ hm p] at hp
  | tooBig hm =>
    exact ⟨h.alone, by simp, h.erased, by simp, by simp, by simp, by simp⟩
  | @beginOp p hm hpc hcom =>
    refine h.act rfl hm ?_ ?_ (fun _ _ _ => id) ?_
    · simp [hcom]
    · simp
    · rintro (h | h) <;> cases h
  | @bread _ p _ hm hpc | @brelse _ p _ hm hpc =>
    exact h.inOp hm rfl rfl hm (by rcases hpc with h | h <;> simp [h])
  | @change p _ _ hm hpc => exact h.inOp hm rfl rfl hm (by simp [hpc])
  | @logWrite p _ hm => exact h.inOp hm rfl rfl hm (by simp)
  | @append p b hm hpc =>
    have hpos := hc.outstanding_pos (p := p) (by simp [hpc])
    refine h.act rfl hm h.alone ?_ ?_ ?_
    · exact fun _ hout => absurd hout hpos.ne'
    · exact fun q c hq => absurd hq (hc.not_commit (p := p) (by simp [hpc]) q c)
    · rintro (h | h) <;> cases h
  | @endOp p hm hpc _ hcom hout =>
    refine h.act rfl hm ?_ ?_ (fun _ _ _ => id) ?_
    · simp [hcom]
    · exact fun _ h0 => absurd h0 hout
    · rintro (h | h) <;> cases h
  | @endLast p hm hpc _ hcom hout =>
    refine h.act rfl hm (fun _ => hout) (by simp) (fun _ _ _ => id) ?_
    rintro (h | h) <;> cases h
  | @start p hm hpc =>
    refine h.same hm rfl rfl hm fun hpc' => ?_
    by_cases hlh : 0 < s.log.lh.length
    · simp [hlh] at hpc'
    · simpa using hlh
  | @writeLog _ p _ _ hm | @wroteLog p _ hm | @writeHead _ p hm | @installTrans _ p _ _ hm =>
    exact h.same hm rfl rfl hm (by simp)
  | @installed p _ hm hpc =>
    refine h.act rfl hm h.alone (fun _ _ => rfl) (fun _ _ _ _ => rfl) fun _ => rfl
  | @eraseHead _ p hm hpc => exact h.same hm rfl rfl hm fun _ => h.erased p (.inl hpc)
  | @done p hm hpc =>
    have hlh := h.erased p (.inr hpc)
    refine h.act rfl hm (by simp) (fun _ _ => hlh) (fun _ _ _ => id) fun _ => hlh

end Sys

namespace Waiting

/-- The sleepers have someone who will wake them up. -/
structure Watched (w : Waiting) : Prop where
  counting : w.sys.Counting
  settled : w.sys.Settled
  awake : ∀ p, w.asleep p = true → w.sys.log.committing = true ∨ 0 < w.sys.log.outstanding

variable {A : LogArea} {w w' : Waiting}

/-- A step that wakes no one up leaves a commit, or an operation. -/
theorem busy_of_trans {s s' : Sys} {e : Sys.Event} (ht : Sys.Trans A s e s')
    (hw : s.wakes e = false) (hbusy : s.log.committing = true ∨ 0 < s.log.outstanding) :
    s'.log.committing = true ∨ 0 < s'.log.outstanding := by
  cases ht with
  | crash => cases hw
  | beginOp => exact .inr (Nat.succ_pos _)
  | endOp _ _ _ _ hout => simp [Sys.wakes, hout] at hw
  | endLast => exact .inl rfl
  | done _ hpc => simp [Sys.wakes, hpc] at hw
  | _ => exact hbusy

/-- `begin_op` sleeps only when it finds a commit, or another operation: the log of
a system at rest is empty, and has space for one. -/
theorem busy_of_full {s : Sys} (h : s.Settled) (hm : s.mode = .running) (hf : s.full = true) :
    s.log.committing = true ∨ 0 < s.log.outstanding := by
  by_contra hno
  have hc : s.log.committing = false := by simpa using fun hc => hno (.inl hc)
  have hout : s.log.outstanding = 0 := by
    by_contra h0
    exact hno (.inr (Nat.pos_of_ne_zero h0))
  have hlh := h.idle hm hc hout
  simp [Sys.full, hc, hout, hlh, MAXOPBLOCKS, LOGSIZE] at hf

theorem Watched.step (h : w.Watched) {e : Event} (hs : w.step A e = some w') : w'.Watched := by
  cases e with
  | act e =>
    simp only [Waiting.step] at hs
    split at hs
    · cases hs
    · obtain ⟨s', hs', rfl⟩ := Option.map_eq_some_iff.1 hs
      have ht := Sys.trans_of_step hs'
      refine ⟨h.counting.trans ht, h.settled.trans h.counting ht, ?_⟩
      intro p hp
      cases hw : w.sys.wakes e with
      | true => simp [hw] at hp
      | false => exact busy_of_trans ht hw (h.awake p (by simpa [hw] using hp))
  | sleep p =>
    simp only [Waiting.step] at hs
    split at hs
    · rename_i hp
      cases hs
      exact ⟨h.counting, h.settled, fun _ _ => busy_of_full h.settled hp.1 hp.2.2.2⟩
    · cases hs
  | kill p =>
    cases hs
    refine ⟨h.counting, h.settled, fun q hq => h.awake q ?_⟩
    by_cases hqp : q = p
    · simp [hqp] at hq
    · simpa [hqp] using hq

end Waiting

/-- **Those who wait for the log are not stranded, and commits are exclusive.**  While
the system runs, a commit finds no operation; a process that sleeps on `&log` has a
commit or an operation that will wake it up; and without both the log is empty.  So
neither `end_op` nor `log_write` ever panics over the state of the log. -/
theorem waiters_not_stranded {A : LogArea} {d : Disk} {w : Waiting}
    (h : (waitSystem A d).Reachable w) :
    (w.sys.mode = .running → (w.sys.log.committing = true → w.sys.log.outstanding = 0) ∧
      (∀ p, w.asleep p = true → w.sys.log.committing = true ∨ 0 < w.sys.log.outstanding) ∧
      (w.sys.log.outstanding = 0 → w.sys.log.committing = false → w.sys.log.lh = [])) ∧
    w.sys.mode ≠ .panicked .logCommitting ∧ w.sys.mode ≠ .panicked .logWriteOutsideOfTrans := by
  have hw : w.Watched := by
    refine h.induct ?_ ?_
    · rintro w ⟨hs, ha⟩
      refine ⟨hs ▸ Sys.boot_counting d, hs ▸ Sys.boot_settled d, ?_⟩
      simp [ha]
    · intro w e w' _ hw _ hs
      exact hw.step hs
  exact ⟨fun hm => ⟨hw.settled.alone, hw.awake, fun hout hc => hw.settled.idle hm hc hout⟩,
    hw.settled.committing, hw.settled.outside⟩

/-- Three operations leave no space for a fourth one, which goes to sleep. -/
theorem waiters_not_stranded_fourth :
    ∃ w, (waitSystem .mkfs fun _ => .zero).Reachable w ∧ w.asleep 3 = true ∧
      (w.sys.mode = .running → (w.sys.log.committing = true → w.sys.log.outstanding = 0) ∧
        (∀ p, w.asleep p = true → w.sys.log.committing = true ∨ 0 < w.sys.log.outstanding) ∧
        (w.sys.log.outstanding = 0 → w.sys.log.committing = false → w.sys.log.lh = [])) ∧
      w.sys.mode ≠ .panicked .logCommitting ∧
      w.sys.mode ≠ .panicked .logWriteOutsideOfTrans := by
  obtain ⟨w, h, hp⟩ := Machine.reachable_of_run (M := waitSystem .mkfs fun _ => .zero)
    (P := fun w => w.asleep 3 = true) ⟨Sys.boot fun _ => .zero, fun _ => false⟩
    [.act .recover, .act .recover, .act .recover, .act (.beginOp 0), .act (.beginOp 1),
      .act (.beginOp 2), .sleep 3] ⟨rfl, rfl⟩ (by decide)
  exact ⟨w, h, hp, waiters_not_stranded h⟩

end Xv6
