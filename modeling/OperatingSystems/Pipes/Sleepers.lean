import OperatingSystems.Pipes.System

/-!
# Who sleeps on a pipe

A reader sleeps while the pipe is empty and may still be written to, and a writer while it
is full and may still be read.  Whoever changes that has the lock, and owes a `wakeup` that
it makes before it gives the lock back (`Pc.Owes`).

One path does not pay: a writer that has stored bytes, finds the pipe full and has been
killed returns at once.  A reader that was asleep on the empty pipe is then asleep on a full
one (`sleepers_stranded`).  In runs in which that does not happen no one is left asleep
(`sleepers_wait`).

* `Ends`: an end that someone uses is open.
* `Pc.next_waits`: a step keeps the reason to sleep, or owes a `wakeup`, or makes it.
-/

namespace Xv6.Pipes

open Function Option State

/-! ## The ends of the pipe -/

/-- An end that someone uses, or is about to close, is open, and it is closed once. -/
structure Ends {ι : Type} (s : State ι) : Prop where
  uses : ∀ i w, (s.pc i).uses = some w → s.pipe.isOpen w = true ∧ ∀ j, (s.pc j).closes ≠ some w
  closes : ∀ i w, (s.pc i).closes = some w → s.pipe.isOpen w = true
  once : ∀ i j w, (s.pc i).closes = some w → (s.pc j).closes = some w → i = j

@[simp] theorem Pipe.isOpen_shut (p : Pipe) (w w' : Bool) :
    (p.shut w).isOpen w' = (p.isOpen w' && w != w') := by
  cases w <;> cases w' <;> simp [Pipe.shut, Pipe.isOpen]

section Next

variable {p p' : Pipe} {k : Bool} {a : Sync} {q q' : Pc} {w : Bool}

/-- A step uses and closes what it did before, and only `pipeclose` closes an end. -/
theorem Pc.next_ends (h : q.next p k = some (a, p', q')) : (q'.uses = some w → q.uses = some w) ∧
    (q'.closes = some w → q.closes = some w ∧ p' = p) ∧
    (p'.isOpen w = p.isOpen w ∨ q.closes = some w ∧ q'.closes = none ∧ q'.uses = none) := by
  have hno : ∀ {P : Prop}, (none : Option Bool) = some w → P := fun he => by cases he
  cases q with
  | user | asleep => cases h
  | writeLoop c i stored =>
    rw [Pc.next] at h
    split at h
    · split at h
      · split at h <;> (cases h; exact ⟨id, hno, .inl rfl⟩)
      · cases h
        exact ⟨id, hno, .inl rfl⟩
    · cases h
      exact ⟨id, hno, .inl rfl⟩
  | readWait n =>
    rw [Pc.next] at h
    split at h
    · split at h <;> (cases h; exact ⟨id, hno, .inl rfl⟩)
    · cases h
      exact ⟨id, hno, .inl rfl⟩
  | readLoop n got =>
    rw [Pc.next] at h
    split at h <;> (cases h; exact ⟨id, hno, .inl rfl⟩)
  | closeFlag writable =>
    cases h
    refine ⟨hno, hno, ?_⟩
    by_cases hw : writable = w
    · exact .inr ⟨congrArg some hw, rfl, rfl⟩
    · exact .inl (by simp [hw])
  | woken z | sleep z | doze z => cases z <;> (cases h; exact ⟨id, hno, .inl rfl⟩)
  | closeStart =>
    cases h
    exact ⟨hno, fun h => ⟨h, rfl⟩, .inl rfl⟩
  | writeReturn | readReturn | closeWake | closeEnd =>
    cases h
    exact ⟨hno, hno, .inl rfl⟩
  | writeStart | writeFull | writeEnd | readStart | readEnd =>
    cases h
    exact ⟨id, hno, .inl rfl⟩

@[simp] theorem Pc.uses_wake (q : Pc) (ch : Chan) : (q.wake ch).uses = q.uses := by
  cases q with
  | asleep z =>
    rw [Pc.wake]
    split
    · cases z <;> rfl
    · rfl
  | _ => rfl

@[simp] theorem Pc.closes_wake (q : Pc) (ch : Chan) : (q.wake ch).closes = q.closes := by
  cases q with
  | asleep z =>
    rw [Pc.wake]
    split <;> rfl
  | _ => rfl

@[simp] theorem Pc.uses_rouse (q : Pc) : q.rouse.uses = q.uses := by
  cases q with
  | asleep z => cases z <;> rfl
  | _ => rfl

@[simp] theorem Pc.closes_rouse (q : Pc) : q.rouse.closes = q.closes := by
  cases q <;> rfl

@[simp] theorem Sync.uses_other (a : Sync) (q : Pc) : (a.other q).uses = q.uses := by
  cases a <;> simp [Sync.other]

@[simp] theorem Sync.closes_other (a : Sync) (q : Pc) : (a.other q).closes = q.closes := by
  cases a <;> simp [Sync.other]

end Next

section EndsStep

variable {ι : Type} [DecidableEq ι] {s s' : State ι} {i : ι}

theorem Ends.run (h : Ends s) (hs : s.run i = some s') : Ends s' := by
  obtain ⟨a, p, q, s₁, hn, hsync, rfl⟩ := run_some hs
  have hy := sync_some hsync
  have hnext := fun w => Pc.next_ends (w := w) hn
  generalize hpc : update s₁.pc i q = pc
  have huses : ∀ j w, (pc j).uses = some w → (s.pc j).uses = some w := by
    intro j w hj
    rw [← hpc] at hj
    by_cases hji : j = i
    · rw [hji, update_self] at hj
      rw [hji]
      exact (hnext w).1 hj
    · rwa [update_of_ne hji, hy.pc, Sync.uses_other] at hj
  have hcloses : ∀ j w, (pc j).closes = some w → (s.pc j).closes = some w := by
    intro j w hj
    rw [← hpc] at hj
    by_cases hji : j = i
    · rw [hji, update_self] at hj
      rw [hji]
      exact ((hnext w).2.1 hj).1
    · rwa [update_of_ne hji, hy.pc, Sync.closes_other] at hj
  refine ⟨fun j w hj => ⟨?_, fun m hm => ?_⟩, fun j w hj => ?_, fun j m w hj hm => ?_⟩
  · obtain ⟨hopen, hnot⟩ := h.uses j w (huses j w hj)
    obtain hsame | ⟨hc, -, -⟩ := (hnext w).2.2
    · exact hsame.trans hopen
    · exact absurd hc (hnot i)
  · exact (h.uses j w (huses j w hj)).2 m (hcloses m w hm)
  · have hold := hcloses j w hj
    obtain hsame | ⟨hc, hc', -⟩ := (hnext w).2.2
    · exact hsame.trans (h.closes j w hold)
    · obtain rfl := h.once j i w hold hc
      have hj : (pc j).closes = some w := hpc ▸ hj
      rw [← hpc, update_self, hc'] at hj
      cases hj
  · exact h.once j m w (hcloses j w hj) (hcloses m w hm)

theorem Ends.goto (h : Ends s) {q : Pc} {w : Bool} (hopen : s.pipe.isOpen w = true)
    (hnot : ∀ j, (s.pc j).closes ≠ some w)
    (hq : q.uses = some w ∧ q.closes = none ∨
      q.uses = none ∧ q.closes = some w ∧ ∀ j, (s.pc j).uses ≠ some w) : Ends (s.goto i q) := by
  have hpc : ∀ j, (s.goto i q).pc j = if j = i then q else s.pc j := by
    simp [State.goto, update_apply]
  refine ⟨fun j w' hj => ?_, fun j w' hj => ?_, fun j m w' hj hm => ?_⟩
  · rw [hpc] at hj
    split at hj
    next =>
      obtain ⟨hu, hc⟩ | ⟨hu, -, -⟩ := hq
      · obtain rfl : w = w' := some.inj (hu.symm.trans hj)
        refine ⟨hopen, fun m => ?_⟩
        rw [hpc]
        split
        · rw [hc]
          exact (some_ne_none _).symm
        · exact hnot m
      · rw [hu] at hj
        cases hj
    next =>
      obtain ⟨ho, hn⟩ := h.uses j w' hj
      refine ⟨ho, fun m => ?_⟩
      rw [hpc]
      split
      · obtain ⟨-, hc⟩ | ⟨-, hc, hnu⟩ := hq
        · rw [hc]
          exact (some_ne_none _).symm
        · rw [hc]
          intro he
          exact hnu j (hj.trans he.symm)
      · exact hn m
  · rw [hpc] at hj
    split at hj
    next =>
      obtain ⟨-, hc⟩ | ⟨-, hc, -⟩ := hq
      · rw [hc] at hj
        cases hj
      · obtain rfl : w = w' := some.inj (hc.symm.trans hj)
        exact hopen
    next => exact h.closes j w' hj
  · rw [hpc] at hj hm
    obtain ⟨-, hc⟩ | ⟨-, hc, -⟩ := hq
    · split at hj
      next =>
        rw [hc] at hj
        cases hj
      next =>
        split at hm
        next =>
          rw [hc] at hm
          cases hm
        next => exact h.once j m w' hj hm
    · split at hj
      next hji =>
        split at hm
        next hmi => rw [hji, hmi]
        next => exact absurd (hm.trans (hj.symm.trans hc)) (hnot m)
      next =>
        split at hm
        next => exact absurd (hj.trans (hm.symm.trans hc)) (hnot j)
        next => exact h.once j m w' hj hm

variable [Fintype ι]

theorem Ends.step (h : Ends s) {ev : Event ι} (hs : s.step ev = some s') : Ends s' := by
  cases ev with
  | write i c | read i n =>
    obtain ⟨-, hopen, hnot, rfl⟩ := enter_some hs
    exact h.goto hopen hnot (.inl ⟨rfl, rfl⟩)
  | close i writable =>
    obtain ⟨hnu, hs⟩ := step_close hs
    obtain ⟨-, hopen, hnot, rfl⟩ := enter_some hs
    exact h.goto hopen hnot (.inr ⟨rfl, rfl, hnu⟩)
  | kill i =>
    obtain rfl := step_kill hs
    have hpc : ∀ j, (s.goto i (s.pc i).rouse).pc j = if j = i then (s.pc i).rouse else s.pc j := by
      simp [State.goto, update_apply]
    have huses : ∀ j, ((s.goto i (s.pc i).rouse).pc j).uses = (s.pc j).uses := by
      intro j
      rw [hpc]
      split
      next hj => rw [Pc.uses_rouse, hj]
      next => rfl
    have hcloses : ∀ j, ((s.goto i (s.pc i).rouse).pc j).closes = (s.pc j).closes := by
      intro j
      rw [hpc]
      split
      next hj => rw [Pc.closes_rouse, hj]
      next => rfl
    refine ⟨fun j w hj => ⟨(h.uses j w ((huses j).symm.trans hj)).1, fun m hm => ?_⟩,
      fun j w hj => h.closes j w ((hcloses j).symm.trans hj), fun j m w hj hm => ?_⟩
    · exact (h.uses j w ((huses j).symm.trans hj)).2 m ((hcloses m).symm.trans hm)
    · exact h.once j m w ((hcloses j).symm.trans hj) ((hcloses m).symm.trans hm)
  | reuse i =>
    obtain rfl := step_reuse hs
    exact ⟨h.uses, h.closes, h.once⟩
  | run i => exact h.run hs

end EndsStep

/-! ## Sleeping -/

/-- What the sleeper waits for to end. -/
def Sleeper.Waits (p : Pipe) : Sleeper → Prop
  | .write _ _ => p.Full ∧ p.readopen = true
  | .read _ => p.Empty ∧ p.writeopen = true

namespace Pc

/-- The process is about to sleep for a reason. -/
def Fits (p : Pipe) : Pc → Prop
  | .writeFull _ _ => p.Full ∧ p.readopen = true
  | .sleep z => z.Waits p
  | _ => True

/-- Before it gives the lock back, the process wakes those who sleep there. -/
def Owes : Pc → Chan → Prop
  | .writeLoop _ _ true, .nread => True
  | .writeFull _ _, .nread => True
  | .writeEnd _, .nread => True
  | .readLoop _ _, .nwrite => True
  | .readEnd _, .nwrite => True
  | .closeWake true, .nread => True
  | .closeWake false, .nwrite => True
  | _, _ => False

/-- The process sleeps, or is past the point where it can be told not to. -/
def Rests (q : Pc) (z : Sleeper) : Prop := q = .doze z ∨ q = .asleep z

/-- A writer that has stored bytes is not made to give up by its having been killed. -/
def Spared (p : Pipe) (killed : Bool) : Pc → Prop
  | .writeLoop c i true => i < c.n → p.Full → killed = false
  | _ => True

instance decidableSpared (p : Pipe) (killed : Bool) (q : Pc) : Decidable (q.Spared p killed) := by
  unfold Spared
  split <;> infer_instance

end Pc

section Waits

variable {p p' : Pipe} {k : Bool} {a : Sync} {q q' : Pc} {z : Sleeper}

theorem Pc.next_fits (h : q.next p k = some (a, p', q')) (hf : q.Fits p) : q'.Fits p' := by
  cases q with
  | user | asleep => cases h
  | writeLoop c i stored =>
    rw [Pc.next] at h
    split at h
    · split at h
      next hfull =>
        split at h
        next => cases h; trivial
        next hgo =>
          cases h
          exact ⟨hfull, by simpa using (not_or.1 hgo).1⟩
      next => cases h; trivial
    · cases h; trivial
  | readWait n =>
    rw [Pc.next] at h
    split at h
    next hc =>
      split at h
      next => cases h; trivial
      next => cases h; exact hc
    next => cases h; trivial
  | readLoop n got =>
    rw [Pc.next] at h
    split at h <;> (cases h; trivial)
  | writeFull c i =>
    cases h
    exact hf
  | woken z => cases z <;> (cases h; trivial)
  | writeStart | writeEnd | writeReturn | readStart | readEnd | readReturn
  | closeStart | closeFlag | closeWake | closeEnd | sleep | doze =>
    cases h
    trivial

/-- **A reason to sleep is kept, or whoever ends it owes a `wakeup`.** -/
theorem Pc.next_waits (h : q.next p k = some (a, p', q')) (hsp : q.Spared p k)
    (hro : ∀ n, z = .read n → p.readopen = true) (hz : z.Waits p ∨ q.Owes z.chan) :
    a = .wakeup z.chan ∨ z.Waits p' ∨ q'.Owes z.chan := by
  cases q with
  | user | asleep => cases h
  | writeLoop c i stored =>
    rw [Pc.next] at h
    split at h
    next hi =>
      split at h
      next hfull =>
        split at h
        next hgo =>
          cases h
          cases z with
          | write c' i' =>
            obtain hw | ho := hz
            · exact .inr (.inl hw)
            · cases stored <;> exact ho.elim
          | read n =>
            cases stored with
            | false =>
              obtain hw | ho := hz
              · exact .inr (.inl hw)
              · exact ho.elim
            | true =>
              -- no one reads a pipe whose end for reading is closed
              obtain hr | hk := hgo
              · rw [hro n rfl] at hr
                cases hr
              · rw [hsp hi hfull] at hk
                cases hk
        next =>
          cases h
          cases z with
          | write c' i' =>
            obtain hw | ho := hz
            · exact .inr (.inl hw)
            · cases stored <;> exact ho.elim
          | read n => exact .inr (.inr trivial)
      next hfull =>
        cases h
        cases z with
        | write c' i' =>
          obtain hw | ho := hz
          · exact absurd hw.1 hfull
          · cases stored <;> exact ho.elim
        | read n => exact .inr (.inr trivial)
    next =>
      cases h
      cases z with
      | write c' i' =>
        obtain hw | ho := hz
        · exact .inr (.inl hw)
        · cases stored <;> exact ho.elim
      | read n => exact .inr (.inr trivial)
  | readWait n =>
    have hw : z.Waits p := hz.resolve_right (by cases z <;> exact id)
    rw [Pc.next] at h
    split at h
    · split at h <;> (cases h; exact .inr (.inl hw))
    · cases h
      exact .inr (.inl hw)
  | readLoop n got =>
    rw [Pc.next] at h
    split at h
    next hc =>
      cases h
      cases z with
      | write c i => exact .inr (.inr trivial)
      | read m =>
        obtain hw | ho := hz
        · exact absurd hw.1 hc.2
        · exact ho.elim
    next =>
      cases h
      cases z with
      | write c i => exact .inr (.inr trivial)
      | read m =>
        obtain hw | ho := hz
        · exact .inr (.inl hw)
        · exact ho.elim
  | closeFlag writable =>
    have hw : z.Waits p := hz.resolve_right (by cases z <;> exact id)
    cases h
    cases writable <;> cases z <;> first | exact .inr (.inr trivial) | exact .inr (.inl hw)
  | writeFull c i | writeEnd c =>
    cases h
    cases z with
    | write c' i' =>
      obtain hw | ho := hz
      · exact .inr (.inl hw)
      · exact ho.elim
    | read n => exact .inl rfl
  | readEnd got =>
    cases h
    cases z with
    | write c' i' => exact .inl rfl
    | read n =>
      obtain hw | ho := hz
      · exact .inr (.inl hw)
      · exact ho.elim
  | closeWake writable =>
    cases h
    cases writable <;> cases z <;> first
      | exact .inl rfl
      | exact .inr (.inl (hz.resolve_right id))
  | woken z' =>
    have hw : z.Waits p := hz.resolve_right (by cases z <;> exact id)
    cases z' <;> (cases h; exact .inr (.inl hw))
  | writeStart | writeReturn | readStart | readReturn | closeStart | closeEnd | sleep | doze =>
    have hw : z.Waits p := hz.resolve_right (by cases z <;> exact id)
    cases h
    exact .inr (.inl hw)

theorem Pc.next_rests (h : q.next p k = some (a, p', q')) (hr : q'.Rests z) :
    p' = p ∧ (q = .sleep z ∨ q = .doze z ∧ a = .sched) := by
  cases q with
  | user | asleep => cases h
  | sleep z' =>
    cases h
    obtain hr | hr := hr <;> cases hr
    exact ⟨rfl, .inl rfl⟩
  | doze z' =>
    cases h
    obtain hr | hr := hr <;> cases hr
    exact ⟨rfl, .inr ⟨rfl, rfl⟩⟩
  | writeLoop c i stored =>
    rw [Pc.next] at h
    split at h
    · split at h
      · split at h <;> (cases h; obtain hr | hr := hr <;> cases hr)
      · cases h
        obtain hr | hr := hr <;> cases hr
    · cases h
      obtain hr | hr := hr <;> cases hr
  | readWait n =>
    rw [Pc.next] at h
    split at h
    · split at h <;> (cases h; obtain hr | hr := hr <;> cases hr)
    · cases h
      obtain hr | hr := hr <;> cases hr
  | readLoop n got =>
    rw [Pc.next] at h
    split at h <;> (cases h; obtain hr | hr := hr <;> cases hr)
  | woken z' => cases z' <;> (cases h; obtain hr | hr := hr <;> cases hr)
  | writeStart | writeFull | writeEnd | writeReturn | readStart | readEnd | readReturn
  | closeStart | closeFlag | closeWake | closeEnd =>
    cases h
    obtain hr | hr := hr <;> cases hr

theorem Pc.locked_of_owes {ch : Chan} (h : q.Owes ch) : q.Locked := by
  cases q with
  | user | writeStart | readStart | closeStart | doze | asleep | woken =>
    revert h
    cases ch <;> exact False.elim
  | _ => trivial

theorem Pc.uses_of_rests {n : Int} (h : q.Rests (.read n)) : q.uses = some false := by
  obtain rfl | rfl := h <;> rfl

/-- Who rests after `wakeup` did so before, and sleeps elsewhere unless it was past `sleep`. -/
theorem Sync.rests_of_other (h : (a.other q).Rests z) :
    q.Rests z ∧ (a = .wakeup z.chan → q.Dozes) := by
  cases a with
  | wakeup ch =>
    cases q with
    | asleep z' =>
      have h : (Pc.wake ch (.asleep z')).Rests z := h
      rw [Pc.wake] at h
      split at h
      next => obtain h | h := h <;> cases h
      next hne =>
        obtain h' | h' := h
        · cases h'
        · cases h'
          exact ⟨.inr rfl, fun he => absurd (Sync.wakeup.inj he).symm hne⟩
    | doze z' => exact ⟨h, fun _ => trivial⟩
    | _ => obtain h | h := h <;> cases h
  | _ =>
    refine ⟨h, fun he => ?_⟩
    cases he

end Waits

/-! ## Runs -/

variable {ι : Type}

/-- A writer that finds the pipe full, and has stored bytes since it got the lock, has not
been killed. -/
def Spares (s : State ι) : Event ι → Prop
  | .run i => (s.pc i).Spared s.pipe (s.killed i)
  | _ => True

instance decidableSpares (s : State ι) (ev : Event ι) : Decidable (Spares s ev) := by
  unfold Spares
  split <;> infer_instance

/-- Everyone who sleeps has a reason, or is about to be woken. -/
structure Settled (s : State ι) : Prop where
  locks : Locks s
  ends : Ends s
  fits : ∀ i, s.lock = some i → (s.pc i).Fits s.pipe
  sleepers : ∀ j z, (s.pc j).Rests z → z.Waits s.pipe ∨ ∃ i, s.lock = some i ∧ (s.pc i).Owes z.chan

section SettledStep

variable [DecidableEq ι] {s s' : State ι} {i : ι}

theorem Settled.run (h : Settled s) (hok : (s.pc i).Spared s.pipe (s.killed i))
    (hs : s.run i = some s') : Settled s' := by
  have hlocks := h.locks.run hs
  have hends := h.ends.run hs
  obtain ⟨a, p, q, s₁, hn, hsync, rfl⟩ := run_some hs
  obtain ⟨hhold, hkeep, hdoze, hdoze'⟩ := Pc.next_sync hn
  have hy := sync_some hsync
  have hpc : ∀ j, (update s₁.pc i q) j = if j = i then q else a.other (s.pc j) := by
    intro j
    rw [update_apply]
    split
    · rfl
    · exact hy.pc j
  -- the process that goes on has the lock, or leaves the pipe alone
  have hfree : ¬ a.Holds → p = s.pipe := fun hne => Pc.next_pipe hn (by rintro rfl; exact hne trivial)
  refine ⟨hlocks, hends, fun j hj => ?_, fun j z hj => ?_⟩
  · have hl := (hlocks.lock j).1 hj
    show ((update s₁.pc i q) j).Fits p
    have hl : ((update s₁.pc i q) j).Locked := hl
    rw [hpc] at hl ⊢
    split at hl
    next hji =>
      rw [if_pos hji]
      refine Pc.next_fits hn ?_
      by_cases hli : s.lock = some i
      · exact h.fits i hli
      · have hnl : ¬ (s.pc i).Locked := fun hl => hli ((h.locks.lock i).2 hl)
        cases hq : s.pc i with
        | writeFull | sleep =>
          rw [hq] at hnl
          exact absurd trivial hnl
        | _ => trivial
    next hji =>
      rw [if_neg hji]
      have hlj : (s.pc j).Locked := by
        cases a <;> simpa [Sync.other] using hl
      have hother : a.other (s.pc j) = s.pc j := by
        cases a with
        | wakeup ch => exact Pc.wake_of_locked hlj
        | _ => rfl
      have hni : ¬ a.Holds := fun hh => hji (h.locks.only hlj (hhold.2 hh))
      rw [hother, hfree hni]
      exact h.fits j ((h.locks.lock j).2 hlj)
  · have hj : ((update s₁.pc i q) j).Rests z := hj
    show z.Waits p ∨ ∃ m, s₁.lock = some m ∧ ((update s₁.pc i q) m).Owes z.chan
    -- a step without the lock leaves the pipe, and whoever has the lock, as they are
    have hidle : ¬ a.Holds → (z.Waits s.pipe ∨ ∃ m, s.lock = some m ∧ (s.pc m).Owes z.chan) →
        z.Waits p ∨ ∃ m, s₁.lock = some m ∧ ((update s₁.pc i q) m).Owes z.chan := by
      intro hne hz
      rw [hfree hne]
      refine hz.imp_right ?_
      rintro ⟨m, hm, ho⟩
      have hmi : m ≠ i := by
        rintro rfl
        exact hne (hhold.1 (Pc.locked_of_owes ho))
      refine ⟨m, ?_, ?_⟩
      · rw [hy.lock]
        cases a with
        | acquire =>
          rw [hy.free rfl] at hm
          cases hm
        | sched => exact hm
        | _ => exact absurd trivial hne
      · rw [update_of_ne hmi, hy.pc]
        cases a with
        | acquire | sched => exact ho
        | _ => exact absurd trivial hne
    rw [hpc] at hj
    split at hj
    next hji =>
      obtain ⟨hp, hsl | ⟨hd, rfl⟩⟩ := Pc.next_rests hn hj
      · have hw := h.fits i ((h.locks.lock i).2 (by rw [hsl]; trivial))
        rw [hsl] at hw
        rw [hp]
        exact .inl hw
      · exact hidle id (h.sleepers i z (.inl hd))
    next hji =>
      obtain ⟨hrest, hnd⟩ := Sync.rests_of_other hj
      have hold := h.sleepers j z hrest
      by_cases hh : a.Holds
      · have hli := (h.locks.lock i).2 (hhold.2 hh)
        have hz : z.Waits s.pipe ∨ (s.pc i).Owes z.chan := by
          refine hold.imp_right ?_
          rintro ⟨m, hm, ho⟩
          obtain rfl : i = m := some.inj (hli.symm.trans hm)
          exact ho
        have hro : ∀ n, z = .read n → s.pipe.readopen = true := by
          rintro n rfl
          exact (h.ends.uses j false (Pc.uses_of_rests hrest)).1
        obtain ha | hw | ho := Pc.next_waits hn hok hro hz
        · have := (h.locks.ptable j).2 (hnd ha)
          rw [hy.quiet (.inr ⟨_, ha⟩)] at this
          cases this
        · exact .inl hw
        · refine .inr ⟨i, (hlocks.lock i).2 ?_, ?_⟩
          · show ((update s₁.pc i q) i).Locked
            rw [update_self]
            exact Pc.locked_of_owes ho
          · rwa [update_self]
      · exact hidle hh hold

omit [DecidableEq ι] in
/-- The pipe is what it was, so is the process that has the lock, and no one else has come
to rest. -/
theorem Settled.frame (h : Settled s) (hlocks : Locks s') (hends : Ends s')
    (hpipe : s'.pipe = s.pipe) (hl : s'.lock = s.lock)
    (hpc : ∀ i, s.lock = some i → s'.pc i = s.pc i)
    (hrest : ∀ j z, (s'.pc j).Rests z → (s.pc j).Rests z) : Settled s' where
  locks := hlocks
  ends := hends
  fits i hi := by
    rw [hl] at hi
    rw [hpc i hi, hpipe]
    exact h.fits i hi
  sleepers j z hj := by
    rw [hpipe]
    refine (h.sleepers j z (hrest j z hj)).imp_right ?_
    rintro ⟨m, hm, ho⟩
    exact ⟨m, hl.trans hm, by rwa [hpc m hm]⟩

variable [Fintype ι]

theorem Settled.step (h : Settled s) {ev : Event ι} (hok : Spares s ev)
    (hs : s.step ev = some s') : Settled s' := by
  have hlocks := h.locks.step hs
  have hends := h.ends.step hs
  have henter : ∀ {i writable q}, (∀ z, ¬ q.Rests z) → s.enter i writable q = some s' →
      Settled s' := by
    intro i writable q hq he
    obtain ⟨hu, -, -, rfl⟩ := enter_some he
    refine h.frame hlocks hends rfl rfl (fun j hj => update_of_ne ?_ _ _) fun j z hj => ?_
    · rintro rfl
      exact (Pc.not_locked_of_isUser hu).1 ((h.locks.lock j).1 hj)
    · have hj : ((update s.pc i q) j).Rests z := hj
      rw [update_apply] at hj
      split at hj
      next => exact absurd hj (hq z)
      next => exact hj
  cases ev with
  | write | read => exact henter (fun z hz => by obtain hz | hz := hz <;> cases hz) hs
  | close i writable =>
    obtain ⟨-, hs⟩ := step_close hs
    exact henter (fun z hz => by obtain hz | hz := hz <;> cases hz) hs
  | kill i =>
    obtain rfl := step_kill hs
    refine h.frame hlocks hends rfl rfl (fun j hj => ?_) fun j z hj => ?_
    · show update s.pc i _ j = _
      by_cases hji : j = i
      · rw [hji, update_self, Pc.rouse_of_locked]
        exact (h.locks.lock i).1 (hji ▸ hj)
      · rw [update_of_ne hji]
    · have hj : ((update s.pc i (s.pc i).rouse) j).Rests z := hj
      rw [update_apply] at hj
      split at hj
      next hji =>
        rw [hji]
        cases hq : s.pc i with
        | asleep z' =>
          rw [hq] at hj
          obtain hj | hj := hj <;> cases hj
        | _ =>
          rw [hq] at hj
          exact hj
      next => exact hj
  | reuse i =>
    obtain rfl := step_reuse hs
    exact h.frame hlocks hends rfl rfl (fun _ _ => rfl) fun _ _ => id
  | run i => exact h.run hok hs

end SettledStep

/-- **Users of a pipe are not stranded, unless a writer that was killed leaves bytes behind.**
In every run in which no writer that has stored bytes since it got the lock finds the pipe
full and itself killed: whenever the locks are free, a reader sleeps only on a pipe that is
empty and open for writing, and a writer only on one that is full and open for reading. -/
theorem sleepers_wait [DecidableEq ι] [Fintype ι] (s : State ι)
    (h : (machine ι).ReachableBy Spares s) (hl : s.lock = none) :
    (∀ j n, s.pc j = .asleep (.read n) → s.pipe.nread = s.pipe.nwrite ∧ s.pipe.writeopen = true) ∧
    ∀ j c i, s.pc j = .asleep (.write c i) →
      s.pipe.nwrite = s.pipe.nread + UInt32.ofNat PIPESIZE ∧ s.pipe.readopen = true := by
  have hs : Settled s := by
    refine Machine.ReachableBy.induct ?_ ?_ h
    · rintro s ⟨data, ret, killed, rfl⟩
      refine ⟨⟨fun i => iff_of_false nofun id, fun i => iff_of_false nofun id⟩,
        ⟨fun i w => nofun, fun i w => nofun, fun i j w => nofun⟩, fun i => nofun, fun j z hj => ?_⟩
      obtain hj | hj := hj <;> cases hj
    · intro s ev s' _ hi hok hs
      exact hi.step hok hs
  have hwaits : ∀ j z, s.pc j = .asleep z → z.Waits s.pipe := by
    intro j z hj
    obtain hw | ⟨i, hi, -⟩ := hs.sleepers j z (.inr hj)
    · exact hw
    · rw [hl] at hi
      cases hi
  exact ⟨fun j n hj => hwaits j _ hj, fun j c i hj => hwaits j _ hj⟩

/-- The process is asleep in `piperead`. -/
def Pc.sleepsToRead : Pc → Bool
  | .asleep (.read _) => true
  | _ => false

theorem Pc.exists_of_sleepsToRead {q : Pc} (h : q.sleepsToRead = true) :
    ∃ n, q = .asleep (.read n) := by
  cases q with
  | asleep z =>
    cases z with
    | read n => exact ⟨n, rfl⟩
    | write => cases h
  | _ => cases h

/-- A reader sleeps on an empty pipe; what a writer stores is read, and the reader sleeps
again. -/
theorem sleepers_wait_reader : ∃ s : State (Fin 2), (machine (Fin 2)).ReachableBy Spares s ∧
    s.pipe.nwrite = 3 ∧ (∃ n, s.pc 1 = .asleep (.read n)) ∧ s.pipe.nread = s.pipe.nwrite := by
  obtain ⟨s, hr, hw, hl, hz⟩ := Machine.reachableBy_of_runBy (M := machine (Fin 2)) Spares
    (P := fun s => s.pipe.nwrite = 3 ∧ s.lock = none ∧ (s.pc 1).sleepsToRead = true)
    ⟨.alloc fun _ => 0, none, none, fun _ => .user 0, fun _ => false⟩
    ([.read 1 9] ++ List.replicate 4 (.run 1) ++ [.write 0 ⟨fun _ => 7, 3⟩] ++
      List.replicate 7 (.run 0) ++ List.replicate 8 (.run 1) ++ [.read 1 9] ++
      List.replicate 4 (.run 1))
    ⟨fun _ => 0, fun _ => 0, fun _ => false, rfl⟩ (by decide)
  obtain ⟨n, hn⟩ := Pc.exists_of_sleepsToRead hz
  exact ⟨s, hr, hw, ⟨n, hn⟩, ((sleepers_wait s hr hl).1 1 n hn).1⟩

/-- **A reader is left asleep on a full pipe.**  It sleeps while the pipe is empty.  A
writer that is killed stores as many bytes as fit, finds the pipe full and returns `-1`. -/
theorem sleepers_stranded : ∃ s : State (Fin 2), (machine (Fin 2)).Reachable s ∧
    s.lock = none ∧ s.ptable = none ∧ (∃ n, s.pc 1 = .asleep (.read n)) ∧
    s.pipe.nread ≠ s.pipe.nwrite ∧ s.pipe.writeopen = true := by
  obtain ⟨s, hr, hl, hp, hz, hne, ho⟩ := Machine.reachable_of_run (M := machine (Fin 2))
    (P := fun s => s.lock = none ∧ s.ptable = none ∧ (s.pc 1).sleepsToRead = true ∧
      s.pipe.nread ≠ s.pipe.nwrite ∧ s.pipe.writeopen = true)
    ⟨.alloc fun _ => 0, none, none, fun _ => .user 0, fun _ => false⟩
    ([.read 1 9] ++ List.replicate 4 (.run 1) ++ [.write 0 ⟨fun _ => 7, 513⟩, .kill 0] ++
      List.replicate 515 (.run 0))
    ⟨fun _ => 0, fun _ => 0, fun _ => false, rfl⟩ (by set_option maxRecDepth 20000 in decide)
  exact ⟨s, hr, hl, hp, Pc.exists_of_sleepsToRead hz, hne, ho⟩

end Xv6.Pipes
