import OperatingSystems.Pipes.System

/-!
# A pipe is a stream of bytes

A run also records the bytes that writers have stored and those that readers have returned
with, in the order in which it happens, which is the order in which they have the lock.
Every step moves bytes from one place to the next: into the ring, from the ring to what a
reader has copied, and from there to its caller (`Pc.next_fifo`).

* `pipe_fifo`: what was returned, what a reader has at hand and what is in the ring make up
  what was stored.
-/

namespace Xv6.Pipes

open Function State

/-! ## What a step moves -/

namespace Pc

/-- What a reader has copied and not returned with yet. -/
def got : Pc → List UInt8
  | .readLoop _ got | .readEnd got | .readReturn _ got => got
  | _ => []

/-- The bytes that the next step stores. -/
def stores (p : Pipe) : Pc → List UInt8
  | .writeLoop c i _ => if i < c.n ∧ ¬ p.Full then [c.addr i] else []
  | _ => []

/-- The bytes that the next step returns with. -/
def returns : Pc → List UInt8
  | .readReturn _ got => got
  | _ => []

theorem got_of_not_locked {q : Pc} (h : ¬ q.Locked) : q.got = [] := by
  cases q with
  | readLoop | readEnd | readReturn => exact absurd trivial h
  | _ => rfl

end Pc

theorem pipesize_dvd : PIPESIZE ∣ 2 ^ 32 := by decide

namespace Pipe

variable {p : Pipe}

/-- The number of bytes in the pipe. -/
def size (p : Pipe) : Nat := (p.nwrite - p.nread).toNat

theorem full_iff : p.Full ↔ p.size = PIPESIZE := UInt32.eq_add_iff

theorem content_put (h : p.size < PIPESIZE) (x : UInt8) : (p.put x).content = p.content ++ [x] :=
  window_push pipesize_dvd (by decide) h x

theorem size_put (h : p.size < PIPESIZE) (x : UInt8) : (p.put x).size = p.size + 1 := by
  have hsize : PIPESIZE < 2 ^ 32 - 1 := by decide
  exact UInt32.toNat_add_one_sub (lt_trans h hsize)

theorem content_drop (h : ¬ p.Empty) : p.content = p.first :: p.drop.content :=
  window_pop pipesize_dvd h

theorem size_drop (h : ¬ p.Empty) : p.drop.size + 1 = p.size := UInt32.toNat_sub_add_one h

@[simp] theorem content_shut (writable : Bool) : (p.shut writable).content = p.content := by
  cases writable <;> rfl

@[simp] theorem size_shut (writable : Bool) : (p.shut writable).size = p.size := by
  cases writable <;> rfl

end Pipe

/-- **A step moves bytes on, and loses none.** -/
theorem Pc.next_fifo {p p' : Pipe} {k : Bool} {a : Sync} {q q' : Pc}
    (h : q.next p k = some (a, p', q')) (hsize : p.size ≤ PIPESIZE) :
    q.got ++ p.content ++ q.stores p = q.returns ++ q'.got ++ p'.content ∧ p'.size ≤ PIPESIZE := by
  cases q with
  | user | asleep => cases h
  | writeLoop c i stored =>
    rw [Pc.next] at h
    split at h
    next hi =>
      split at h
      next hfull =>
        have hstores : (writeLoop c i stored).stores p = [] := if_neg fun hc => hc.2 hfull
        rw [hstores]
        split at h <;> (cases h; exact ⟨by simp [got, returns], hsize⟩)
      next hfull =>
        cases h
        have hlt : p.size < PIPESIZE := lt_of_le_of_ne hsize fun he => hfull (Pipe.full_iff.2 he)
        have hstores : (writeLoop c i stored).stores p = [c.addr i] := if_pos ⟨hi, hfull⟩
        rw [hstores, Pipe.content_put hlt, Pipe.size_put hlt]
        exact ⟨by simp [got, returns], hlt⟩
    next hi =>
      cases h
      have hstores : (writeLoop c i stored).stores p = [] := if_neg fun hc => hi hc.1
      rw [hstores]
      exact ⟨by simp [got, returns], hsize⟩
  | readWait n =>
    rw [Pc.next] at h
    split at h
    · split at h <;> (cases h; exact ⟨by simp [got, stores, returns], hsize⟩)
    · cases h
      exact ⟨by simp [got, stores, returns], hsize⟩
  | readLoop n g =>
    rw [Pc.next] at h
    split at h
    next hc =>
      cases h
      have := Pipe.size_drop hc.2
      refine ⟨?_, by omega⟩
      rw [Pipe.content_drop hc.2]
      simp [got, stores, returns]
    next =>
      cases h
      exact ⟨by simp [got, stores, returns], hsize⟩
  | closeFlag writable =>
    cases h
    exact ⟨by simp [got, stores, returns], by simpa using hsize⟩
  | woken z => cases z <;> (cases h; exact ⟨by simp [got, stores, returns], hsize⟩)
  | writeStart | writeFull | writeEnd | writeReturn | readStart | readEnd | readReturn
  | closeStart | closeWake | closeEnd | sleep | doze =>
    cases h
    exact ⟨by simp [got, stores, returns], hsize⟩

/-! ## Runs -/

/-- The bytes that were stored and those that were returned with, so far. -/
structure Stream where
  stored : List UInt8
  returned : List UInt8

variable {ι : Type} [DecidableEq ι] [Fintype ι] {s s' : State ι}

/-- Record a step. -/
def Stream.note (s : State ι) (ev : Event ι) (g : Stream) : Stream :=
  match ev with
  | .run i => ⟨g.stored ++ (s.pc i).stores s.pipe, g.returned ++ (s.pc i).returns⟩
  | _ => g

/-- The runs of the processes, with what they store and return. -/
def recorded (ι : Type) [DecidableEq ι] [Fintype ι] : Machine (State ι × Stream) (Event ι) :=
  (machine ι).ghost ⟨[], []⟩ Stream.note

/-- What the process that has the lock has copied. -/
def State.inflight (s : State ι) : List UInt8 :=
  match s.lock with
  | some i => (s.pc i).got
  | none => []

/-- Nothing is lost. -/
structure Fifo (s : State ι) (g : Stream) : Prop where
  locks : Locks s
  size : s.pipe.size ≤ PIPESIZE
  stream : g.stored = g.returned ++ s.inflight ++ s.pipe.content

omit [DecidableEq ι] [Fintype ι] in
theorem State.inflight_of_locked {s : State ι} (h : Locks s) {i : ι} (hi : (s.pc i).Locked) :
    s.inflight = (s.pc i).got := by
  rw [inflight, (h.lock i).2 hi]

omit [DecidableEq ι] [Fintype ι] in
theorem State.inflight_of_free {s : State ι} (h : s.lock = none) : s.inflight = [] := by
  rw [inflight, h]

omit [DecidableEq ι] [Fintype ι] in
/-- The process that has the lock is where it was. -/
theorem State.inflight_congr (hl : s'.lock = s.lock)
    (h : ∀ i, s.lock = some i → s'.pc i = s.pc i) : s'.inflight = s.inflight := by
  unfold inflight
  rw [hl]
  split
  next i hi => rw [h i hi]
  next => rfl

omit [DecidableEq ι] [Fintype ι] in
theorem Fifo.frame {g : Stream} (h : Fifo s g) (hlocks : Locks s')
    (hpipe : s'.pipe = s.pipe) (hl : s'.lock = s.lock)
    (hpc : ∀ i, s.lock = some i → s'.pc i = s.pc i) : Fifo s' g where
  locks := hlocks
  size := by rw [hpipe]; exact h.size
  stream := by rw [hpipe, inflight_congr hl hpc]; exact h.stream

omit [Fintype ι] in
theorem Fifo.run {g : Stream} (h : Fifo s g) {i : ι} (hs : s.run i = some s') :
    Fifo s' ⟨g.stored ++ (s.pc i).stores s.pipe, g.returned ++ (s.pc i).returns⟩ := by
  have hlocks := h.locks.run hs
  obtain ⟨a, p, q, s₁, hn, hsync, rfl⟩ := run_some hs
  obtain ⟨hhold, hkeep, hdoze, -⟩ := Pc.next_sync hn
  have hy := sync_some hsync
  obtain ⟨hmove, hsize⟩ := Pc.next_fifo hn h.size
  by_cases hsched : a = .sched
  · -- the process has no lock, and leaves the pipe alone
    have hnl : ¬ (s.pc i).Locked := by
      rw [hhold, hsched]
      exact id
    have hnote : (⟨g.stored ++ (s.pc i).stores s.pipe, g.returned ++ (s.pc i).returns⟩ : Stream) =
        g := by
      have hd := hdoze.2 hsched
      cases hq : s.pc i with
      | doze z => simp [Pc.stores, Pc.returns]
      | _ =>
        rw [hq] at hd
        exact hd.elim
    have hsame : ∀ j, s₁.pc j = s.pc j := by
      intro j
      rw [hy.pc, hsched]
      rfl
    rw [hnote]
    refine h.frame hlocks (Pc.next_pipe hn (by rw [hsched]; exact nofun)) ?_ fun j hj => ?_
    · show s₁.lock = s.lock
      rw [hy.lock, hsched]
      rfl
    · have hji : j ≠ i := by
        rintro rfl
        exact hnl ((h.locks.lock j).1 hj)
      exact (update_of_ne hji _ _).trans (hsame j)
  · have hbefore : s.inflight = (s.pc i).got := by
      by_cases hl : (s.pc i).Locked
      · exact inflight_of_locked h.locks hl
      · have ha : a = .acquire := by
          rw [hhold] at hl
          cases a with
          | acquire => rfl
          | sched => exact absurd rfl hsched
          | _ => exact absurd trivial hl
        rw [inflight_of_free (hy.free ha), Pc.got_of_not_locked hl]
    have hafter : inflight { s₁ with pipe := p, pc := update s₁.pc i q } = q.got := by
      by_cases hl : q.Locked
      · rw [inflight_of_locked hlocks]
        · show (update s₁.pc i q i).got = _
          rw [update_self]
        · show (update s₁.pc i q i).Locked
          rwa [update_self]
      · rw [Pc.got_of_not_locked hl]
        refine inflight_of_free ?_
        show s₁.lock = none
        rw [hkeep] at hl
        rw [hy.lock]
        cases a with
        | release | sleep => rfl
        | sched => exact absurd rfl hsched
        | _ => exact absurd trivial hl
    have hstream := h.stream
    rw [hbefore] at hstream
    refine ⟨hlocks, hsize, ?_⟩
    rw [hafter]
    show g.stored ++ _ = g.returned ++ _ ++ _ ++ p.content
    rw [hstream]
    simp only [List.append_assoc] at hmove ⊢
    rw [hmove]

theorem Fifo.step {g : Stream} (h : Fifo s g) {ev : Event ι}
    (hs : s.step ev = some s') : Fifo s' (Stream.note s ev g) := by
  have hlocks := h.locks.step hs
  have henter : ∀ {i writable q}, s.enter i writable q = some s' → Fifo s' g := by
    intro i writable q he
    obtain ⟨hu, -, -, rfl⟩ := enter_some he
    refine h.frame hlocks rfl rfl fun j hj => update_of_ne ?_ _ _
    rintro rfl
    exact (Pc.not_locked_of_isUser hu).1 ((h.locks.lock j).1 hj)
  cases ev with
  | write | read => exact henter hs
  | close i writable =>
    obtain ⟨-, hs⟩ := step_close hs
    exact henter hs
  | kill i =>
    obtain rfl := step_kill hs
    refine h.frame hlocks rfl rfl fun j hj => ?_
    show update s.pc i _ j = _
    by_cases hji : j = i
    · rw [hji, update_self, Pc.rouse_of_locked]
      exact (h.locks.lock i).1 (hji ▸ hj)
    · rw [update_of_ne hji]
  | reuse i =>
    obtain rfl := step_reuse hs
    exact h.frame hlocks rfl rfl fun _ _ => rfl
  | run i => exact h.run hs

/-! ## What a reader returns -/

/-- A reader returns with the number of bytes that it has copied, or with -1 and none. -/
def Pc.Counts : Pc → Prop
  | .readReturn ret got => ret = got.length ∨ ret = -1 ∧ got = []
  | _ => True

theorem Pc.next_counts {p p' : Pipe} {k : Bool} {a : Sync} {q q' : Pc}
    (h : q.next p k = some (a, p', q')) : q'.Counts := by
  cases q with
  | user | asleep => cases h
  | writeLoop | readLoop =>
    rw [Pc.next] at h
    repeat' split at h
    all_goals
      cases h
      trivial
  | readWait n =>
    rw [Pc.next] at h
    split at h
    · split at h
      · cases h
        exact .inr ⟨rfl, rfl⟩
      · cases h
        trivial
    · cases h
      trivial
  | readEnd got =>
    cases h
    exact .inl rfl
  | woken z => cases z <;> (cases h; trivial)
  | _ =>
    cases h
    trivial

theorem Pc.Counts.other {q : Pc} (h : q.Counts) (a : Sync) : (a.other q).Counts := by
  cases a with
  | wakeup ch =>
    cases q with
    | asleep z =>
      show (if _ then _ else _ : Pc).Counts
      split <;> trivial
    | _ => exact h
  | _ => exact h

theorem Pc.Counts.rouse {q : Pc} (h : q.Counts) : q.rouse.Counts := by
  cases q with
  | asleep => trivial
  | _ => exact h

theorem State.step_counts (h : ∀ i, (s.pc i).Counts) {ev : Event ι}
    (hs : s.step ev = some s') : ∀ i, (s'.pc i).Counts := by
  have hgoto : ∀ {f : ι → Pc} {i q}, (∀ j, (f j).Counts) → q.Counts →
      ∀ j, (update f i q j).Counts := fun hf hq =>
    (forall_update_iff _ fun _ q => Pc.Counts q).2 ⟨hq, fun j _ => hf j⟩
  cases ev with
  | write i c | read i n =>
    obtain ⟨-, -, -, rfl⟩ := enter_some hs
    exact hgoto h trivial
  | close i writable =>
    obtain ⟨-, hs⟩ := step_close hs
    obtain ⟨-, -, -, rfl⟩ := enter_some hs
    exact hgoto h trivial
  | kill i =>
    obtain rfl := step_kill hs
    exact hgoto h (h i).rouse
  | reuse i =>
    obtain rfl := step_reuse hs
    exact h
  | run i =>
    obtain ⟨a, p, q, s₁, hn, hsync, rfl⟩ := run_some hs
    refine hgoto (fun j => ?_) (Pc.next_counts hn)
    rw [(sync_some hsync).pc]
    exact (h j).other a

/-- **A pipe is a stream of bytes.**  What readers have returned with is a prefix of what
writers have stored; the rest, apart from what a reader that has the lock is about to return
with, is what stands in the ring, which is at most `PIPESIZE` bytes.  A reader returns the
number of the bytes, or -1 if it was killed and has none. -/
theorem pipe_fifo (x : State ι × Stream) (h : (recorded ι).Reachable x) :
    x.2.returned <+: x.2.stored ∧ (x.1.pipe.nwrite - x.1.pipe.nread).toNat ≤ PIPESIZE ∧
    x.2.stored = x.2.returned ++ x.1.inflight ++
      window PIPESIZE x.1.pipe.data x.1.pipe.nread x.1.pipe.nwrite ∧
    (x.1.lock = none → x.2.stored = x.2.returned ++
      window PIPESIZE x.1.pipe.data x.1.pipe.nread x.1.pipe.nwrite) ∧
    ∀ i ret got, x.1.pc i = .readReturn ret got → ret = got.length ∨ ret = -1 ∧ got = [] := by
  obtain ⟨hf, hcounts⟩ : Fifo x.1 x.2 ∧ ∀ i, (x.1.pc i).Counts := by
    refine Machine.ReachableBy.induct (I := fun x => Fifo x.1 x.2 ∧ ∀ i, (x.1.pc i).Counts) ?_ ?_ h
    · rintro ⟨s, g⟩ ⟨⟨data, ret, killed, rfl⟩, hg⟩
      obtain rfl : g = ⟨[], []⟩ := hg
      refine ⟨⟨⟨fun i => iff_of_false nofun id, fun i => iff_of_false nofun id⟩, ?_, ?_⟩,
        fun _ => trivial⟩
      · show ((0 : UInt32) - 0).toNat ≤ PIPESIZE
        decide
      · show [] = [] ++ [] ++ window PIPESIZE data 0 0
        rw [window_self]
        rfl
    · rintro x ev x' - ⟨hf, hcounts⟩ - hs
      obtain ⟨hs, hg⟩ := Machine.ghost_step hs
      rw [hg]
      exact ⟨hf.step hs, step_counts hcounts hs⟩
  refine ⟨⟨x.1.inflight ++ x.1.pipe.content, ?_⟩, hf.size, hf.stream, fun hl => ?_,
    fun i ret got hq => ?_⟩
  · rw [hf.stream, List.append_assoc]
  · have := hf.stream
    rwa [inflight_of_free hl, List.append_nil] at this
  · have := hcounts i
    rwa [hq] at this

/-- A process writes three bytes, and another one reads two of them. -/
theorem pipe_fifo_read : ∃ x : State (Fin 2) × Stream, (recorded (Fin 2)).Reachable x ∧
    x.2.returned = [7, 8] ∧ x.2.stored = [7, 8] ++
      window PIPESIZE x.1.pipe.data x.1.pipe.nread x.1.pipe.nwrite := by
  obtain ⟨x, hr, hret, hl⟩ := Machine.reachable_of_run (M := recorded (Fin 2))
    (P := fun x => x.2.returned = [7, 8] ∧ x.1.lock = none)
    (⟨.alloc fun _ => 0, none, none, fun _ => .user 0, fun _ => false⟩, ⟨[], []⟩)
    ([.write 0 ⟨fun i => 7 + UInt8.ofNat i, 3⟩, .read 1 2] ++ List.replicate 7 (.run 0) ++
      List.replicate 7 (.run 1))
    ⟨⟨_, fun _ => 0, _, rfl⟩, rfl⟩ (by decide)
  obtain ⟨-, -, -, hfree, -⟩ := pipe_fifo x hr
  exact ⟨x, hr, hret, hret ▸ hfree hl⟩

end Xv6.Pipes
