import OperatingSystems.Proc.Kill
import OperatingSystems.Proc.Lifecycle

/-!
# What `fork` returns

`allocproc` takes process IDs from a counter of type `int`: one for every call that finds
a slot, also when the `fork` it is for fails later on.  Nothing stops the counter at its
largest value.

* `Issued`: the process IDs in use come from the counter, and they are all different.
* `forkKernel`: the kernel with a history variable that says who is in `fork`, and which
  child it has made.
* `fork_unambiguous`: while the counter is positive, `fork` returns a positive number that
  no other process has, or `-1` if it makes no child.
* `fork_returns_negative`: the counter need not be positive.
-/

namespace Xv6

open ProcState Function List Kernel Option Machine

namespace Kernel

variable {s s' : Kernel} {c : Cpu} {ch : Choice} {op : Op} {k : List Op}

/-! ## The counter -/

/-- The process IDs that have been taken from the counter are below this. -/
def issued (s : Kernel) : Int := if 0 < s.nextpid.toInt then s.nextpid.toInt else 2 ^ 31

/-- If the event takes a process ID, the counter is positive. -/
def counts (s : Kernel) (e : Event) : Prop :=
  s.executes e = some .allocScan → s.proc.firstUnused ≠ none → 0 < s.nextpid

/-- The process IDs in use. -/
structure Issued (s : Kernel) : Prop where
  range : ∀ p, (s.proc p).state ≠ UNUSED →
    0 < (s.proc p).pid.toInt ∧ (s.proc p).pid.toInt < s.issued
  inj : ∀ p q, (s.proc p).state ≠ UNUSED → (s.proc q).state ≠ UNUSED →
    (s.proc p).pid = (s.proc q).pid → p = q

theorem lt_issued_succ (hpos : 0 < s.nextpid) (hn : s'.nextpid = s.nextpid + 1) :
    s.nextpid.toInt = s.issued ∧ s.issued < s'.issued := by
  have h0 : 0 < s.nextpid.toInt := Int32.lt_iff_toInt_lt.1 hpos
  have hlt := s.nextpid.toInt_lt
  have hs : s.issued = s.nextpid.toInt := if_pos h0
  refine ⟨hs.symm, ?_⟩
  rw [hs, issued, hn, Int32.toInt_add, show Int32.toInt 1 = 1 from rfl]
  by_cases hmax : s.nextpid.toInt + 1 < 2 ^ 31
  · rw [Int.bmod_eq_of_le (by omega) (by omega), if_pos (by omega)]
    omega
  · have : s.nextpid.toInt + 1 = 2 ^ 31 := by omega
    rw [this, if_neg (by decide)]
    omega

theorem procEffect_nextpid {me : Slot} {e : Effect} (h : s.procEffect me ch op k = some e) :
    e.nextpid = s.nextpid ∨
      (op = .allocScan ∧ s.proc.firstUnused ≠ none ∧ e.nextpid = s.nextpid + 1) := by
  cases op with
  | io => cases ch <;> cases h <;> exact .inl rfl
  | allocScan =>
    simp only [procEffect] at h
    split at h <;> cases h
    · exact .inl rfl
    · rename_i hp
      exact .inr ⟨rfl, by simp [hp], rfl⟩
  | allocStack q | forkCopy q | killScan pid =>
    simp only [procEffect] at h
    split at h <;> cases h <;> exact .inl rfl
  | exitCheck | killWake q | sleepLoop n t =>
    simp only [procEffect] at h
    split_ifs at h <;> cases h <;> exact .inl rfl
  | waitScan stat =>
    simp only [procEffect] at h
    split at h <;> split_ifs at h <;> cases h <;> exact .inl rfl
  | exitPass =>
    simp only [procEffect, some.injEq] at h
    exact .inl (by rw [← h])
  | _ =>
    first
    | (cases h; exact .inl rfl)
    | cases h

/-- The counter moves when `allocproc` finds a slot. -/
theorem exec_nextpid (h : s.exec c ch op k = some s') : s'.nextpid = s.nextpid ∨
      (op = .allocScan ∧ s.proc.firstUnused ≠ none ∧ s'.nextpid = s.nextpid + 1) := by
  cases exec_cases h with
  | @effect _ e _ he =>
    unfold effect at he
    split at he
    · cases he; exact .inl rfl
    · cases he; exact .inl rfl
    · cases he; exact .inl rfl
    · cases he; exact .inl rfl
    · split at he
      · exact procEffect_nextpid he
      · split at he <;> cases he <;> exact .inl rfl
  | _ => exact .inl rfl

/-- A slot in use was in use with the same process ID, or has just been taken. -/
theorem Inv.pid_or_alloc (hi : s.Inv) (hk : (s.cpu c).code = op :: k)
    (h : s.exec c ch op k = some s') {p : Slot} (hu : (s'.proc p).state ≠ UNUSED) :
    ((s.proc p).state ≠ UNUSED ∧ (s'.proc p).pid = (s.proc p).pid) ∨
      (op = .allocScan ∧ s.proc.firstUnused = some p ∧ (s'.proc p).pid = s.nextpid) := by
  have hch := exec_change h p
  rw [← Proc.core_state (s'.proc p)] at hu
  rw [← Proc.core_pid (s'.proc p)]
  generalize (s'.proc p).core = q' at hch hu
  cases hch with
  | wake _ hs => exact .inl ⟨by simp [hs], rfl⟩
  | tick => exact .inl ⟨by simpa using hu, by simp⟩
  | alloc hp => exact .inr ⟨rfl, hp, rfl⟩
  | allocFail _ | forkFail _ | reap hz | reapStat hz => exact absurd rfl hu
  | forkRun => exact .inl ⟨by simp [hi.state_of_embryo hk rfl], rfl⟩
  | sleep hp | yield hp | zombie hp => exact .inl ⟨(hi.live c p hp).1, rfl⟩
  | dispatch hp => exact .inl ⟨by simp [Table.pick_state hp], rfl⟩
  | _ => exact .inl ⟨hu, rfl⟩

theorem exec_allocScan (h : s.exec c ch .allocScan k = some s')
    (hf : s.proc.firstUnused ≠ none) : s'.nextpid = s.nextpid + 1 := by
  obtain ⟨p, hp⟩ := ne_none_iff_exists'.1 hf
  cases hme : (s.cpu c).proc with
  | none => simp [exec, effect, hme] at h
  | some me =>
    simp only [exec, effect, hme, procEffect, hp, map_some, some.injEq] at h
    subst h
    rfl

/-- The bound does not go down, and a process ID that is taken is at the bound. -/
theorem issued_exec (hk : (s.cpu c).code = op :: k) (h : s.exec c ch op k = some s')
    (hok : s.counts (.run c ch)) :
    s.issued ≤ s'.issued ∧ (op = .allocScan → s.proc.firstUnused ≠ none →
      0 < s.nextpid ∧ s.nextpid.toInt = s.issued ∧ s.issued < s'.issued) := by
  have hex : s.executes (.run c ch) = some op := executes_run ch hk
  have htake : op = .allocScan → s.proc.firstUnused ≠ none →
      0 < s.nextpid ∧ s.nextpid.toInt = s.issued ∧ s.issued < s'.issued := by
    rintro rfl hf
    exact ⟨hok hex hf, lt_issued_succ (hok hex hf) (exec_allocScan h hf)⟩
  refine ⟨?_, htake⟩
  rcases exec_nextpid h with hn | ⟨hop, hf, -⟩
  · rw [issued, issued, hn]
  · exact (htake hop hf).2.2.le

/-- **An operation keeps the process IDs apart.** -/
theorem Issued.exec (hp : s.Issued) (hi : s.Inv) (hk : (s.cpu c).code = op :: k)
    (h : s.exec c ch op k = some s') (hok : s.counts (.run c ch)) : s'.Issued := by
  obtain ⟨hle, htake⟩ := issued_exec hk h hok
  -- a process ID in use is an old one, or the one that was taken
  have new : ∀ {p q}, op = .allocScan → s.proc.firstUnused = some p →
      (s'.proc p).pid = s.nextpid → (s.proc q).state ≠ UNUSED →
      (s'.proc q).pid = (s.proc q).pid → (s'.proc p).pid ≠ (s'.proc q).pid := by
    intro p q hop hf hpid hq hqid heq
    have hlt := (hp.range q hq).2
    rw [← hqid, ← heq, hpid, (htake hop (by simp [hf])).2.1] at hlt
    exact lt_irrefl _ hlt
  constructor
  · intro p hu
    rcases hi.pid_or_alloc hk h hu with ⟨hu₀, hpid⟩ | ⟨hop, hf, hpid⟩
    · rw [hpid]
      exact ⟨(hp.range p hu₀).1, (hp.range p hu₀).2.trans_le hle⟩
    · obtain ⟨hpos, heq, hlt⟩ := htake hop (by simp [hf])
      rw [hpid]
      exact ⟨Int32.lt_iff_toInt_lt.1 hpos, heq.trans_lt hlt⟩
  · intro p q hpu hqu heq
    rcases hi.pid_or_alloc hk h hpu with ⟨hpu₀, hpid⟩ | ⟨hop, hf, hpid⟩ <;>
      rcases hi.pid_or_alloc hk h hqu with ⟨hqu₀, hqid⟩ | ⟨hop', hf', hqid⟩
    · exact hp.inj p q hpu₀ hqu₀ (by rw [← hpid, ← hqid, heq])
    · exact absurd heq.symm (new hop' hf' hqid hpu₀ hpid)
    · exact absurd heq (new hop hf hpid hqu₀ hqid)
    · exact some.inj (hf.symm.trans hf')

/-! ## The code of a process after an operation -/

/-- The code that a process has to execute is what it was, or it executed the operation,
or it has just been made. -/
theorem Inv.code_exec (hi : s.Inv) (hk : (s.cpu c).code = op :: k)
    (h : s.exec c ch op k = some s') {i : Slot} {code' : List Op} (hst : s'.Stack i code') :
    (s.Stack i code' ∧ (s.cpu c).proc ≠ some i) ∨
    ((s.cpu c).proc = some i ∧
      (code' = k ∨ (∃ msg, code' = [.panic msg]) ∨ ∃ l, Calls op l ∧ code' = l ++ k)) ∨
    (op = .forkRun i ∧ code' = forkret) := by
  cases hst with
  | onCpu c' hc' =>
    by_cases hc : c' = c
    · subst hc
      rcases hi.proc_exec hk h hc' with hp | ⟨-, j, rfl, hpick⟩
      · have hnd : ∀ j, op ≠ .schedScan j := by
          rintro j rfl
          exact hi.not_schedScan hp hk
        rcases exec_code h with hcode | hcode | hcode | ⟨rfl, hnone, -⟩ | ⟨j, q, hop, -⟩
        · exact .inr (.inl ⟨hp, .inl hcode⟩)
        · exact .inr (.inl ⟨hp, .inr (.inl hcode)⟩)
        · exact .inr (.inl ⟨hp, .inr (.inr hcode)⟩)
        · rw [hnone] at hc'
          cases hc'
        · exact absurd hop (hnd j)
      · have hw := hi.pick_waiting hk hpick
        have hcode : (s'.cpu c').code = (s.proc i).context := by
          simp only [Kernel.exec, hpick, some.injEq] at h
          subst h
          simp [dispatch]
        rw [hcode]
        exact .inl ⟨.waiting hw, hw.2 c'⟩
    · rw [exec_cpu_ne h hc] at hc' ⊢
      exact .inl ⟨.onCpu c' hc', fun h₀ => hc (hi.uniq _ _ _ hc' h₀)⟩
  | waiting hw =>
    rcases hi.waiting_exec hk h hw with ⟨hw', hctx⟩ | ⟨hop, hctx⟩ | ⟨-, hp, hctx⟩
    · rw [hctx]
      exact .inl ⟨.waiting hw', hw'.2 c⟩
    · exact .inr (.inr ⟨hop, hctx⟩)
    · exact .inr (.inl ⟨hp, .inl hctx⟩)

end Kernel

/-! ## Who is in `fork` -/

/-- For each process: it is in `fork`, and the child it has made runnable. -/
structure Forking where
  call : Slot → Bool := fun _ => false
  child : Slot → Option Slot := fun _ => none

/-- What the event `e` changes. -/
def Forking.note (s : Kernel) (e : Kernel.Event) (g : Forking) : Forking :=
  match e with
  | .syscall c call =>
    match (s.cpu c).proc with
    | some me => ⟨update g.call me (call = .fork), update g.child me none⟩
    | none => g
  | .run c _ =>
    match (s.cpu c).proc, (s.cpu c).code with
    | some me, .forkRun p :: _ => { g with child := update g.child me (some p) }
    | _, _ => g
  | _ => g

/-- The kernel, and who is in `fork`. -/
def forkKernel : Machine (Kernel × Forking) Kernel.Event := kernel.ghost {} Forking.note

/-- The operations of `fork` that go on with others, or make the child. -/
def Op.forks : Op → Bool
  | .allocScan | .allocStack _ | .forkCopy _ | .forkRun _ => true
  | _ => false

/-- The operations of other system calls that go on to return something. -/
def Op.answers : Op → Bool
  | .waitScan _ | .killScan _ | .sleepStart _ | .sleepLoop _ _ | .uptime => true
  | _ => false

variable {child : Option Slot} {l : List Op}

namespace Kernel

variable {s s' : Kernel} {c : Cpu} {ch : Choice} {op : Op} {k : List Op} {g : Forking}

/-- **What `fork` should return**, with this child. -/
def Answer (s : Kernel) : Option Slot → Int32 → Prop
  | none, v => v = -1
  | some p, v => 0 < v ∧ ∀ q, q ≠ p → (s.proc q).state ≠ UNUSED → (s.proc q).pid ≠ v

/-- The value comes from the counter, if there is a child. -/
def Answered (s : Kernel) (child : Option Slot) (v : Int32) : Prop :=
  s.Answer child v ∧ (child ≠ none → v.toInt < s.issued)

/-- How far `fork` has come, read off the code that is left. -/
structure Phase (s : Kernel) (child : Option Slot) (code : List Op) : Prop where
  calm : ∀ op ∈ code, op.answers = false
  once : code.countP Op.forks ≤ 1
  before : ∀ op ∈ code, op.forks = true → child = none ∧
    ∀ v, .ret v ∈ code → returned code = some v ∧ ∃ p, op = .forkRun p
  after : (∀ op ∈ code, op.forks = false) → ∀ v, .ret v ∈ code → s.Answered child v

/-- A value that was right stays so. -/
theorem Answered.exec {v : Int32} (ha : s.Answered child v) (hi : s.Inv)
    (hk : (s.cpu c).code = op :: k) (h : s.exec c ch op k = some s')
    (hok : s.counts (.run c ch)) : s'.Answered child v := by
  obtain ⟨hle, htake⟩ := issued_exec hk h hok
  cases child with
  | none => exact ⟨ha.1, fun hne => absurd rfl hne⟩
  | some p =>
    obtain ⟨⟨hpos, hne⟩, hlt⟩ := ha
    refine ⟨⟨hpos, fun q hq hu => ?_⟩, fun hc => (hlt hc).trans_le hle⟩
    rcases hi.pid_or_alloc hk h hu with ⟨hu₀, hpid⟩ | ⟨hop, hf, hpid⟩
    · rw [hpid]
      exact hne q hq hu₀
    · rintro rfl
      have := hlt (by simp)
      rw [hpid, (htake hop (by simp [hf])).2.1] at this
      exact lt_irrefl _ this

theorem Phase.keep {code : List Op} (hp : s.Phase child code) (hi : s.Inv)
    (hk : (s.cpu c).code = op :: k) (h : s.exec c ch op k = some s')
    (hok : s.counts (.run c ch)) : s'.Phase child code where
  calm := hp.calm
  once := hp.once
  before := hp.before
  after hno v hv := (hp.after hno v hv).exec hi hk h hok

/-- Code that neither makes a child nor returns anything. -/
def Quiet (l : List Op) : Prop :=
  ∀ op ∈ l, op.answers = false ∧ op.forks = false ∧ ∀ v, op ≠ .ret v

theorem Quiet.countP (h : Quiet l) : l.countP Op.forks = 0 :=
  countP_eq_zero.2 fun op hop => by simp [(h op hop).2.1]

theorem Quiet.phase (h : Quiet l) (s : Kernel) (child : Option Slot) : s.Phase child l where
  calm op hop := (h op hop).1
  once := by
    rw [h.countP]
    exact Nat.zero_le 1
  before op hop hf := absurd hf (by simp [(h op hop).2.1])
  after _ v hv := absurd rfl ((h _ hv).2.2 v)

theorem returned_append (h : Quiet l) (k : List Op) : returned (l ++ k) = returned k := by
  induction l with
  | nil => rfl
  | cons op l ih =>
    have hop := h op (by simp)
    have hl := ih fun x hx => h x (by simp [hx])
    rw [← hl]
    cases op with
    | ret v => exact absurd rfl (hop.2.2 v)
    | _ => rfl

/-- Such code can be pushed on the code of a process. -/
theorem Phase.push {l code : List Op} (hp : s.Phase child code)
    (hl : Quiet l) : s.Phase child (l ++ code) where
  calm op hop := by
    rcases mem_append.1 hop with hop | hop
    · exact (hl op hop).1
    · exact hp.calm op hop
  once := by
    rw [countP_append, hl.countP, Nat.zero_add]
    exact hp.once
  before op hop hf := by
    rcases mem_append.1 hop with hop | hop
    · exact absurd hf (by simp [(hl op hop).2.1])
    · obtain ⟨hc, hv⟩ := hp.before op hop hf
      refine ⟨hc, fun v hmem => ?_⟩
      rw [returned_append hl]
      rcases mem_append.1 hmem with hmem | hmem
      · exact absurd rfl ((hl _ hmem).2.2 v)
      · exact hv v hmem
  after hno v hv := by
    rcases mem_append.1 hv with hv | hv
    · exact absurd rfl ((hl _ hv).2.2 v)
    · exact hp.after (fun op hop => hno op (mem_append_right l hop)) v hv

theorem Phase.tail (hp : s.Phase child (op :: k)) (hop : op.forks = false)
    (hret : returned k = returned (op :: k) ∨ ∀ x ∈ k, x.forks = false) : s.Phase child k where
  calm x hx := hp.calm x (by simp [hx])
  once := by
    have := hp.once
    rw [countP_cons_of_neg (by simp [hop])] at this
    exact this
  before x hx hf := by
    obtain ⟨hc, hv⟩ := hp.before x (by simp [hx]) hf
    refine ⟨hc, fun v hmem => ?_⟩
    rcases hret with hret | hno
    · rw [hret]
      exact hv v (by simp [hmem])
    · exact absurd hf (by simp [hno x hx])
  after hno v hv := hp.after (by simpa [hop] using hno) v (by simp [hv])

theorem Phase.append (hp : s.Phase child l) {k : List Op}
    (hk : Quiet k) : s.Phase child (l ++ k) where
  calm op hop := by
    rcases mem_append.1 hop with hop | hop
    · exact hp.calm op hop
    · exact (hk op hop).1
  once := by
    rw [countP_append, hk.countP, Nat.add_zero]
    exact hp.once
  before op hop hf := by
    rcases mem_append.1 hop with hop | hop
    · obtain ⟨hc, hv⟩ := hp.before op hop hf
      refine ⟨hc, fun v hmem => ?_⟩
      rcases mem_append.1 hmem with hmem | hmem
      · obtain ⟨hret, hrun⟩ := hv v hmem
        refine ⟨?_, hrun⟩
        unfold returned at hret ⊢
        rw [findSome?_append, hret]
        rfl
      · exact absurd rfl ((hk _ hmem).2.2 v)
    · exact absurd hf (by simp [(hk op hop).2.1])
  after hno v hv := by
    rcases mem_append.1 hv with hv | hv
    · exact hp.after (fun op hop => hno op (mem_append_left k hop)) v hv
    · exact absurd rfl ((hk _ hv).2.2 v)

theorem Phase.of_fail (s : Kernel) (lk : Lock) :
    s.Phase none [.release lk, .ret (-1)] ∧ s.Phase none [.ret (-1)] := by
  constructor
  all_goals
    refine ⟨by simp [Op.answers], by simp [Op.forks], by simp [Op.forks], ?_⟩
    intro _ v hv
    have : v = -1 := by simpa using hv
    exact ⟨this, fun hne => absurd rfl hne⟩

theorem Phase.quiet_tail (hp : s.Phase child (op :: k))
    (hop : op.forks = true) (hrun : ∀ p, op ≠ .forkRun p) : child = none ∧ Quiet k := by
  obtain ⟨hc, hv⟩ := hp.before op (by simp) hop
  refine ⟨hc, fun x hx => ⟨hp.calm x (by simp [hx]), ?_, ?_⟩⟩
  · have hcount := hp.once
    rw [countP_cons_of_pos hop] at hcount
    simpa using countP_eq_zero.1 (by omega : k.countP Op.forks = 0) x hx
  · rintro v rfl
    obtain ⟨-, p, hp'⟩ := hv v (by simp [hx])
    exact hrun p hp'

theorem Phase.calls (hp : s.Phase child (op :: k)) (hop : op.forks = true)
    (hrun : ∀ p, op ≠ .forkRun p) (hl : Calls op l) : s'.Phase child (l ++ k) := by
  obtain ⟨rfl, hk⟩ := hp.quiet_tail hop hrun
  refine .append ?_ hk
  cases hl with
  | noSlot => exact (Phase.of_fail s' _).1
  | noStack p | noCopy p => exact (Phase.of_fail s' .ptable).2
  | slot p | stack p =>
    exact ⟨by simp [Op.answers], by simp [Op.forks], by simp [Op.forks], by simp [Op.forks]⟩
  | copy p pid =>
    refine ⟨by simp [Op.answers], by simp [Op.forks, countP_cons], ?_, by simp [Op.forks]⟩
    intro op hop hf
    simp only [mem_cons, not_mem_nil, or_false] at hop
    rcases hop with rfl | rfl | rfl | rfl
    · cases hf
    · refine ⟨rfl, fun v hv => ⟨?_, p, rfl⟩⟩
      have : v = pid := by simpa using hv
      rw [this]
      rfl
    · cases hf
    · cases hf
  | _ => cases hop

theorem Calls.quiet (hl : Calls op l) (hf : op.forks = false)
    (ha : op.answers = false) : Quiet l := by
  cases hl with
  | sleepOn lk chan => simp [Quiet, sleep, Op.answers, Op.forks]
  | wake lk chan => simp [Quiet, wakeup, Op.answers, Op.forks]
  | sysKilled | trapKilled => simp [Quiet, exit, Op.answers, Op.forks]
  | trapYield => simp [Quiet, yield, Op.answers, Op.forks]
  | schedLoop => simp [Quiet, Op.answers, Op.forks]
  | _ =>
    revert hf ha
    simp [Op.forks, Op.answers]

end Kernel

/-- A process that is to make its child runnable has filled it in. -/
theorem parented_of_forkRun {p : Slot} : ∀ {code : List Op} {t : Kin},
    kinDiscipline.Walks t code .idle → .forkRun p ∈ code → ∃ pid, t = .parented p pid := by
  intro code
  induction code with
  | nil => intro t _ h; cases h
  | cons op k ih =>
    intro t hw hmem
    rcases mem_cons.1 hmem with rfl | hmem
    · exact hw.1
    · obtain ⟨pid, ht⟩ := ih hw.2 hmem
      refine ⟨pid, ?_⟩
      cases op with
      | forkRun q => cases t <;> cases ht
      | sleepSet chan => cases chan <;> first | exact ht | cases ht
      | _ => first | exact ht | cases ht

namespace Kernel

variable {s s' : Kernel} {c : Cpu} {ch : Choice} {op : Op} {k : List Op} {g : Forking}

theorem Phase.past_ret {v : Int32} (hp : s.Phase child (.ret v :: k))
    (hf : s.Family) (hk : (s.cpu c).code = .ret v :: k) : ∀ x ∈ k, x.forks = false := by
  intro x hx
  refine Bool.eq_false_iff.2 fun hxf => ?_
  obtain ⟨-, hv⟩ := hp.before x (by simp [hx]) hxf
  obtain ⟨-, p, rfl⟩ := hv v (by simp)
  obtain ⟨t, hw, -⟩ := hf.cpu c
  rw [hk] at hw
  obtain ⟨pid, hpid⟩ := parented_of_forkRun hw.2 hx
  cases hpid

/-- The code of a process after it has executed an operation other than `forkRun`. -/
theorem Phase.exec (hp : s.Phase child (op :: k)) (hi : s.Inv)
    (hf : s.Family) (hk : (s.cpu c).code = op :: k) (h : s.exec c ch op k = some s')
    (hok : s.counts (.run c ch)) (hrun : ∀ p, op ≠ .forkRun p) {code' : List Op}
    (hcode : code' = k ∨ (∃ msg, code' = [.panic msg]) ∨ ∃ l, Calls op l ∧ code' = l ++ k) :
    s'.Phase child code' := by
  cases hforks : op.forks with
  | true =>
    obtain ⟨-, hquiet⟩ := hp.quiet_tail hforks hrun
    rcases hcode with rfl | ⟨msg, rfl⟩ | ⟨l, hl, rfl⟩
    · exact hquiet.phase s' child
    · exact Quiet.phase (by simp [Quiet, Op.answers, Op.forks]) s' child
    · exact hp.calls hforks hrun hl
  | false =>
    have htail : s'.Phase child k := by
      refine .keep (hp.tail hforks ?_) hi hk h hok
      cases op with
      | ret v => exact .inr (hp.past_ret hf hk)
      | _ => exact .inl rfl
    rcases hcode with rfl | ⟨msg, rfl⟩ | ⟨l, hl, rfl⟩
    · exact htail
    · exact Quiet.phase (by simp [Quiet, Op.answers, Op.forks]) s' child
    · exact htail.push (hl.quiet hforks (hp.calm op (by simp)))

/-- **`fork` makes the child.**  From here on, what it is going to return is settled. -/
theorem Phase.forkRun {p : Slot} (hp : s.Phase child (.forkRun p :: k))
    (hi : s.Inv) (hf : s.Family) (hpid : s.Issued) (hk : (s.cpu c).code = .forkRun p :: k)
    (h : s.exec c ch (.forkRun p) k = some s') (hok : s.counts (.run c ch)) {i : Slot}
    (hme : (s.cpu c).proc = some i) : s'.Phase (some p) k := by
  have hno : ∀ x ∈ k, x.forks = false := by
    intro x hx
    have hcount := hp.once
    rw [countP_cons_of_pos rfl] at hcount
    simpa using countP_eq_zero.1 (by omega : k.countP Op.forks = 0) x hx
  refine ⟨fun x hx => hp.calm x (by simp [hx]), ?_, fun x hx hxf => ?_, fun _ v hv => ?_⟩
  · have hcount := hp.once
    rw [countP_cons_of_pos rfl] at hcount
    omega
  · rw [hno x hx] at hxf
    cases hxf
  · obtain ⟨-, hret⟩ := hp.before (.forkRun p) (by simp) rfl
    obtain ⟨t, hw, hm⟩ := hf.cpu c
    rw [hk] at hw
    obtain ⟨pid, rfl⟩ := hw.1
    have hv' : returned k = some v := (hret v (by simp [hv])).1
    rw [returned_of_walks hw.2] at hv'
    obtain rfl : pid = v := some.inj hv'
    obtain rfl : (s.proc p).pid = pid := (hm i hme).2
    have hemb : (s.proc p).state ≠ UNUSED := by simp [hi.state_of_embryo hk rfl]
    obtain ⟨hpos, hlt⟩ := hpid.range p hemb
    refine ⟨⟨Int32.lt_iff_toInt_lt.2 hpos, fun q hq hu => ?_⟩,
      fun _ => hlt.trans_le (issued_exec hk h hok).1⟩
    rcases hi.pid_or_alloc hk h hu with ⟨hu₀, hqid⟩ | ⟨hop, -, -⟩
    · rw [hqid]
      exact fun heq => hq (hpid.inj q p hu₀ hemb heq)
    · cases hop

/-! ## Every state -/

/-- The code of everybody in `fork` is as far as the history variable says. -/
def Tracks (s : Kernel) (g : Forking) : Prop :=
  ∀ i code, s.Stack i code → g.call i = true → s.Phase (g.child i) code

/-- Who executes an operation other than `forkRun` stays where it is in `fork`. -/
theorem note_run (hk : (s.cpu c).code = op :: k) (ch : Choice) (g : Forking) :
    (Forking.note s (.run c ch) g = g ∧ ∀ p, op ≠ .forkRun p ∨ (s.cpu c).proc = none) ∨
    ∃ me p, op = .forkRun p ∧ (s.cpu c).proc = some me ∧
      Forking.note s (.run c ch) g = { g with child := update g.child me (some p) } := by
  cases hme : (s.cpu c).proc with
  | none => exact .inl ⟨by simp [Forking.note, hme], fun _ => .inr rfl⟩
  | some me =>
    cases op with
    | forkRun p => exact .inr ⟨me, p, rfl, rfl, by simp [Forking.note, hme, hk]⟩
    | _ => exact .inl ⟨by simp [Forking.note, hme, hk], fun p => .inl (by simp)⟩

theorem Tracks.exec (ht : s.Tracks g) (hi : s.Inv) (hf : s.Family) (hpid : s.Issued)
    (hk : (s.cpu c).code = op :: k) (h : s.exec c ch op k = some s')
    (hok : s.counts (.run c ch)) : s'.Tracks (Forking.note s (.run c ch) g) := by
  intro i code' hst hcall
  rcases hi.code_exec hk h hst with ⟨hst₀, hne⟩ | ⟨hme, hcode⟩ | ⟨rfl, rfl⟩
  · rcases note_run hk ch g with ⟨hnote, -⟩ | ⟨me, p, -, hme, hnote⟩
    · rw [hnote] at hcall ⊢
      exact (ht i code' hst₀ hcall).keep hi hk h hok
    · rw [hnote] at hcall ⊢
      have him : i ≠ me := by
        rintro rfl
        exact hne hme
      simp only [update_of_ne him]
      exact (ht i code' hst₀ hcall).keep hi hk h hok
  · have hst₀ : s.Stack i (op :: k) := by
      rw [← hk]
      exact .onCpu c hme
    rcases note_run hk ch g with ⟨hnote, hno⟩ | ⟨me, p, rfl, hme', hnote⟩
    · rw [hnote] at hcall ⊢
      have hrun : ∀ p, op ≠ .forkRun p := fun p => (hno p).resolve_right (by simp [hme])
      exact (ht i _ hst₀ hcall).exec hi hf hk h hok hrun hcode
    · obtain rfl : me = i := some.inj (hme'.symm.trans hme)
      rw [hnote] at hcall ⊢
      simp only [update_self]
      have hp := (ht me _ hst₀ hcall).forkRun hi hf hpid hk h hok hme
      rcases hcode with rfl | ⟨msg, rfl⟩ | ⟨l, hl, rfl⟩
      · exact hp
      · exact Quiet.phase (by simp [Quiet, Op.answers, Op.forks]) s' _
      · cases hl
  · exact Quiet.phase (by simp [forkret, Quiet, Op.answers, Op.forks]) s' _

/-- A step executes an operation, or is a system call, or is an interrupt or a fault,
which have nothing to do with `fork`. -/
theorem step_forking {e : Event} (h : s.step e = some s') :
    (∃ c ch op k, e = .run c ch ∧ (s.cpu c).code = op :: k ∧ s.exec c ch op k = some s') ∨
    (∃ c call me, e = .syscall c call ∧ (s.cpu c).proc = some me ∧ (s.cpu c).code = [] ∧
      s' = s.goto c (trapSyscall (s.proc me) call)) ∨
    ∃ c l, (∀ g, Forking.note s e g = g) ∧ s.executes e = none ∧ Quiet l ∧
      s' = s.goto c (l ++ (s.cpu c).code) := by
  cases e with
  | run c ch =>
    simp only [step] at h
    split at h
    · cases h
    · rename_i op k hk
      exact .inl ⟨c, ch, op, k, rfl, hk, h⟩
  | syscall c call =>
    simp only [step] at h
    split at h
    · cases h
    · rename_i me hme
      split_ifs at h with hu
      cases h
      exact .inr (.inl ⟨c, call, me, rfl, hme, hu, rfl⟩)
  | timer c =>
    simp only [step] at h
    split_ifs at h with hi
    cases h
    refine .inr (.inr ⟨c, _, fun _ => rfl, rfl, ?_, rfl⟩)
    unfold trapTimer
    split_ifs <;> simp [timerBranch, updateStat, wakeup, Quiet, Op.answers, Op.forks]
  | intr c lk chan =>
    simp only [step] at h
    split_ifs at h with hi
    cases h
    refine .inr (.inr ⟨c, _, fun _ => rfl, rfl, ?_, rfl⟩)
    simp [trapIntr, wakeup, Quiet, Op.answers, Op.forks]
  | fault c =>
    simp only [step] at h
    split_ifs at h with hu
    cases h
    have hcode : (s.cpu c).code = [] := by
      simp only [inUser, Bool.and_eq_true, List.isEmpty_iff] at hu
      exact hu.2
    refine .inr (.inr ⟨c, trapFault, fun _ => rfl, rfl, ?_, by rw [hcode, List.append_nil]⟩)
    simp [trapFault, Quiet, Op.answers, Op.forks]

theorem stack_of_goto (hi : s.Inv) {i : Slot} {code' : List Op} (hst : (s.goto c l).Stack i code') :
    (s.Stack i code' ∧ (s.cpu c).proc ≠ some i) ∨ ((s.cpu c).proc = some i ∧ code' = l) := by
  cases hst with
  | onCpu c' hc' =>
    by_cases hc : c' = c
    · subst hc
      simp only [goto_cpu, update_self] at hc' ⊢
      exact .inr ⟨hc', trivial⟩
    · simp only [goto_cpu, update_of_ne hc] at hc' ⊢
      exact .inl ⟨.onCpu c' hc', fun h₀ => hc (hi.uniq _ _ _ hc' h₀)⟩
  | waiting hw =>
    have hw' := waiting_goto.1 hw
    exact .inl ⟨.waiting hw', hw'.2 c⟩

theorem phase_syscall (s : Kernel) (me : Proc) : s.Phase none (trapSyscall me .fork) := by
  refine ⟨by simp [trapSyscall, syscall, fork, Op.answers], ?_, ?_, ?_⟩
  · simp [trapSyscall, syscall, fork, Op.forks, countP_cons]
  · simp [trapSyscall, syscall, fork, Op.forks]
  · simp [trapSyscall, syscall, fork, Op.forks]

theorem Phase.congr {code : List Op} (hp : s.Phase child code)
    (hproc : s'.proc = s.proc) (hn : s'.nextpid = s.nextpid) : s'.Phase child code := by
  refine ⟨hp.calm, hp.once, hp.before, fun hno v hv => ?_⟩
  obtain ⟨ha, hlt⟩ := hp.after hno v hv
  refine ⟨?_, by rwa [issued, hn]⟩
  cases child with
  | none => exact ha
  | some p => exact ⟨ha.1, by rw [hproc]; exact ha.2⟩

theorem Tracks.step {e : Event} (ht : s.Tracks g) (hi : s.Inv) (hf : s.Family) (hpid : s.Issued)
    (h : s.step e = some s') (hok : s.counts e) : s'.Issued ∧ s'.Tracks (Forking.note s e g) := by
  rcases step_forking h with ⟨c, ch, op, k, rfl, hk, h⟩ | ⟨c, call, me, rfl, hme, hu, rfl⟩ |
    ⟨c, l, hnote, -, hl, rfl⟩
  · exact ⟨hpid.exec hi hk h hok, ht.exec hi hf hpid hk h hok⟩
  · refine ⟨⟨hpid.range, hpid.inj⟩, fun i code' hst hcall => ?_⟩
    simp only [Forking.note, hme] at hcall ⊢
    rcases stack_of_goto hi hst with ⟨hst₀, hne⟩ | ⟨hme', rfl⟩
    · have him : i ≠ me := by
        rintro rfl
        exact hne hme
      simp only [update_of_ne him] at hcall ⊢
      exact (ht i code' hst₀ hcall).congr rfl rfl
    · obtain rfl : me = i := some.inj (hme.symm.trans hme')
      simp only [update_self, decide_eq_true_eq] at hcall ⊢
      subst hcall
      exact phase_syscall _ _
  · refine ⟨⟨hpid.range, hpid.inj⟩, fun i code' hst hcall => ?_⟩
    rw [hnote] at hcall ⊢
    rcases stack_of_goto hi hst with ⟨hst₀, -⟩ | ⟨hme, rfl⟩
    · exact (ht i code' hst₀ hcall).congr rfl rfl
    · exact ((ht i _ (.onCpu c hme) hcall).push hl).congr rfl rfl

theorem issued_boot : boot.Issued := by
  have hu : ∀ p, (boot.proc p).state ≠ UNUSED → p = 0 := by decide
  constructor
  · intro p hp
    rw [hu p hp]
    decide
  · intro p q hp hq _
    rw [hu p hp, hu q hq]

end Kernel

/-- **What `fork` returns is unambiguous.**  In every run in which `allocproc` takes a
process ID only while the counter is positive: when a process returns from `fork`, the
value is positive and no process but its child has it, if it has made a child; and it is
`-1` if it has made none. -/
theorem fork_unambiguous {s : Kernel} {g : Forking}
    (h : forkKernel.ReachableBy (fun x e => x.1.counts e) (s, g)) {c : Cpu} {me : Slot} {v : Int32}
    {k : List Op} (hme : (s.cpu c).proc = some me) (hk : (s.cpu c).code = .ret v :: k)
    (hcall : g.call me = true) : s.Answer (g.child me) v := by
  have key : s.Issued ∧ s.Tracks g := by
    refine h.induct (I := fun x => x.1.Issued ∧ x.1.Tracks x.2) ?_ ?_
    · rintro ⟨s, g⟩ ⟨rfl, rfl⟩
      exact ⟨issued_boot, fun i code _ hcall => by cases hcall⟩
    · rintro ⟨s, g⟩ e ⟨s', g'⟩ hr ⟨hpid, ht⟩ hok hs
      obtain ⟨hs, rfl⟩ := ghost_step hs
      have hr' := ghost_reachable hr.reachable
      exact ht.step (inv hr') (family hr') hpid hs hok
  have hp := key.2 me _ (.onCpu c hme) hcall
  rw [hk] at hp
  have hf := family (ghost_reachable h.reachable)
  refine (hp.after (fun x hx => ?_) v (by simp)).1
  rcases mem_cons.1 hx with rfl | hx
  · rfl
  · exact hp.past_ret hf hk x hx

instance (s : Kernel) (e : Kernel.Event) : Decidable (s.counts e) :=
  inferInstanceAs (Decidable (_ → _))

/-- The first `fork`. -/
theorem fork_unambiguous_first : ∃ s g k, forkKernel.ReachableBy (fun x e => x.1.counts e) (s, g) ∧
      (s.cpu 1).proc = some 0 ∧ (s.cpu 1).code = .ret 2 :: k ∧ g.call 0 = true ∧
      g.child 0 = some 1 ∧ s.Answer (g.child 0) 2 := by
  obtain ⟨⟨s, g⟩, hr, hme, hk, hcall, hchild⟩ := reachableBy_of_runBy (M := forkKernel)
    (P := fun x => (x.1.cpu 1).proc = some 0 ∧ (x.1.cpu 1).code = [.ret 2, .sysKilled] ∧
      x.2.call 0 = true ∧ x.2.child 0 = some 1)
    (fun x e => x.1.counts e) (boot, {}) (execs 1 5 ++ forkEnds ++ execs 1 2)
    ⟨rfl, rfl⟩ (by decide)
  exact ⟨s, g, _, hr, hme, hk, hcall, hchild, fork_unambiguous hr hme hk hcall⟩

/-! ## The counter wraps -/

namespace Kernel

variable {s s' : Kernel}

/-- The first process is alone, in user mode on processor 1. -/
structure Ready (s : Kernel) (n : Int32) : Prop where
  cur : (s.cpu 1).proc = some 0
  code : (s.cpu 1).code = []
  pt : s.lock .ptable = none
  tk : s.lock .tickslock = none
  pid : s.nextpid = n
  killed : (s.proc 0).killed = false
  unused : s.proc.firstUnused = some 1

/-- A `fork` that gets no kernel stack. -/
def failFork : List Event :=
  [.syscall 1 .fork] ++ execs 1 4 ++ [.run 1 (.addr 0)] ++ execs 1 2

theorem firstUnused_congr {t t' : Table} (h : ∀ p, (t' p).state = (t p).state) :
    t'.firstUnused = t.firstUnused := by
  exact congrArg (fun f => slots.find? f) (funext fun p => by rw [h p])

/-- It costs a process ID, and nothing else happens. -/
theorem Ready.failFork {n : Int32} (h : s.Ready n) :
    ∃ s', kernel.run s failFork = some s' ∧ s'.Ready (n + 1) := by
  have hu : (s.proc 1).state = UNUSED := Table.firstUnused_state h.unused
  have h01 : (0 : Slot) ≠ 1 := by decide
  simp only [Kernel.failFork, execs, run, runBy, kernel, step, h.cur, h.code,
    trapSyscall, syscall, fork, Kernel.exec, effect, procEffect, h.killed, acquireLock, h.pt,
    h.unused, releaseLock, apply, goto, modifyCpu, setLock, replicate, cons_append,
    nil_append, update_self, update_of_ne h01, if_true, map_some,
    Bool.false_eq_true, if_false]
  refine ⟨_, rfl, ⟨by simp, by simp, by simp, by simpa using h.tk, by simp [h.pid], by simp, ?_⟩⟩
  rw [← h.unused]
  refine firstUnused_congr fun p => ?_
  by_cases hp0 : p = 0
  · subst hp0
    simp
  · by_cases hp1 : p = 1
    · subst hp1
      simp [hu, update_of_ne h01.symm]
    · simp [hp0, hp1]

/-- The counter reaches every number. -/
theorem ready (m : Nat) : ∃ s, kernel.Reachable s ∧ s.Ready (2 + Int32.ofNat m) := by
  induction m with
  | zero =>
    obtain ⟨s, hr, h1, h2, h3, h4, h5, h6, h7⟩ := reachable_of_run (M := kernel)
      (P := fun s => (s.cpu 1).proc = some 0 ∧ (s.cpu 1).code = [] ∧ s.lock .ptable = none ∧
        s.lock .tickslock = none ∧ s.nextpid = 2 ∧ (s.proc 0).killed = false ∧
        s.proc.firstUnused = some 1) boot (execs 1 5) rfl (by decide)
    exact ⟨s, hr, h1, h2, h3, h4, h5, h6, h7⟩
  | succ m ih =>
    obtain ⟨s, ⟨s₀, h0, hpath⟩, hs⟩ := ih
    obtain ⟨s', hrun, hs'⟩ := hs.failFork
    have hn : 2 + Int32.ofNat m + 1 = 2 + Int32.ofNat (m + 1) := by
      rw [Int32.add_assoc, Int32.ofNat_add]
      rfl
    exact ⟨s', ⟨s₀, h0, hpath.trans (path_of_runBy _ hrun)⟩, hn ▸ hs'⟩

theorem Ready.fork {n : Int32} (h : s.Ready n) (g : Forking) :
    ∃ x, forkKernel.run (s, g) (forkEnds ++ execs 1 2) = some x ∧
      (x.1.cpu 1).proc = some 0 ∧ (x.1.cpu 1).code = [.ret n, .sysKilled] ∧ x.2.call 0 = true ∧
      x.2.child 0 = some 1 := by
  have h01 : (0 : Slot) ≠ 1 := by decide
  have hlk : Lock.tickslock ≠ Lock.ptable := by decide
  have hlk' : Lock.ptable ≠ Lock.tickslock := by decide
  simp only [forkEnds, execs, run, runBy, forkKernel, ghost, Forking.note,
    kernel, step, h.cur, h.code, trapSyscall, syscall, Xv6.fork, exec, effect, procEffect,
    h.killed, acquireLock, h.pt, h.tk, h.unused, releaseLock, apply, goto, modifyCpu, setLock,
    replicate, cons_append, nil_append, update_self,
    update_of_ne h01, update_of_ne hlk, update_of_ne hlk', if_true,
    map_some, Bool.false_eq_true, if_false]
  refine ⟨_, rfl, by simp, by simp [h.pid], by simp, by simp⟩

end Kernel

/-- **`fork` returns a negative number.**  After 2^31 - 2 calls that got no memory, the
next one makes a child whose process ID is the smallest `int`, and returns that. -/
theorem fork_returns_negative :
    ∃ s g c me v k, forkKernel.Reachable (s, g) ∧ (s.cpu c).proc = some me ∧
      (s.cpu c).code = .ret v :: k ∧ g.call me = true ∧ v < 0 ∧ g.child me ≠ none ∧
      ¬ s.Answer (g.child me) v := by
  obtain ⟨s, hr, hs⟩ := ready 2147483646
  obtain ⟨g, ⟨x₀, h0, hpath⟩⟩ := exists_ghost ({} : Forking) Forking.note hr
  obtain ⟨⟨s', g'⟩, hrun, hme, hk, hcall, hchild⟩ := hs.fork g
  have hneg : (2 + Int32.ofNat 2147483646) < 0 := by decide
  refine ⟨s', g', 1, 0, _, _, ⟨x₀, h0, hpath.trans (path_of_runBy _ hrun)⟩, hme, hk, hcall,
    hneg, ?_, fun ha => ?_⟩
  · rw [show g'.child 0 = some 1 from hchild]
    exact some_ne_none 1
  rw [show g'.child 0 = some 1 from hchild] at ha
  exact absurd ha.1 (Int32.not_lt.2 (Int32.le_of_lt hneg))

end Xv6
