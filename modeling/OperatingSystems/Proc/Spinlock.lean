import OperatingSystems.Lib.Machine
import Mathlib.Data.Finset.Card

/-!
# Spin locks and the nesting of interrupt disabling

`acquire`, `release`, `holding`, `pushcli` and `popcli` of `HW3/spinlock.c`, as
one CPU calls them: its counter `ncli`, the saved flag `intena` and the interrupt
flag itself.  Locks are acquired and released in any order, by this CPU and
between its calls by others.

* `Nested.pushcli`, `Nested.popcli` — the per-CPU state one level deeper, and back.
* `nesting_exact` — over every run of matched calls, `ncli` counts the locks held
  and the open `pushcli`s, no call panics, and the flag comes back as it was.
* `ncli_wraps` — the limit of that: `ncli` is an `int`.
-/

namespace Xv6.Spin

/-- `struct spinlock`, without what is kept for debugging. -/
structure Spinlock (C : Type) where
  /-- Is the lock held? -/
  locked : Bool
  /-- The CPU holding the lock. -/
  cpu : Option C

/-- The locks, this CPU's `struct cpu`, and `FL_IF` of its `%eflags`. -/
structure State (L C : Type) where
  lock : L → Spinlock C
  /-- Depth of `pushcli` nesting. -/
  ncli : Int32
  /-- Were interrupts enabled before `pushcli`? -/
  intena : Bool
  interrupts : Bool

/-- Why a call does not return. -/
inductive Stop where
  | panic (msg : String)
  /-- The loop of `acquire` does not end. -/
  | spin

variable {L C : Type} {s : State L C} {n : Nat} {left : Bool}

def pushcli (s : State L C) : State L C :=
  let eflags := s.interrupts
  let s := { s with interrupts := false }
  { s with ncli := s.ncli + 1, intena := if s.ncli = 0 then eflags else s.intena }

def popcli (s : State L C) : Except Stop (State L C) :=
  if s.interrupts then .error (.panic "popcli - interruptible")
  else
    let s := { s with ncli := s.ncli - 1 }
    if s.ncli < 0 then .error (.panic "popcli")
    else if s.ncli = 0 ∧ s.intena then .ok { s with interrupts := true }
    else .ok s

/-! ## One level -/

/-- At depth `n` interrupts are off, and `intena` is the flag from before. -/
structure Nested (s : State L C) (n : Nat) (left : Bool) : Prop where
  ncli : s.ncli.toInt = n
  off : n ≠ 0 → s.interrupts = false ∧ s.intena = left

theorem eq_zero_iff {i : Int32} (h : i.toInt = n) : i = 0 ↔ n = 0 := by
  rw [← Int32.toInt_inj, h]
  exact Int.natCast_eq_zero

theorem Nested.pushcli (h : Nested s n left) (hmax : s.ncli ≠ Int32.maxValue) :
    Nested (pushcli s) (n + 1) (if s.ncli = 0 then s.interrupts else left) := by
  constructor
  · have hne : s.ncli.toInt ≠ 2 ^ 31 - 1 := fun h => hmax (Int32.toInt_inj.1 h)
    have hlt := Int32.toInt_lt s.ncli
    have hn := h.ncli
    show (s.ncli + 1).toInt = _
    rw [Int32.toInt_add, Int.bmod_eq_of_le] <;> simp only [Int32.reduceToInt] <;> omega
  · intro _
    refine ⟨rfl, ?_⟩
    show (if s.ncli = 0 then _ else _) = _
    split_ifs with h0
    · rfl
    · exact (h.off (mt (eq_zero_iff h.ncli).2 h0)).2

theorem Nested.popcli (h : Nested s (n + 1) left) :
    ∃ s', popcli s = .ok s' ∧ s'.lock = s.lock ∧ Nested s' n left ∧
      (n = 0 → s'.interrupts = left) := by
  obtain ⟨hoff, hleft⟩ := h.off n.succ_ne_zero
  have hncli : (s.ncli - 1).toInt = n := by
    have hlt := Int32.toInt_lt s.ncli
    have hn := h.ncli
    rw [Int32.toInt_sub, Int.bmod_eq_of_le] <;> simp only [Int32.reduceToInt] <;> omega
  have hneg : ¬ s.ncli - 1 < 0 := by
    rw [Int32.lt_iff_toInt_lt, hncli]
    exact Int.not_lt.2 (Int.natCast_nonneg n)
  unfold Spin.popcli
  rw [if_neg (by simp [hoff])]
  simp only [if_neg hneg, eq_zero_iff hncli]
  split_ifs with hsti
  · exact ⟨_, rfl, rfl, ⟨hncli, fun hn => absurd hsti.1 hn⟩, fun _ => hsti.2.symm.trans hleft⟩
  · refine ⟨_, rfl, rfl, ⟨hncli, fun _ => ⟨hoff, hleft⟩⟩, fun hn => ?_⟩
    have hint : s.intena = false := by simpa [hn] using hsti
    exact hoff.trans (hint.symm.trans hleft)

/-! ## The runs of one CPU -/

variable [DecidableEq L] [DecidableEq C]

/-- A lock is assigned. -/
def State.setLock (s : State L C) (lk : L) (l : Spinlock C) : State L C :=
  { s with lock := Function.update s.lock lk l }

def holding (cpu : C) (lock : Spinlock C) : Bool := lock.locked && lock.cpu == some cpu

def acquire (cpu : C) (lk : L) (s : State L C) : Except Stop (State L C) :=
  let s := pushcli s
  if holding cpu (s.lock lk) then .error (.panic "acquire")
  -- `while(xchg(&lk->locked, 1) != 0)`
  else if (s.lock lk).locked then .error .spin
  else .ok (s.setLock lk ⟨true, some cpu⟩)

def release (cpu : C) (lk : L) (s : State L C) : Except Stop (State L C) :=
  if holding cpu (s.lock lk) then popcli (s.setLock lk ⟨false, none⟩)
  else .error (.panic "release")

/-- What happens on a CPU. -/
inductive Call (L C : Type) where
  | acquire (lk : L)
  | release (lk : L)
  | pushcli
  | popcli
  /-- `cli` or `sti`, as in `scheduler`. -/
  | flag (on : Bool)
  /-- Another CPU acquires or releases a lock. -/
  | other (lk : L) (l : Spinlock C)

def Call.run (cpu : C) (s : State L C) : Call L C → Except Stop (State L C)
  | .acquire lk => Spin.acquire cpu lk s
  | .release lk => Spin.release cpu lk s
  | .pushcli => .ok (Spin.pushcli s)
  | .popcli => Spin.popcli s
  | .flag on => .ok { s with interrupts := on }
  | .other lk l => .ok (s.setLock lk l)

/-- The past of a run. -/
structure Past where
  /-- The number of `pushcli`s without their `popcli`. -/
  opened : Nat
  /-- The interrupt flag when `ncli` was last 0. -/
  left : Bool

def Past.record (s : State L C) (a : Call L C) (g : Past) : Past where
  opened := match a with
    | .pushcli => g.opened + 1
    | .popcli => g.opened - 1
    | _ => g.opened
  left := if s.ncli = 0 then s.interrupts else g.left

/-- One CPU, which holds no lock at first. -/
def cpuSystem (L : Type) [DecidableEq L] (cpu : C) : Machine (State L C × Past) (Call L C) :=
  Machine.ghost
    { init := fun s : State L C => s.ncli = 0 ∧ ∀ lk, holding cpu (s.lock lk) = false
      step := fun s a => (a.run cpu s).toOption }
    ⟨0, false⟩ Past.record

/-- A lock is acquired only when free and released only while held, `popcli` has its
`pushcli`, the flag is changed only at depth 0, and other CPUs have their own locks. -/
def Matched (cpu : C) (x : State L C × Past) : Call L C → Prop
  | .acquire lk => (x.1.lock lk).locked = false
  | .release lk => holding cpu (x.1.lock lk)
  | .pushcli => True
  | .popcli => 0 < x.2.opened
  | .flag _ => x.1.ncli = 0
  | .other lk l => holding cpu (x.1.lock lk) = false ∧ holding cpu l = false

/-- A call that nests deeper finds room in `ncli`. -/
def Fits (s : State L C) : Call L C → Prop
  | .acquire _ | .pushcli => s.ncli ≠ Int32.maxValue
  | _ => True

/-- The calls are matched and `ncli` does not overflow. -/
def Sound (cpu : C) (x : State L C × Past) (a : Call L C) : Prop := Matched cpu x a ∧ Fits x.1 a

/-- `locks` are those held, and with the open `pushcli`s the depth. -/
structure Inv (cpu : C) (x : State L C × Past) (locks : Finset L) : Prop where
  holds : ∀ lk, lk ∈ locks ↔ holding cpu (x.1.lock lk)
  nested : Nested x.1 (locks.card + x.2.opened) x.2.left

variable {cpu : C} {x : State L C × Past} {a : Call L C} {locks : Finset L}

theorem holds_setLock {t : State L C} (h : ∀ e, e ∈ locks ↔ holding cpu (s.lock e)) {lk : L}
    {l : Spinlock C} (ht : t.lock = (s.setLock lk l).lock) (e : L) :
    e ∈ (if holding cpu l then insert lk locks else locks.erase lk) ↔ holding cpu (t.lock e) := by
  rw [ht]
  by_cases he : e = lk
  · subst he
    split_ifs with hl <;> simp [State.setLock, hl]
  · split_ifs <;> simp [State.setLock, he, h]

/-- **Every matched call returns and keeps the count.** -/
theorem Inv.run (h : Inv cpu x locks) (ha : Sound cpu x a) :
    ∃ s' locks', a.run cpu x.1 = .ok s' ∧ Inv cpu (s', Past.record x.1 a x.2) locks' ∧
      (x.1.ncli ≠ 0 → s'.ncli = 0 → s'.interrupts = x.2.left) := by
  obtain ⟨s, opened, left⟩ := x
  have hn : Nested s (locks.card + opened) left := h.nested
  obtain ⟨ha, hfit⟩ := ha
  have hleft {t : State L C} {m : Nat} (h0 : locks.card + opened ≠ 0) (ht : Nested t m left) :
      Nested t m (if s.ncli = 0 then s.interrupts else left) := by
    rwa [if_neg (mt (eq_zero_iff hn.ncli).1 h0)]
  cases a with
  | acquire lk =>
    have hfree : (s.lock lk).locked = false := ha
    have hnot : lk ∉ locks := by simp [h.holds, holding, hfree]
    have hpush := hn.pushcli hfit
    rw [Nat.add_right_comm, ← Finset.card_insert_of_notMem hnot] at hpush
    refine ⟨(pushcli s).setLock lk ⟨true, some cpu⟩, insert lk locks, ?_,
      ⟨?_, hpush.ncli, hpush.off⟩, ?_⟩
    · simp [Call.run, acquire, holding, pushcli, hfree]
    · simpa [holding] using
        holds_setLock (t := (pushcli s).setLock lk ⟨true, some cpu⟩) h.holds rfl
    · intro _ h0
      have := (eq_zero_iff hpush.ncli).1 h0
      simp at this
  | release lk =>
    have hin : lk ∈ locks := (h.holds lk).2 ha
    have hcard := Finset.card_erase_add_one hin
    rw [← hcard, Nat.add_right_comm] at hn
    obtain ⟨s', hrun, hlock, hn', hflag⟩ :=
      Nested.popcli (s := s.setLock lk ⟨false, none⟩) ⟨hn.ncli, hn.off⟩
    refine ⟨s', locks.erase lk, (if_pos ha).trans hrun, ⟨?_, hleft (by omega) hn'⟩, ?_⟩
    · simpa [holding] using holds_setLock h.holds hlock
    · intro _ h0
      exact hflag ((eq_zero_iff hn'.ncli).1 h0)
  | pushcli =>
    have hpush := hn.pushcli hfit
    refine ⟨_, locks, rfl, ⟨h.holds, hpush⟩, ?_⟩
    intro _ h0
    exact absurd ((eq_zero_iff hpush.ncli).1 h0) (Nat.succ_ne_zero _)
  | popcli =>
    obtain ⟨m, rfl⟩ := Nat.exists_eq_succ_of_ne_zero (Nat.ne_of_gt ha)
    obtain ⟨s', hrun, hlock, hn', hflag⟩ := Nested.popcli hn
    refine ⟨s', locks, hrun, ⟨?_, hleft (Nat.succ_ne_zero _) hn'⟩, ?_⟩
    · rw [hlock]
      exact h.holds
    · intro _ h0
      exact hflag ((eq_zero_iff hn'.ncli).1 h0)
  | flag on =>
    have h0 : s.ncli = 0 := ha
    refine ⟨_, locks, rfl, ⟨h.holds, hn.ncli, fun hne => ?_⟩, fun hne => absurd h0 hne⟩
    exact absurd ((eq_zero_iff hn.ncli).1 h0) hne
  | other lk l =>
    have hnot : lk ∉ locks := by simp [h.holds, ha.1]
    refine ⟨_, locks, rfl, ⟨?_, hn.ncli, fun hne => (hleft hne hn).off hne⟩,
      fun hne h0 => absurd h0 hne⟩
    simpa only [ha.2, if_false, Bool.false_eq_true, Finset.erase_eq_of_notMem hnot] using
      holds_setLock (t := s.setLock lk l) h.holds rfl

theorem inv_of_reachable (h : (cpuSystem L cpu).ReachableBy (Sound cpu) x) :
    ∃ locks, Inv cpu x locks := by
  refine Machine.ReachableBy.induct (I := fun x => ∃ locks, Inv cpu x locks) ?_ ?_ h
  · rintro ⟨s, g⟩ ⟨⟨h0, hfree⟩, rfl⟩
    refine ⟨∅, by simp [hfree], ?_, fun hne => absurd rfl hne⟩
    rw [h0]
    rfl
  · rintro x a y - ⟨locks, hi⟩ ha hs
    obtain ⟨s', locks', hrun, hi', -⟩ := hi.run ha
    have hy : (s', Past.record x.1 a x.2) = y := by
      have hs : (a.run cpu x.1).toOption.map (·, Past.record x.1 a x.2) = some y := hs
      rw [hrun] at hs
      exact Option.some.inj hs
    exact ⟨locks', hy ▸ hi'⟩

/-- **Interrupt nesting is exact** while `ncli` does not overflow: it is the number of
locks held and of open `pushcli`s, above 0 interrupts are off, no call panics, and
when it is 0 again the flag is as it was when `ncli` left 0. -/
theorem nesting_exact (h : (cpuSystem L cpu).ReachableBy (Sound cpu) x) :
    (∃ locks : Finset L, (∀ lk, lk ∈ locks ↔ holding cpu (x.1.lock lk)) ∧
      x.1.ncli.toInt = locks.card + x.2.opened) ∧
    (0 < x.1.ncli → x.1.interrupts = false) ∧
    ∀ a, Sound cpu x a → ∃ s', a.run cpu x.1 = .ok s' ∧
      (x.1.ncli ≠ 0 → s'.ncli = 0 → s'.interrupts = x.2.left) := by
  obtain ⟨locks, hi⟩ := inv_of_reachable h
  refine ⟨⟨locks, hi.holds, ?_⟩, fun hpos => ?_, fun a ha => ?_⟩
  · rw [hi.nested.ncli, Int.natCast_add]
  · have hne : x.1.ncli ≠ 0 := fun h0 => Int32.lt_irrefl (h0 ▸ hpos)
    exact (hi.nested.off (mt (eq_zero_iff hi.nested.ncli).2 hne)).1
  · obtain ⟨s', -, hrun, -, hflag⟩ := hi.run ha
    exact ⟨s', hrun, hflag⟩

theorem init_idle : (cpuSystem L cpu).init (⟨fun _ => ⟨false, none⟩, 0, false, true⟩, ⟨0, false⟩) :=
  ⟨⟨rfl, fun _ => rfl⟩, rfl⟩

/-- Of two locks the first one acquired is released first. -/
theorem nesting_exact_crossed :
    ∃ x, (cpuSystem Bool ()).ReachableBy (Sound ()) x ∧ x.1.interrupts = false ∧
      ∃ s', Call.run () x.1 (.release true) = .ok s' ∧ s'.interrupts = true := by
  have h0 : (cpuSystem Bool ()).ReachableBy (Sound ()) _ := .init init_idle
  have h1 := h0.step (a := Call.acquire false) ⟨rfl, (by decide : (0 : Int32) ≠ Int32.maxValue)⟩ rfl
  have h2 := h1.step (a := Call.acquire true) ⟨rfl, (by decide : (1 : Int32) ≠ Int32.maxValue)⟩ rfl
  have hx := h2.step (a := Call.release false) ⟨rfl, trivial⟩ rfl
  obtain ⟨-, hoff, hcall⟩ := nesting_exact hx
  obtain ⟨s', hrun, hflag⟩ := hcall (.release true) ⟨rfl, trivial⟩
  refine ⟨_, hx, hoff (by decide), s', hrun, hflag (by decide) ?_⟩
  cases hrun
  rfl

variable (L cpu) in
theorem reachable_pushclis (n : Nat) : ∃ x, (cpuSystem L cpu).ReachableBy (Matched cpu) x ∧
    x.1.ncli = Int32.ofNat n ∧ x.2.opened = n := by
  induction n with
  | zero => exact ⟨_, .init init_idle, rfl, rfl⟩
  | succ n ih =>
    obtain ⟨x, hx, hn, ho⟩ := ih
    refine ⟨_, hx.step (a := .pushcli) trivial rfl, ?_, congrArg (· + 1) ho⟩
    show x.1.ncli + 1 = _
    rw [hn, Int32.ofNat_add]
    rfl

/-- After 2³¹ calls of `pushcli` the counter is negative. -/
theorem ncli_wraps :
    ∃ x, (cpuSystem Bool ()).ReachableBy (Matched ()) x ∧
      ∀ locks : Finset Bool, x.1.ncli.toInt ≠ locks.card + x.2.opened := by
  obtain ⟨x, hx, hn, ho⟩ := reachable_pushclis Bool () (2 ^ 31)
  refine ⟨x, hx, fun locks => ?_⟩
  have hneg : x.1.ncli.toInt = -2 ^ 31 := by rw [hn]; rfl
  omega

end Xv6.Spin
