import OperatingSystems.Proc.Steps

/-!
# Which process the scheduler runs next

`scheduler` was rewritten to run the process that was created first.  The
variable that is to hold the oldest process found so far is declared inside the
loop, so it is empty again at every slot, and the loop switches to a runnable
slot as soon as it comes to one.

* `exec_switches`: only the scan of the process table gives a processor a
  process, and it gives it the first runnable slot it comes to.
* `switch_first_come_iff`: the process switched to is the one that came first
  exactly if the slots happen to lie in that order from where the scan stands.
* `scheduler_passes_over`: a run of the kernel in which they do not.
-/

namespace Xv6

open ProcState Kernel

variable {p : Slot}

namespace Table

/-- The process in slot `p` is runnable, and no runnable process was created
before it. -/
def FirstCome (t : Table) (p : Slot) : Prop :=
  (t p).state = RUNNABLE ∧ ∀ q, (t q).state = RUNNABLE → (t p).ctime ≤ (t q).ctime

/-- From the slot with the number `i` on, the nearest runnable slot holds a
process that no runnable process was created before. -/
def OldestNext (t : Table) (i : Nat) : Prop :=
  ∀ r : Slot, i ≤ r.val → (t r).state = RUNNABLE →
    (∀ r' : Slot, i ≤ r'.val → r' < r → (t r').state ≠ RUNNABLE) →
    ∀ q, (t q).state = RUNNABLE → (t r).ctime ≤ (t q).ctime

theorem mem_drop_slots {i : Nat} : p ∈ slots.drop i ↔ i ≤ p.val := by
  rw [List.mem_drop_iff_getElem]
  constructor
  · rintro ⟨j, hj, rfl⟩
    simp [slots]
  · intro h
    exact ⟨p.val - i, by simp [slots]; omega, by simp [slots]; ext; simp; omega⟩

theorem find_drop_slots {f : Slot → Bool} {i : Nat}
    (h : (slots.drop i).find? f = some p) {q : Slot} (hi : i ≤ q.val) (hq : q < p) :
    f q = false := by
  obtain ⟨-, as, bs, hl, has⟩ := List.find?_eq_some_iff_append.1 h
  have hmem : q ∈ slots.drop i := mem_drop_slots.2 hi
  have hsorted : (slots.drop i).Pairwise (· < ·) :=
    (List.pairwise_lt_finRange NPROC).sublist (List.drop_sublist i _)
  rw [hl] at hmem hsorted
  rcases List.mem_append.1 hmem with hq' | hq'
  · simpa using has q hq'
  · exfalso
    rcases List.mem_cons.1 hq' with rfl | hq'
    · exact lt_irrefl _ hq
    · have := List.rel_of_pairwise_cons (List.pairwise_append.1 hsorted).2.1 hq'
      exact lt_asymm hq this

/-- The slot the scan picks is the nearest runnable one. -/
theorem pick_spec {t : Table} {i : Nat} (h : t.pick i = some p) :
    i ≤ p.val ∧ (t p).state = RUNNABLE ∧
      ∀ q : Slot, i ≤ q.val → q < p → (t q).state ≠ RUNNABLE := by
  refine ⟨?_, pick_state h, ?_⟩
  · rw [pick_eq_find] at h
    exact mem_drop_slots.1 (List.mem_of_find?_eq_some h)
  · intro q hi hq
    rw [pick_eq_find] at h
    simpa using find_drop_slots h hi hq

/-- The slot the scan picks is the oldest exactly if the nearest one is. -/
theorem pick_firstCome_iff {t : Table} {i : Nat} (h : t.pick i = some p) :
    t.FirstCome p ↔ t.OldestNext i := by
  obtain ⟨hi, hrun, hnear⟩ := pick_spec h
  constructor
  · intro hf r hir hr hr' q hq
    have hpr : p = r := by
      rcases lt_trichotomy p r with hlt | heq | hgt
      · exact absurd hrun (hr' p hi hlt)
      · exact heq
      · exact absurd hr (hnear r hir hgt)
    subst hpr
    exact hf.2 q hq
  · intro ho
    exact ⟨hrun, ho p hi hrun hnear⟩

instance (t : Table) (p : Slot) : Decidable (t.FirstCome p) :=
  inferInstanceAs (Decidable (_ ∧ _))

end Table

namespace Kernel

variable {s s' : Kernel} {c : Cpu} {ch : Choice} {op : Op} {k : List Op}

/-- The slot at which the scan of `scheduler` stands on processor `c`. -/
def scanAt (s : Kernel) (c : Cpu) : Option Nat :=
  match (s.cpu c).code with
  | .schedScan i :: _ => some i
  | _ => none

/-- The step `e` from `s` to `s'` makes processor `c`, which was running no
process, switch to the process in slot `p`. -/
def Switches (s : Kernel) (e : Event) (s' : Kernel) (c : Cpu) (p : Slot) : Prop :=
  s.step e = some s' ∧ (s.cpu c).proc = none ∧ (s'.cpu c).proc = some p

/-- Only the scan gives a processor a process. -/
theorem exec_switches (h : s.exec c ch op k = some s') (hn : (s.cpu c).proc = none)
    (hp : (s'.cpu c).proc = some p) : ∃ i, op = .schedScan i ∧ s.proc.pick i = some p := by
  cases exec_cases h with
  | @dispatch i q hq =>
    refine ⟨i, rfl, ?_⟩
    rw [hq]
    simpa [dispatch] using hp
  | effect _ _ => simp [apply, hn] at hp
  | _ => simp [hn] at hp

theorem Switches.scan {e : Event} (h : Switches s e s' c p) :
    ∃ i, s.scanAt c = some i ∧ s.proc.pick i = some p := by
  obtain ⟨hs, hn, hp⟩ := h
  rcases step_cases hs with ⟨c', ch, op, k, -, hk, hex⟩ | ⟨c', code, -, -, rfl⟩
  · by_cases hc : c = c'
    · subst hc
      obtain ⟨i, rfl, hpick⟩ := exec_switches hex hn hp
      exact ⟨i, by rw [scanAt, hk], hpick⟩
    · rw [exec_cpu_ne hex hc, hn] at hp
      cases hp
  · by_cases hc : c = c'
    · subst hc; simp [hn] at hp
    · simp [hc, hn] at hp

end Kernel

/-- **First come, first served, and when.**  Whatever the table, a processor
that switches to `p` does so from the scan of `scheduler`, and `p` is a runnable
process that no runnable process was created before exactly if the nearest
runnable slot from where the scan stands holds one. -/
theorem switch_first_come_iff {s s' : Kernel} {e : Kernel.Event} {c : Cpu} {p : Slot}
    (h : Kernel.Switches s e s' c p) :
    ∃ i, s.scanAt c = some i ∧ (s.proc.FirstCome p ↔ s.proc.OldestNext i) := by
  obtain ⟨i, hi, hp⟩ := h.scan
  exact ⟨i, hi, Table.pick_firstCome_iff hp⟩

/-- The first process has processor 1.  A tick later it forks, and then it gives
up its processor. -/
def forkThenYield : List Kernel.Event :=
  execs 1 5 ++ [.timer 0] ++ execs 0 9 ++ [.syscall 1 .fork] ++ execs 1 4 ++ [.run 1 (.addr 1)] ++
    execs 1 4 ++ [.run 1 (.addr 1)] ++ execs 1 5 ++
    [.timer 1] ++ execs 1 5

/-- When the child has yielded too, the scan starts again and finds its parent. -/
theorem switch_first_come_iff_again :
    ∃ s s', kernel.Reachable s ∧ Kernel.Switches s (.run 1 .done) s' 1 0 ∧
      (s.proc 1).state = RUNNABLE ∧ s.proc.FirstCome 0 ∧
      ∃ i, s.scanAt 1 = some i ∧ (s.proc.FirstCome 0 ↔ s.proc.OldestNext i) := by
  obtain ⟨s, s', hr, hs, ⟨hn, hp⟩, hrun, hf⟩ := Machine.step_of_run (M := kernel)
    (Q := fun s s' => ((s.cpu 1).proc = none ∧ (s'.cpu 1).proc = some 0) ∧
      (s.proc 1).state = RUNNABLE ∧ s.proc.FirstCome 0)
    boot (forkThenYield ++ execs 1 3 ++ [.timer 1] ++ execs 1 9)
    (.run 1 .done) rfl (by decide)
  have hsw : Kernel.Switches s (.run 1 .done) s' 1 0 := ⟨hs, hn, hp⟩
  exact ⟨s, s', hr, hsw, hrun, hf, switch_first_come_iff hsw⟩

/-- The scheduler of processor 1 goes on with the slot after the one that
yielded and runs the child, which was created a tick later than its runnable
parent. -/
theorem scheduler_passes_over :
    ∃ s e s' c p, kernel.Reachable s ∧ Kernel.Switches s e s' c p ∧ ¬ s.proc.FirstCome p := by
  obtain ⟨s, s', hr, hs, ⟨hn, hp⟩, hf⟩ := Machine.step_of_run (M := kernel)
    (Q := fun s s' => ((s.cpu 1).proc = none ∧ (s'.cpu 1).proc = some 1) ∧ ¬ s.proc.FirstCome 1)
    boot forkThenYield (.run 1 .done) rfl (by decide)
  exact ⟨s, .run 1 .done, s', 1, 1, hr, ⟨hs, hn, hp⟩, hf⟩

end Xv6
