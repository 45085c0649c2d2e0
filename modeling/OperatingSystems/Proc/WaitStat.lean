import OperatingSystems.Lib.Bytes
import OperatingSystems.Proc.Kill

/-!
# `wait` and `wait_stat`

`wait_stat` is a copy of `wait` with stores to the caller's memory and resets of
the child's counters between its steps.  Here each of the two is translated
statement by statement, as a function of the tables the loop finds when it starts
over: the first when the call begins, and one more after every sleep.

* `waitScan_eq`, `waitStatScan_eq`: both loops stop where `lookChildren` does.
* `wait_stat_agrees`: the two calls sleep and return on the same tables, reap the
  same child and return the same value; the counters of the reaped slot and the
  caller's four variables are all that tells them apart.
* `wait_stat_same_variable`: two of the four may be one variable.
-/

namespace Xv6

open ProcState Function

/-- The addresses given to `wait_stat`.  `argptr` has checked that the four
integers lie in the `n` bytes of the process. -/
structure StatArgs (n : Nat) where
  wtime : Nat
  rtime : Nat
  iotime : Nat
  status : Nat
  wtime_le : wtime + 4 ≤ n
  rtime_le : rtime + 4 ≤ n
  iotime_le : iotime + 4 ≤ n
  status_le : status + 4 ≤ n

variable {n : Nat}

/-- The addresses are those of four variables, none of which overlaps another. -/
def StatArgs.Apart (a : StatArgs n) : Prop :=
  [a.wtime, a.rtime, a.iotime, a.status].Pairwise fun i j => i + 4 ≤ j ∨ j + 4 ≤ i

/-- How a call of `wait` or `wait_stat` ends. -/
structure Finish where
  /-- The table its last scan found. -/
  found : Table
  /-- The child it reaped, if any. -/
  child : Option Slot
  /-- The value it returns. -/
  value : Int32
  /-- The table it leaves. -/
  table : Table

namespace Table

/-! ## The two loops -/

/-- One scan of `wait`, from the given slots on; `none` if it comes to the
`sleep`. -/
def waitScan (t : Table) (me : Slot) : List Slot → Bool → Option Finish
  | [], havekids => if !havekids || (t me).killed then some ⟨t, none, -1, t⟩ else none
  | p :: ps, havekids =>
    if (t p).parent ≠ some me then waitScan t me ps havekids
    else if (t p).state = ZOMBIE then
      some ⟨t, some p, (t p).pid, update t p (reap (t p))⟩
    else waitScan t me ps true

/-- One scan of `wait_stat`, with the memory `m` of the caller. -/
def waitStatScan (t : Table) (me : Slot) (a : StatArgs n) (m : Bytes n) :
    List Slot → Bool → Option (Finish × Bytes n)
  | [], havekids =>
    if !havekids || (t me).killed then
      some (⟨t, none, -1, t⟩, m.put32 a.status (Int32.toUInt32 (-1)))
    else none
  | p :: ps, havekids =>
    if (t p).parent ≠ some me then waitStatScan t me a m ps havekids
    else if (t p).state = ZOMBIE then
      let m := m.put32 a.wtime (t p).retime
      let m := m.put32 a.rtime (t p).rutime
      let m := m.put32 a.iotime (t p).stime
      let pid := (t p).pid
      some (⟨t, some p, pid, update t p (reapStat (t p))⟩, m.put32 a.status pid.toUInt32)
    else waitStatScan t me a m ps true

/-- `wait`, when its scans find the tables `ts`; `none` if it still sleeps after
the last. -/
def wait (me : Slot) (ts : List Table) : Option Finish :=
  ts.findSome? fun t => t.waitScan me slots false

/-- `wait_stat`, likewise. -/
def waitStat (me : Slot) (a : StatArgs n) (m : Bytes n) (ts : List Table) :
    Option (Finish × Bytes n) :=
  ts.findSome? fun t => t.waitStatScan me a m slots false

/-- What the scan of `wait` makes of what it has found. -/
def waitEnd (t : Table) (me : Slot) : Option Slot × Bool → Option Finish
  | (some p, _) => some ⟨t, some p, (t p).pid, update t p (reap (t p))⟩
  | (none, havekids) => if !havekids || (t me).killed then some ⟨t, none, -1, t⟩ else none

/-- What the scan of `wait_stat` makes of it. -/
def waitStatEnd (t : Table) (me : Slot) (a : StatArgs n) (m : Bytes n) :
    Option Slot × Bool → Option (Finish × Bytes n)
  | (some p, _) => some (⟨t, some p, (t p).pid, update t p (reapStat (t p))⟩,
      (((m.put32 a.wtime (t p).retime).put32 a.rtime (t p).rutime).put32 a.iotime
        (t p).stime).put32 a.status (t p).pid.toUInt32)
  | (none, havekids) =>
    if !havekids || (t me).killed then
      some (⟨t, none, -1, t⟩, m.put32 a.status (Int32.toUInt32 (-1)))
    else none

theorem waitScan_eq (t : Table) (me : Slot) (ps : List Slot) (kids : Bool) :
    t.waitScan me ps kids = t.waitEnd me (t.lookChildren me ps kids) := by
  induction ps generalizing kids with
  | nil => rfl
  | cons p ps ih =>
    rw [waitScan, lookChildren]
    split_ifs with hpar hz
    · exact ih kids
    · rfl
    · exact ih true

theorem waitStatScan_eq (t : Table) (me : Slot) (a : StatArgs n) (m : Bytes n)
    (ps : List Slot) (kids : Bool) :
    t.waitStatScan me a m ps kids = t.waitStatEnd me a m (t.lookChildren me ps kids) := by
  induction ps generalizing kids with
  | nil => rfl
  | cons p ps ih =>
    rw [waitStatScan, lookChildren]
    split_ifs with hpar hz
    · exact ih kids
    · rfl
    · exact ih true

end Table

/-! ## What tells the two apart -/

/-- The two slots agree in everything but the counters. -/
def SameButTimes (q q' : Proc) : Prop :=
  q' = { q with ctime := q'.ctime, ttime := q'.ttime, stime := q'.stime, retime := q'.retime,
                rutime := q'.rutime }

theorem sameButTimes_reap (q : Proc) : SameButTimes (Table.reap q) (Table.reapStat q) := rfl

/-- What `wait_stat`, ending with `r'` and leaving the memory `m'`, has in common
with `wait`, ending with `r`. -/
structure Agrees {n : Nat} (a : StatArgs n) (m : Bytes n) (r r' : Finish) (m' : Bytes n) :
    Prop where
  /-- The calls slept as often. -/
  found : r'.found = r.found
  child : r'.child = r.child
  value : r'.value = r.value
  /-- The tables differ at most in the counters of the reaped slot. -/
  table : ∀ q, r'.table q = r.table q ∨ (r.child = some q ∧ SameButTimes (r.table q) (r'.table q))
  /-- `*wtime = p->retime; *rtime = p->rutime; *iotime = p->stime; *status = pid;` -/
  stores : ∀ p, r.child = some p →
    m' = (((m.put32 a.wtime (r.found p).retime).put32 a.rtime (r.found p).rutime).put32 a.iotime
      (r.found p).stime).put32 a.status r.value.toUInt32
  status : m'.get32 a.status = r.value.toUInt32
  times : ∀ p, r.child = some p → a.Apart → m'.get32 a.wtime = (r.found p).retime ∧
    m'.get32 a.rtime = (r.found p).rutime ∧ m'.get32 a.iotime = (r.found p).stime

/-- Variables that do not overlap hold what was stored in them. -/
theorem StatArgs.Apart.get32 {a : StatArgs n} (ha : a.Apart) (m : Bytes n) (w r io st : UInt32) :
    let m' := (((m.put32 a.wtime w).put32 a.rtime r).put32 a.iotime io).put32 a.status st
    m'.get32 a.wtime = w ∧ m'.get32 a.rtime = r ∧ m'.get32 a.iotime = io := by
  simp only [StatArgs.Apart, List.pairwise_cons, List.mem_cons, List.not_mem_nil, or_false,
    forall_eq_or_imp, forall_eq] at ha
  obtain ⟨⟨hwr, hwi, hws⟩, ⟨hri, hrs⟩, his, -⟩ := ha
  refine ⟨?_, ?_, ?_⟩
  · rw [Bytes.get32_put32_of_disjoint _ _ hws, Bytes.get32_put32_of_disjoint _ _ hwi,
      Bytes.get32_put32_of_disjoint _ _ hwr, Bytes.get32_put32 _ _ a.wtime_le]
  · rw [Bytes.get32_put32_of_disjoint _ _ hrs, Bytes.get32_put32_of_disjoint _ _ hri,
      Bytes.get32_put32 _ _ a.rtime_le]
  · rw [Bytes.get32_put32_of_disjoint _ _ his, Bytes.get32_put32 _ _ a.iotime_le]

theorem scan_agrees (t : Table) (me : Slot) (a : StatArgs n) (m : Bytes n) :
    (t.waitStatScan me a m slots false = none ∧ t.waitScan me slots false = none) ∨
      ∃ r r' m', t.waitScan me slots false = some r ∧
        t.waitStatScan me a m slots false = some (r', m') ∧ Agrees a m r r' m' := by
  rw [Table.waitScan_eq, Table.waitStatScan_eq]
  cases t.lookChildren me slots false with
  | mk z kids =>
    cases z with
    | some p =>
      refine .inr ⟨_, _, _, rfl, rfl, rfl, rfl, rfl, ?_, ?_, ?_, ?_⟩
      · intro q
        by_cases hq : q = p
        · subst hq
          simp only [update_self]
          exact .inr ⟨trivial, sameButTimes_reap (t q)⟩
        · simp only [update_of_ne hq]
          exact .inl trivial
      · rintro _ ⟨⟩
        rfl
      · exact Bytes.get32_put32 _ _ a.status_le
      · rintro _ ⟨⟩ ha
        exact ha.get32 m _ _ _ _
    | none =>
      simp only [Table.waitEnd, Table.waitStatEnd]
      split_ifs with hc
      · refine .inr ⟨_, _, _, rfl, rfl, rfl, rfl, rfl, fun _ => .inl rfl, ?_,
          Bytes.get32_put32 _ _ a.status_le, ?_⟩
        · rintro _ ⟨⟩
        · rintro _ ⟨⟩
      · exact .inl ⟨rfl, rfl⟩

/-- **`wait_stat` agrees with `wait`.**  Whatever tables the scans of a call find,
one after each sleep, `wait_stat` still sleeps after the last exactly if `wait`
does, and if not it returns after the same scan as `wait`, and agrees with it. -/
theorem wait_stat_agrees {n : Nat} (me : Slot) (a : StatArgs n) (m : Bytes n) (ts : List Table) :
    (Table.waitStat me a m ts = none ↔ Table.wait me ts = none) ∧ ∀ r, Table.wait me ts = some r →
        ∃ r' m', Table.waitStat me a m ts = some (r', m') ∧ Agrees a m r r' m' := by
  unfold Table.waitStat Table.wait
  induction ts with
  | nil => simp
  | cons t ts ih =>
    rw [List.findSome?_cons, List.findSome?_cons]
    rcases scan_agrees t me a m with ⟨hs, hw⟩ | ⟨r, r', m', hw, hs, hag⟩
    · rw [hs, hw]
      exact ih
    · rw [hs, hw]
      refine ⟨by simp, ?_⟩
      rintro _ ⟨⟩
      exact ⟨r', m', rfl, hag⟩

/-- A caller that gives one variable for `wtime` and `rtime` does not find the child's `retime`. -/
theorem wait_stat_same_variable :
    let t : Table := fun p =>
      if p = 1 then { state := ZOMBIE, parent := some 0, retime := 1, rutime := 2 } else {}
    let a : StatArgs 12 := ⟨0, 0, 4, 8, by decide, by decide, by decide, by decide⟩
    ∃ r r' m', Table.wait 0 [t] = some r ∧ Table.waitStat 0 a .zero [t] = some (r', m') ∧
      r.child = some 1 ∧ m'.get32 a.wtime ≠ (t 1).retime :=
  ⟨_, _, _, rfl, rfl, rfl, by decide⟩

end Xv6
