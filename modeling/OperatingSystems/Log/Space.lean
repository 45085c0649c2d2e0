import OperatingSystems.Log.Crash
import Mathlib.Algebra.BigOperators.Group.Finset.Basic
import Mathlib.Algebra.Order.BigOperators.Group.Finset

/-!
# Space in the log

`begin_op` reserves `MAXOPBLOCKS` blocks of the log for an operation, and lets one
more in if the blocks logged and the blocks reserved are at most `LOGSIZE`.  The
log that `mkfs` makes has `LOGSIZE` blocks, one of which is the header, and
`log_write` checks for `log.size - 1`, before it looks whether the block is logged
already, and before it takes the lock.

* `counting`: in every run `log.outstanding` counts the operations.
* `Sys.modest`: an operation logs at most `MAXOPBLOCKS` different blocks.
* `no_big_transaction`: `log_write` does not panic if `begin_op` lets an operation in
  only if all reservations together leave two blocks of the log area free;
  `big_transaction` is a run in which it panics.
* `log_in_area`: the log does not overrun its area if `log_write` goes on only when
  the blocks logged, and those of the other processes past their checks, fit;
  `log_overrun` is a run in which it does overrun.
-/

namespace Xv6

open Function Finset Machine Sys

instance : DecidablePred Pc.InOp
  | .inOp => isTrue trivial
  | .logWrite _ => isTrue trivial
  | .outside => isFalse id
  | .commit _ => isFalse id

/-- The blocks a process may still log. -/
def Thread.spare (t : Thread) : Nat := if t.pc.InOp then MAXOPBLOCKS - t.logged.length else 0

variable {b : Blockno}

namespace Sys

variable {A : LogArea} {s s' : Sys} {e : Event} {p : Nat} {t : Thread} {ps : Finset Nat}

/-! ## Counting operations -/

/-- Every step keeps the count. -/
theorem Counting.trans (hc : s.Counting) (h : Trans A s e s') : s'.Counting := by
  cases h with
  | crash =>
    refine ⟨⟨∅, rfl, fun q => ?_⟩, fun q c hq => (by cases hq)⟩
    simp [boot]
  | panic _ | readHead | reinstall | reinstalled | recovered | tooBig => exact ⟨hc.count, hc.commit⟩
  | @beginOp p _ hpc hfree _ => exact hc.begin rfl hpc rfl hfree rfl
  | @bread _ p | @change p | @brelse _ p =>
    exact hc.same rfl Iff.rfl (fun c hc => ⟨c, hc⟩) rfl rfl
  | @logWrite p b _ hpc =>
    exact hc.same rfl (by simp [hpc]) (fun c hc => by cases hc) rfl rfl
  | @append p b _ hpc =>
    exact hc.same rfl (by simp [hpc, Thread.append]) (fun c hc => by cases hc) rfl rfl
  | @endOp p _ hpc => exact hc.endOp rfl hpc rfl rfl
  | @endLast p _ hpc _ _ hout => exact hc.endLast rfl hpc rfl hout rfl rfl
  | @start p _ hpc | @writeLog _ p _ _ _ hpc | @wroteLog p _ _ hpc | @writeHead _ p _ hpc
  | @installTrans _ p _ _ _ hpc | @installed p _ _ hpc | @eraseHead _ p _ hpc =>
    exact hc.same rfl (by simp [hpc]) (fun _ _ => ⟨_, hpc⟩) rfl rfl
  | @done p _ hpc => exact hc.done rfl hpc rfl rfl

/-! ## Reservations -/

/-- An operation logs at most `MAXOPBLOCKS` different blocks. -/
def modest (s : Sys) : Event → Prop
  | .logWrite p b => b ∈ (s.thread p).logged ∨ (s.thread p).logged.length < MAXOPBLOCKS
  | _ => True

/-- The blocks the operations of the processes `ps` may still log. -/
def reserved (ps : Finset Nat) (s : Sys) : Nat := ∑ q ∈ ps, (s.thread q).spare

/-- `begin_op` is called by one of the processes `ps`, and it lets the operation in
only if the blocks logged and all reservations leave two blocks of the area free. -/
def roomy (A : LogArea) (ps : Finset Nat) (s : Sys) : Event → Prop
  | .beginOp p => p ∈ ps ∧ s.log.lh.length + s.reserved ps + MAXOPBLOCKS + 2 ≤ A.size
  | _ => True

instance (s : Sys) : (e : Event) → Decidable (s.modest e)
  | .logWrite _ _ => inferInstanceAs (Decidable (_ ∨ _))
  | .beginOp _ | .bread _ _ | .change _ _ _ | .append _ | .brelse _ _ | .endOp _ | .commit _
  | .recover | .crash => isTrue trivial

instance (s : Sys) : (e : Event) → Decidable (s.roomy A ps e)
  | .beginOp _ => inferInstanceAs (Decidable (_ ∧ _))
  | .logWrite _ _ | .bread _ _ | .change _ _ _ | .append _ | .brelse _ _ | .endOp _ | .commit _
  | .recover | .crash => isTrue trivial

theorem reserved_update (s s' : Sys) (ps : Finset Nat)
    (hth : s'.thread = update s.thread p t) (hp : p ∈ ps) :
    s'.reserved ps + (s.thread p).spare = s.reserved ps + t.spare := by
  unfold reserved
  rw [← add_sum_erase ps _ hp, ← add_sum_erase ps (fun q => (s.thread q).spare) hp]
  have hrest : ∑ q ∈ ps.erase p, (s'.thread q).spare = ∑ q ∈ ps.erase p, (s.thread q).spare := by
    refine sum_congr rfl fun q hq => ?_
    rw [hth, update_of_ne (ne_of_mem_erase hq)]
  rw [hrest, hth, update_self]
  omega

theorem reserved_le (ps : Finset Nat) (hth : s'.thread = update s.thread p t)
    (ht : t.spare ≤ (s.thread p).spare) : s'.reserved ps ≤ s.reserved ps := by
  refine sum_le_sum fun q _ => ?_
  rw [hth]
  by_cases hqp : q = p
  · rw [hqp, update_self]
    exact ht
  · rw [update_of_ne hqp]

/-- The reservations fit in the log, and operations keep to them. -/
structure Reserved (A : LogArea) (ps : Finset Nat) (s : Sys) : Prop where
  idle : ∀ pc, s.mode = .recovering pc → ∀ p, ¬ (s.thread p).pc.InOp
  quiet : s.mode ≠ .panicked .tooBigATransaction
  mem : ∀ p, (s.thread p).pc.InOp → p ∈ ps
  logged : ∀ p, (s.thread p).pc.InOp → ∀ b ∈ (s.thread p).logged, b ∈ s.log.lh
  next : ∀ p b, (s.thread p).pc = .logWrite b →
    b ∈ (s.thread p).logged ∨ (s.thread p).logged.length < MAXOPBLOCKS
  room : ∀ p, (s.thread p).pc.InOp → s.log.lh.length + s.reserved ps + 2 ≤ A.size

/-- Without operations nothing is reserved. -/
theorem reserved_of_idle (hno : ∀ p, ¬ (s.thread p).pc.InOp)
    (hq : s.mode ≠ .panicked .tooBigATransaction) : s.Reserved A ps where
  idle := fun _ _ => hno
  quiet := hq
  mem := fun p hp => absurd hp (hno p)
  logged := fun p hp => absurd hp (hno p)
  next := fun p b hp => absurd (by rw [hp]; trivial) (hno p)
  room := fun p hp => absurd hp (hno p)

theorem Reserved.same (h : s.Reserved A ps) (hth : s'.thread = update s.thread p t)
    (hop : t.pc.InOp → (s.thread p).pc.InOp) (hlog : t.logged = (s.thread p).logged)
    (hnext : ∀ b, t.pc = .logWrite b → b ∈ t.logged ∨ t.logged.length < MAXOPBLOCKS)
    (hlh : s'.log.lh = s.log.lh) (hm : s'.mode = .running) : s'.Reserved A ps := by
  have hop' := History.Whole.inOp_of_update hth hop
  have hlog' : ∀ q, (s'.thread q).logged = (s.thread q).logged := by
    intro q
    rw [hth]
    by_cases hqp : q = p
    · rw [hqp, update_self, hlog]
    · rw [update_of_ne hqp]
  have hspare : t.spare ≤ (s.thread p).spare := by
    unfold Thread.spare
    rw [hlog]
    split
    · rename_i ht
      rw [if_pos (hop ht)]
    · omega
  refine ⟨fun pc hpc => ?_, by simp [hm], fun q hq => h.mem q (hop' q hq), ?_, ?_, ?_⟩
  · rw [hm] at hpc
    cases hpc
  · intro q hq b hb
    rw [hlh]
    exact h.logged q (hop' q hq) b (hlog' q ▸ hb)
  · intro q b hq
    rw [hlog']
    rw [hth] at hq
    by_cases hqp : q = p
    · rw [hqp, update_self] at hq
      rw [hqp, ← hlog]
      exact hnext b hq
    · rw [update_of_ne hqp] at hq
      exact h.next q b hq
  · intro q hq
    have hroom := h.room q (hop' q hq)
    have hle := reserved_le ps hth hspare
    rw [hlh]
    omega

theorem Reserved.beginOp (h : s.Reserved A ps) (hm : s.mode = .running)
    (hpc : (s.thread p).pc = .outside)
    (hok : p ∈ ps ∧ s.log.lh.length + s.reserved ps + MAXOPBLOCKS + 2 ≤ A.size) :
    Reserved A ps { s.setThread p { s.thread p with pc := .inOp, logged := [] } with
      log := { s.log with outstanding := s.log.outstanding + 1 } } := by
  have hsum := reserved_update s { s.setThread p { s.thread p with pc := .inOp, logged := [] } with
      log := { s.log with outstanding := s.log.outstanding + 1 } } ps
    rfl hok.1
  have hspare' : Thread.spare { s.thread p with pc := .inOp, logged := [] } = MAXOPBLOCKS := by
    simp [Thread.spare]
  refine ⟨?_, ?_, ?_, ?_, ?_, ?_⟩
  · intro pc hrec
    exact absurd (hm.symm.trans hrec) (by simp)
  · exact fun hp => absurd (hm.symm.trans hp) (by simp)
  · intro q hq
    by_cases hqp : q = p
    · exact hqp ▸ hok.1
    · exact h.mem q (by simpa [setThread, hqp] using hq)
  · intro q hq b hb
    by_cases hqp : q = p
    · subst hqp
      simp [setThread] at hb
    · exact h.logged q (by simpa [setThread, hqp] using hq) b (by simpa [setThread, hqp] using hb)
  · intro q b hq
    by_cases hqp : q = p
    · subst hqp
      simp [setThread] at hq
    · simp only [setThread, update_of_ne hqp] at hq ⊢
      exact h.next q b hq
  · intro q _
    show s.log.lh.length + _ + 2 ≤ A.size
    omega

/-- The append of `log_write`: a new block uses up one of the blocks reserved. -/
theorem Reserved.append (h : s.Reserved A ps) (hm : s.mode = .running)
    (hpc : (s.thread p).pc = .logWrite b) :
    Reserved A ps { s.setThread p ((s.thread p).append b) with
      log := s.log.append b, io := s.io.update b Buf.pin } := by
  have hin : (s.thread p).pc.InOp := by simp [hpc]
  have hmem := h.mem p hin
  refine ⟨?_, ?_, ?_, ?_, ?_, ?_⟩
  · intro pc hrec
    exact absurd (hm.symm.trans hrec) (by simp)
  · exact fun hp => absurd (hm.symm.trans hp) (by simp)
  · intro q hq
    by_cases hqp : q = p
    · exact hqp ▸ hmem
    · exact h.mem q (by simpa [setThread, hqp] using hq)
  · intro q hq b' hb'
    refine Log.mem_append.2 ?_
    by_cases hqp : q = p
    · subst hqp
      simp only [setThread, update_self, Thread.append] at hb'
      split at hb'
      · exact .inl (h.logged q hin b' hb')
      · rcases List.mem_cons.1 hb' with rfl | hb'
        · exact .inr rfl
        · exact .inl (h.logged q hin b' hb')
    · simp only [setThread, update_of_ne hqp] at hq hb'
      exact .inl (h.logged q hq b' hb')
  · intro q b' hq
    by_cases hqp : q = p
    · subst hqp
      simp [setThread, Thread.append] at hq
    · simp only [setThread, update_of_ne hqp] at hq ⊢
      exact h.next q b' hq
  · intro q _
    have hsum := reserved_update s { s.setThread p ((s.thread p).append b) with
        log := s.log.append b, io := s.io.update b Buf.pin } ps
      rfl hmem
    have hroom := h.room p hin
    show (s.log.append b).lh.length + _ + 2 ≤ A.size
    by_cases hlogged : b ∈ (s.thread p).logged
    · -- absorbed: the block is in the header already
      have hspare : ((s.thread p).append b).spare = (s.thread p).spare := by
        simp [Thread.spare, Thread.append, hlogged, hpc]
      have hlen : (s.log.append b).lh.length = s.log.lh.length := by
        simp [Log.append, h.logged p hin b hlogged]
      omega
    · have hless := (h.next p b hpc).resolve_left hlogged
      have hspare : ((s.thread p).append b).spare + 1 = (s.thread p).spare := by
        simp only [Thread.spare, Thread.append, if_neg hlogged, if_pos hin, Pc.inOp_inOp, if_true,
          List.length_cons]
        omega
      have hlen : (s.log.append b).lh.length ≤ s.log.lh.length + 1 := by
        unfold Log.append
        split <;> simp
      omega

/-- **Operations that keep to their reservations** find room in the log. -/
theorem Reserved.trans (h : s.Reserved A ps) (hc : s.Counting) (ht : Trans A s e s')
    (hmod : s.modest e) (hroom : s.roomy A ps e) : s'.Reserved A ps := by
  have hcommit : ∀ {p c t} {s' : Sys}, (s.thread p).pc = .commit c →
      s'.thread = update s.thread p t → ¬ t.pc.InOp → s'.mode = .running →
      s'.Reserved A ps := by
    intro p c t s' hpc hth ht hm
    refine reserved_of_idle (fun q hq => ?_) (by simp [hm])
    exact hc.not_inOp hpc q (History.Whole.inOp_of_update hth (fun h => absurd h ht) q hq)
  cases ht with
  | crash => exact reserved_of_idle (fun q hq => by cases hq) (by simp [boot])
  | panic hwhy =>
    exact ⟨fun pc hpc => (by cases hpc), fun hp => (by cases hp; exact hwhy), h.mem, h.logged, h.next,
      h.room⟩
  | readHead hm | reinstall hm | reinstalled hm | recovered hm =>
    exact reserved_of_idle (h.idle _ hm) (by simp)
  | beginOp hm hpc => exact h.beginOp hm hpc hroom
  | @bread _ p b hm | @change p b d hm | @brelse _ p b hm =>
    exact h.same rfl id rfl (h.next p) rfl hm
  | @tooBig p b hm hpc hb hbig =>
    have hroom := h.room p (by simp [hpc])
    have hsize := A.header
    omega
  | @logWrite p b hm hpc =>
    refine h.same rfl (fun _ => by simp [hpc]) rfl ?_ rfl hm
    intro b' hb'
    cases hb'
    exact hmod
  | append hm hpc => exact h.append hm hpc
  | @endOp p hm hpc =>
    exact h.same rfl (fun hq => by cases hq) rfl (fun b hb => by cases hb) rfl hm
  | @endLast p hm hpc =>
    exact h.same rfl (fun hq => by cases hq) rfl (fun b hb => by cases hb) rfl hm
  | @start p hm hpc | @writeLog _ p _ _ hm hpc | @wroteLog p _ hm hpc | @writeHead _ p hm hpc
  | @installTrans _ p _ _ hm hpc | @installed p _ hm hpc | @eraseHead _ p hm hpc | @done p hm hpc =>
    exact hcommit hpc rfl id hm

theorem boot_counting (d : Disk) : (boot d).Counting :=
  ⟨⟨∅, rfl, fun q => by simp [boot]⟩, fun q c hq => by cases hq⟩

end Sys

/-- In every run `log.outstanding` counts the operations. -/
theorem counting {A : LogArea} {d : Disk} {s : Sys} (h : (logSystem A d).Reachable s) :
    s.Counting := by
  refine h.induct ?_ ?_
  · rintro s rfl
    exact boot_counting d
  · intro s e s' _ hc _ hs
    exact hc.trans (trans_of_step hs)

/-- **`log_write` does not panic** in a run in which operations log at most
`MAXOPBLOCKS` different blocks, and in which `begin_op` lets an operation in only if
all reservations leave two blocks of the area free. -/
theorem no_big_transaction {A : LogArea} {d : Disk} {ps : Finset Nat} {s : Sys}
    (h : (logSystem A d).ReachableBy (fun s e => s.modest e ∧ s.roomy A ps e) s) :
    s.mode ≠ .panicked .tooBigATransaction := by
  have hres : s.Reserved A ps := by
    refine h.induct ?_ ?_
    · rintro s rfl
      exact reserved_of_idle (fun q hq => by cases hq) (by simp [boot])
    · intro s e s' hr hres hok hs
      exact hres.trans (counting hr.reachable) (trans_of_step hs) hok.1 hok.2
  exact hres.quiet

/-- Process `p` logs block `b`. -/
def logBlock (p : Nat) (b : Blockno) : List Sys.Event :=
  [.bread p b, .logWrite p b, .append p, .brelse p b]

/-- Process `p` logs `n` blocks, from block `b` on. -/
def logBlocks (p b n : Nat) : List Sys.Event :=
  (List.range n).flatMap fun i => logBlock p (UInt32.ofNat (b + i))

theorem no_big_transaction_two : ∃ s, (logSystem .mkfs fun _ => .zero).ReachableBy
        (fun s e => s.modest e ∧ s.roomy .mkfs {0, 1} e) s ∧ s.log.lh.length = 20 ∧
      s.mode ≠ .panicked .tooBigATransaction := by
  obtain ⟨s, h, hlen⟩ := reachableBy_of_runBy (M := logSystem .mkfs fun _ => .zero)
    (P := fun s => s.log.lh.length = 20) (fun s e => s.modest e ∧ s.roomy .mkfs {0, 1} e)
    (boot fun _ => .zero)
    ([.recover, .recover, .recover, .beginOp 0, .beginOp 1] ++ logBlocks 0 100 10 ++
      logBlocks 1 110 10) rfl (by decide)
  exact ⟨s, h, hlen, no_big_transaction h⟩

/-- **Three operations are too many.**  `begin_op` lets three of them in, and
together they log 29 blocks.  The next block is within the reservation of the third
one, and `log_write` panics. -/
theorem big_transaction : ∃ s, (logSystem .mkfs fun _ => .zero).ReachableBy modest s ∧
      s.mode = .panicked .tooBigATransaction :=
  reachableBy_of_runBy modest (boot fun _ => .zero)
    ([.recover, .recover, .recover, .beginOp 0, .beginOp 1, .beginOp 2] ++ logBlocks 0 100 10 ++
      logBlocks 1 110 10 ++ logBlocks 2 120 9 ++ [.bread 2 129, .logWrite 2 129]) rfl
    (by set_option maxRecDepth 20000 in decide)

/-! ## The area -/

/-- The block a process in `log_write` is about to append. -/
def Pc.appending : Pc → Finset Blockno
  | .logWrite b => {b}
  | _ => ∅

namespace Sys

variable {A : LogArea} {s s' : Sys} {e : Event} {p : Nat} {t : Thread} {ps : Finset Nat}

/-- The blocks in the header, and those the processes `ps` are about to append. -/
def claimed (ps : Finset Nat) (s : Sys) : Finset Blockno :=
  s.log.lh.toFinset ∪ ps.biUnion fun q => (s.thread q).pc.appending

/-- `log_write` is called by one of the processes `ps`, and goes on only if its block
fits in the area together with those that are claimed already. -/
def careful (A : LogArea) (ps : Finset Nat) (s : Sys) : Event → Prop
  | .logWrite p b => p ∈ ps ∧ (insert b (s.claimed ps)).card ≤ A.size - 1
  | _ => True

instance (s : Sys) : (e : Event) → Decidable (s.careful A ps e)
  | .logWrite _ _ => inferInstanceAs (Decidable (_ ∧ _))
  | .beginOp _ | .bread _ _ | .change _ _ _ | .append _ | .brelse _ _ | .endOp _ | .commit _
  | .recover | .crash => isTrue trivial

/-- What is claimed fits in the area. -/
structure Claimed (A : LogArea) (ps : Finset Nat) (s : Sys) : Prop where
  mem : ∀ p b, (s.thread p).pc = .logWrite b → p ∈ ps
  card : (s.claimed ps).card ≤ A.size - 1
  fits : s.fits A

theorem claimed_subset (hth : s'.thread = update s.thread p t)
    (hpc : t.pc.appending ⊆ (s.thread p).pc.appending) (hlh : ∀ b ∈ s'.log.lh, b ∈ s.claimed ps) :
    s'.claimed ps ⊆ s.claimed ps := by
  intro b hb
  rcases mem_union.1 hb with hb | hb
  · exact hlh b (List.mem_toFinset.1 hb)
  · obtain ⟨q, hq, hb⟩ := mem_biUnion.1 hb
    refine mem_union_right _ (mem_biUnion.2 ⟨q, hq, ?_⟩)
    rw [hth] at hb
    by_cases hqp : q = p
    · rw [hqp, update_self] at hb
      rw [hqp]
      exact hpc hb
    · rwa [update_of_ne hqp] at hb

theorem mem_claimed (hb : b ∈ s.log.lh) : b ∈ s.claimed ps :=
  mem_union_left _ (List.mem_toFinset.2 hb)

/-- With nothing in flight only the header counts. -/
theorem claimed_of_idle (h : ∀ q, (s.thread q).pc = .outside) :
    s.claimed ps = s.log.lh.toFinset := by
  simp [claimed, h, Pc.appending]

theorem appending_eq {pc : Pc} (h : b ∈ pc.appending) : pc = .logWrite b := by
  cases pc with
  | logWrite b' => rw [mem_singleton.1 h]
  | outside | inOp | commit c => cases h

theorem Claimed.same (h : s.Claimed A ps) (hth : s'.thread = update s.thread p t)
    (hpc : t.pc.appending ⊆ (s.thread p).pc.appending) (hlh : ∀ b ∈ s'.log.lh, b ∈ s.claimed ps) :
    (∀ q b, (s'.thread q).pc = .logWrite b → q ∈ ps) ∧ (s'.claimed ps).card ≤ A.size - 1 := by
  refine ⟨?_, le_trans (card_le_card (claimed_subset hth hpc hlh)) h.card⟩
  intro q b hq
  rw [hth] at hq
  by_cases hqp : q = p
  · rw [hqp, update_self] at hq
    have hb : b ∈ t.pc.appending := by
      rw [hq]
      exact mem_singleton_self b
    exact hqp ▸ h.mem p b (appending_eq (hpc hb))
  · rw [update_of_ne hqp] at hq
    exact h.mem q b hq

theorem Claimed.logWrite (h : s.Claimed A ps)
    (hok : p ∈ ps ∧ (insert b (s.claimed ps)).card ≤ A.size - 1)
    (hth : s'.thread = update s.thread p { s.thread p with pc := .logWrite b })
    (hlh : s'.log.lh = s.log.lh) :
    (∀ q b', (s'.thread q).pc = .logWrite b' → q ∈ ps) ∧ (s'.claimed ps).card ≤ A.size - 1 := by
  constructor
  · intro q b' hq
    by_cases hqp : q = p
    · exact hqp ▸ hok.1
    · rw [hth, update_of_ne hqp] at hq
      exact h.mem q b' hq
  · refine le_trans (card_le_card ?_) hok.2
    intro b' hb'
    rcases mem_union.1 hb' with hb' | hb'
    · exact mem_insert_of_mem (mem_claimed (hlh ▸ List.mem_toFinset.1 hb'))
    · obtain ⟨q, hq, hb'⟩ := mem_biUnion.1 hb'
      rw [hth] at hb'
      by_cases hqp : q = p
      · rw [hqp, update_self] at hb'
        rw [mem_singleton.1 hb']
        exact mem_insert_self b _
      · rw [update_of_ne hqp] at hb'
        exact mem_insert_of_mem (mem_union_right _ (mem_biUnion.2 ⟨q, hq, hb'⟩))

theorem claimed_idle (ps : Finset Nat) (hidle : ∀ q, s.thread q = ⟨.outside, [], [], []⟩)
    (hlen : s.log.lh.length ≤ A.size - 1) :
    (∀ q b, (s.thread q).pc = .logWrite b → q ∈ ps) ∧ (s.claimed ps).card ≤ A.size - 1 := by
  have hout : ∀ q, (s.thread q).pc = .outside := fun q => by rw [hidle q]
  refine ⟨fun q b hq => ?_, ?_⟩
  · rw [hout q] at hq
    cases hq
  · rw [claimed_of_idle hout]
    exact le_trans (List.toFinset_card_le _) hlen

theorem Claimed.trans {g : History} (h : s.Claimed A ps) (hsafe : s.Safe A g)
    (ht : Trans A s e s') (hok : s.careful A ps e) :
    (∀ q b, (s'.thread q).pc = .logWrite b → q ∈ ps) ∧ (s'.claimed ps).card ≤ A.size - 1 := by
  have hlh : ∀ b ∈ s.log.lh, b ∈ s.claimed ps := fun b => mem_claimed
  cases ht with
  | crash => exact claimed_idle ps (fun _ => rfl) (by simp [boot])
  | panic _ | tooBig | reinstall | recovered => exact ⟨h.mem, h.card⟩
  | readHead hm hio =>
    have hrec := hsafe.recovering hm
    obtain ⟨rfl, -⟩ := hrec.coherent.readHead hio
    refine claimed_idle ps hrec.idle ?_
    show (getHead _).length ≤ _
    rw [hrec.view_data]
    exact hsafe.1.head.fit
  | reinstalled hm => exact claimed_idle ps (hsafe.recovering hm).idle (by simp)
  | @beginOp p | @endOp p | @endLast p | @start p | @writeLog _ p | @wroteLog p | @writeHead _ p
  | @installTrans _ p | @eraseHead _ p | @done p =>
    exact h.same rfl (empty_subset _) hlh
  | @bread _ p | @change p | @brelse _ p => exact h.same rfl (Finset.Subset.refl _) hlh
  | logWrite => exact h.logWrite hok rfl rfl
  | @append p b _ hpc =>
    refine h.same rfl (empty_subset _) ?_
    intro b' hb'
    rcases Log.mem_append.1 hb' with hb' | rfl
    · exact hlh b' hb'
    · refine mem_union_right _ (mem_biUnion.2 ⟨p, h.mem p b' hpc, ?_⟩)
      rw [hpc]
      exact mem_singleton_self b'
  | @installed p => exact h.same rfl (empty_subset _) (fun b hb => by cases hb)

/-- The header names no block twice, so that it is no longer than what is claimed. -/
theorem Safe.fits_of_card {g : History} (h : s.Safe A g) (hp : ∀ why, s.mode ≠ .panicked why)
    (hcard : (s.claimed ps).card ≤ A.size - 1) : s.fits A := by
  unfold fits
  cases hm : s.mode with
  | panicked why => exact absurd hm (hp why)
  | running =>
    rw [← List.toFinset_card_of_nodup (h.running hm).1.cached.nodup]
    exact le_trans (card_le_card subset_union_left) hcard
  | recovering pc =>
    have hredone := (h.recovering hm).redone
    cases pc with
    | readHead =>
      replace hredone : s.log.lh = [] := hredone
      simp [hredone]
    | installTrans tail =>
      rw [hredone.1]
      exact h.1.head.fit
    | writeHead => simp [hredone.1]

theorem Claimed.step {g : History} (h : s.Claimed A ps) (hsafe : s.Safe A g)
    (hs : s.step A e = some s') (hok : s.careful A ps e) : s'.Claimed A ps := by
  have ht := trans_of_step hs
  obtain ⟨hmem, hcard⟩ := h.trans hsafe ht hok
  refine ⟨hmem, hcard, ?_⟩
  by_cases hp : ∃ why, s'.mode = .panicked why
  · obtain ⟨why, hp⟩ := hp
    rw [eq_of_panic ht hp]
    exact h.fits
  · exact (hsafe.step h.fits hs).fits_of_card (fun why hw => hp ⟨why, hw⟩) hcard

end Sys

/-- **The log stays in its area** in a run in which `log_write` goes on only if its
block fits together with the blocks in the header and those that other processes are
about to append: the header has at most as many blocks as there are in the area
besides it, and `write_log` writes no block outside the area. -/
theorem log_in_area {A : LogArea} {d : Disk} (h0 : getHead (d A.start) = []) {ps : Finset Nat}
    {s : Sys} (h : (logSystem A d).ReachableBy (careful A ps) s) :
    s.log.lh.length ≤ A.size - 1 ∧
      ∀ p tail s', (s.thread p).pc = .commit (.writeLog tail) → s.step A (.commit p) = some s' →
        ∀ b, ¬ A.Has b → s'.io.disk b = s.io.disk b := by
  obtain ⟨g, hg⟩ := exists_ghost (History.start d) (History.record A) h
  have hinv : s.Safe A g ∧ s.Claimed A ps := by
    refine hg.induct (I := fun x : Sys × History => x.1.Safe A x.2 ∧ x.1.Claimed A ps) ?_ ?_
    · rintro ⟨s, g⟩ hinit
      obtain ⟨hs, hg⟩ := hinit
      replace hs : s = boot d := hs
      replace hg : g = History.start d := hg
      subst hs hg
      obtain ⟨hmem, hcard⟩ := claimed_idle ps (s := boot d) (fun _ => rfl) (by simp [boot])
      exact ⟨safe_start h0, hmem, hcard, by simp [fits, boot]⟩
    · rintro ⟨s, g⟩ e ⟨s', g'⟩ - ⟨hsafe, hclaim⟩ hok hs
      obtain ⟨hs, hg⟩ := ghost_step hs
      replace hg : g' = History.record A s e g := hg
      subst hg
      exact ⟨hsafe.step hclaim.fits hs, hclaim.step hsafe hs hok⟩
  obtain ⟨hsafe, hclaim⟩ := hinv
  refine ⟨hclaim.fits, ?_⟩
  intro p tail s' hpc hs b hb
  have hother : ∀ c, (s.thread p).pc = .commit c → c = .writeLog tail := by
    intro c hc
    rw [hpc] at hc
    cases hc
    rfl
  cases trans_of_step hs with
  | panic _ => rfl
  | writeLog hm hpc' hb' hio =>
    obtain ⟨hr, hd⟩ := hsafe.running hm
    exact (hd.writeLog hr hclaim.fits hpc' hb' hio).2.1 b hb
  | wroteLog => rfl
  | start _ hpc' | writeHead _ hpc' | installTrans _ hpc' | installed _ hpc' | eraseHead _ hpc'
  | done _ hpc' =>
    cases hother _ hpc'

theorem log_in_area_commit :
    ∃ s, (logSystem .mkfs fun _ => .zero).ReachableBy (careful .mkfs {0, 1}) s ∧
      (s.thread 0).pc = .commit (.writeLog 0) ∧
      (s.log.lh.length ≤ LogArea.mkfs.size - 1 ∧
      ∀ p tail s', (s.thread p).pc = .commit (.writeLog tail) → s.step .mkfs (.commit p) = some s' →
        ∀ b, ¬ LogArea.mkfs.Has b → s'.io.disk b = s.io.disk b) := by
  obtain ⟨s, h, hpc⟩ := reachableBy_of_runBy (M := logSystem .mkfs fun _ => .zero)
    (P := fun s => (s.thread 0).pc = .commit (.writeLog 0)) (careful .mkfs {0, 1})
    (boot fun _ => .zero)
    ([.recover, .recover, .recover, .beginOp 0] ++ logBlocks 0 100 3 ++ [.endOp 0, .commit 0]) rfl
    (by decide)
  exact ⟨s, h, hpc, log_in_area (by decide) h⟩

/-- **The log overruns its area.**  Three operations have logged 28 blocks.  Two
processes pass the checks of `log_write` before either of them appends its block, and
the header has 30 blocks. -/
theorem log_overrun : ∃ s, (logSystem .mkfs fun _ => .zero).ReachableBy modest s ∧
      ¬ s.log.lh.length ≤ LogArea.mkfs.size - 1 :=
  reachableBy_of_runBy modest (boot fun _ => .zero)
    ([.recover, .recover, .recover, .beginOp 0, .beginOp 1, .beginOp 2] ++ logBlocks 0 100 10 ++
      logBlocks 1 110 9 ++ logBlocks 2 120 9 ++
      [.bread 1 130, .bread 2 131, .logWrite 1 130, .logWrite 2 131, .append 1, .append 2]) rfl
    (by decide)

end Xv6
