import OperatingSystems.Log.Trans
import Mathlib.Data.Finset.Card

/-!
# Who has which buffer, and what is pinned

What holds of the processes and the cache while the system is running, whatever
the blocks contain.

* `Holding`: no block is had by two processes; what a process has changed it still
  has, and it is in an operation.
* `Counting`: `log.outstanding` counts the operations, and a commit is alone.
* `Cached`: the cache is coherent, and pinned are the blocks in the header that are
  not installed yet.
* `Ready` is all three; `Ready.step` says that it is kept.
-/

namespace Xv6

open Function List

/-- The process is in an operation. -/
def Pc.InOp : Pc → Prop
  | .inOp => True
  | .logWrite _ => True
  | _ => False

@[simp] theorem Pc.inOp_inOp : Pc.inOp.InOp := trivial

@[simp] theorem Pc.inOp_logWrite (b : Blockno) : (Pc.logWrite b).InOp := trivial

@[simp] theorem Pc.not_inOp_outside : ¬ Pc.outside.InOp := id

@[simp] theorem Pc.not_inOp_commit (c : CommitPc) : ¬ (Pc.commit c).InOp := id

namespace Sys

/-- Some process has changed the block and not logged it yet. -/
def Changing (s : Sys) (b : Blockno) : Prop := ∃ p, b ∈ (s.thread p).changed

/-- The block is in the header, and it is not installed yet. -/
def Pinned (s : Sys) (b : Blockno) : Prop :=
  b ∈ s.log.lh ∧ ∀ p i, (s.thread p).pc = .commit (.installTrans i) → b ∈ s.log.lh.drop i

/-- Who has which buffer. -/
structure Holding (A : LogArea) (s : Sys) : Prop where
  held : ∀ p b, b ∈ (s.thread p).held → (s.io.view b).busy = true ∧ ¬ A.Has b
  unique : ∀ p q b, b ∈ (s.thread p).held → b ∈ (s.thread q).held → p = q
  nodup : ∀ p, (s.thread p).held.Nodup
  changed : ∀ p b, b ∈ (s.thread p).changed → b ∈ (s.thread p).held ∧ (s.thread p).pc.InOp
  logging : ∀ p b, (s.thread p).pc = .logWrite b → b ∈ (s.thread p).held

/-- How many operations there are, and that a commit is alone. -/
structure Counting (s : Sys) : Prop where
  count : ∃ F : Finset Nat, F.card = s.log.outstanding ∧ ∀ p, p ∈ F ↔ (s.thread p).pc.InOp
  commit : ∀ p c, (s.thread p).pc = .commit c → s.log.committing = true ∧
    s.log.outstanding = 0 ∧ ∀ q c', (s.thread q).pc = .commit c' → q = p

/-- What is in the cache. -/
structure Cached (A : LogArea) (s : Sys) : Prop where
  coherent : s.io.Coherent s.Changing
  nodup : s.log.lh.Nodup
  home : ∀ b ∈ s.log.lh, ¬ A.Has b
  pinned : ∀ b, (s.io.view b).dirty = true ↔ s.Pinned b

structure Ready (A : LogArea) (s : Sys) : Prop where
  holding : s.Holding A
  counting : s.Counting
  cached : s.Cached A

variable {A : LogArea} {s s' : Sys} {p : Nat} {t : Thread}

/-! ## Counting operations -/

/-- No one commits while there is an operation. -/
theorem Counting.not_commit (hc : s.Counting) (hp : (s.thread p).pc.InOp) (q : Nat) (c : CommitPc) :
    (s.thread q).pc ≠ .commit c := by
  intro hq
  obtain ⟨F, hcard, hF⟩ := hc.count
  have hzero := (hc.commit q c hq).2.1
  rw [← hcard, Finset.card_eq_zero] at hzero
  have hmem := (hF p).2 hp
  rw [hzero] at hmem
  exact absurd hmem (Finset.notMem_empty p)

theorem Counting.not_inOp (hc : s.Counting) {c : CommitPc} (hp : (s.thread p).pc = .commit c)
    (q : Nat) : ¬ (s.thread q).pc.InOp :=
  fun hq => hc.not_commit hq p c hp

theorem not_commit_of (hth : s'.thread = update s.thread p t)
    (ht : ∀ c, t.pc ≠ .commit c) (hno : ∀ q ≠ p, ∀ c, (s.thread q).pc ≠ .commit c) :
    ∀ q c, (s'.thread q).pc ≠ .commit c :=
  hth.update_forall (P := fun _ t => ∀ c, t.pc ≠ .commit c) ht hno

theorem only_commit (hth : s'.thread = update s.thread p t)
    (hno : ∀ q ≠ p, ∀ c, (s.thread q).pc ≠ .commit c) :
    ∀ q c, (s'.thread q).pc = .commit c → q = p :=
  hth.update_forall (P := fun q t => ∀ c, t.pc = .commit c → q = p) (fun _ _ => rfl)
    fun q hq c hc => absurd hc (hno q hq c)

section

variable (hc : s.Counting)

include hc

theorem Counting.others {c : CommitPc} (hp : (s.thread p).pc = .commit c) :
    ∀ q ≠ p, ∀ c', (s.thread q).pc ≠ .commit c' :=
  fun q hq c' hc' => hq ((hc.commit p c hp).2.2 q c' hc')

section

variable (hth : s'.thread = update s.thread p t)

include hth

theorem Counting.same (hpc : t.pc.InOp ↔ (s.thread p).pc.InOp)
    (hcom : ∀ c, t.pc = .commit c → ∃ c', (s.thread p).pc = .commit c')
    (hout : s'.log.outstanding = s.log.outstanding) (hing : s'.log.committing = s.log.committing) :
    s'.Counting := by
  have hcom' := hth.update_forall
    (P := fun q t => ∀ c, t.pc = .commit c → ∃ c', (s.thread q).pc = .commit c')
    hcom fun q _ c hq => ⟨c, hq⟩
  constructor
  · obtain ⟨F, hcard, hF⟩ := hc.count
    refine ⟨F, hcard.trans hout.symm, fun q => ?_⟩
    rw [hF, hth.update_congr (·.pc.InOp) (propext hpc)]
  · intro q c hq
    obtain ⟨c', hq'⟩ := hcom' q c hq
    obtain ⟨h1, h2, h3⟩ := hc.commit q c' hq'
    refine ⟨hing.trans h1, hout.trans h2, ?_⟩
    intro r c'' hr
    obtain ⟨c₀, hr'⟩ := hcom' r c'' hr
    exact h3 r c₀ hr'

theorem Counting.begin
    (hpc : (s.thread p).pc = .outside) (ht : t.pc = .inOp) (hfree : s.log.committing = false)
    (hout : s'.log.outstanding = s.log.outstanding + 1) : s'.Counting := by
  constructor
  · obtain ⟨F, hcard, hF⟩ := hc.count
    have hp : p ∉ F := by simp [hF, hpc]
    refine ⟨insert p F, by rw [Finset.card_insert_of_notMem hp, hcard, hout], ?_⟩
    intro q
    rw [Finset.mem_insert, hF, hth]
    by_cases hqp : q = p
    · simp [hqp, ht]
    · simp [hqp]
  · intro q c hq
    refine absurd hq (not_commit_of hth (by simp [ht]) (fun r _ c' hr => ?_) q c)
    rw [(hc.commit r c' hr).1] at hfree
    cases hfree

theorem Counting.count_end (hpc : (s.thread p).pc = .inOp) (ht : ¬ t.pc.InOp)
    (hout : s'.log.outstanding = s.log.outstanding - 1) :
    ∃ F : Finset Nat, F.card = s'.log.outstanding ∧ ∀ q, q ∈ F ↔ (s'.thread q).pc.InOp := by
  obtain ⟨F, hcard, hF⟩ := hc.count
  have hp : p ∈ F := by simp [hF, hpc]
  refine ⟨F.erase p, by rw [Finset.card_erase_of_mem hp, hcard, hout], ?_⟩
  intro q
  rw [Finset.mem_erase, hF, hth]
  by_cases hqp : q = p
  · simp [hqp, ht]
  · simp [hqp]

theorem Counting.endOp (hpc : (s.thread p).pc = .inOp) (ht : t.pc = .outside)
    (hout : s'.log.outstanding = s.log.outstanding - 1) : s'.Counting := by
  refine ⟨hc.count_end hth hpc (by simp [ht]) hout, ?_⟩
  intro q c hq
  have hno := hc.not_commit (p := p) (by simp [hpc])
  exact absurd hq (not_commit_of hth (by simp [ht]) (fun r _ => hno r) q c)

theorem Counting.endLast (hpc : (s.thread p).pc = .inOp) (ht : t.pc = .commit .start)
    (hlast : s.log.outstanding - 1 = 0) (hout : s'.log.outstanding = s.log.outstanding - 1)
    (hing : s'.log.committing = true) : s'.Counting := by
  have hno := hc.not_commit (p := p) (by simp [hpc])
  have honly := only_commit hth fun q _ => hno q
  refine ⟨hc.count_end hth hpc (by simp [ht]) hout, ?_⟩
  intro q c hq
  refine ⟨hing, hout.trans hlast, ?_⟩
  intro r c' hr
  rw [honly r c' hr, honly q c hq]

theorem Counting.done (hpc : (s.thread p).pc = .commit .done) (ht : t.pc = .outside)
    (hout : s'.log.outstanding = s.log.outstanding) : s'.Counting := by
  constructor
  · obtain ⟨F, hcard, hF⟩ := hc.count
    refine ⟨F, hcard.trans hout.symm, fun q => ?_⟩
    rw [hF, hth.update_congr (·.pc.InOp) (by simp [hpc, ht])]
  · intro q c hq
    exact absurd hq (not_commit_of hth (by simp [ht]) (hc.others hpc) q c)

end

end

/-! ## Holding buffers -/

theorem Holding.same (h : s.Holding A) (hth : s'.thread = update s.thread p t)
    (hheld : t.held.Sublist (s.thread p).held)
    (hbusy : ∀ q b, b ∈ (s'.thread q).held → (s.io.view b).busy = true → (s'.io.view b).busy = true)
    (hch : ∀ b ∈ t.changed, b ∈ t.held ∧ t.pc.InOp)
    (hlog : ∀ b, t.pc = .logWrite b → b ∈ t.held) : s'.Holding A := by
  have hsub := hth.update_forall (P := fun q t => t.held.Sublist (s.thread q).held) hheld
    fun q _ => List.Sublist.refl _
  refine ⟨?_, ?_, ?_, ?_, ?_⟩
  · intro q b hb
    obtain ⟨h1, h2⟩ := h.held q b ((hsub q).subset hb)
    exact ⟨hbusy q b hb h1, h2⟩
  · intro q r b hq hr
    exact h.unique q r b ((hsub q).subset hq) ((hsub r).subset hr)
  · intro q
    exact (h.nodup q).sublist (hsub q)
  · exact hth.update_forall (P := fun _ t => ∀ b ∈ t.changed, b ∈ t.held ∧ t.pc.InOp) hch
      fun q _ => h.changed q
  · exact hth.update_forall (P := fun _ t => ∀ b, t.pc = .logWrite b → b ∈ t.held) hlog
      fun q _ => h.logging q

theorem Holding.unchanged (h : s.Holding A) (hp : ¬ (s.thread p).pc.InOp) :
    (s.thread p).changed = [] := by
  rw [eq_nil_iff_forall_not_mem]
  intro b hb
  exact hp (h.changed p b hb).2

theorem Holding.commit (h : s.Holding A) {c c' : CommitPc}
    (hth : s'.thread = update s.thread p { s.thread p with pc := .commit c' })
    (hpc : (s.thread p).pc = .commit c)
    (hbusy : ∀ b, (s.io.view b).busy = true → (s'.io.view b).busy = true) : s'.Holding A := by
  refine h.same hth (.refl _) (fun _ b _ => hbusy b) ?_ (fun b hb => by cases hb)
  intro b hb
  rw [h.unchanged (by simp [hpc])] at hb
  cases hb

theorem Holding.bread (h : s.Holding A) {io : Bio} {b : Blockno} {T : Blockno → Prop}
    (hc : s.io.Coherent T) (hpc : (s.thread p).pc = .outside ∨ (s.thread p).pc = .inOp)
    (hb : ¬ A.Has b) (hio : s.io.bread b = .ok io) :
    ({ s.setThread p { s.thread p with held := b :: (s.thread p).held } with io } : Sys).Holding
      A := by
  obtain ⟨hfree, -, hview, -⟩ := hc.view_bread hio
  have hnot : ∀ q, b ∉ (s.thread q).held := by
    intro q hq
    rw [(h.held q b hq).1] at hfree
    cases hfree
  have hbusy := hview.update_forall
    (P := fun b' v => (s.io.view b').busy = true → v.busy = true) (fun _ => rfl) fun _ _ h => h
  generalize ht : ({ s.thread p with held := b :: (s.thread p).held } : Thread) = t
  have hth : (s.setThread p t).thread = update s.thread p t := rfl
  have hheld := hth.update_forall
    (P := fun q t => ∀ b' ∈ t.held, b' = b ∧ q = p ∨ b' ∈ (s.thread q).held)
    (fun b' hb' => by
      rw [← ht] at hb'
      exact (mem_cons.1 hb').imp_left fun h => ⟨h, rfl⟩)
    fun _ _ _ h => .inr h
  refine ⟨?_, ?_, ?_, ?_, ?_⟩
  · intro q b' hq
    rcases hheld q b' hq with ⟨rfl, -⟩ | hq
    · refine ⟨?_, hb⟩
      show (io.view b').busy = true
      rw [hview, update_self]
    · exact ⟨hbusy b' (h.held q b' hq).1, (h.held q b' hq).2⟩
  · intro q r b' hq hr
    rcases hheld q b' hq with ⟨rfl, hqp⟩ | hq'
    · rcases hheld r b' hr with ⟨-, hrp⟩ | hr'
      · exact hqp.trans hrp.symm
      · exact absurd hr' (hnot r)
    · rcases hheld r b' hr with ⟨rfl, -⟩ | hr'
      · exact absurd hq' (hnot q)
      · exact h.unique q r b' hq' hr'
  · refine hth.update_forall (P := fun _ t => t.held.Nodup) ?_ fun q _ => h.nodup q
    rw [← ht]
    exact nodup_cons.2 ⟨hnot p, h.nodup p⟩
  · refine hth.update_forall (P := fun _ t => ∀ b' ∈ t.changed, b' ∈ t.held ∧ t.pc.InOp) ?_
      fun q _ => h.changed q
    rw [← ht]
    exact fun b' hb' => ⟨mem_cons_of_mem _ (h.changed p b' hb').1, (h.changed p b' hb').2⟩
  · refine hth.update_forall (P := fun _ t => ∀ b', t.pc = .logWrite b' → b' ∈ t.held) ?_
      fun q _ => h.logging q
    rw [← ht]
    intro b' hb'
    rcases hpc with hpc | hpc <;> rw [hpc] at hb' <;> cases hb'

theorem Holding.brelse (h : s.Holding A) {io : Bio} {b : Blockno} (hw : s.io.Wf)
    (hpc : (s.thread p).pc = .outside ∨ (s.thread p).pc = .inOp) (hb : b ∈ (s.thread p).held)
    (hch : b ∉ (s.thread p).changed) (hio : s.io.brelse b = .ok io) :
    ({ s.setThread p { s.thread p with held := (s.thread p).held.erase b } with io } : Sys).Holding
      A := by
  obtain ⟨-, -, hview, -⟩ := hw.view_brelse hio
  refine h.same rfl erase_sublist ?_ ?_ ?_
  · intro q b' hq hbusy
    have hbb : b' ≠ b := by
      rintro rfl
      by_cases hqp : q = p
      · subst hqp
        simp only [setThread, update_self] at hq
        exact (h.nodup q).not_mem_erase hq
      · simp only [setThread, update_of_ne hqp] at hq
        exact hqp (h.unique q p b' hq hb)
    show (io.view b').busy = true
    rw [hview, update_of_ne hbb]
    exact hbusy
  · intro b' hb'
    have hne : b' ≠ b := fun heq => hch (heq ▸ hb')
    exact ⟨(mem_erase_of_ne hne).2 (h.changed p b' hb').1, (h.changed p b' hb').2⟩
  · intro b' hb'
    rcases hpc with hpc | hpc <;> rw [hpc] at hb' <;> cases hb'

/-! ## What is pinned -/

theorem changing_congr (hth : s'.thread = update s.thread p t)
    (hch : t.changed = (s.thread p).changed) (b : Blockno) : s'.Changing b ↔ s.Changing b := by
  simp only [Changing, hth.update_congr (·.changed) hch]

theorem pinned_congr (hth : s'.thread = update s.thread p t) (hlh : s'.log.lh = s.log.lh)
    (hpc : ∀ i, t.pc = .commit (.installTrans i) ↔ (s.thread p).pc = .commit (.installTrans i))
    (b : Blockno) : s'.Pinned b ↔ s.Pinned b := by
  have hsame := fun i => hth.update_congr (·.pc = .commit (.installTrans i)) (propext (hpc i))
  simp only [Pinned, hlh, hsame]

/-- Outside `install_trans` all blocks in the header are pinned. -/
theorem pinned_iff_mem (hpc : ∀ q i, (s.thread q).pc ≠ .commit (.installTrans i)) (b : Blockno) :
    s.Pinned b ↔ b ∈ s.log.lh :=
  ⟨fun h => h.1, fun h => ⟨h, fun q i hq => absurd hq (hpc q i)⟩⟩

/-- In `install_trans` the blocks still to be installed are pinned. -/
theorem pinned_iff_drop {i : Nat} (hpc : (s.thread p).pc = .commit (.installTrans i))
    (hone : ∀ q c, (s.thread q).pc = .commit c → q = p) (b : Blockno) :
    s.Pinned b ↔ b ∈ s.log.lh.drop i := by
  constructor
  · intro h
    exact h.2 p i hpc
  · intro h
    refine ⟨mem_of_mem_drop h, ?_⟩
    intro q j hq
    obtain rfl := hone q _ hq
    rw [hpc] at hq
    cases hq
    exact h

theorem Cached.same (hc : s.Cached A) (hlh : s'.log.lh = s.log.lh)
    (hcoh : s'.io.Coherent s'.Changing)
    (hdirty : ∀ b, (s'.io.view b).dirty = (s.io.view b).dirty)
    (hpin : ∀ b, s'.Pinned b ↔ s.Pinned b) : s'.Cached A where
  coherent := hcoh
  nodup := hlh ▸ hc.nodup
  home := hlh ▸ hc.home
  pinned := fun b => by rw [hdirty, hpin, hc.pinned]

theorem Cached.quiet (hc : s.Cached A) (hth : s'.thread = update s.thread p t)
    (hio : s'.io = s.io) (hlh : s'.log.lh = s.log.lh) (hch : t.changed = (s.thread p).changed)
    (hpc : ∀ i, t.pc = .commit (.installTrans i) ↔ (s.thread p).pc = .commit (.installTrans i)) :
    s'.Cached A := by
  refine hc.same hlh ?_ (fun b => by rw [hio]) (pinned_congr hth hlh hpc)
  rw [hio]
  exact hc.coherent.congr (changing_congr hth hch)

theorem Cached.clean_of_has (hc : s.Cached A) {b : Blockno} (hb : A.Has b) :
    (s.io.view b).dirty = false := by
  rw [← Bool.not_eq_true, hc.pinned]
  exact fun h => hc.home b h.1 hb

/-! ## The steps -/

section Steps

variable {io : Bio} {b : Blockno}

section

variable (hr : s.Ready A)

include hr

theorem Ready.beginOp (hpc : (s.thread p).pc = .outside) (hc : s.log.committing = false) :
    Ready A { s.setThread p { s.thread p with pc := .inOp, logged := [] } with
      log := { s.log with outstanding := s.log.outstanding + 1 } } where
  holding := by
    refine hr.holding.same rfl (.refl _) (fun _ _ _ h => h) ?_ (fun b hb => by cases hb)
    intro b hb
    exact ⟨(hr.holding.changed p b hb).1, trivial⟩
  counting := hr.counting.begin rfl hpc rfl hc rfl
  cached := hr.cached.quiet rfl rfl rfl rfl (fun i => by simp [hpc])

theorem Ready.bread (hpc : (s.thread p).pc = .outside ∨ (s.thread p).pc = .inOp) (hb : ¬ A.Has b)
    (h : s.io.bread b = .ok io) :
    Ready A { s.setThread p { s.thread p with held := b :: (s.thread p).held } with io } where
  holding := hr.holding.bread hr.cached.coherent hpc hb h
  counting := hr.counting.same rfl Iff.rfl (fun c hc => ⟨c, hc⟩) rfl rfl
  cached := by
    obtain ⟨-, -, hview, -⟩ := hr.cached.coherent.view_bread h
    refine hr.cached.same rfl ?_ ?_ (pinned_congr rfl rfl fun _ => .rfl)
    · exact (hr.cached.coherent.bread h).congr (changing_congr rfl rfl)
    · exact hview.update_congr (·.dirty) rfl

theorem Ready.change {d : Block} (hpc : (s.thread p).pc = .inOp) (hb : b ∈ (s.thread p).held) :
    Ready A { s.setThread p { s.thread p with changed := b :: (s.thread p).changed } with
      io := s.io.update b (Buf.put d) } where
  holding := by
    have hbusy := (hr.holding.held p b hb).1
    refine hr.holding.same rfl
      (List.Sublist.refl _) ?_ ?_ (fun b' hb' => hr.holding.logging p b' hb')
    · intro q b' _ hbusy'
      exact ((Bio.view_put d hbusy).update_congr (·.busy) rfl b').trans hbusy'
    · intro b' hb'
      refine ⟨?_, by simp [hpc]⟩
      rcases mem_cons.1 hb' with rfl | hb'
      · exact hb
      · exact (hr.holding.changed p b' hb').1
  counting := hr.counting.same rfl Iff.rfl (fun c hc => ⟨c, hc⟩) rfl rfl
  cached := by
    have hbusy := (hr.holding.held p b hb).1
    refine hr.cached.same rfl ?_ ?_ (pinned_congr rfl rfl fun _ => .rfl)
    · refine hr.cached.coherent.put d hbusy ?_
      intro b'
      constructor
      · rintro ⟨q, hq⟩
        by_cases hqp : q = p
        · subst hqp
          simp only [setThread, update_self, mem_cons] at hq
          exact hq.imp id fun h => ⟨q, h⟩
        · simp only [setThread, update_of_ne hqp] at hq
          exact .inr ⟨q, hq⟩
      · rintro (rfl | ⟨q, hq⟩)
        · exact ⟨p, by simp [setThread]⟩
        · by_cases hqp : q = p
          · subst hqp
            exact ⟨q, by simp [setThread, hq]⟩
          · exact ⟨q, by simpa [setThread, hqp] using hq⟩
    · exact (Bio.view_put d hbusy).update_congr (·.dirty) rfl

theorem Ready.logWrite (hpc : (s.thread p).pc = .inOp) (hb : b ∈ (s.thread p).held) :
    Ready A (s.setThread p { s.thread p with pc := .logWrite b }) where
  holding := by
    refine hr.holding.same rfl (.refl _) (fun _ _ _ h => h) ?_ ?_
    · intro b' hb'
      exact ⟨(hr.holding.changed p b' hb').1, trivial⟩
    · intro b' hb'
      cases hb'
      exact hb
  counting := hr.counting.same rfl (by simp [hpc]) (fun c hc => by cases hc) rfl rfl
  cached := hr.cached.quiet rfl rfl rfl rfl (fun i => by simp [hpc])

theorem Ready.brelse (hpc : (s.thread p).pc = .outside ∨ (s.thread p).pc = .inOp)
    (hb : b ∈ (s.thread p).held) (hch : b ∉ (s.thread p).changed) (h : s.io.brelse b = .ok io) :
    Ready A { s.setThread p { s.thread p with held := (s.thread p).held.erase b } with io } where
  holding := hr.holding.brelse hr.cached.coherent.toWf hpc hb hch h
  counting := hr.counting.same rfl Iff.rfl (fun c hc => ⟨c, hc⟩) rfl rfl
  cached := by
    obtain ⟨-, -, hview, -⟩ := hr.cached.coherent.toWf.view_brelse h
    have hnot : ¬ s.Changing b := by
      rintro ⟨q, hq⟩
      obtain rfl := hr.holding.unique q p b (hr.holding.changed q b hq).1 hb
      exact hch hq
    refine hr.cached.same rfl ?_ ?_ (pinned_congr rfl rfl fun _ => .rfl)
    · exact (hr.cached.coherent.brelse hnot h).congr (changing_congr rfl rfl)
    · exact hview.update_congr (·.dirty) rfl

theorem Ready.append (hpc : (s.thread p).pc = .logWrite b) :
    Ready A { s.setThread p ((s.thread p).append b) with
      log := s.log.append b, io := s.io.update b Buf.pin } := by
  have hb := hr.holding.logging p b hpc
  obtain ⟨hbusy, hhome⟩ := hr.holding.held p b hb
  have hview := Bio.view_pin hbusy
  have hno := hr.counting.not_commit (p := p) (by simp [hpc])
  refine ⟨?_, ?_, ?_, ?_, ?_, ?_⟩
  · refine hr.holding.same rfl (.refl _) ?_ ?_ (fun b' hb' => by cases hb')
    · intro q b' _ hbusy'
      exact (hview.update_congr (·.busy) rfl b').trans hbusy'
    · intro b' hb'
      exact ⟨(hr.holding.changed p b' (mem_filter.1 hb').1).1, trivial⟩
  · exact hr.counting.same rfl (by simp [hpc, Thread.append]) (fun c hc => by cases hc) rfl rfl
  · refine hr.cached.coherent.pin hbusy ?_
    intro b'
    constructor
    · rintro ⟨q, hq⟩
      by_cases hqp : q = p
      · subst hqp
        simp only [setThread, update_self, Thread.append, mem_filter, decide_eq_true_eq] at hq
        exact ⟨hq.2, q, hq.1⟩
      · simp only [setThread, update_of_ne hqp] at hq
        refine ⟨?_, q, hq⟩
        rintro rfl
        exact hqp (hr.holding.unique q p b' (hr.holding.changed q b' hq).1 hb)
    · rintro ⟨hne, q, hq⟩
      by_cases hqp : q = p
      · subst hqp
        exact ⟨q, by simp [setThread, Thread.append, hq, hne]⟩
      · exact ⟨q, by simpa [setThread, hqp] using hq⟩
  · show (s.log.append b).lh.Nodup
    unfold Log.append
    split
    · exact hr.cached.nodup
    · rename_i hin
      exact hr.cached.nodup.append (nodup_singleton b) (by simpa using hin)
  · intro b' hb'
    rcases Log.mem_append.1 hb' with hb' | rfl
    · exact hr.cached.home b' hb'
    · exact hhome
  · intro b'
    rw [pinned_iff_mem, Log.mem_append]
    · show ((s.io.update b Buf.pin).view b').dirty = true ↔ _
      have hold := hr.cached.pinned b'
      rw [pinned_iff_mem fun q i => hno q _] at hold
      rw [hview, ← hold]
      by_cases hbb : b' = b
      · rw [hbb, update_self]
        simp
      · rw [update_of_ne hbb]
        simp [hbb]
    · exact fun q i => not_commit_of rfl (fun _ => Pc.noConfusion) (fun q _ => hno q) q _

theorem Ready.endOp (hpc : (s.thread p).pc = .inOp) (hheld : (s.thread p).held = []) :
    Ready A { s.setThread p { s.thread p with pc := .outside } with
      log := { s.log with outstanding := s.log.outstanding - 1 } } where
  holding := by
    refine hr.holding.same rfl (.refl _) (fun _ _ _ h => h) ?_ (fun b hb => by cases hb)
    intro b hb
    have hb := (hr.holding.changed p b hb).1
    rw [hheld] at hb
    cases hb
  counting := hr.counting.endOp rfl hpc rfl rfl
  cached := hr.cached.quiet rfl rfl rfl rfl (fun i => by simp [hpc])

theorem Ready.endLast (hpc : (s.thread p).pc = .inOp)
    (hheld : (s.thread p).held = []) (hout : s.log.outstanding - 1 = 0) :
    Ready A { s.setThread p { s.thread p with pc := .commit .start } with
      log := { s.log with outstanding := s.log.outstanding - 1, committing := true } } where
  holding := by
    refine hr.holding.same rfl (.refl _) (fun _ _ _ h => h) ?_ (fun b hb => by cases hb)
    intro b hb
    have hb := (hr.holding.changed p b hb).1
    rw [hheld] at hb
    cases hb
  counting := hr.counting.endLast rfl hpc rfl hout rfl rfl
  cached := hr.cached.quiet rfl rfl rfl rfl (fun i => by simp [hpc])

theorem Ready.done (hpc : (s.thread p).pc = .commit .done) :
    Ready A { s.setThread p { s.thread p with pc := .outside } with
      log := { s.log with committing := false } } where
  holding := by
    refine hr.holding.same rfl (.refl _) (fun _ _ _ h => h) ?_ (fun b hb => by cases hb)
    intro b hb
    rw [hr.holding.unchanged (by simp [hpc])] at hb
    cases hb
  counting := hr.counting.done rfl hpc rfl rfl
  cached := hr.cached.quiet rfl rfl rfl rfl (fun i => by simp [hpc])

theorem Ready.commitTo {c : CommitPc} (c' : CommitPc) (hpc : (s.thread p).pc = .commit c)
    (hth : s'.thread = update s.thread p { s.thread p with pc := .commit c' })
    (hout : s'.log.outstanding = s.log.outstanding) (hing : s'.log.committing = s.log.committing)
    (hbusy : ∀ b, (s.io.view b).busy = true → (s'.io.view b).busy = true) (hcached : s'.Cached A) :
    s'.Ready A where
  holding := hr.holding.commit hth hpc hbusy
  counting := hr.counting.same hth (by simp [hpc]) (fun _ _ => ⟨c, hpc⟩) hout hing
  cached := hcached

theorem Ready.commitPc {c c' : CommitPc} (hpc : (s.thread p).pc = .commit c)
    (hc : ∀ i, c ≠ .installTrans i) (hc' : ∀ i, c' ≠ .installTrans i) :
    Ready A (s.commitTo p c') := by
  refine hr.commitTo c' hpc rfl rfl rfl (fun _ h => h) (hr.cached.quiet rfl rfl rfl rfl ?_)
  intro i
  simp [hpc, hc i, hc' i]

end

theorem busy_update {io io' : Bio} {d : Blockno} {x : Block} (hd : (io.view d).busy = false)
    (hview : io'.view = update io.view d ⟨x, false, false⟩) (b : Blockno)
    (hb : (io.view b).busy = true) : (io'.view b).busy = true := by
  have hne : b ≠ d := by
    rintro rfl
    rw [hb] at hd
    cases hd
  rw [hview, update_of_ne hne]
  exact hb

theorem Ready.area {c c' : CommitPc} {d : Blockno} {x : Block} (hr : s.Ready A)
    (hpc : (s.thread p).pc = .commit c) (hd : A.Has d) (hbusy : (s.io.view d).busy = false)
    (hview : io.view = update s.io.view d ⟨x, false, false⟩)
    (hcoh : io.Coherent s.Changing)
    (hpin : ∀ b, ({ s.commitTo p c' with io } : Sys).Pinned b ↔ s.Pinned b) :
    Ready A { s.commitTo p c' with io } := by
  refine hr.commitTo c' hpc rfl rfl rfl (busy_update hbusy hview) (hr.cached.same rfl ?_ ?_ hpin)
  · exact hcoh.congr (changing_congr rfl rfl)
  · exact hview.update_congr (·.dirty) (hr.cached.clean_of_has hd).symm

theorem Ready.writeLog {tail : Nat} (hr : s.Ready A) (hfit : s.log.lh.length ≤ A.size - 1)
    (hpc : (s.thread p).pc = .commit (.writeLog tail)) (hb : s.log.lh[tail]? = some b)
    (h : s.io.writeLog (A.slot tail) b = .ok io) :
    Ready A { s.commitTo p (.writeLog (tail + 1)) with io } := by
  obtain ⟨-, hbusy, -, -, hview, hcoh⟩ := hr.cached.coherent.writeLog h
  have htail := (List.getElem?_eq_some_iff.1 hb).1
  refine hr.area hpc (A.has_slot (by omega)) hbusy hview hcoh ?_
  exact pinned_congr (t := { s.thread p with pc := .commit (.writeLog (tail + 1)) }) rfl rfl
    (fun i => by simp [hpc])

theorem Ready.writeHead (hr : s.Ready A) (hpc : (s.thread p).pc = .commit .writeHead)
    (h : s.io.writeHead A.start s.log.lh = .ok io) :
    Ready A { s.commitTo p (.installTrans 0) with io } := by
  obtain ⟨hbusy, -, hview, hcoh⟩ := hr.cached.coherent.writeHead h
  refine hr.area hpc A.has_start hbusy hview hcoh ?_
  have hone := (hr.counting.commit p _ hpc).2.2
  intro b
  rw [pinned_iff_drop (p := p) (i := 0) (by simp [Sys.commitTo, setThread]), pinned_iff_mem]
  · simp [Sys.commitTo, setThread]
  · intro q i hq
    obtain rfl := hone q _ hq
    rw [hpc] at hq
    cases hq
  · exact only_commit rfl (hr.counting.others hpc)

theorem Ready.eraseHead (hr : s.Ready A) (hpc : (s.thread p).pc = .commit .eraseHead)
    (h : s.io.writeHead A.start s.log.lh = .ok io) : Ready A { s.commitTo p .done with io } := by
  obtain ⟨hbusy, -, hview, hcoh⟩ := hr.cached.coherent.writeHead h
  refine hr.area hpc A.has_start hbusy hview hcoh ?_
  exact pinned_congr rfl rfl (fun i => by simp [hpc])

theorem Ready.installTrans {tail : Nat} (hr : s.Ready A)
    (hpc : (s.thread p).pc = .commit (.installTrans tail)) (hb : s.log.lh[tail]? = some b)
    (h : s.io.installTrans (A.slot tail) b = .ok io) :
    Ready A { s.commitTo p (.installTrans (tail + 1)) with io } := by
  obtain ⟨-, hbusy, -, -, hview, hcoh⟩ := hr.cached.coherent.installTrans h
  have hone := (hr.counting.commit p _ hpc).2.2
  refine hr.commitTo (.installTrans (tail + 1)) hpc rfl rfl rfl (busy_update hbusy hview)
    ⟨?_, hr.cached.nodup, hr.cached.home, ?_⟩
  · exact hcoh.congr (changing_congr rfl rfl)
  · obtain ⟨htail, rfl⟩ := List.getElem?_eq_some_iff.1 hb
    intro b'
    have hold := hr.cached.pinned b'
    rw [pinned_iff_drop hpc hone, drop_eq_getElem_cons htail, mem_cons] at hold
    rw [pinned_iff_drop (p := p) (i := tail + 1) (by simp [Sys.commitTo, setThread])]
    · show (io.view b').dirty = true ↔ b' ∈ s.log.lh.drop (tail + 1)
      rw [hview]
      by_cases hbb : b' = s.log.lh[tail]
      · -- the block just installed is nowhere else in the header
        have hnot : s.log.lh[tail] ∉ s.log.lh.drop (tail + 1) := by
          have hnd := hr.cached.nodup.sublist (drop_sublist tail s.log.lh)
          rw [drop_eq_getElem_cons htail] at hnd
          exact (nodup_cons.1 hnd).1
        rw [hbb, update_self]
        simp [hnot]
      · rw [update_of_ne hbb, hold]
        simp [hbb]
    · exact only_commit rfl (hr.counting.others hpc)

theorem Ready.installed {tail : Nat} (hr : s.Ready A)
    (hpc : (s.thread p).pc = .commit (.installTrans tail)) (hb : s.log.lh[tail]? = none) :
    Ready A { s.commitTo p .eraseHead with log := { s.log with lh := [] } } := by
  have hone := (hr.counting.commit p _ hpc).2.2
  refine hr.commitTo .eraseHead hpc rfl rfl rfl (fun _ h => h)
    ⟨?_, nodup_nil, fun _ h => by simp at h, ?_⟩
  · exact hr.cached.coherent.congr (changing_congr rfl rfl)
  · intro b'
    have hold := hr.cached.pinned b'
    rw [pinned_iff_drop hpc hone, drop_eq_nil_of_le (getElem?_eq_none_iff.1 hb)] at hold
    show (s.io.view b').dirty = true ↔ _
    rw [hold]
    simp [Pinned]

end Steps

end Sys

end Xv6
