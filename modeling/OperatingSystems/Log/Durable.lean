import OperatingSystems.Log.History

/-!
# What is durable

In every state of every run a recovery would give the content of the disk after
some of the groups that were committed, first to last, and every group whose
commit has returned is among them.

* `Durable`: what a recovery would make of the disk now.
* `Data`, `Stage`: what is in the cache and on the disk while the system is running,
  and at every point of the commit.
* `Recovering`: how far a recovery has come.
* `Safe`, `safe`: the invariant, and that it holds in every run.
-/

namespace Xv6

open Function

variable {d : Disk}

namespace Sys

/-- The header on the disk. -/
def head (A : LogArea) (s : Sys) : List Blockno := getHead (s.io.disk A.start)

/-- A recovery gives the content after some of the groups, among them all those whose
commit has returned. -/
structure Durable (A : LogArea) (d : Disk) (g : History) : Prop where
  head : A.HeadOk d
  groups : ∃ k, g.returned ≤ k ∧ k ≤ g.groups.length ∧ ∀ b, ¬ A.Has b → A.redo d b = g.content k b

/-- The copies in the log of the first `n` blocks of the header are right. -/
def Copied (A : LogArea) (s : Sys) (g : History) (n : Nat) : Prop :=
  ∀ j b, j < n → s.log.lh[j]? = some b → s.io.disk (A.slot j) = g.current b

/-- What holds at each point of the commit. -/
def Stage (A : LogArea) (s : Sys) (g : History) : CommitPc → Prop
  | .start => s.head A = []
  | .writeLog tail => s.head A = [] ∧ s.Copied A g tail
  | .writeHead => s.head A = [] ∧ s.Copied A g s.log.lh.length
  | .installTrans _ => s.head A = s.log.lh ∧ s.Copied A g s.log.lh.length
  | .eraseHead => s.log.lh = []
  | .done => s.head A = []

/-- The blocks in the cache and on the disk while the system is running. -/
structure Data (A : LogArea) (s : Sys) (g : History) : Prop where
  seen : ∀ b, ¬ A.Has b → ¬ s.Changing b → (s.io.view b).data = g.current b
  settled : ∀ b, ¬ A.Has b → ¬ s.Pinned b → s.io.disk b = g.current b
  quiet : (∀ p c, (s.thread p).pc ≠ .commit c) → s.head A = []
  stage : ∀ p c, (s.thread p).pc = .commit c → g.pending = [] ∧ s.Stage A g c

/-- How far a recovery has come. -/
def Redone (A : LogArea) (s : Sys) : RecoverPc → Prop
  | .readHead => s.log.lh = []
  | .installTrans tail => s.log.lh = s.head A ∧
      ∀ j b, j < tail → s.log.lh[j]? = some b → s.io.disk b = s.io.disk (A.slot j)
  | .writeHead => s.log.lh = [] ∧ ∀ b, ¬ A.Has b → A.redo s.io.disk b = s.io.disk b

/-- What holds during a recovery. -/
structure Recovering (A : LogArea) (s : Sys) (pc : RecoverPc) : Prop where
  idle : ∀ p, s.thread p = ⟨.outside, [], [], []⟩
  log : s.log.outstanding = 0
  coherent : s.io.Coherent fun _ => False
  clean : ∀ b, (s.io.view b).dirty = false
  redone : s.Redone A pc

/-- **The invariant of the log.** -/
def Safe (A : LogArea) (s : Sys) (g : History) : Prop :=
  Durable A s.io.disk g ∧ match s.mode with
    | .running => s.Ready A ∧ s.Data A g
    | .recovering pc => s.Recovering A pc
    | .panicked _ => True

variable {A : LogArea} {s s' : Sys} {g g' : History} {p : Nat} {t : Thread} {e : Event} {tail : Nat}
  {m : Activity} {b : Blockno}

/-! ## The disk -/

theorem current_eq_content (h : g.pending = []) : g.current = g.content g.groups.length := by
  simp [History.current, History.content, h]

/-- A history with the same groups, or more of them. -/
theorem Durable.more (h : Durable A d g) (hbase : g'.base = g.base)
    (hgroups : ∃ more, g'.groups = g.groups ++ more) (hret : g'.returned = g.returned) :
    Durable A d g' := by
  obtain ⟨k, hk, hlen, hredo⟩ := h.groups
  obtain ⟨more, hmore⟩ := hgroups
  refine ⟨h.head, k, by omega, by simp [hmore]; omega, ?_⟩
  intro b hb
  rw [hredo b hb, History.content, History.content, hbase, hmore, List.take_append_of_le_length hlen]

theorem Durable.same_redo {d d' : Disk} (h : Durable A d g) (hhead : A.HeadOk d')
    (hredo : ∀ b, ¬ A.Has b → A.redo d' b = A.redo d b) : Durable A d' g := by
  obtain ⟨k, hk, hlen, h'⟩ := h.groups
  exact ⟨hhead, k, hk, hlen, fun b hb => (hredo b hb).trans (h' b hb)⟩

theorem durable_all (hhead : A.HeadOk d) (hret : g.returned ≤ g.groups.length)
    (hpend : g.pending = []) (hredo : ∀ b, ¬ A.Has b → A.redo d b = g.current b) :
    Durable A d g := by
  refine ⟨hhead, g.groups.length, hret, le_refl _, ?_⟩
  intro b hb
  rw [hredo b hb, current_eq_content hpend]

theorem headOk_of_nil (h : getHead (d A.start) = []) : A.HeadOk d :=
  ⟨by simp [h], by simp [h], by simp [h]⟩

theorem Durable.returned_le (h : Durable A d g) : g.returned ≤ g.groups.length := by
  obtain ⟨k, hk, hlen, -⟩ := h.groups
  omega

/-! ## The recovery -/

theorem boot_recovering (d : Disk) : (boot d).Recovering A .readHead where
  idle := fun _ => rfl
  log := rfl
  coherent := Bio.binit_coherent d
  clean := fun b => by
    show ((Bio.binit d).view b).dirty = false
    rw [Bio.view_of_find_none (Bio.binit_find d b)]
  redone := rfl

theorem Recovering.view_data {pc : RecoverPc} (h : s.Recovering A pc) (b : Blockno) :
    (s.io.view b).data = s.io.disk b :=
  h.coherent.clean b id (h.clean b)

theorem Recovering.readHead (h : s.Recovering A .readHead) {io : Bio} {lh : List Blockno}
    (hio : s.io.readHead A.start = .ok (io, lh)) :
    io.disk = s.io.disk ∧
      Recovering A { s with io, log := { s.log with lh }, mode := m } (.installTrans 0) := by
  obtain ⟨hlh, hdisk, hview, hcoh⟩ := h.coherent.readHead hio
  refine ⟨hdisk, h.idle, h.log, hcoh, ?_, ?_, ?_⟩
  · intro b
    show (io.view b).dirty = false
    rw [hview]
    exact h.clean b
  · show lh = getHead (io.disk A.start)
    rw [hlh, h.view_data, hdisk]
  · intro j b hj
    omega

/-- A block is installed: the recovery would still make the same of the disk. -/
theorem Recovering.reinstall (h : s.Recovering A (.installTrans tail)) {io : Bio}
    (hok : A.HeadOk s.io.disk) (hb : s.log.lh[tail]? = some b)
    (hio : s.io.installTrans (A.slot tail) b = .ok io) :
    A.HeadOk io.disk ∧ A.redo io.disk = A.redo s.io.disk ∧
      Recovering A { s with io, mode := m } (.installTrans (tail + 1)) := by
  obtain ⟨hlh, hdone⟩ := h.redone
  obtain ⟨-, -, -, hdisk, hview, hcoh⟩ := h.coherent.installTrans hio
  obtain ⟨htail, hget⟩ := List.getElem?_eq_some_iff.1 hb
  rw [h.view_data] at hdisk hview
  have hmem : b ∈ getHead (s.io.disk A.start) := by
    rw [← head, ← hlh, ← hget]
    exact List.getElem_mem htail
  have hlen : s.log.lh.length ≤ A.size - 1 := by
    rw [hlh]
    exact hok.fit
  have harea : ∀ b', A.Has b' → io.disk b' = s.io.disk b' := by
    intro b' hb'
    have hne : b' ≠ b := fun heq => hok.home b hmem (heq ▸ hb')
    rw [hdisk, update_of_ne hne]
  refine ⟨hok.congr harea, by rw [hdisk]; exact hok.redo_install hmem _, h.idle, h.log, hcoh, ?_, ?_, ?_⟩
  · exact hview.update_forall (P := fun _ v => v.dirty = false) rfl fun b' _ => h.clean b'
  · show s.log.lh = getHead (io.disk A.start)
    rw [harea _ A.has_start]
    exact hlh
  · intro j b' hj hb'
    have hb' : s.log.lh[j]? = some b' := hb'
    obtain ⟨hjlt, hjget⟩ := List.getElem?_eq_some_iff.1 hb'
    show io.disk b' = io.disk (A.slot j)
    rw [harea _ (A.has_slot (by omega)), hdisk]
    by_cases hbb : b' = b
    · -- the header names every block once
      have hnd : s.log.lh.Nodup := hlh ▸ hok.nodup
      have hij : j = tail := (hnd.getElem_inj_iff).1 (by rw [hjget, hget, hbb])
      rw [hbb, hij, update_self]
    · rw [update_of_ne hbb]
      refine hdone j b' ?_ hb'
      have hne : j ≠ tail := by
        rintro rfl
        exact hbb (hjget.symm.trans hget)
      omega

theorem Recovering.reinstalled (h : s.Recovering A (.installTrans tail))
    (hb : s.log.lh[tail]? = none) :
    Recovering A { s with log := { s.log with lh := [] }, mode := m } .writeHead := by
  obtain ⟨hlh, hdone⟩ := h.redone
  refine ⟨h.idle, h.log, h.coherent, h.clean, rfl, ?_⟩
  intro b _
  refine Writes.apply_of_agree ?_ (.inr rfl)
  intro w hw
  obtain ⟨j, hj, hslot⟩ := A.mem_writes.1 hw
  have hj : s.log.lh[j]? = some w.1 := by
    rw [hlh]
    exact hj
  have hlt := (List.getElem?_eq_some_iff.1 hj).1
  rw [List.getElem?_eq_none_iff] at hb
  rw [← hslot]
  exact (hdone j w.1 (by omega) hj).symm

theorem Recovering.recovered (h : s.Recovering A .writeHead) {io : Bio}
    (hio : s.io.writeHead A.start s.log.lh = .ok io) (hbase : g.base = s.io.disk)
    (hgroups : g.groups = []) (hpend : g.pending = []) (hret : g.returned = 0) :
    Durable A io.disk g ∧ Ready A { s with io, mode := m } ∧ Data A { s with io, mode := m } g := by
  obtain ⟨hlh, -⟩ := h.redone
  obtain ⟨-, hdisk, hview, hcoh⟩ := h.coherent.writeHead hio
  rw [hlh] at hdisk hview
  have hhead : getHead (io.disk A.start) = [] := by
    rw [hdisk, update_self]
    exact getHead_putHead _ (by simp)
  have hcur : g.current = s.io.disk := by
    simp [History.current, replay, hgroups, hpend, hbase]
  have hhome : ∀ b, ¬ A.Has b → io.disk b = g.current b := by
    intro b hb
    have hne : b ≠ A.start := fun heq => hb (heq ▸ A.has_start)
    rw [hdisk, update_of_ne hne, hcur]
  have hidle : ∀ q, (s.thread q).pc = .outside := fun q => by rw [h.idle q]
  refine ⟨?_, ⟨?_, ?_, ?_⟩, ?_⟩
  · refine durable_all (headOk_of_nil hhead) (by omega) hpend ?_
    rw [LogArea.redo_of_nil hhead]
    exact hhome
  · constructor <;> simp [h.idle]
  · refine ⟨⟨∅, by simp [h.log], fun q => by simp [hidle q]⟩, ?_⟩
    intro q c hq
    rw [hidle q] at hq
    cases hq
  · refine ⟨hcoh.congr fun b => ?_, by simp [hlh], by simp [hlh], ?_⟩
    · simp [Changing, h.idle]
    · intro b
      show (io.view b).dirty = true ↔ _
      rw [hview]
      by_cases hb : b = A.start
      · simp [hb, Pinned, hlh]
      · simp [hb, h.clean b, Pinned, hlh]
  · refine ⟨?_, fun b hb _ => hhome b hb, fun _ => hhead, ?_⟩
    · intro b hb _
      have hne : b ≠ A.start := fun heq => hb (heq ▸ A.has_start)
      show (io.view b).data = _
      rw [hview, update_of_ne hne, h.view_data, hcur]
    · intro q c hq
      rw [hidle q] at hq
      cases hq

/-! ## Operations -/

theorem Data.same (h : s.Data A g) (hth : s'.thread = update s.thread p t)
    (hpc : ∀ c, t.pc = .commit c ↔ (s.thread p).pc = .commit c)
    (hch : t.changed = (s.thread p).changed) (hdisk : s'.io.disk = s.io.disk)
    (hdata : ∀ b, (s'.io.view b).data = (s.io.view b).data) (hlh : s'.log.lh = s.log.lh)
    (hcur : g'.current = g.current) (hpend : g'.pending = g.pending) : s'.Data A g' := by
  have hcom : ∀ q c, (s'.thread q).pc = .commit c ↔ (s.thread q).pc = .commit c :=
    fun q c => iff_of_eq (hth.update_congr (·.pc = .commit c) (propext (hpc c)) q)
  have hhead : s'.head A = s.head A := by simp [head, hdisk]
  refine ⟨?_, ?_, ?_, ?_⟩
  · intro b hb hnot
    rw [hdata, hcur]
    exact h.seen b hb fun hc => hnot ((changing_congr hth hch b).2 hc)
  · intro b hb hnot
    rw [hdisk, hcur]
    exact h.settled b hb fun hc => hnot ((pinned_congr hth hlh (fun i => hpc _) b).2 hc)
  · intro hno
    rw [hhead]
    exact h.quiet fun q c hq => hno q c ((hcom q c).2 hq)
  · intro q c hq
    obtain ⟨h1, h2⟩ := h.stage q c ((hcom q c).1 hq)
    refine ⟨hpend.trans h1, ?_⟩
    cases c <;> simpa [Stage, Copied, hhead, hlh, hdisk, hcur] using h2

theorem Data.change (h : s.Data A g) (hr : s.Ready A) {d : Block}
    (hpc : (s.thread p).pc = .inOp) (hb : b ∈ (s.thread p).held) :
    Data A { s.setThread p { s.thread p with changed := b :: (s.thread p).changed } with
      io := s.io.update b (Buf.put d) } g := by
  have hno := hr.counting.not_commit (p := p) (by simp [hpc])
  have hth : (s.setThread p { s.thread p with changed := b :: (s.thread p).changed }).thread =
      update s.thread p _ := rfl
  have hcom := not_commit_of hth (by simp [hpc]) fun q _ => hno q
  refine ⟨?_, ?_, fun _ => h.quiet hno, fun q c hq => absurd hq (hcom q c)⟩
  · intro b' hb' hnot
    have hbb : b' ≠ b := by
      rintro rfl
      exact hnot ⟨p, by simp [setThread]⟩
    have hold : ¬ s.Changing b' := by
      rintro ⟨q, hq⟩
      refine hnot ⟨q, ?_⟩
      by_cases hqp : q = p
      · subst hqp
        simp [setThread, hq]
      · simpa [setThread, hqp] using hq
    show ((s.io.update b (Buf.put d)).view b').data = _
    rw [Bio.view_put d (hr.holding.held p b hb).1, update_of_ne hbb]
    exact h.seen b' hb' hold
  · intro b' hb' hnot
    refine h.settled b' hb' fun hp => hnot ⟨hp.1, ?_⟩
    intro q i hq
    exact absurd hq (hcom q _)

theorem current_append {w : LogWrite} (hbase : g'.base = g.base) (hgroups : g'.groups = g.groups)
    (hpend : g'.pending = g.pending ++ [w]) :
    g'.current = update g.current w.blockno w.data := by
  simp only [History.current, replay, hbase, hgroups, hpend]
  rw [← List.append_assoc, List.map_append]
  exact Writes.apply_concat _ _ _ _

theorem Data.append (h : s.Data A g) (hr : s.Ready A) (hpc : (s.thread p).pc = .logWrite b)
    (hcur : g'.current = update g.current b (s.io.view b).data) :
    Data A { s.setThread p ((s.thread p).append b) with
      log := s.log.append b, io := s.io.update b Buf.pin } g' := by
  have hno := hr.counting.not_commit (p := p) (by simp [hpc])
  have hb := hr.holding.logging p b hpc
  have hview := Bio.view_pin (hr.holding.held p b hb).1
  have hth : (s.setThread p ((s.thread p).append b)).thread = update s.thread p _ := rfl
  have hcom := not_commit_of hth (fun _ => Pc.noConfusion) fun q _ => hno q
  refine ⟨?_, ?_, fun _ => h.quiet hno, fun q c hq => absurd hq (hcom q c)⟩
  · intro b' hb' hnot
    show ((s.io.update b Buf.pin).view b').data = _
    rw [hview, hcur]
    by_cases hbb : b' = b
    · rw [hbb, update_self, update_self]
    · rw [update_of_ne hbb, update_of_ne hbb]
      refine h.seen b' hb' ?_
      rintro ⟨q, hq⟩
      refine hnot ⟨q, ?_⟩
      by_cases hqp : q = p
      · subst hqp
        simp [setThread, Thread.append, hq, hbb]
      · simpa [setThread, hqp] using hq
  · intro b' hb' hnot
    have hmem : b' ∉ (s.log.append b).lh :=
      fun hin => hnot ⟨hin, fun q i hq => absurd hq (hcom q _)⟩
    rw [Log.mem_append, not_or] at hmem
    show s.io.disk b' = _
    rw [hcur, update_of_ne hmem.2]
    exact h.settled b' hb' fun hp => hmem.1 hp.1

/-! ## The commit -/

section Commit

variable {c c' : CommitPc} {io : Bio} {b : Blockno}

theorem Ready.not_changing (hr : s.Ready A) (hpc : (s.thread p).pc = .commit c) (b : Blockno) :
    ¬ s.Changing b := by
  rintro ⟨q, hq⟩
  exact hr.counting.not_inOp hpc q (hr.holding.changed q b hq).2

theorem data_commit (c' : CommitPc) (hth : s'.thread = update s.thread p t) (ht : t.pc = .commit c')
    (hone : ∀ q c, (s.thread q).pc = .commit c → q = p)
    (hseen : ∀ b, ¬ A.Has b → (s'.io.view b).data = g.current b)
    (hsettled : ∀ b, ¬ A.Has b → ¬ s'.Pinned b → s'.io.disk b = g.current b)
    (hpend : g.pending = []) (hstage : s'.Stage A g c') : s'.Data A g := by
  refine ⟨fun b hb _ => hseen b hb, hsettled, ?_, ?_⟩
  · intro hno
    exact absurd (by rw [hth, update_self, ht]) (hno p c')
  · refine hth.update_forall (P := fun _ t => ∀ c, t.pc = .commit c → _ ∧ s'.Stage A g c)
      (fun c hc => ?_) fun q hqp c hq => absurd (hone q c hq) hqp
    cases ht.symm.trans hc
    exact ⟨hpend, hstage⟩

section

variable (h : s.Data A g)

include h

theorem Data.settled_same (hth : s'.thread = update s.thread p t) (hlh : s'.log.lh = s.log.lh)
    (hpc : ∀ i, t.pc = .commit (.installTrans i) ↔ (s.thread p).pc = .commit (.installTrans i))
    (hdisk : ∀ b, ¬ A.Has b → s'.io.disk b = s.io.disk b) (hcur : g'.current = g.current) :
    ∀ b, ¬ A.Has b → ¬ s'.Pinned b → s'.io.disk b = g'.current b := by
  intro b hb hnot
  rw [hdisk b hb, hcur]
  exact h.settled b hb fun hp => hnot ((pinned_congr hth hlh hpc b).2 hp)

section

variable (hr : s.Ready A)

include hr

theorem Data.endLast (hpc : (s.thread p).pc = .inOp) (hheld : (s.thread p).held = [])
    (hout : s.log.outstanding - 1 = 0) (hcur : g'.current = g.current) (hpend : g'.pending = []) :
    Data A { s.setThread p { s.thread p with pc := .commit .start } with
      log := { s.log with outstanding := s.log.outstanding - 1, committing := true } } g' := by
  have hno := hr.counting.not_commit (p := p) (by simp [hpc])
  have hr' := hr.endLast hpc hheld hout
  refine data_commit .start rfl rfl (fun q c hq => absurd hq (hno q c)) ?_
    (h.settled_same rfl rfl (fun i => by simp [hpc]) (fun _ _ => rfl) hcur) hpend (h.quiet hno)
  intro b hb
  rw [hcur]
  refine h.seen b hb fun hch => ?_
  refine hr'.not_changing (p := p) (c := .start) (by simp [setThread]) b ?_
  exact (changing_congr (t := { s.thread p with pc := .commit .start }) rfl rfl b).2 hch

theorem Data.commitPc (hpc : (s.thread p).pc = .commit c) (hc : ∀ i, c ≠ .installTrans i)
    (hc' : ∀ i, c' ≠ .installTrans i) (hcur : g'.current = g.current)
    (hpend : g'.pending = g.pending) (hstage : s.Stage A g c → (s.commitTo p c').Stage A g' c') :
    Data A (s.commitTo p c') g' := by
  obtain ⟨hnil, hst⟩ := h.stage p c hpc
  refine data_commit c' rfl rfl (hr.counting.commit p c hpc).2.2 ?_
    (h.settled_same rfl rfl (fun i => by simp [hpc, hc i, hc' i]) (fun _ _ => rfl) hcur)
    (hpend.trans hnil) (hstage hst)
  intro b hb
  rw [hcur]
  exact h.seen b hb (hr.not_changing hpc b)

theorem Data.seen_of_mem (hpc : (s.thread p).pc = .commit c)
    (hb : b ∈ s.log.lh) : (s.io.view b).data = g.current b :=
  h.seen b (hr.cached.home b hb) (hr.not_changing hpc b)

theorem Data.writeLog
    (hfit : s.log.lh.length ≤ A.size - 1) (hpc : (s.thread p).pc = .commit (.writeLog tail))
    (hb : s.log.lh[tail]? = some b) (hio : s.io.writeLog (A.slot tail) b = .ok io) :
    getHead (io.disk A.start) = [] ∧ (∀ b', ¬ A.Has b' → io.disk b' = s.io.disk b') ∧
      Data A { s.commitTo p (.writeLog (tail + 1)) with io } g := by
  obtain ⟨-, -, -, hdisk, hview, -⟩ := hr.cached.coherent.writeLog hio
  obtain ⟨htail, hget⟩ := List.getElem?_eq_some_iff.1 hb
  obtain ⟨hpend, hhead, hcopied⟩ := h.stage p _ hpc
  have hslot : tail + 1 < A.size := by omega
  rw [h.seen_of_mem hr hpc (hget ▸ List.getElem_mem htail)] at hdisk hview
  have hhome : ∀ b', ¬ A.Has b' → b' ≠ A.slot tail :=
    fun b' hb' heq => hb' (heq ▸ A.has_slot hslot)
  have hhead' : getHead (io.disk A.start) = [] := by
    rw [hdisk, update_of_ne (A.slot_ne_start hslot).symm]
    exact hhead
  have hsame : ∀ b', ¬ A.Has b' → io.disk b' = s.io.disk b' := by
    intro b' hb'
    rw [hdisk, update_of_ne (hhome b' hb')]
  refine ⟨hhead', hsame, ?_⟩
  · refine data_commit (.writeLog (tail + 1))
      (t := { s.thread p with pc := .commit (.writeLog (tail + 1)) })
      rfl rfl (hr.counting.commit p _ hpc).2.2 ?_
      (h.settled_same (t := { s.thread p with pc := .commit (.writeLog (tail + 1)) })
        rfl rfl (fun i => by simp [hpc]) hsame rfl) hpend ⟨hhead', ?_⟩
    · intro b' hb'
      show (io.view b').data = _
      rw [hview, update_of_ne (hhome b' hb')]
      exact h.seen b' hb' (hr.not_changing hpc b')
    · intro j b' hj hb'
      replace hb' : s.log.lh[j]? = some b' := hb'
      show io.disk (A.slot j) = _
      rw [hdisk]
      by_cases hij : j = tail
      · rw [hij, hb] at hb'
        cases hb'
        rw [hij, update_self]
      · have hne : A.slot j ≠ A.slot tail := fun heq => hij (A.slot_inj (by omega) hslot heq)
        rw [update_of_ne hne]
        exact hcopied j b' (by omega) hb'

/-- **The commit point**: the header is written, and all groups are durable. -/
theorem Data.writeHead (hfit : s.log.lh.length ≤ A.size - 1) (hret : g.returned ≤ g.groups.length)
    (hpc : (s.thread p).pc = .commit .writeHead) (hio : s.io.writeHead A.start s.log.lh = .ok io) :
    Durable A io.disk g ∧ Data A { s.commitTo p (.installTrans 0) with io } g := by
  obtain ⟨-, hdisk, hview, -⟩ := hr.cached.coherent.writeHead hio
  obtain ⟨hpend, -, hcopied⟩ := h.stage p _ hpc
  have hne : ∀ b, ¬ A.Has b → b ≠ A.start := fun b hb heq => hb (heq ▸ A.has_start)
  have hroom := A.header
  have hhead : getHead (io.disk A.start) = s.log.lh := by
    rw [hdisk, update_self]
    exact getHead_putHead _ (by omega)
  have hslot : ∀ j b, s.log.lh[j]? = some b → io.disk (A.slot j) = g.current b := by
    intro j b hj
    have hlt := (List.getElem?_eq_some_iff.1 hj).1
    rw [hdisk, update_of_ne (A.slot_ne_start (by omega))]
    exact hcopied j b hlt hj
  have hpin : ∀ b, s.Pinned b ↔ b ∈ s.log.lh := by
    refine pinned_iff_mem fun q i hq => ?_
    obtain rfl := (hr.counting.commit p _ hpc).2.2 q _ hq
    rw [hpc] at hq
    cases hq
  have hsettled : ∀ b, ¬ A.Has b → b ∉ s.log.lh → io.disk b = g.current b := by
    intro b hb hnot
    rw [hdisk, update_of_ne (hne b hb)]
    exact h.settled b hb fun hp => hnot ((hpin b).1 hp)
  constructor
  · refine durable_all ⟨hhead ▸ hr.cached.nodup, hhead ▸ hr.cached.home, hhead ▸ hfit⟩ hret hpend ?_
    intro b hb
    refine Writes.apply_of_agree ?_ ?_
    · intro w hw
      obtain ⟨j, hj, hw⟩ := A.mem_writes.1 hw
      rw [hhead] at hj
      rw [← hw]
      exact hslot j w.1 hj
    · rw [A.writes_fst, hhead]
      by_cases hin : b ∈ s.log.lh
      · exact .inl hin
      · exact .inr (hsettled b hb hin)
  · refine data_commit (.installTrans 0)
      rfl rfl (hr.counting.commit p _ hpc).2.2 ?_ ?_ hpend ⟨hhead, fun j b _ hj => hslot j b hj⟩
    · intro b hb
      show (io.view b).data = _
      rw [hview, update_of_ne (hne b hb)]
      exact h.seen b hb (hr.not_changing hpc b)
    · intro b hb hnot
      refine hsettled b hb fun hin => hnot ⟨hin, ?_⟩
      intro q i hq
      by_cases hqp : q = p
      · subst hqp
        simp only [Sys.commitTo, setThread, update_self] at hq
        cases hq
        exact hin
      · simp only [Sys.commitTo, setThread, update_of_ne hqp] at hq
        exact absurd ((hr.counting.commit p _ hpc).2.2 q _ hq) hqp

theorem Data.installTrans (hfit : s.log.lh.length ≤ A.size - 1)
    (hpc : (s.thread p).pc = .commit (.installTrans tail)) (hb : s.log.lh[tail]? = some b)
    (hio : s.io.installTrans (A.slot tail) b = .ok io) :
    io.disk = update s.io.disk b (g.current b) ∧ b ∈ s.head A ∧
      Data A { s.commitTo p (.installTrans (tail + 1)) with io } g := by
  obtain ⟨-, -, -, hdisk, hview, -⟩ := hr.cached.coherent.installTrans hio
  obtain ⟨hpend, hhead, hcopied⟩ := h.stage p _ hpc
  obtain ⟨htail, hget⟩ := List.getElem?_eq_some_iff.1 hb
  have hone := (hr.counting.commit p _ hpc).2.2
  have hmem : b ∈ s.log.lh := hget ▸ List.getElem_mem htail
  have hhome := hr.cached.home b hmem
  have hslot : A.Has (A.slot tail) := A.has_slot (by omega)
  have hdata : (s.io.view (A.slot tail)).data = g.current b := by
    rw [hr.cached.coherent.clean _ (hr.not_changing hpc _) (hr.cached.clean_of_has hslot)]
    exact hcopied tail b htail hb
  rw [hdata] at hdisk hview
  have harea : ∀ b', A.Has b' → io.disk b' = s.io.disk b' := by
    intro b' hb'
    have hne : b' ≠ b := fun heq => hhome (heq ▸ hb')
    rw [hdisk, update_of_ne hne]
  refine ⟨hdisk, hhead ▸ hmem, ?_⟩
  refine data_commit (.installTrans (tail + 1))
    (t := { s.thread p with pc := .commit (.installTrans (tail + 1)) })
    rfl rfl hone ?_ ?_ hpend ⟨?_, ?_⟩
  · exact hview.update_forall (P := fun b' v => ¬ A.Has b' → v.data = g.current b') (fun _ => rfl)
      fun b' _ hb' => h.seen b' hb' (hr.not_changing hpc b')
  · intro b' hb' hnot
    show io.disk b' = _
    rw [hdisk]
    by_cases hbb : b' = b
    · rw [hbb, update_self]
    · rw [update_of_ne hbb]
      refine h.settled b' hb' fun hp => hnot ?_
      rw [pinned_iff_drop (p := p) (i := tail + 1) (by simp [Sys.commitTo, setThread])]
      · rw [pinned_iff_drop hpc hone, List.drop_eq_getElem_cons htail, List.mem_cons, hget] at hp
        exact hp.resolve_left hbb
      · exact only_commit rfl (hr.counting.others hpc)
  · show getHead (io.disk A.start) = s.log.lh
    rw [harea _ A.has_start]
    exact hhead
  · intro j b' hj hb'
    have hjlt : j < s.log.lh.length := hj
    show io.disk (A.slot j) = _
    rw [harea _ (A.has_slot (by omega))]
    exact hcopied j b' hj hb'

theorem Data.installed
    (hpc : (s.thread p).pc = .commit (.installTrans tail)) (hb : s.log.lh[tail]? = none) :
    Data A { s.commitTo p .eraseHead with log := { s.log with lh := [] } } g := by
  have hone := (hr.counting.commit p _ hpc).2.2
  obtain ⟨hpend, -⟩ := h.stage p _ hpc
  refine data_commit .eraseHead rfl rfl hone ?_ ?_ hpend rfl
  · intro b hb
    exact h.seen b hb (hr.not_changing hpc b)
  · intro b hbh _
    refine h.settled b hbh fun hp => ?_
    rw [pinned_iff_drop hpc hone, List.drop_eq_nil_of_le (List.getElem?_eq_none_iff.1 hb)] at hp
    cases hp

end

theorem Data.settled_of_nil (hlh : s.log.lh = []) (hb : ¬ A.Has b) : s.io.disk b = g.current b :=
  h.settled b hb fun hp => by rw [Pinned, hlh] at hp; cases hp.1

theorem Data.eraseHead (g' : History) (hr : s.Ready A) (hbase : g'.current = g.current)
    (hpend : g'.pending = g.pending) (hret : g'.returned ≤ g'.groups.length)
    (hpc : (s.thread p).pc = .commit .eraseHead) (hio : s.io.writeHead A.start s.log.lh = .ok io) :
    Durable A io.disk g' ∧ Data A { s.commitTo p .done with io } g' := by
  obtain ⟨-, hdisk, hview, -⟩ := hr.cached.coherent.writeHead hio
  obtain ⟨hnil, hlh⟩ := h.stage p _ hpc
  replace hlh : s.log.lh = [] := hlh
  rw [hlh] at hdisk hview
  have hne : ∀ b, ¬ A.Has b → b ≠ A.start := fun b hb heq => hb (heq ▸ A.has_start)
  have hhead : getHead (io.disk A.start) = [] := by
    rw [hdisk, update_self]
    exact getHead_putHead _ (by simp)
  have hsettled : ∀ b, ¬ A.Has b → io.disk b = g'.current b := by
    intro b hb
    rw [hdisk, update_of_ne (hne b hb), hbase]
    exact h.settled_of_nil hlh hb
  constructor
  · refine durable_all (headOk_of_nil hhead) hret (hpend.trans hnil) ?_
    rw [LogArea.redo_of_nil hhead]
    exact hsettled
  · refine data_commit .done
      rfl rfl (hr.counting.commit p _ hpc).2.2 ?_ (fun b hb _ => hsettled b hb) (hpend.trans hnil)
      hhead
    intro b hb
    show (io.view b).data = _
    rw [hview, update_of_ne (hne b hb), hbase]
    exact h.seen b hb (hr.not_changing hpc b)

theorem Data.done (hr : s.Ready A) (hpc : (s.thread p).pc = .commit .done) :
    Data A { s.setThread p { s.thread p with pc := .outside } with
      log := { s.log with committing := false } } g := by
  obtain ⟨-, hhead⟩ := h.stage p _ hpc
  refine ⟨?_, ?_, fun _ => hhead, ?_⟩
  · intro b hb _
    exact h.seen b hb (hr.not_changing hpc b)
  · exact h.settled_same rfl rfl (fun i => by simp [hpc]) (fun _ _ => rfl) rfl
  · intro q c hq
    exact absurd hq (not_commit_of rfl (fun _ => Pc.noConfusion) (hr.counting.others hpc) q c)

end

end Commit

/-! ## The invariant -/

theorem Safe.running (h : s.Safe A g) (hm : s.mode = .running) : s.Ready A ∧ s.Data A g := by
  have h2 := h.2
  rw [hm] at h2
  exact h2

theorem Safe.recovering {pc : RecoverPc} (h : s.Safe A g) (hm : s.mode = .recovering pc) :
    s.Recovering A pc := by
  have h2 := h.2
  rw [hm] at h2
  exact h2

theorem safe_running (hd : Durable A s.io.disk g) (hm : s.mode = .running) (hr : s.Ready A)
    (hdata : s.Data A g) : s.Safe A g := by
  refine ⟨hd, ?_⟩
  rw [hm]
  exact ⟨hr, hdata⟩

theorem safe_start (h : getHead (d A.start) = []) : (boot d).Safe A (History.start d) := by
  refine ⟨durable_all (headOk_of_nil h) (le_refl _) rfl ?_, boot_recovering d⟩
  intro b _
  show A.redo d b = _
  rw [LogArea.redo_of_nil h]
  rfl

/-- The log is written: the commit begins, with blocks in the header or without. -/
theorem Safe.start (h : s.Safe A g) (hm : s.mode = .running)
    (hpc : (s.thread p).pc = .commit .start) :
    Safe A (s.commitTo p (if 0 < s.log.lh.length then .writeLog 0 else .done))
      (g.note s (.commit p)) := by
  obtain ⟨hr, hd⟩ := h.running hm
  obtain ⟨hpend, hhead⟩ := hd.stage p _ hpc
  by_cases hlh : s.log.lh = []
  · have hnote : g.note s (.commit p) = { g with returned := g.groups.length } := by
      simp [History.note, hpc, hlh]
    rw [hnote, if_neg (by simp [hlh])]
    refine safe_running ?_ hm (hr.commitPc hpc (by simp) (by simp))
      (hd.commitPc hr hpc (by simp) (by simp) rfl rfl id)
    refine durable_all (headOk_of_nil hhead) (le_refl _) hpend ?_
    intro b hb
    show A.redo s.io.disk b = _
    rw [LogArea.redo_of_nil hhead]
    exact hd.settled_of_nil hlh hb
  · have hnote : g.note s (.commit p) = g := by simp [History.note, hpc, hlh]
    rw [hnote, if_pos (List.length_pos_iff.2 hlh)]
    exact safe_running h.1 hm (hr.commitPc hpc (by simp) (by simp))
      (hd.commitPc hr hpc (by simp) (by simp) rfl rfl fun hst => ⟨hst, fun j b hj _ => by omega⟩)

theorem Safe.commit (h : s.Safe A g) (hfit : s.log.lh.length ≤ A.size - 1)
    (ht : Trans A s (.commit p) s') (hm' : s'.mode = .running) :
    s'.Safe A (g.note s (.commit p)) := by
  cases ht with
  | panic _ => cases hm'
  | start hm hpc => exact h.start hm hpc
  | writeLog hm hpc hb hio =>
    obtain ⟨hr, hd⟩ := h.running hm
    obtain ⟨hhead', hsame, hd'⟩ := hd.writeLog hr hfit hpc hb hio
    obtain ⟨-, hhead, -⟩ := hd.stage p _ hpc
    rw [show g.note s (.commit p) = g by simp [History.note, hpc]]
    refine safe_running (h.1.same_redo (headOk_of_nil hhead') ?_) hm
      (hr.writeLog hfit hpc hb hio) hd'
    intro b hb
    rw [LogArea.redo_of_nil hhead', LogArea.redo_of_nil hhead]
    exact hsame b hb
  | wroteLog hm hpc hb =>
    obtain ⟨hr, hd⟩ := h.running hm
    rw [show g.note s (.commit p) = g by simp [History.note, hpc]]
    refine safe_running h.1 hm (hr.commitPc hpc (by simp) (by simp))
      (hd.commitPc hr hpc (by simp) (by simp) rfl rfl fun hst => ⟨hst.1, ?_⟩)
    intro j b hj hjb
    have hle := List.getElem?_eq_none_iff.1 hb
    exact hst.2 j b (lt_of_lt_of_le hj hle) hjb
  | writeHead hm hpc hio =>
    obtain ⟨hr, hd⟩ := h.running hm
    rw [show g.note s (.commit p) = g by simp [History.note, hpc]]
    obtain ⟨hdur, hd'⟩ := hd.writeHead hr hfit h.1.returned_le hpc hio
    exact safe_running hdur hm (hr.writeHead hpc hio) hd'
  | installTrans hm hpc hb hio =>
    obtain ⟨hr, hd⟩ := h.running hm
    rw [show g.note s (.commit p) = g by simp [History.note, hpc]]
    obtain ⟨hdisk, hmem, hd'⟩ := hd.installTrans hr hfit hpc hb hio
    refine safe_running (h.1.same_redo (h.1.head.congr ?_) ?_) hm (hr.installTrans hpc hb hio) hd'
    · intro b' hb'
      rw [hdisk]
      refine update_of_ne ?_ _ _
      rintro rfl
      exact h.1.head.home _ hmem hb'
    · intro b' _
      rw [hdisk, h.1.head.redo_install hmem]
  | installed hm hpc hb =>
    obtain ⟨hr, hd⟩ := h.running hm
    rw [show g.note s (.commit p) = g by simp [History.note, hpc]]
    exact safe_running h.1 hm (hr.installed hpc hb) (hd.installed hr hpc hb)
  | eraseHead hm hpc hio =>
    obtain ⟨hr, hd⟩ := h.running hm
    have hnote : g.note s (.commit p) = { g with returned := g.groups.length } := by
      simp [History.note, hpc]
    rw [hnote]
    obtain ⟨hdur, hd'⟩ := hd.eraseHead { g with returned := g.groups.length } hr rfl rfl
      (le_refl _) hpc hio
    exact safe_running hdur hm (hr.eraseHead hpc hio) hd'
  | done hm hpc =>
    obtain ⟨hr, hd⟩ := h.running hm
    rw [show g.note s (.commit p) = g by simp [History.note, hpc]]
    exact safe_running h.1 hm (hr.done hpc) (hd.done hr hpc)

theorem note_endLast (hout : s.log.outstanding - 1 = 0) :
    g.note s (.endOp p) = { g with groups := g.groups ++ [g.pending], pending := [] } := by
  simp [History.note, hout]

theorem Safe.recover (h : s.Safe A g) (ht : Trans A s .recover s')
    (hm' : ∀ why, s'.mode ≠ .panicked why) : s'.Safe A (g.note s .recover) := by
  cases ht with
  | panic _ => exact absurd rfl (hm' _)
  | readHead hm hio =>
    obtain ⟨hdisk, hrec⟩ := (h.recovering hm).readHead hio
    rw [show g.note s .recover = g by simp [History.note, hm]]
    exact ⟨hdisk ▸ h.1, hrec⟩
  | reinstall hm hb hio =>
    obtain ⟨hok, hredo, hrec⟩ := (h.recovering hm).reinstall h.1.head hb hio
    rw [show g.note s .recover = g by simp [History.note, hm]]
    exact ⟨h.1.same_redo hok fun b _ => congrFun hredo b, hrec⟩
  | reinstalled hm hb =>
    rw [show g.note s .recover = g by simp [History.note, hm]]
    exact ⟨h.1, (h.recovering hm).reinstalled hb⟩
  | recovered hm hio =>
    obtain ⟨hdur, hr, hd⟩ := (h.recovering hm).recovered (g := g.note s .recover) hio
      (by simp [History.note, hm]) (by simp [History.note, hm]) (by simp [History.note, hm])
      (by simp [History.note, hm])
    exact ⟨hdur, hr, hd⟩

theorem Safe.op (h : s.Safe A g) (ht : Trans A s e s') (hm : s.mode = .running)
    (hm' : s'.mode = .running) (he : ∀ q, e ≠ .commit q) : s'.Safe A (g.note s e) := by
  obtain ⟨hr, hd⟩ := h.running hm
  cases ht with
  | crash | panic _ | tooBig => cases hm'
  | readHead hrec _ | reinstall hrec _ _ | reinstalled hrec _ | recovered hrec _ =>
    rw [hm] at hrec; cases hrec
  | @beginOp p _ hpc hc _ =>
    refine safe_running (h.1.more rfl ⟨[], by simp [History.note]⟩ rfl) hm (hr.beginOp hpc hc) ?_
    exact hd.same rfl (fun c => by simp [hpc]) rfl rfl (fun _ => rfl) rfl rfl rfl
  | @bread io p b _ hpc hb hio =>
    obtain ⟨-, hdisk, hview, -⟩ := hr.cached.coherent.view_bread hio
    refine safe_running (show Durable A io.disk g from hdisk ▸ h.1) hm (hr.bread hpc hb hio) ?_
    refine hd.same rfl (fun c => .rfl) rfl hdisk (hview.update_congr (·.data) rfl) rfl rfl rfl
  | change _ hpc hb => exact safe_running h.1 hm (hr.change hpc hb) (hd.change hr hpc hb)
  | @logWrite p b _ hpc hb _ _ =>
    refine safe_running h.1 hm (hr.logWrite hpc hb) ?_
    exact hd.same rfl (fun c => by simp [hpc]) rfl rfl (fun _ => rfl) rfl rfl rfl
  | @append p b _ hpc =>
    have hnote : g.note s (.append p) = { g with
        pending := g.pending ++ [⟨g.op p, b, (s.io.view b).data⟩]
        trace := g.trace ++ [⟨g.op p, b, (s.io.view b).data⟩] } := by
      simp [History.note, hpc]
    rw [hnote]
    refine safe_running (h.1.more rfl ⟨[], by simp⟩ rfl) hm (hr.append hpc) (hd.append hr hpc ?_)
    exact current_append (w := ⟨g.op p, b, (s.io.view b).data⟩) rfl rfl rfl
  | @brelse io p b _ hpc hb hch hio =>
    obtain ⟨-, hdisk, hview, -⟩ := hr.cached.coherent.toWf.view_brelse hio
    refine safe_running (show Durable A io.disk g from hdisk ▸ h.1) hm (hr.brelse hpc hb hch hio) ?_
    refine hd.same rfl (fun c => .rfl) rfl hdisk (hview.update_congr (·.data) rfl) rfl rfl rfl
  | @endOp p _ hpc hheld _ hout =>
    rw [show g.note s (.endOp p) = g by simp [History.note, hout]]
    refine safe_running h.1 hm (hr.endOp hpc hheld) ?_
    exact hd.same rfl (fun c => by simp [hpc]) rfl rfl (fun _ => rfl) rfl rfl rfl
  | @endLast p _ hpc hheld _ hout =>
    rw [note_endLast hout]
    refine safe_running (h.1.more rfl ⟨[g.pending], rfl⟩ rfl) hm (hr.endLast hpc hheld hout)
      (hd.endLast hr hpc hheld hout ?_ rfl)
    simp [History.current]
  | start _ _ | writeLog | wroteLog | writeHead | installTrans | installed | eraseHead | done =>
    exact absurd rfl (he _)

theorem mode_of_trans (ht : Trans A s e s') (hp : ∀ why, s'.mode ≠ .panicked why)
    (hcrash : e ≠ .crash) (hrec : e ≠ .recover) : s.mode = .running ∧ s'.mode = .running := by
  cases ht with
  | crash => exact absurd rfl hcrash
  | panic _ | tooBig => exact absurd rfl (hp _)
  | readHead | reinstall | reinstalled | recovered => exact absurd rfl hrec
  | _ => exact ⟨‹_›, ‹_›⟩

theorem eq_of_panic {why : Panic} (ht : Trans A s e s')
    (hp : s'.mode = .panicked why) : s' = { s with mode := .panicked why } := by
  cases ht with
  | panic _ | tooBig =>
    cases hp
    rfl
  | crash | readHead | reinstall | reinstalled | recovered => cases hp
  | _ => exact absurd (hp.symm.trans ‹s.mode = .running›) (by simp)

theorem record_of_panic {why : Panic} (hs : s.step A e = some s')
    (hp : s'.mode = .panicked why) : History.record A s e g = g := by
  simp [History.record, hs, hp]

theorem record_eq_note (hs : s.step A e = some s')
    (hp : ∀ why, s'.mode ≠ .panicked why) : History.record A s e g = g.note s e := by
  unfold History.record
  rw [hs]
  split
  · rename_i heq
    cases heq
    split
    · rename_i hm
      exact absurd hm (hp _)
    · rfl
  · rename_i heq
    cases heq

/-- **The invariant is kept by every step.** -/
theorem Safe.step (h : s.Safe A g) (hfit : s.log.lh.length ≤ A.size - 1)
    (hs : s.step A e = some s') : s'.Safe A (History.record A s e g) := by
  have ht := trans_of_step hs
  by_cases hp : ∃ why, s'.mode = .panicked why
  · obtain ⟨why, hp⟩ := hp
    rw [record_of_panic hs hp, eq_of_panic ht hp]
    exact ⟨h.1, trivial⟩
  · have hp : ∀ why, s'.mode ≠ .panicked why := fun why hw => hp ⟨why, hw⟩
    rw [record_eq_note hs hp]
    by_cases hcrash : e = .crash
    · subst hcrash
      cases ht with
      | panic _ => exact absurd rfl (hp _)
      | crash => exact ⟨h.1.more rfl ⟨[], by simp [History.note]⟩ rfl, boot_recovering _⟩
    · by_cases hrec : e = .recover
      · subst hrec
        exact h.recover ht hp
      · obtain ⟨hm, hm'⟩ := mode_of_trans ht hp hcrash hrec
        by_cases hcom : ∃ q, e = .commit q
        · obtain ⟨q, rfl⟩ := hcom
          exact h.commit hfit ht hm'
        · exact h.op ht hm hm' fun q hq => hcom ⟨q, hq⟩

end Sys

/-- The header has at most as many block numbers as there are blocks in the log. -/
def Sys.fits (A : LogArea) (s : Sys) : Prop := s.log.lh.length ≤ A.size - 1

/-- **The invariant holds in every run** in which the log does not overrun its area. -/
theorem safe {A : LogArea} (h0 : getHead (d A.start) = []) {s : Sys} {g : History}
    (h : (logHistory A d).ReachableBy (fun x _ => x.1.fits A) (s, g)) : s.Safe A g := by
  refine h.induct (I := fun x : Sys × History => x.1.Safe A x.2) ?_ ?_
  · rintro ⟨s, g⟩ ⟨hs, hg⟩
    replace hs : s = Sys.boot d := hs
    replace hg : g = History.start d := hg
    subst hs hg
    exact Sys.safe_start h0
  · rintro ⟨s, g⟩ e ⟨s', g'⟩ - hsafe hfit hs
    obtain ⟨hs, hg⟩ := Machine.ghost_step hs
    replace hg : g' = History.record A s e g := hg
    subst hg
    exact hsafe.step hfit hs

end Xv6
