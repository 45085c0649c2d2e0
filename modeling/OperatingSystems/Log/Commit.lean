import OperatingSystems.Log.Trans
import Mathlib.Data.List.Perm.Subperm

/-!
# The buffers of a commit

A commit copies every logged block to the log and then to its home, through a cache in
which those same blocks are pinned.  With `LOGSIZE` blocks of log and as many buffers,
`LOGSIZE - 1` pinned blocks leave one buffer for everything else.

* `Bio.Whole`, `Bio.exists_spare`: a cache with too few blocks pinned or taken has a
  buffer to recycle.
* `Bio.exists_writeLog`, `Bio.exists_installTrans`, `Bio.exists_writeHead`: the steps of
  the commit then find their buffers.
* `commit_finds_buffers`: a commit that no one disturbs runs to its end.
-/

namespace Xv6

open List
open Function (update_of_ne update_self)

namespace Bio

variable {io io' io₂ : Bio} {T : Blockno → Prop} {b dst src : Blockno} {L : List Blockno}

/-- The cache has all its buffers, and those without a block are not in use. -/
structure Whole (io : Bio) : Prop where
  size : io.bcache.length = NBUF
  blank : ∀ x ∈ io.bcache, x.blockno = none → x.busy = false ∧ x.dirty = false

theorem Whole.update (h : io.Whole) {f : Buf → Buf} (hf : ∀ x, (f x).blockno = x.blockno) :
    (io.update b f).Whole := by
  refine ⟨by simpa [Bio.update] using h.size, ?_⟩
  intro y hy hnone
  obtain ⟨x, hx, rfl⟩ := mem_map.1 hy
  by_cases hb : x.blockno = some b
  · rw [if_pos hb, hf, hb] at hnone
    cases hnone
  · rw [if_neg hb] at hnone ⊢
    exact h.blank x hx hnone

theorem Whole.bread (h : io.Whole) (hb : io.bread b = .ok io') : io'.Whole := by
  rcases bread_cases hb with ⟨x, hf, -, rfl⟩ | ⟨-, l, hl, rfl⟩
  · exact (h.update Buf.take_blockno).update (Buf.fill_blockno _)
  · refine .update ?_ (Buf.fill_blockno _)
    obtain ⟨l₁, x, l₂, hlist, -, -, rfl⟩ := recycle_spec hl
    have hsize := h.size
    rw [hlist] at hsize
    refine ⟨by simpa using hsize, ?_⟩
    intro y hy hnone
    simp only [mem_append, mem_cons] at hy
    rcases hy with hy | rfl | hy
    · exact h.blank y (by simp [hlist, hy]) hnone
    · cases hnone
    · exact h.blank y (by simp [hlist, hy]) hnone

theorem Whole.memmove (h : io.Whole) (dst src : Blockno) : (io.memmove dst src).Whole := by
  unfold Bio.memmove
  split
  · exact h.update (Buf.put_blockno _)
  · exact h

theorem Whole.bwrite (h : io.Whole) (hb : io.bwrite b = .ok io') : io'.Whole := by
  unfold Bio.bwrite at hb
  split at hb
  · split at hb
    · cases hb
      have hu := h.update (b := b) Buf.written_blockno
      exact ⟨hu.size, hu.blank⟩
    · cases hb
  · cases hb

theorem Whole.brelse (h : io.Whole) (hb : io.brelse b = .ok io') : io'.Whole := by
  unfold Bio.brelse at hb
  split at hb
  · rename_i x hf
    split at hb
    · cases hb
      obtain ⟨l₁, l₂, hl, herase⟩ := find_split hf
      have hsize := h.size
      rw [hl] at hsize
      refine ⟨?_, ?_⟩
      · simp only [herase]
        simp only [length_append, length_cons] at hsize ⊢
        omega
      · intro y hy hnone
        rcases mem_cons.1 hy with rfl | hy
        · rw [Buf.free_blockno, find_blockno hf] at hnone
          cases hnone
        · exact h.blank y (mem_of_mem_eraseP hy) hnone
    · cases hb
  · cases hb

theorem Wf.find_of_mem (hw : io.Wf) {x : Buf} (hx : x ∈ io.bcache) (hb : x.blockno = some b) :
    io.find b = some x := by
  obtain ⟨l₁, l₂, hl⟩ := append_of_mem hx
  have huniq := hw.unique
  rw [hl, pairwise_append] at huniq
  have hno : l₁.find? (fun y => decide (y.blockno = some b)) = none := by
    rw [find?_eq_none]
    intro y hy
    rcases huniq.2.2 y hy x mem_cons_self with h | h
    · simp [h]
    · simpa [hb] using h
  simp [find, hl, hno, hb]

/-- **A buffer is left** if all blocks that are pinned or taken are in a list that is
shorter than the cache. -/
theorem Whole.exists_spare (h : io.Whole) (hw : io.Wf)
    (hL : ∀ b, (io.view b).dirty = true ∨ (io.view b).busy = true → b ∈ L)
    (hlen : L.length < NBUF) : ∃ x ∈ io.bcache, x.busy = false ∧ x.dirty = false := by
  by_contra hno
  have hused : ∀ x ∈ io.bcache, ∃ b ∈ L, x.blockno = some b := by
    intro x hx
    have hflags : x.dirty = true ∨ x.busy = true := by
      by_contra hflags
      refine hno ⟨x, hx, ?_, ?_⟩
      · simpa using fun hb => hflags (.inr hb)
      · simpa using fun hd => hflags (.inl hd)
    cases hb : x.blockno with
    | none => simp [h.blank x hx hb] at hflags
    | some b =>
      refine ⟨b, hL b ?_, rfl⟩
      rw [view_of_find (hw.find_of_mem hx hb)]
      exact hflags
  have hnodup : (io.bcache.map Buf.blockno).Nodup := by
    refine pairwise_map.2 (hw.unique.imp_of_mem fun {x y} hx _ hxy => ?_)
    obtain ⟨b, -, hb⟩ := hused x hx
    exact hxy.resolve_left (by simp [hb])
  have hsub : io.bcache.map Buf.blockno ⊆ L.map some := by
    intro o ho
    obtain ⟨x, hx, rfl⟩ := mem_map.1 ho
    obtain ⟨b, hb, hxb⟩ := hused x hx
    exact mem_map.2 ⟨b, hb, hxb.symm⟩
  have hle := (subperm_of_subset hnodup hsub).length_le
  rw [length_map, length_map, h.size] at hle
  omega

theorem exists_recycle {l : List Buf} (h : ∃ x ∈ l, x.busy = false ∧ x.dirty = false) :
    ∃ l', recycle b l = some l' := by
  induction l with
  | nil => simp at h
  | cons y ys ih =>
    rw [recycle]
    cases hr : recycle b ys with
    | some ys' => exact ⟨_, rfl⟩
    | none =>
      obtain ⟨x, hx, hfree⟩ := h
      rcases mem_cons.1 hx with rfl | hx
      · exact ⟨_, if_pos hfree⟩
      · obtain ⟨l', hl'⟩ := ih ⟨x, hx, hfree⟩
        rw [hr] at hl'
        cases hl'

theorem exists_bread (hfree : (io.view b).busy = false)
    (hspare : io.find b = none → ∃ x ∈ io.bcache, x.busy = false ∧ x.dirty = false) :
    ∃ io', io.bread b = .ok io' := by
  cases hf : io.find b with
  | some x =>
    have hx : x.busy = false := by simpa [view_of_find hf] using hfree
    refine ⟨(io.update b Buf.take).update b (.fill (io.disk b)), ?_⟩
    simp only [Bio.bread, bget, hf, hx, bind, Except.bind, Bool.false_eq_true, if_false]
    rfl
  | none =>
    obtain ⟨l, hl⟩ := exists_recycle (b := b) (hspare hf)
    refine ⟨({ io with bcache := l } : Bio).update b (.fill (io.disk b)), ?_⟩
    simp only [Bio.bread, bget, hf, hl, bind, Except.bind]
    rfl

theorem exists_bwrite (hb : (io.view b).busy = true) : ∃ io', io.bwrite b = .ok io' := by
  obtain ⟨x, hf, hx, -⟩ := find_of_busy hb
  refine ⟨{ io.update b Buf.written with disk := Function.update io.disk b x.data }, ?_⟩
  simp only [Bio.bwrite, hf, hx, if_true]

theorem exists_brelse (hb : (io.view b).busy = true) : ∃ io', io.brelse b = .ok io' := by
  obtain ⟨x, hf, hx, -⟩ := find_of_busy hb
  refine ⟨{ io with bcache := x.free :: io.bcache.eraseP fun y => y.blockno = some b }, ?_⟩
  simp only [Bio.brelse, hf, hx, if_true]

theorem find_of_dirty (h : (io.view b).dirty = true) :
    ∃ x, io.find b = some x ∧ x.dirty = true ∧ io.view b = ⟨x.data, x.dirty, x.busy⟩ := by
  cases hf : io.find b with
  | none => simp [view_of_find_none hf] at h
  | some x =>
    rw [view_of_find hf] at h
    exact ⟨x, rfl, h, view_of_find hf⟩

/-! ## The steps of the commit -/

theorem Whole.exists_copy (h : io.Whole) (hw : io.Wf) (hne : dst ≠ src)
    (hd : (io.view dst).busy = true) (hs : (io.view src).busy = true) :
    ∃ io', (do
      let io ← (io.memmove dst src).bwrite dst
      let io ← io.brelse src
      io.brelse dst) = .ok io' ∧ io'.Whole := by
  obtain ⟨-, hmview⟩ := view_memmove hd hs
  obtain ⟨io₁, h₁⟩ : ∃ io₁, (io.memmove dst src).bwrite dst = .ok io₁ :=
    exists_bwrite (by simp [hmview, hd])
  obtain ⟨-, -, hview₁, hw₁⟩ := (hw.memmove dst src).view_bwrite h₁
  obtain ⟨io₂, h₂⟩ : ∃ io₂, io₁.brelse src = .ok io₂ := exists_brelse
    (by simp [hview₁, hmview, hne.symm, hs])
  obtain ⟨-, -, hview₂, hw₂⟩ := hw₁.view_brelse h₂
  obtain ⟨io₃, h₃⟩ : ∃ io₃, io₂.brelse dst = .ok io₃ := exists_brelse
    (by simp [hview₂, hview₁, hmview, hne, hd])
  refine ⟨io₃, ?_, (((h.memmove dst src).bwrite h₁).brelse h₂).brelse h₃⟩
  simp only [h₁, h₂, bind, Except.bind]
  exact h₃

/-- The buffer of a pinned block is where it was after another block was read. -/
theorem Coherent.view_bread_ne (hc : io.Coherent T) (h : io.bread b = .ok io') {b' : Blockno}
    (hne : b' ≠ b) : io'.view b' = io.view b' := by
  rw [(hc.view_bread h).2.2.1, update_of_ne hne]

section

variable (hc : io.Coherent T) (h : io.Whole) (hne : dst ≠ src) (hd : (io.view dst).busy = false)
  (hs : (io.view src).busy = false) (hspare : ∃ x ∈ io.bcache, x.busy = false ∧ x.dirty = false)

include hc h hne hd hs hspare

/-- **An iteration of `write_log`** finds its buffers: one for the block of the log, and
that of the home block, which is pinned. -/
theorem Coherent.exists_writeLog (hdirty : (io.view src).dirty = true) :
    ∃ io₁ io₂ x, io.bread dst = .ok io₁ ∧ io₁.find src = some x ∧ x.dirty = true ∧
      io₁.bread src = .ok io₂ ∧ io₂.find src = some x.take ∧
      ∃ io', io.writeLog dst src = .ok io' ∧ io'.Whole := by
  obtain ⟨io₁, h₁⟩ := exists_bread hd fun _ => hspare
  have hc₁ := hc.bread h₁
  have hv₁ := hc.view_bread_ne h₁ hne.symm
  obtain ⟨x, hf, hx, -⟩ := find_of_dirty (hv₁ ▸ hdirty)
  obtain ⟨io₂, h₂⟩ : ∃ io₂, io₁.bread src = .ok io₂ := exists_bread (by rw [hv₁, hs]) (by simp [hf])
  have hvalid := hc₁.valid x (find_mem hf) (by simp [find_blockno hf])
  have hf₂ : io₂.find src = some x.take := by
    rcases bread_cases h₂ with ⟨y, hy, -, rfl⟩ | ⟨hnone, -⟩
    · simp [find_update (Buf.fill_blockno _), find_update Buf.take_blockno, hf, Buf.fill, Buf.take,
        hvalid]
    · simp [hf] at hnone
  obtain ⟨-, -, hview₂, hw₂⟩ := hc₁.view_bread h₂
  obtain ⟨io', h', hwhole⟩ := ((h.bread h₁).bread h₂).exists_copy hw₂ hne
    (by rw [hview₂, update_of_ne hne, (hc.view_bread h₁).2.2.1, update_self])
    (by rw [hview₂, update_self])
  refine ⟨io₁, io₂, x, h₁, hf, hx, h₂, hf₂, io', ?_, hwhole⟩
  simp only [Bio.writeLog, h₁, h₂, bind, Except.bind]
  exact h'

/-- **An iteration of `install_trans`** finds its buffers. -/
theorem Coherent.exists_installTrans
    (hspare₂ : ∀ io₁, io.bread src = .ok io₁ → io₁.find dst = none →
      ∃ x ∈ io₁.bcache, x.busy = false ∧ x.dirty = false) :
    ∃ io', io.installTrans src dst = .ok io' ∧ io'.Whole := by
  obtain ⟨io₁, h₁⟩ := exists_bread hs fun _ => hspare
  have hc₁ := hc.bread h₁
  have hv₁ := hc.view_bread_ne h₁ hne
  obtain ⟨io₂, h₂⟩ : ∃ io₂, io₁.bread dst = .ok io₂ :=
    exists_bread (by rw [hv₁, hd]) (hspare₂ io₁ h₁)
  obtain ⟨-, -, hview₂, hw₂⟩ := hc₁.view_bread h₂
  obtain ⟨io', h', hwhole⟩ := ((h.bread h₁).bread h₂).exists_copy hw₂ hne
    (by rw [hview₂, update_self])
    (by rw [hview₂, update_of_ne hne.symm, (hc.view_bread h₁).2.2.1, update_self])
  refine ⟨io', ?_, hwhole⟩
  simp only [Bio.installTrans, h₁, h₂, bind, Except.bind]
  exact h'

end

/-- **`write_head`** finds its buffer. -/
theorem Coherent.exists_writeHead (hc : io.Coherent T) (h : io.Whole) (lh : List Blockno)
    (hb : (io.view b).busy = false)
    (hspare : ∃ x ∈ io.bcache, x.busy = false ∧ x.dirty = false) :
    ∃ io', io.writeHead b lh = .ok io' ∧ io'.Whole := by
  obtain ⟨io₁, h₁⟩ := exists_bread hb fun _ => hspare
  obtain ⟨-, -, hview₁, hw₁⟩ := hc.view_bread h₁
  have hbusy₁ : (io₁.view b).busy = true := by rw [hview₁, update_self]
  obtain ⟨x, hf, hx, -⟩ := find_of_busy hbusy₁
  have hview₂ := view_update (f := fun x => x.put (putHead lh x.data)) (fun _ => rfl) hf
  have hw₂ := hw₁.update (b := b) (f := fun x => x.put (putHead lh x.data)) (fun _ => rfl)
    fun _ h => h
  have hbusy₂ := congrArg View.busy (congrFun hview₂ b)
  rw [update_self] at hbusy₂
  obtain ⟨io₃, h₃⟩ := exists_bwrite (hbusy₂.trans hx)
  obtain ⟨-, -, hview₃, hw₃⟩ := hw₂.view_bwrite h₃
  obtain ⟨io₄, h₄⟩ : ∃ io₄, io₃.brelse b = .ok io₄ := exists_brelse
    (by rw [hview₃, update_self]; exact hbusy₂.trans hx)
  have hwhole₂ := (h.bread h₁).update (b := b) (f := fun x => x.put (putHead lh x.data))
    fun _ => rfl
  refine ⟨io₄, ?_, (hwhole₂.bwrite h₃).brelse h₄⟩
  simp only [Bio.writeHead, h₁, h₃, bind, Except.bind]
  exact h₄

end Bio

/-- The blocks that may still be pinned. -/
def CommitPc.pinned (lh : List Blockno) : CommitPc → List Blockno
  | .installTrans tail => lh.drop tail
  | _ => lh

/-- How many steps are left, at most, of a commit of `n` blocks. -/
def CommitPc.rank (n : Nat) : CommitPc → Nat
  | .start => 2 * n + 5
  | .writeLog tail => (n - tail) + n + 4
  | .writeHead => n + 3
  | .installTrans tail => (n - tail) + 2
  | .eraseHead => 1
  | .done => 0

variable {tail : Nat} {b : Blockno}

namespace Sys

/-- The commit that process `p` began in `s₀` stands at `c`, and no one has a buffer. -/
structure AtCommit (A : LogArea) (p : Nat) (s₀ s : Sys) (c : CommitPc) : Prop where
  mode : s.mode = .running
  pc : (s.thread p).pc = .commit c
  coherent : s.io.Coherent fun _ => False
  whole : s.io.Whole
  free : ∀ b, (s.io.view b).busy = false
  length : s.log.lh.length ≤ s₀.log.lh.length
  home : ∀ b ∈ s.log.lh, ¬ A.Has b
  pinned : ∀ b, (s.io.view b).dirty = true → b ∈ c.pinned s.log.lh
  copies : (∀ tail, c ≠ .installTrans tail) → ∀ b ∈ s.log.lh,
    (s.io.view b).dirty = true ∧ (s.io.view b).data = (s₀.io.view b).data

variable {A : LogArea} {p : Nat} {s₀ s : Sys} {c : CommitPc}

/-- There is a buffer to recycle. -/
theorem AtCommit.exists_spare (h : AtCommit A p s₀ s c) (hn : s₀.log.lh.length < NBUF) :
    ∃ x ∈ s.io.bcache, x.busy = false ∧ x.dirty = false := by
  refine h.whole.exists_spare h.coherent.toWf (L := c.pinned s.log.lh) ?_ ?_
  · intro b hb
    exact h.pinned b (hb.resolve_right (by simp [h.free b]))
  · have hlen := h.length
    cases c <;> simp only [CommitPc.pinned, length_drop] <;> omega

theorem step_commit (hm : s.mode = .running) : s.step A (.commit p) = s.commit A p := by
  simp [step, hm, run]

theorem AtCommit.start (h : AtCommit A p s₀ s .start) (hpos : 0 < s.log.lh.length) :
    ∃ s', s.step A (.commit p) = some s' ∧ AtCommit A p s₀ s' (.writeLog 0) := by
  refine ⟨s.commitTo p (.writeLog 0), ?_, ?_⟩
  · rw [step_commit h.mode]
    simp [commit, h.pc, hpos]
  · exact ⟨h.mode, by simp [commitTo, setThread], h.coherent, h.whole, h.free, h.length, h.home,
      h.pinned, fun _ => h.copies (by simp)⟩

theorem AtCommit.write (h : AtCommit A p s₀ s c) {c' : CommitPc} {io : Bio} {dst : Blockno}
    {d : Block} (hview : io.view = Function.update s.io.view dst ⟨d, false, false⟩)
    (hc : io.Coherent fun _ => False) (hw : io.Whole)
    (hpin : ∀ b ∈ c.pinned s.log.lh, b ≠ dst → b ∈ c'.pinned s.log.lh)
    (hcopy : (∀ tail, c' ≠ .installTrans tail) →
      (∀ tail, c ≠ .installTrans tail) ∧ dst ∉ s.log.lh) :
    AtCommit A p s₀ { s.commitTo p c' with io } c' where
  mode := h.mode
  pc := by simp [commitTo, setThread]
  coherent := hc
  whole := hw
  free := by
    intro b
    rw [hview]
    by_cases hb : b = dst
    · rw [hb, update_self]
    · rw [update_of_ne hb, h.free b]
  length := h.length
  home := h.home
  pinned := by
    intro b hd
    rw [hview] at hd
    by_cases hb : b = dst
    · rw [hb, update_self] at hd
      cases hd
    · rw [update_of_ne hb] at hd
      exact hpin b (h.pinned b hd) hb
  copies := by
    intro hc' b hb
    obtain ⟨hearly, hdst⟩ := hcopy hc'
    have hne : b ≠ dst := fun heq => hdst (heq ▸ hb)
    rw [hview, update_of_ne hne]
    exact h.copies hearly b hb

theorem AtCommit.slot_ne (h : AtCommit A p s₀ s c) {t : Nat}
    (hb : b ∈ s.log.lh) (htail : t + 1 < A.size) : A.slot t ≠ b :=
  fun heq => h.home b hb (heq ▸ A.has_slot htail)

theorem AtCommit.tail_lt (h : AtCommit A p s₀ s c)
    (hb : s.log.lh[tail]? = some b) : tail < s₀.log.lh.length ∧ b ∈ s.log.lh := by
  have hlen := h.length
  obtain ⟨hlt, -⟩ := List.getElem?_eq_some_iff.1 hb
  exact ⟨by omega, mem_of_getElem? hb⟩

/-- **The home block is served from the cache**: after the block of the log is read,
its buffer is there, pinned, with the data it had when the commit began, and that is
what `bread` returns. -/
theorem AtCommit.served (h : AtCommit A p s₀ s (.writeLog tail))
    (hsize : s₀.log.lh.length < A.size) (hn : s₀.log.lh.length < NBUF)
    (hb : s.log.lh[tail]? = some b) :
    ∃ io₁ io₂ x, s.io.bread (A.slot tail) = .ok io₁ ∧ io₁.find b = some x ∧ x.dirty = true ∧
      x.data = (s₀.io.view b).data ∧ io₁.bread b = .ok io₂ ∧ io₂.find b = some x.take ∧
      ∃ io, s.io.writeLog (A.slot tail) b = .ok io ∧ io.Whole := by
  obtain ⟨htail, hmem⟩ := h.tail_lt hb
  obtain ⟨hdirty, hdata⟩ := h.copies (by simp) b hmem
  have hne := h.slot_ne hmem (t := tail) (by omega)
  obtain ⟨io₁, io₂, x, h₁, hf, hx, h₂, hf₂, hio⟩ := h.coherent.exists_writeLog h.whole hne
    (h.free _) (h.free b) (h.exists_spare hn) hdirty
  refine ⟨io₁, io₂, x, h₁, hf, hx, ?_, h₂, hf₂, hio⟩
  have hv := congrArg Bio.View.data (h.coherent.view_bread_ne h₁ hne.symm)
  rw [Bio.view_of_find hf] at hv
  exact hv.trans hdata

theorem AtCommit.writeLog (h : AtCommit A p s₀ s (.writeLog tail))
    (hsize : s₀.log.lh.length < A.size) (hn : s₀.log.lh.length < NBUF)
    (hb : s.log.lh[tail]? = some b) :
    ∃ s', s.step A (.commit p) = some s' ∧ AtCommit A p s₀ s' (.writeLog (tail + 1)) := by
  obtain ⟨htail, hmem⟩ := h.tail_lt hb
  obtain ⟨-, -, -, -, -, -, -, -, -, io, hio, hw⟩ := h.served hsize hn hb
  obtain ⟨-, -, -, -, hview, hc⟩ := h.coherent.writeLog hio
  refine ⟨{ s.commitTo p (.writeLog (tail + 1)) with io }, ?_, ?_⟩
  · rw [step_commit h.mode]
    simp [commit, h.pc, hb, hio, after]
  · exact h.write hview hc hw (fun b hb _ => hb) fun _ =>
      ⟨by simp, fun hin => h.slot_ne hin (by omega) rfl⟩

theorem AtCommit.wroteLog (h : AtCommit A p s₀ s (.writeLog tail)) (hb : s.log.lh[tail]? = none) :
    ∃ s', s.step A (.commit p) = some s' ∧ AtCommit A p s₀ s' .writeHead := by
  refine ⟨s.commitTo p .writeHead, ?_, ?_⟩
  · rw [step_commit h.mode]
    simp [commit, h.pc, hb]
  · exact ⟨h.mode, by simp [commitTo, setThread], h.coherent, h.whole, h.free, h.length, h.home,
      h.pinned, fun _ => h.copies (by simp)⟩

theorem AtCommit.writeHead (h : AtCommit A p s₀ s .writeHead) (hn : s₀.log.lh.length < NBUF) :
    ∃ s', s.step A (.commit p) = some s' ∧ AtCommit A p s₀ s' (.installTrans 0) := by
  obtain ⟨io, hio, hw⟩ := h.coherent.exists_writeHead h.whole s.log.lh (h.free A.start)
    (h.exists_spare hn)
  obtain ⟨-, -, hview, hc⟩ := h.coherent.writeHead hio
  refine ⟨{ s.commitTo p (.installTrans 0) with io }, ?_, ?_⟩
  · rw [step_commit h.mode]
    simp [commit, h.pc, hio, after]
  · exact h.write hview hc hw (fun b hb _ => hb) fun hno => absurd rfl (hno 0)

theorem AtCommit.installTrans
    (h : AtCommit A p s₀ s (.installTrans tail)) (hsize : s₀.log.lh.length < A.size)
    (hn : s₀.log.lh.length < NBUF) (hb : s.log.lh[tail]? = some b) :
    ∃ s', s.step A (.commit p) = some s' ∧ AtCommit A p s₀ s' (.installTrans (tail + 1)) := by
  obtain ⟨htail, hmem⟩ := h.tail_lt hb
  have hne := h.slot_ne hmem (t := tail) (by omega)
  have hdrop : s.log.lh.drop tail = b :: s.log.lh.drop (tail + 1) := by
    obtain ⟨hlt, rfl⟩ := List.getElem?_eq_some_iff.1 hb
    exact drop_eq_getElem_cons hlt
  -- a home block that is not in the cache is not pinned, so that one more buffer is free
  have hspare₂ : ∀ io₁, s.io.bread (A.slot tail) = .ok io₁ → io₁.find b = none →
      ∃ x ∈ io₁.bcache, x.busy = false ∧ x.dirty = false := by
    intro io₁ h₁ hnone
    obtain ⟨-, -, hview₁, hw₁⟩ := h.coherent.view_bread h₁
    refine (h.whole.bread h₁).exists_spare hw₁ (L := A.slot tail :: s.log.lh.drop (tail + 1)) ?_ ?_
    · intro b' hb'
      by_cases hs : b' = A.slot tail
      · simp [hs]
      · rw [hview₁, update_of_ne hs] at hb'
        have hpin := h.pinned b' (hb'.resolve_right (by simp [h.free b']))
        have hbb : b' ≠ b := by
          rintro rfl
          have hv := h.coherent.view_bread_ne h₁ hs
          rw [Bio.view_of_find_none hnone] at hv
          rw [← hv] at hb'
          simp at hb'
        rw [CommitPc.pinned, hdrop] at hpin
        exact mem_cons_of_mem _ ((mem_cons.1 hpin).resolve_left hbb)
    · have hlen := h.length
      simp only [length_cons, length_drop]
      omega
  obtain ⟨io, hio, hw⟩ := h.coherent.exists_installTrans h.whole hne.symm (h.free b) (h.free _)
    (h.exists_spare hn) hspare₂
  obtain ⟨-, -, -, -, hview, hc⟩ := h.coherent.installTrans hio
  refine ⟨{ s.commitTo p (.installTrans (tail + 1)) with io }, ?_, ?_⟩
  · rw [step_commit h.mode]
    simp [commit, h.pc, hb, hio, after]
  · refine h.write hview hc hw (fun b' hb' hne' => ?_) fun hno => absurd rfl (hno (tail + 1))
    rw [CommitPc.pinned, hdrop] at hb'
    exact (mem_cons.1 hb').resolve_left hne'

theorem AtCommit.installed (h : AtCommit A p s₀ s (.installTrans tail))
    (hb : s.log.lh[tail]? = none) :
    ∃ s', s.step A (.commit p) = some s' ∧ AtCommit A p s₀ s' .eraseHead := by
  refine ⟨{ s.commitTo p .eraseHead with log := { s.log with lh := [] } }, ?_, ?_⟩
  · rw [step_commit h.mode]
    simp [commit, h.pc, hb]
  · refine ⟨h.mode, by simp [commitTo, setThread], h.coherent, h.whole, h.free, Nat.zero_le _,
      by simp, ?_, by simp⟩
    intro b hd
    have hpin := h.pinned b hd
    rw [CommitPc.pinned, drop_eq_nil_of_le (getElem?_eq_none_iff.1 hb)] at hpin
    cases hpin

theorem AtCommit.eraseHead (h : AtCommit A p s₀ s .eraseHead) (hn : s₀.log.lh.length < NBUF) :
    ∃ s', s.step A (.commit p) = some s' ∧ AtCommit A p s₀ s' .done := by
  obtain ⟨io, hio, hw⟩ := h.coherent.exists_writeHead h.whole s.log.lh (h.free A.start)
    (h.exists_spare hn)
  obtain ⟨-, -, hview, hc⟩ := h.coherent.writeHead hio
  refine ⟨{ s.commitTo p .done with io }, ?_, ?_⟩
  · rw [step_commit h.mode]
    simp [commit, h.pc, hio, after]
  · exact h.write hview hc hw (fun b hb _ => hb) fun _ =>
      ⟨by simp, fun hin => h.home A.start hin A.has_start⟩

/-- The commit is over. -/
def Committed (p : Nat) (s : Sys) : Prop := s.mode = .running ∧ (s.thread p).pc = .outside

theorem AtCommit.done (h : AtCommit A p s₀ s .done) :
    ∃ s', s.step A (.commit p) = some s' ∧ s'.Committed p := by
  refine ⟨{ s.setThread p { s.thread p with pc := .outside } with
    log := { s.log with committing := false } }, ?_, h.mode, by simp [setThread]⟩
  rw [step_commit h.mode]
  simp [commit, h.pc]

/-- **A step of the commit** is taken, and brings it nearer to its end. -/
theorem AtCommit.next (h : AtCommit A p s₀ s c) (hpos : c = .start → 0 < s.log.lh.length)
    (hsize : s₀.log.lh.length < A.size) (hn : s₀.log.lh.length < NBUF) :
    ∃ s', s.step A (.commit p) = some s' ∧ (s'.Committed p ∨
      ∃ c', AtCommit A p s₀ s' c' ∧ c' ≠ .start ∧
        c'.rank s₀.log.lh.length < c.rank s₀.log.lh.length) := by
  cases c with
  | start =>
    obtain ⟨s', hs, h'⟩ := h.start (hpos rfl)
    exact ⟨s', hs, .inr ⟨_, h', by simp, by simp only [CommitPc.rank]; omega⟩⟩
  | writeLog tail =>
    cases hb : s.log.lh[tail]? with
    | some b =>
      have htail := (h.tail_lt hb).1
      obtain ⟨s', hs, h'⟩ := h.writeLog hsize hn hb
      exact ⟨s', hs, .inr ⟨_, h', by simp, by simp only [CommitPc.rank]; omega⟩⟩
    | none =>
      obtain ⟨s', hs, h'⟩ := h.wroteLog hb
      exact ⟨s', hs, .inr ⟨_, h', by simp, by simp only [CommitPc.rank]; omega⟩⟩
  | writeHead =>
    obtain ⟨s', hs, h'⟩ := h.writeHead hn
    exact ⟨s', hs, .inr ⟨_, h', by simp, by simp only [CommitPc.rank]; omega⟩⟩
  | installTrans tail =>
    cases hb : s.log.lh[tail]? with
    | some b =>
      have htail := (h.tail_lt hb).1
      obtain ⟨s', hs, h'⟩ := h.installTrans hsize hn hb
      exact ⟨s', hs, .inr ⟨_, h', by simp, by simp only [CommitPc.rank]; omega⟩⟩
    | none =>
      obtain ⟨s', hs, h'⟩ := h.installed hb
      exact ⟨s', hs, .inr ⟨_, h', by simp, by simp only [CommitPc.rank]; omega⟩⟩
  | eraseHead =>
    obtain ⟨s', hs, h'⟩ := h.eraseHead hn
    exact ⟨s', hs, .inr ⟨_, h', by simp, by simp only [CommitPc.rank]; omega⟩⟩
  | done =>
    obtain ⟨s', hs, h'⟩ := h.done
    exact ⟨s', hs, .inl h'⟩

/-- Every state of the commit's run is one of the commit, or comes after it. -/
theorem atCommit_of_path {d : Disk} (h : AtCommit A p s₀ s₀ .start)
    (hpos : 0 < s₀.log.lh.length) (hsize : s₀.log.lh.length < A.size)
    (hn : s₀.log.lh.length < NBUF) (hp : (logSystem A d).Path (fun _ e => e = .commit p) s₀ s) :
    s.Committed p ∨ ∃ c, AtCommit A p s₀ s c ∧ (c = .start → 0 < s.log.lh.length) := by
  induction hp with
  | refl => exact .inr ⟨_, h, fun _ => hpos⟩
  | tail _ hmove ih =>
    obtain ⟨e, rfl, hs⟩ := hmove
    rcases ih with ⟨hm, hpc⟩ | ⟨c, hc, hstart⟩
    · have hnone := step_commit (A := A) (p := p) hm
      simp only [logSystem, hnone, commit, hpc] at hs
      cases hs
    · obtain ⟨s', hs', hnext⟩ := hc.next hstart hsize hn
      obtain rfl : s' = _ := Option.some.inj (hs'.symm.trans hs)
      rcases hnext with hdone | ⟨c', hc', hne, -⟩
      · exact .inl hdone
      · exact .inr ⟨c', hc', fun h => absurd h hne⟩

/-- The commit comes to its end. -/
theorem AtCommit.exists_run {d : Disk} (h : AtCommit A p s₀ s c)
    (hpos : c = .start → 0 < s.log.lh.length) (hsize : s₀.log.lh.length < A.size)
    (hn : s₀.log.lh.length < NBUF) :
    ∃ s', (logSystem A d).Path (fun _ e => e = .commit p) s s' ∧ s'.Committed p := by
  induction hr : c.rank s₀.log.lh.length using Nat.strong_induction_on generalizing s c with
  | _ r ih =>
    obtain ⟨s', hs, hdone | ⟨c', hc', hne, hlt⟩⟩ := h.next hpos hsize hn
    · exact ⟨s', .single ⟨_, rfl, hs⟩, hdone⟩
    · obtain ⟨s'', hp, hdone⟩ := ih _ (hr ▸ hlt) hc' (fun h => absurd h hne) rfl
      exact ⟨s'', .head ⟨_, rfl, hs⟩ hp, hdone⟩

end Sys

/-- **A commit finds its buffers.**  Let `commit` begin with at most `log.size - 1`
blocks in the header of a log of `LOGSIZE` blocks.  They are pinned, nothing else is,
and no one has a buffer.  Then the commit comes to its end.  None of its calls of `bread`
panics or sleeps, and `write_log` gets every home block from the cache, as it was changed
there. -/
theorem commit_finds_buffers {A : LogArea} {d : Disk} {s : Sys} {p : Nat}
    (hsize : A.size = LOGSIZE) (hcache : s.io.bcache.length = NBUF)
    (hcoh : s.io.Coherent fun _ => False) (hm : s.mode = .running)
    (hpc : (s.thread p).pc = .commit .start) (hpos : 0 < s.log.lh.length)
    (hmax : s.log.lh.length ≤ A.size - 1) (hhome : ∀ b ∈ s.log.lh, ¬ A.Has b)
    (hpin : ∀ b ∈ s.log.lh, (s.io.view b).dirty = true)
    (hclean : ∀ x ∈ s.io.bcache, x.dirty = true → ∃ b ∈ s.log.lh, x.blockno = some b)
    (hfree : ∀ x ∈ s.io.bcache, x.busy = false) :
    (∃ s', (logSystem A d).Path (fun _ e => e = .commit p) s s' ∧ s'.mode = .running ∧
      (s'.thread p).pc = .outside) ∧
    ∀ s', (logSystem A d).Path (fun _ e => e = .commit p) s s' → s'.mode = .running ∧
      ((s'.thread p).pc ≠ .outside → ∃ s'', s'.step A (.commit p) = some s'') ∧
      ∀ tail b, (s'.thread p).pc = .commit (.writeLog tail) → s'.log.lh[tail]? = some b →
        ∃ io₁ io₂ x, s'.io.bread (A.slot tail) = .ok io₁ ∧ io₁.find b = some x ∧
          x.dirty = true ∧ x.data = (s.io.view b).data ∧ io₁.bread b = .ok io₂ ∧
          io₂.find b = some x.take := by
  have hlog : LOGSIZE = NBUF := rfl
  have hn : s.log.lh.length < NBUF := by omega
  have hlen : s.log.lh.length < A.size := by omega
  have h : s.AtCommit A p s .start := by
    refine ⟨hm, hpc, hcoh, ⟨hcache, ?_⟩, ?_, le_refl _, hhome, ?_, fun _ b hb => ⟨hpin b hb, rfl⟩⟩
    · intro x hx hnone
      refine ⟨hfree x hx, ?_⟩
      by_contra hd
      obtain ⟨b, -, hb⟩ := hclean x hx (by simpa using hd)
      simp [hnone] at hb
    · intro b
      cases hf : s.io.find b with
      | none => rw [Bio.view_of_find_none hf]
      | some x =>
        rw [Bio.view_of_find hf]
        exact hfree x (Bio.find_mem hf)
    · intro b hd
      obtain ⟨x, hf, hx, -⟩ := Bio.find_of_dirty hd
      obtain ⟨b', hb', hxb⟩ := hclean x (Bio.find_mem hf) hx
      rw [Bio.find_blockno hf] at hxb
      cases hxb
      exact hb'
  obtain ⟨s', hp, hdone⟩ := h.exists_run (fun _ => hpos) hlen hn
  refine ⟨⟨s', hp, hdone⟩, fun s' hp => ?_⟩
  rcases Sys.atCommit_of_path h hpos hlen hn hp with ⟨hm', hpc'⟩ | ⟨c, hc, hstart⟩
  · exact ⟨hm', fun hout => absurd hpc' hout, fun tail b ht => by simp [hpc'] at ht⟩
  · obtain ⟨s'', hs, -⟩ := hc.next hstart hlen hn
    refine ⟨hc.mode, fun _ => ⟨s'', hs⟩, ?_⟩
    intro tail b ht hb
    obtain rfl : c = .writeLog tail := by
      have hcc := hc.pc.symm.trans ht
      exact Pc.commit.inj hcc
    obtain ⟨io₁, io₂, x, h₁, hf, hx, hdata, h₂, hf₂, -⟩ := hc.served hlen hn hb
    exact ⟨io₁, io₂, x, h₁, hf, hx, hdata, h₂, hf₂⟩

/-- A cache with `n` pinned blocks, from block 100 on, and one more buffer. -/
def pinnedCache (n : Nat) : List Buf :=
  (range n).map (fun i => ⟨some (UInt32.ofNat (100 + i)), false, true, true, .zero⟩) ++
    [⟨none, false, false, false, .zero⟩]

/-- Process 0 begins to commit them. -/
def pinnedSys (n : Nat) : Sys :=
  ⟨⟨fun _ => .zero, pinnedCache n⟩, ⟨0, true, (range n).map fun i => UInt32.ofNat (100 + i)⟩,
    fun p => ⟨if p = 0 then .commit .start else .outside, [], [], []⟩, .running⟩

theorem commit_finds_buffers_full : (pinnedSys 29).log.lh.length = LogArea.mkfs.size - 1 ∧
      ∃ s', (logSystem .mkfs fun _ => .zero).Path (fun _ e => e = .commit 0) (pinnedSys 29) s' ∧
        s'.mode = .running ∧ (s'.thread 0).pc = .outside := by
  have hcoh : (pinnedSys 29).io.Coherent fun _ => False := by
    refine ⟨⟨by decide, by decide⟩, ?_, fun _ h => h.elim⟩
    intro b _ hd
    cases hf : (pinnedSys 29).io.find b with
    | none => rw [Bio.view_of_find_none hf]
    | some x =>
      rw [Bio.view_of_find hf] at hd
      have hall : ∀ x ∈ (pinnedSys 29).io.bcache, x.blockno ≠ none → x.dirty = true := by
        decide
      have hx := hall x (Bio.find_mem hf) (by simp [Bio.find_blockno hf])
      exact absurd (hx.symm.trans hd) (by decide)
  -- the blocks are looked at in the list: there are too many of them in all
  have hhome : ∀ b ∈ (pinnedSys 29).log.lh, ¬ LogArea.mkfs.Has b := by
    have hall : (pinnedSys 29).log.lh.all (fun b => !decide (LogArea.mkfs.Has b)) = true := by
      decide
    intro b hb
    simpa using all_eq_true.1 hall b hb
  have hpin : ∀ b ∈ (pinnedSys 29).log.lh, ((pinnedSys 29).io.view b).dirty = true := by
    have hall : (pinnedSys 29).log.lh.all (fun b => ((pinnedSys 29).io.view b).dirty) = true := by
      decide
    exact all_eq_true.1 hall
  have hclean : ∀ x ∈ (pinnedSys 29).io.bcache, x.dirty = true →
      ∃ b ∈ (pinnedSys 29).log.lh, x.blockno = some b := by
    have hall : (pinnedSys 29).io.bcache.all (fun x => !x.dirty ||
        (pinnedSys 29).log.lh.any fun b => x.blockno == some b) = true := by decide
    intro x hx hd
    simpa [hd] using all_eq_true.1 hall x hx
  exact ⟨by decide, (commit_finds_buffers rfl (by decide) hcoh rfl rfl
    (by decide) (by decide) hhome hpin hclean (by decide)).1⟩

end Xv6
