import OperatingSystems.Fs.System

/-!
# What the disk and the inode cache agree on

What `sys_inv` says of a state that processes have reached, in terms of the state alone.
An inode is looked at here when no one has it locked: its owner changes the copy and the
disk at different times.

* `icache_coherent`: an inode is in the cache once, and the copy is what is on the disk.
* `no_holes`: a file has exactly the blocks of its size, so that reading allocates nothing.
* `blocks_exact`: a block is free, or one pointer of one inode points to it.
-/

namespace Xv6.Fs

open Option

/-! ## Inodes that no one has locked -/

/-- Someone has locked the inode. -/
def State.Locked (s : State) (i : Nat) : Prop :=
  ∃ e, 0 < (s.inode e).ref ∧ (s.inode e).inum = i ∧ (s.inode e).busy = true

section Unlocked

variable {s : State} {T : Slot → Hold} {own : Nat → Owner} {x : Sys} {i b : Nat} {e : IRef}

theorem Inv.not_heldAt (h : Inv s T own) (hi : ¬ s.Locked i) : ¬ HeldAt s T i := by
  rintro ⟨p, e, d, dk, hl, rfl⟩
  have hne : (T p).lock e ≠ .none := by
    rw [hl]
    exact Lock.noConfusion
  have href := h.refs.pos (h.locks.secure p e hne)
  exact hi ⟨e, by omega, rfl, (h.locks.busy e).2 ⟨p, hne⟩⟩

/-- A copy that no one has locked is what is on the disk. -/
theorem Inv.din_eq (h : Inv s T own) (href : 0 < (s.inode e).ref) (hv : (s.inode e).valid = true)
    (hb : (s.inode e).busy = false) : (s.inode e).din = s.dinode (s.inode e).inum :=
  (h.locks.rest e href hv fun p => .inl (h.locks.free hb p)).1

theorem Inv.not_locked (h : Inv s T own) (href : 0 < (s.inode e).ref)
    (hb : (s.inode e).busy = false) : ¬ s.Locked (s.inode e).inum := by
  rintro ⟨e', href', hnum, hbusy⟩
  obtain rfl := h.locks.uniq e' e href' href hnum
  rw [hb] at hbusy
  cases hbusy

theorem Sys.Inv.not_locked (h : x.Inv T own) (hidle : ∀ p, x.thread p = .idle) :
    ¬ x.fs.Locked i := by
  rintro ⟨e, -, -, hbusy⟩
  obtain ⟨p, hp⟩ := (h.inv.locks.busy e).1 hbusy
  have hok := h.thread p
  rw [hidle p] at hok
  exact hp (Hold.Rests.lock hok e)

end Unlocked

/-- **The inode cache is coherent.**  At any time an inode has at most one entry, and an
entry that is valid and not locked is the same as the inode on the disk. -/
theorem icache_coherent (img : Image) (x : Sys) (h : (system img).Reachable x) :
    (∀ e e', 0 < (x.fs.inode e).ref → 0 < (x.fs.inode e').ref →
      (x.fs.inode e).inum = (x.fs.inode e').inum → e = e') ∧
    ∀ e, 0 < (x.fs.inode e).ref → (x.fs.inode e).valid = true → (x.fs.inode e).busy = false →
      (x.fs.inode e).din = x.fs.dinode (x.fs.inode e).inum := by
  obtain ⟨T, own, hi⟩ := sys_inv h
  exact ⟨hi.inv.locks.uniq, fun e => hi.inv.din_eq⟩

/-- The root directory, after it was opened. -/
theorem icache_coherent_open : ∃ x, (system .root).Reachable x ∧ ∃ e, (x.fs.inode e).ref = 2 ∧
    (x.fs.inode e).inum = ROOTINO ∧ (x.fs.inode e).din = x.fs.dinode ROOTINO := by
  obtain ⟨x, hr, href, hnum, hv, hb⟩ := Machine.reachable_of_run (M := system .root)
    (P := fun x => (x.fs.inode ⟨0, by decide⟩).ref = 2 ∧
      (x.fs.inode ⟨0, by decide⟩).inum = ROOTINO ∧
      (x.fs.inode ⟨0, by decide⟩).valid = true ∧ (x.fs.inode ⟨0, by decide⟩).busy = false)
    ⟨Image.root.boot [], fun _ => .idle⟩
    ([.start 0 (.open (some [47]) ⟨false, false, false, false⟩)] ++ List.replicate 12 (.run 0))
    ⟨[], rfl⟩ (by decide)
  refine ⟨x, hr, ⟨0, by decide⟩, href, hnum, ?_⟩
  rw [← hnum]
  exact (icache_coherent .root x hr).2 _ (by omega) hv hb

/-! ## Files have no holes -/

section Read

variable {ip : IRef} {p : Slot} {s : State}

/-- What the caller of `readi` knows of the state. -/
def Work.Sees (ip : IRef) (s₀ : State) (w : Work) (s : State) : Prop :=
  s = s₀ ∧ w.din = (s.inode ip).din ∧ ∀ b x, w.blk b = some x → x = s.block b

theorem Work.Sees.exec {s₀ : State} {o : Op} {w : Work} (hpre : (Work.reads ip).pre o w)
    (h : w.Sees ip s₀ s) : ∃ r s' w', exec p s o = .ok r s' ∧ (Work.reads ip).post o w r w' ∧
      w'.Sees ip s₀ s' := by
  obtain ⟨rfl, hd, hb⟩ := id h
  cases o with
  | getInode e =>
    obtain rfl : e = ip := hpre
    exact ⟨_, _, w, rfl, ⟨hd.symm, rfl⟩, h⟩
  | bread b =>
    obtain ⟨x, hx⟩ := ne_none_iff_exists'.1 hpre
    refine ⟨_, _, w, rfl, ⟨?_, rfl⟩, h⟩
    rw [hx, hb b x hx]
  | _ => exact hpre.elim

/-- **Reading a file without holes changes nothing.** -/
theorem run_readi (hm : Mapped s.disk (s.inode ip).din (nblocks (s.inode ip).din.size))
    (htype : (s.inode ip).din.type ≠ T_DEV) (off n : Nat) :
    ∃ r, (readi ip off n).run (exec p) s = .ok r s := by
  have hf : (readi ip off n).Follows (Work.reads ip) (fun _ _ => True)
      ⟨0, (s.inode ip).din, (s.inode ip).din, s.disk, []⟩ := by
    refine .bind (reads_getInode ?_)
    rw [if_neg htype]
    split
    · trivial
    next hin =>
      generalize hlen : (if (s.inode ip).din.size < off + n then (s.inode ip).din.size - off
        else n) = m
      refine .bind (reads_readLoop hm le_rfl ?_ trivial)
      refine le_trans ?_ (le_nblocks_mul (s.inode ip).din.size)
      have hoff : off ≤ (s.inode ip).din.size := by
        simp only [not_or, not_lt] at hin
        exact hin.1
      split at hlen <;> omega
  obtain ⟨r, s', w', hrun, -, rfl, -⟩ := Script.Follows.exists_run (R := Work.Sees ip s)
    (fun o w s => Work.Sees.exec (p := p)) hf ⟨rfl, rfl, fun b x hx => (some.inj hx).symm⟩
  exact ⟨r, hrun⟩

end Read

/-- An inode as the next one to lock it sees it. -/
def State.now (s : State) (e : IRef) : Dinode :=
  if (s.inode e).valid then (s.inode e).din else s.dinode (s.inode e).inum

section Ilock

variable {p : Slot} {e : IRef} {s s' : State} {r : Unit}

theorem ilockBusy_ok (h : execIlockBusy s e = .ok r s') : 0 < (s.inode e).ref ∧
    (s.inode e).busy = false ∧ s' = s.setInode e { s.inode e with busy := true } := by
  unfold execIlockBusy at h
  split at h
  next => cases h
  next href =>
    split at h
    next => cases h
    next hbusy =>
      cases h
      exact ⟨by omega, by simpa using hbusy, rfl⟩

theorem ilockRead_ok (h : execIlockRead s e = .ok r s') :
    s' = s.setInode e { s.inode e with din := s.now e, valid := true } := by
  unfold execIlockRead at h
  unfold State.now
  split at h
  next hv =>
    cases h
    rw [if_pos hv, ← hv]
    exact (congrArg (fun i => { s with inode := i }) (Function.update_eq_self e s.inode)).symm
  next hv =>
    split at h
    next => cases h
    next =>
      cases h
      rw [if_neg hv]

/-- What `ilock` leaves. -/
theorem run_ilock (h : (ilock e).run (exec p) s = .ok () s') :
    0 < (s.inode e).ref ∧ (s.inode e).busy = false ∧
      s' = s.setInode e { s.inode e with busy := true, din := s.now e, valid := true } := by
  simp only [ilock, ask, Script.run_bind, Script.run_call] at h
  cases hb : exec p s (.ilockBusy e) with
  | block | panic =>
    rw [hb] at h
    cases h
  | ok r s1 =>
    rw [hb] at h
    obtain ⟨href, hbusy, rfl⟩ := ilockBusy_ok hb
    refine ⟨href, hbusy, (ilockRead_ok h).trans ?_⟩
    simp [State.setInode, State.now]

end Ilock

/-- **Files have no holes.**  An inode that no one has locked points to a block for every
index below the number of blocks of its size and for no other index; so whoever has locked
a file can read it, from any offset on and of any length, without a change of the state. -/
theorem no_holes (img : Image) (x : Sys) (h : (system img).Reachable x) :
    (∀ i, ¬ x.fs.Locked i → (x.fs.dinode i).type ≠ 0 → (x.fs.dinode i).type ≠ T_DEV →
      ∀ bn < MAXFILE, addrAt x.fs.disk (x.fs.dinode i) bn ≠ 0 ↔
        bn < ((x.fs.dinode i).size + (BSIZE - 1)) / BSIZE) ∧
    ((∀ p, x.thread p = .idle) → ∀ i, ¬ x.fs.Locked i) ∧
    ∀ p e s, (ilock e).run (exec p) x.fs = .ok () s → (s.inode e).din.type ≠ T_DEV →
      ∀ off n, ∃ r, (readi e off n).run (exec p) s = .ok r s := by
  obtain ⟨T, own, hi⟩ := sys_inv h
  refine ⟨fun i hl _ _ bn hbn => ?_, fun hidle i => hi.not_locked hidle, fun p e s hs htype off n => ?_⟩
  · have hm := hi.inv.owned.mapped i (hi.inv.not_heldAt hl)
    constructor
    · intro hne
      by_contra hge
      exact hne (hm.addrAt_eq_zero (not_lt.1 hge) hbn)
    · intro hlt
      exact hm.addrAt_ne_zero hlt
  · obtain ⟨href, hbusy, rfl⟩ := run_ilock hs
    have hdisk : x.fs.now e = x.fs.dinode (x.fs.inode e).inum := by
      unfold State.now
      split
      next hv => exact hi.inv.din_eq href hv hbusy
      next => rfl
    have hm := hi.inv.owned.mapped _ (hi.inv.not_heldAt (hi.inv.not_locked href hbusy))
    refine run_readi ?_ htype off n
    simp only [State.setInode, Function.update_self]
    rwa [hdisk]

/-- The state after a `mkdir`, which has taken the inode 2 and the block 60. -/
theorem exists_mkdir : ∃ x, (system .root).Reachable x ∧ (∀ p, x.thread p = .idle) ∧
    x.fs.bitmap 60 = true ∧ x.fs.bitmap 61 = false ∧ (x.fs.dinode 2).addrs 0 = 60 ∧
    (x.fs.dinode 2).type = T_DIR ∧ (x.fs.dinode 2).size = 32 := by
  obtain ⟨x, hr, hidle, hrest⟩ := Machine.reachable_of_run (M := system .root)
    (P := fun x => (∀ p, (x.thread p).isIdle = true) ∧ x.fs.bitmap 60 = true ∧
      x.fs.bitmap 61 = false ∧ (x.fs.dinode 2).addrs 0 = 60 ∧
      (x.fs.dinode 2).type = T_DIR ∧ (x.fs.dinode 2).size = 32)
    ⟨Image.root.boot [], fun _ => .idle⟩
    ([.start 0 (.mkdir (some [47, 97]))] ++ List.replicate 264 (.run 0))
    ⟨[], rfl⟩ (by set_option maxRecDepth 20000 in decide)
  exact ⟨x, hr, fun p => (x.thread p).eq_idle (hidle p), hrest⟩

/-- The new directory has one block. -/
theorem no_holes_mkdir : ∃ x, (system .root).Reachable x ∧ (x.fs.dinode 2).type = T_DIR ∧
    ∀ bn < MAXFILE, addrAt x.fs.disk (x.fs.dinode 2) bn ≠ 0 ↔ bn < 1 := by
  obtain ⟨x, hr, hidle, -, -, -, htype, hsize⟩ := exists_mkdir
  obtain ⟨hfile, hunlocked, -⟩ := no_holes .root x hr
  have hall := hfile 2 (hunlocked hidle 2) (by rw [htype]; decide) (by rw [htype]; decide)
  rw [hsize] at hall
  exact ⟨x, hr, htype, hall⟩

/-! ## Every block has one use -/

/-- A place in an inode, or in its indirect block, where the number of a block stands. -/
inductive Pointer
  | direct (i : Fin NDIRECT)
  | indirect
  | entry (j : Fin NINDIRECT)

/-- The number that stands there. -/
def Pointer.at (blk : Blocks) (d : Dinode) : Pointer → Nat
  | .direct i => d.addrs i
  | .indirect => d.addrs NDIRECT
  | .entry j => if d.addrs NDIRECT = 0 then 0 else Fs.entry blk (d.addrs NDIRECT) j

/-- A pointer of an inode on the disk. -/
def State.pointer (s : State) (i : Nat) (q : Pointer) : Nat := q.at s.disk (s.dinode i)

namespace Pointer

variable {blk : Blocks} {d : Dinode} {n b : Nat} {q q' : Pointer}

/-- The index of the block in the file, if it is not the indirect block. -/
def index : Pointer → Option Nat
  | .direct i => some i
  | .indirect => none
  | .entry j => some (NDIRECT + j)

theorem index_inj (h : q.index = q'.index) : q = q' := by
  cases q with
  | direct i =>
    cases q' with
    | direct i' =>
      rw [Fin.ext (some.inj h)]
    | indirect => cases h
    | entry j =>
      have := some.inj h
      omega
  | indirect =>
    cases q' with
    | direct | entry => cases h
    | indirect => rfl
  | entry j =>
    cases q' with
    | direct i =>
      have := some.inj h
      omega
    | indirect => cases h
    | entry j' =>
      have := some.inj h
      rw [Fin.ext (a := j) (b := j') (by omega)]

/-- A pointer that is not zero is among the first ones. -/
theorem at_eq (hm : Mapped blk d n) (hq : q.at blk d = b) (hb : b ≠ 0) :
    (∃ i < n, q.index = some i ∧ addrAt blk d i = b) ∨
      q = .indirect ∧ NDIRECT < n ∧ d.addrs NDIRECT = b := by
  cases q with
  | direct i =>
    have hlt : i.val < n := by
      by_contra hge
      exact hb (hq.symm.trans (hm.zero i i.isLt.le (not_lt.1 hge)))
    exact .inl ⟨i, hlt, rfl, (addrAt_of_lt i.isLt).trans hq⟩
  | indirect =>
    refine .inr ⟨rfl, ?_, hq⟩
    by_contra hge
    exact hb (hq.symm.trans (hm.zero NDIRECT le_rfl (not_lt.1 hge)))
  | entry j =>
    rw [Pointer.at] at hq
    split at hq
    next => exact absurd hq.symm hb
    next hd =>
      have hlt : NDIRECT + j < n := by
        by_contra hge
        exact hb (hq.symm.trans (hm.entries j j.isLt (not_lt.1 hge) hd))
      refine .inl ⟨NDIRECT + j, hlt, rfl, ?_⟩
      rw [addrAt_of_ge (Nat.le_add_right _ _) hd, Nat.add_sub_cancel_left]
      exact hq

theorem uses_of_at (hm : Mapped blk d n) (hq : q.at blk d = b) (hb : b ≠ 0) : Uses blk d n b := by
  obtain ⟨i, hi, -, h⟩ | ⟨-, hn, h⟩ := at_eq hm hq hb
  · exact .inl ⟨i, hi, h⟩
  · exact .inr ⟨hn, h⟩

theorem at_inj (hm : Mapped blk d n) (hq : q.at blk d = b) (hq' : q'.at blk d = b) (hb : b ≠ 0) :
    q = q' := by
  obtain ⟨i, hi, hx, h⟩ | ⟨rfl, hn, h⟩ := at_eq hm hq hb
  · obtain ⟨j, hj, hx', h'⟩ | ⟨rfl, hn, h'⟩ := at_eq hm hq' hb
    · obtain rfl := hm.inj i j hi hj (h.trans h'.symm)
      exact index_inj (hx.trans hx'.symm)
    · exact absurd (h.trans h'.symm) (hm.apart hn i hi)
  · obtain ⟨j, hj, -, h'⟩ | ⟨rfl, -, -⟩ := at_eq hm hq' hb
    · exact absurd (h'.trans h.symm) (hm.apart hn j hj)
    · rfl

theorem exists_at (hm : Mapped blk d n) (hu : Uses blk d n b) : ∃ q : Pointer, q.at blk d = b := by
  obtain ⟨i, hi, rfl⟩ | ⟨-, rfl⟩ := hu
  · by_cases hd : i < NDIRECT
    · exact ⟨.direct ⟨i, hd⟩, (addrAt_of_lt hd).symm⟩
    · have hle : i < NDIRECT + NINDIRECT := lt_of_lt_of_le hi hm.le
      have hind := hm.indirect_ne_zero (by omega)
      refine ⟨.entry ⟨i - NDIRECT, by omega⟩, ?_⟩
      rw [Pointer.at, if_neg hind, addrAt_of_ge (by omega) hind]
  · exact ⟨.indirect, rfl⟩

end Pointer

section Blocks

variable {s : State} {T : Slot → Hold} {own : Nat → Owner} {x : Sys} {i b : Nat} {q : Pointer}

theorem Inv.own_eq_disk (h : Inv s T own) (hi : ¬ s.Locked i) (hq : s.pointer i q = b)
    (hb : b ≠ 0) : own b = .disk i := by
  have hheld := h.not_heldAt hi
  exact (h.owned.disk i b).2 ⟨hheld, Pointer.uses_of_at (h.owned.mapped i hheld) hq hb⟩

theorem Inv.bitmap_of_own (h : Inv s T own) (hfree : own b ≠ .free) (hfixed : own b ≠ .fixed) :
    s.bitmap b = true := by
  have hlt : b < FSSIZE := by
    by_contra hge
    exact hfixed ((h.owned.fixed b).2 (.inr (not_lt.1 hge)))
  by_contra hbit
  exact hfree ((h.owned.bitmap b hlt).1 (by simpa using hbit))

theorem Inv.bitmap_of_pointer (h : Inv s T own) (hi : ¬ s.Locked i) (hq : s.pointer i q = b)
    (hb : b ≠ 0) : s.bitmap b = true := by
  have hown := h.own_eq_disk hi hq hb
  refine h.bitmap_of_own ?_ ?_
  · rw [hown]
    exact Owner.noConfusion
  · rw [hown]
    exact Owner.noConfusion

theorem Inv.type_of_pointer (h : Inv s T own) (hq : s.pointer i q = b) (hb : b ≠ 0) :
    (s.dinode i).type ≠ 0 := by
  intro h0
  have hz := (h.locks.zero i h0).2
  refine hb (hq.symm.trans ?_)
  cases q with
  | direct j => exact hz j j.isLt.le
  | indirect => exact hz NDIRECT le_rfl
  | entry j => exact if_pos (hz NDIRECT le_rfl)

/-- When all processes are outside the kernel a block is free, or an inode has it. -/
theorem Sys.Inv.free_or_used (h : x.Inv T own) (hidle : ∀ p, x.thread p = .idle)
    (hlo : nmeta ≤ b) (hhi : b < FSSIZE) :
    x.fs.bitmap b = false ∨ ∃ i q, x.fs.pointer i q = b := by
  cases hown : own b with
  | free => exact .inl ((h.inv.owned.bitmap b hhi).2 hown)
  | fixed =>
    have := (h.inv.owned.fixed b).1 hown
    omega
  | disk i =>
    obtain ⟨hheld, hu⟩ := (h.inv.owned.disk i b).1 hown
    exact .inr ⟨i, Pointer.exists_at (h.inv.owned.mapped i hheld) hu⟩
  | proc p =>
    have hok := h.thread p
    rw [hidle p] at hok
    have hblk := h.inv.owned.blk p b
    rw [Hold.Rests.blk hok b, if_pos hown] at hblk
    cases hblk

end Blocks

/-- **Every block has one use.**  When all processes are outside the kernel, a block for data
is marked free and no inode points to it, or it is marked and there is one inode, which is
in use, and one pointer of it that points there.  At any time, a block that `balloc` takes
is not one of an inode that no one has locked, `bfree` finds the block marked, and a block
of an inode that no one has locked is marked. -/
theorem blocks_exact (img : Image) (x : Sys) (h : (system img).Reachable x) :
    ((∀ p, x.thread p = .idle) → ∀ b, nmeta ≤ b → b < FSSIZE →
      x.fs.bitmap b = false ∧ (∀ i q, x.fs.pointer i q ≠ b) ∨
      x.fs.bitmap b = true ∧ ∃ i q, x.fs.pointer i q = b ∧ (x.fs.dinode i).type ≠ 0 ∧
        ∀ i' q', x.fs.pointer i' q' = b → i' = i ∧ q' = q) ∧
    (∀ p k b s, x.thread p = .call (.op .ballocBit k) → exec p x.fs .ballocBit = .ok b s →
      nmeta ≤ b ∧ b < FSSIZE ∧ ∀ i, ¬ x.fs.Locked i → ∀ q, x.fs.pointer i q ≠ b) ∧
    (∀ p b k, x.thread p = .call (.op (.bfree b) k) →
      exec p x.fs (.bfree b) ≠ .panic "freeing free block") ∧
    ∀ i, ¬ x.fs.Locked i → ∀ q, x.fs.pointer i q ≠ 0 → x.fs.bitmap (x.fs.pointer i q) = true := by
  obtain ⟨T, own, hi⟩ := sys_inv h
  have hpos : ∀ {b}, nmeta ≤ b → b ≠ 0 := by
    intro b hb
    have := nmeta_pos
    omega
  refine ⟨fun hidle b hlo hhi => ?_, fun p k b s hp he => ?_, fun p b k hp he => ?_,
    fun i hl q hq => hi.inv.bitmap_of_pointer hl rfl hq⟩
  · have hnl : ∀ i, ¬ x.fs.Locked i := fun i => hi.not_locked hidle
    cases hbit : x.fs.bitmap b with
    | false =>
      refine .inl ⟨rfl, fun i q hq => ?_⟩
      rw [hi.inv.bitmap_of_pointer (hnl i) hq (hpos hlo)] at hbit
      cases hbit
    | true =>
      obtain hfree | ⟨i, q, hq⟩ := hi.free_or_used hidle hlo hhi
      · rw [hfree] at hbit
        cases hbit
      · refine .inr ⟨rfl, i, q, hq, hi.inv.type_of_pointer hq (hpos hlo), fun i' q' hq' => ?_⟩
        have hown := hi.inv.own_eq_disk (hnl i) hq (hpos hlo)
        have hown' := hi.inv.own_eq_disk (hnl i') hq' (hpos hlo)
        obtain rfl := Owner.disk.inj (hown'.symm.trans hown)
        have hm := hi.inv.owned.mapped i' (hi.inv.not_heldAt (hnl i'))
        exact ⟨rfl, Pointer.at_inj hm hq' hq (hpos hlo)⟩
  · have he : execBallocBit x.fs = .ok b s := he
    unfold execBallocBit at he
    split at he
    next c hfree =>
      obtain ⟨rfl, -⟩ := log_ok he
      obtain ⟨⟨-, hlo, hhi⟩, -⟩ := hi.inv.ballocBit (p := p) hfree
      refine ⟨hlo, hhi, fun i hl q hq => ?_⟩
      have hbit := hi.inv.bitmap_of_pointer hl hq (hpos hlo)
      have := List.find?_some hfree
      rw [hbit] at this
      cases this
    next => cases he
  · have hok := hi.thread p
    rw [hp] at hok
    have hown := hi.inv.owned.eq_proc hok.1
    have hbit : x.fs.bitmap b = true :=
      hi.inv.bitmap_of_own (by rw [hown]; exact Owner.noConfusion)
        (by rw [hown]; exact Owner.noConfusion)
    have he : execBfree x.fs b = .panic "freeing free block" := he
    unfold execBfree State.log at he
    rw [if_pos hbit] at he
    split at he
    next => exact absurd (Outcome.panic.inj he) (by decide)
    next =>
      split at he
      next => exact absurd (Outcome.panic.inj he) (by decide)
      next => cases he

/-- A directory was made: it has the first block that was free. -/
theorem blocks_exact_mkdir : ∃ x, (system .root).Reachable x ∧
    (∃ q, ∀ i' q', x.fs.pointer i' q' = 60 → i' = 2 ∧ q' = q) ∧
    ∀ i q, x.fs.pointer i q ≠ 61 := by
  obtain ⟨x, hr, hidle, h60, h61, hdir, -⟩ := exists_mkdir
  have hexact := (blocks_exact .root x hr).1 hidle
  refine ⟨x, hr, ?_, ?_⟩
  · obtain ⟨hfree, -⟩ | ⟨-, i, q, -, -, huniq⟩ := hexact 60 (by decide) (by decide)
    · rw [h60] at hfree
      cases hfree
    · obtain ⟨rfl, -⟩ := huniq 2 (.direct ⟨0, by decide⟩) hdir
      exact ⟨q, huniq⟩
  · obtain ⟨-, hnone⟩ | ⟨hused, -⟩ := hexact 61 (by decide) (by decide)
    · exact hnone
    · rw [h61] at hused
      cases hused

end Xv6.Fs
