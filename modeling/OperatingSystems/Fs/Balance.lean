import Mathlib.Data.Fintype.Card
import OperatingSystems.Fs.Calls

/-!
# Every call keeps to the rules

Each function of `file.c` and `sysfile.c` is followed from where it is called to where it
returns, whatever the operations answer: what it locks it unlocks, and the references it
takes are given back or stored.

* `Bal.Idle`: a process outside the kernel has the references of its current directory and
  of its open files, and no others.
* `Call.follows_body`: every system call brings an idle process back to where it is idle.
-/

namespace Xv6.Fs

open Function Bal

namespace Bal

def beginOp (b : Bal) : Bal := { b with ops := b.ops + 1 }

def endOp (b : Bal) : Bal := { b with ops := b.ops - 1 }

@[simp] theorem beginOp_endOp (b : Bal) : b.beginOp.endOp = b := rfl

def setOfile (b : Bal) (fd : Fd) (f : Option FRef) : Bal :=
  { b with ofile := update b.ofile fd f }

/-- The number of descriptors that are open on a file. -/
def opens (b : Bal) (f : FRef) : Nat := (Finset.univ.filter fun fd => b.ofile fd = some f).card

/-- The process is outside the kernel. -/
structure Idle (b : Bal) : Prop where
  refs : ∀ ip, b.refs ip = if b.cwd = some ip then 1 else 0
  frefs : ∀ f, b.frefs f = b.opens f
  know : ∀ f, b.know f ≠ .fresh
  ops : b.ops = 0
  pipe : b.pipe = none

variable {b : Bal} {fd : Fd} {f g : FRef}

theorem opens_setOfile (h : b.ofile fd = none) :
    (b.setOfile fd (some f)).opens g = b.opens g + if g = f then 1 else 0 := by
  have hfd : ∀ x, (b.setOfile fd (some f)).ofile x = if x = fd then some f else b.ofile x := by
    simp [setOfile, update_apply]
  unfold opens
  by_cases hg : g = f
  · subst hg
    rw [if_pos rfl, ← Finset.card_insert_of_notMem (a := fd) (by simp [h])]
    congr 1
    ext x
    by_cases hx : x = fd <;> simp [hfd, hx]
  · rw [if_neg hg, Nat.add_zero]
    congr 1
    ext x
    by_cases hx : x = fd <;> simp [hfd, hx, h, Ne.symm hg]

theorem opens_clear (h : b.ofile fd = some f) :
    (b.setOfile fd none).opens g = b.opens g - if g = f then 1 else 0 := by
  have hback : (b.setOfile fd none).setOfile fd (some f) = b := by
    simp only [setOfile, update_idem, ← h, update_eq_self]
  have : ((b.setOfile fd none).setOfile fd (some f)).opens g = _ :=
    opens_setOfile (by simp [setOfile])
  rw [hback] at this
  omega

theorem opens_pos (h : b.ofile fd = some f) : 1 ≤ b.opens f :=
  Finset.card_pos.2 ⟨fd, by simp [h]⟩

/-- A descriptor was closed. -/
theorem Idle.close (hi : b.Idle) (h : b.ofile fd = some f) :
    ((b.setOfile fd none).dropFile f none).Idle where
  refs := hi.refs
  frefs g := by
    show (((b.setOfile fd none).setFrefs f (b.frefs f - 1)).setKnow f .nothing).frefs g =
      (b.setOfile fd none).opens g
    show ((b.setOfile fd none).setFrefs f (b.frefs f - 1)).frefs g = _
    rw [setFrefs_frefs, opens_clear h, hi.frefs]
    show (if g = f then _ else b.frefs g) = _
    rw [hi.frefs]
    split
    next hg =>
      subst hg
      rfl
    next => rfl
  know g := by
    show ((b.setOfile fd none).setFrefs f (b.frefs f - 1) |>.setKnow f .nothing).know g ≠ .fresh
    rw [setKnow_know]
    split
    · exact Know.noConfusion
    · exact hi.know g
  ops := hi.ops
  pipe := hi.pipe

end Bal

namespace Hold

variable {t : Hold} {b : Bal} {L : Set IRef} {f : FRef} {ip dp : IRef} {α : Type} {Q : Post Unit}
  {path : Option Path}

theorem follows_beginOp (h : t.At b L)
    (k : ∀ t', t'.At b.beginOp L → Q () t') : (ask .beginOp).Follows rules Q t := by
  obtain rfl := h.bal
  refine follows_ask trivial ?_
  rintro - t' rfl
  exact k _ (h.setBal _)

theorem follows_endOp (h : t.At b L) (ho : 1 ≤ b.ops)
    (k : ∀ t', t'.At b.endOp L → Q () t') : (ask .endOp).Follows rules Q t := by
  obtain rfl := h.bal
  refine follows_ask ho ?_
  rintro - t' rfl
  exact k _ (h.setBal _)

/-! ## Files -/

/-- **`fileclose` gives back a reference to a file.**  With the last one goes the
reference of the file to its inode, or its end of a pipe. -/
theorem follows_fileclose (h : t.At b L) (hb : Backs b L)
    (hf : 1 ≤ b.frefs f) (hnone : b.pipe = none) (k : ∀ t', t'.At (b.dropFile f none) L → Q () t') :
    (fileclose f).Follows rules Q t := by
  have hpre : pre (.fileDrop f) t := by
    refine ⟨by rwa [h.bal], fun ip hl => ?_, by rwa [h.bal]⟩
    rw [h.bal]
    exact hb ip (by rw [← h.locked]; exact hl)
  refine .bind (follows_ask hpre ?_)
  rintro last t' ⟨rfl, -⟩
  rw [h.bal]
  cases last with
  | none => exact k _ (h.setBal _)
  | some x =>
    have h1 := h.setBal (b.dropFile f (some x))
    show Script.Follows rules (if x.type = .pipe then _ else if x.type = .inode then _ else _) Q _
    by_cases hp : x.type = .pipe
    · have hdrop : b.dropFile f (some x) =
          { b.dropFile f none with pipe := some (x.pipe, x.writable) } := by
        simp [dropFile, hp]
      have hpre : pre (.pipeclose x.pipe x.writable) { t with bal := b.dropFile f (some x) } := by
        show (b.dropFile f (some x)).pipe = _
        rw [hdrop]
      rw [if_pos hp]
      refine follows_ask hpre ?_
      rintro - t' rfl
      have hback : ({ b.dropFile f (some x) with pipe := none } : Bal) = b.dropFile f none := by
        rw [hdrop, ← hnone]
        rfl
      have h2 := h1.setBal { b.dropFile f (some x) with pipe := none }
      rw [hback] at h2
      refine k _ ?_
      show Hold.At ⟨{ b.dropFile f (some x) with pipe := none }, t.lock, t.blk⟩ _ L
      rw [hback]
      exact h2
    rw [if_neg hp]
    by_cases hx : x.type = .inode
    · have hdrop : b.dropFile f (some x) = (b.dropFile f none).addRef x.ip := by
        simp [dropFile, hx]
      rw [if_pos hx]
      rw [hdrop] at h1 ⊢
      refine .bind (follows_beginOp h1 fun t2 h2 => ?_)
      refine .bind (follows_iput h2 (refs_addRef_pos _ _) (fun hm => ?_) fun t3 h3 => ?_)
      · have := hb x.ip hm
        show 2 ≤ ((b.dropFile f none).addRef x.ip).refs x.ip
        rw [addRef_refs, if_pos rfl]
        exact Nat.succ_le_succ this
      · refine follows_endOp h3 (Nat.le_add_left 1 _) fun t4 h4 => ?_
        have hend : (((b.dropFile f none).addRef x.ip).beginOp.dropRef x.ip).endOp =
            b.dropFile f none := by
          show (((b.dropFile f none).beginOp.addRef x.ip).dropRef x.ip).endOp = _
          rw [addRef_dropRef, beginOp_endOp]
        rw [hend] at h4
        exact k t4 h4
    · have hdrop : b.dropFile f (some x) = b.dropFile f none := by
        simp [dropFile, hx, hp]
      rw [if_neg hx]
      rw [hdrop] at h1 ⊢
      exact k _ h1

theorem follows_getFile {Q : Post File} (h : t.At b L) (hf : 1 ≤ b.frefs f)
    (k : ∀ x t', t'.At (b.learn f x) L → (b.know f = .fresh → x.type = .none) →
      (∀ ip, b.know f = .inode ip → x.type = .inode ∧ x.ip = ip) → Q x t') :
    (ask (.getFile f)).Follows rules Q t := by
  obtain rfl := h.bal
  refine follows_ask hf ?_
  rintro x t' ⟨rfl, hfresh, hknow⟩
  exact k x _ (h.setBal _) hfresh hknow

theorem follows_getFile_inode {Q : Post File} (h : t.At b L) (hf : 1 ≤ b.frefs f)
    (hk : b.know f = .inode ip) (k : ∀ x t', t'.At b L → x.ip = ip → Q x t') :
    (ask (.getFile f)).Follows rules Q t := by
  refine follows_getFile h hf fun x t' h' _ hknow => ?_
  obtain ⟨hx, rfl⟩ := hknow ip hk
  have hlearn : b.learn f x = b := by
    rw [learn, if_pos hx, setKnow, ← hk, update_eq_self]
  rw [hlearn] at h'
  exact k x t' h' rfl

theorem Bal.learn_know {x : File} (hx : x.type = .inode) : (b.learn f x).know f = .inode x.ip := by
  simp [learn, hx]

theorem secures_of_know (hk : b.know f = .inode ip) (hf : 1 ≤ b.frefs f) : b.Secures ip :=
  .inr ⟨f, hk, hf⟩

/-- What a process has learnt of files makes no difference. -/
structure Same (b b' : Bal) : Prop where
  refs : b'.refs = b.refs
  frefs : b'.frefs = b.frefs
  cwd : b'.cwd = b.cwd
  ofile : b'.ofile = b.ofile
  ops : b'.ops = b.ops
  pipe : b'.pipe = b.pipe
  know : (∀ g, b.know g ≠ .fresh) → ∀ g, b'.know g ≠ .fresh

theorem Same.refl (b : Bal) : Same b b := ⟨rfl, rfl, rfl, rfl, rfl, rfl, id⟩

theorem same_learn (b : Bal) (f : FRef) (x : File) : Same b (b.learn f x) := by
  unfold learn
  split
  · refine ⟨rfl, rfl, rfl, rfl, rfl, rfl, fun h g => ?_⟩
    rw [setKnow_know]
    split
    · exact Know.noConfusion
    · exact h g
  · exact .refl b

theorem Same.idle {b b' : Bal} (h : Same b b') (hi : b.Idle) : b'.Idle where
  refs ip := by rw [h.refs, h.cwd, hi.refs]
  frefs g := by rw [h.frefs, hi.frefs, opens, opens, h.ofile]
  know := h.know hi.know
  ops := by rw [h.ops, hi.ops]
  pipe := by rw [h.pipe, hi.pipe]

theorem follows_filestat {Q : Post (Option (Nat × Nat × Int × Nat))} (h : t.At b ∅)
    (hf : 1 ≤ b.frefs f) (k : ∀ r t' b', t'.At b' ∅ → Same b b' → Q r t') :
    (filestat f).Follows rules Q t := by
  refine .bind (follows_getFile h hf fun x t1 h1 _ _ => ?_)
  have hsame := same_learn b f x
  split
  next hx =>
    refine .bind (follows_ilock h1 (secures_of_know (Bal.learn_know hx) (by rwa [hsame.frefs]))
      fun t2 h2 hnew => ?_)
    have hin : x.ip ∈ insert x.ip (∅ : Set IRef) := Set.mem_insert _ _
    refine .bind (follows_stati h2 hin fun st => ?_)
    refine .bind (follows_iunlock h2 hin fun t3 h3 => ?_)
    rw [insert_diff hnew] at h3
    exact k _ t3 _ h3 hsame
  next => exact k none t1 _ h1 hsame

theorem follows_addOff {r : Nat} (k : Q () t) : (ask (.addOff f r)).Follows rules Q t := by
  refine follows_ask trivial ?_
  rintro - t' rfl
  exact k

section

variable (h : t.At b ∅) (hf : 1 ≤ b.frefs f)

include h hf

theorem follows_fileread {n : Nat} {Q : Post (Option (List UInt8))} (k : ∀ r t' b', t'.At b' ∅ → Same b b' → Q r t') :
    (fileread f n).Follows rules Q t := by
  refine .bind (follows_getFile h hf fun x t1 h1 _ _ => ?_)
  have hsame := same_learn b f x
  have hf1 : 1 ≤ (b.learn f x).frefs f := by rwa [hsame.frefs]
  split
  · exact k none t1 _ h1 hsame
  split
  · exact k none t1 _ h1 hsame
  split
  next hx =>
    have hknow := Bal.learn_know (b := b) (f := f) hx
    refine .bind (follows_ilock h1 (secures_of_know hknow hf1) fun t2 h2 hnew => ?_)
    have hin : x.ip ∈ insert x.ip (∅ : Set IRef) := Set.mem_insert _ _
    refine .bind (follows_getFile_inode h2 hf1 hknow fun y t3 h3 hy => ?_)
    rw [hy]
    refine .bind (follows_readi h3 hin (secures_of_know hknow hf1) fun r t4 h4 => ?_)
    have hend : (iunlock x.ip >>= fun _ => pure r).Follows rules Q t4 := by
      refine .bind (follows_iunlock h4 hin fun t5 h5 => ?_)
      rw [insert_diff hnew] at h5
      exact k r t5 _ h5 hsame
    cases r with
    | none => exact hend
    | some bs =>
      show Script.Follows rules (if 0 < bs.length then _ else _) Q t4
      split
      · exact .bind (follows_addOff hend)
      · exact hend
  next => exact follows_panic

/-- A file that is known to be an inode is written to. -/
theorem follows_writeChunk {src : Nat → UInt8} {n : Nat} {Q : Post (Option Nat)} (hk : b.know f = .inode ip)
    (k : ∀ r t', t'.At b ∅ → Q r t') : (writeChunk f src n).Follows rules Q t := by
  have hs : b.beginOp.Secures ip := secures_of_know hk hf
  refine .bind (.bind (follows_beginOp h fun t1 h1 => ?_))
  refine .bind (follows_getFile_inode h1 hf hk fun x t2 h2 hx => ?_)
  rw [hx]
  refine .bind (follows_ilock h2 hs fun t3 h3 hnew => ?_)
  have hin : ip ∈ insert ip (∅ : Set IRef) := Set.mem_insert _ _
  refine .bind (follows_getFile_inode h3 hf hk fun y t4 h4 hy => ?_)
  rw [hy]
  refine .bind (follows_writei h4 hin hs fun r t5 h5 => ?_)
  have hend : (iunlock ip >>= fun _ => pure r).Follows rules
      (fun r => (ask .endOp >>= fun _ => pure r).Follows rules Q) t5 := by
    refine .bind (follows_iunlock h5 hin fun t6 h6 => ?_)
    rw [insert_diff hnew] at h6
    exact .bind (follows_endOp h6 (Nat.le_add_left 1 _) fun t7 h7 => k r t7 h7)
  cases r with
  | none => exact hend
  | some m =>
    show Script.Follows rules (if 0 < m then _ else _) _ t5
    split
    · exact .bind (follows_addOff hend)
    · exact hend

theorem follows_writeChunks {fuel : Nat} {src : Nat → UInt8} {n : Nat} {Q : Post Bool} (hk : b.know f = .inode ip)
    (k : ∀ r t', t'.At b ∅ → Q r t') : (writeChunks f fuel src n).Follows rules Q t := by
  induction fuel generalizing src n t with
  | zero => exact k _ t h
  | succ fuel ih =>
    rw [writeChunks]
    split
    · exact k _ t h
    · refine .bind (follows_writeChunk h hf hk fun r t1 h1 => ?_)
      cases r with
      | none => exact k _ t1 h1
      | some r =>
        show Script.Follows rules (if r ≠ min n maxWrite then _ else _) Q t1
        split
        · exact follows_panic
        · exact ih h1

theorem follows_filewrite {src : Nat → UInt8} {n : Nat} {Q : Post (Option Nat)} (k : ∀ r t' b', t'.At b' ∅ → Same b b' → Q r t') :
    (filewrite f src n).Follows rules Q t := by
  refine .bind (follows_getFile h hf fun x t1 h1 _ _ => ?_)
  have hsame := same_learn b f x
  split
  · exact k none t1 _ h1 hsame
  split
  · exact k none t1 _ h1 hsame
  split
  next hx =>
    refine .bind (follows_writeChunks h1 (by rwa [hsame.frefs]) (Bal.learn_know hx)
      fun r t2 h2 => ?_)
    split <;> exact k _ t2 _ h2 hsame
  next => exact follows_panic

end

/-! ## Descriptors -/

/-- The process is outside the kernel. -/
def Rests (t : Hold) : Prop := ∃ b, t.At b ∅ ∧ b.Idle

theorem Same.rests {b b' : Bal} (hs : Same b b') (hi : b.Idle) {t' : Hold} (h : t'.At b' ∅) :
    t'.Rests := ⟨b', h, hs.idle hi⟩

theorem follows_getOfile {fd : Fd} {Q : Post (Option FRef)} (h : t.At b L)
    (k : Q (b.ofile fd) t) : (ask (.getOfile fd)).Follows rules Q t := by
  obtain rfl := h.bal
  refine follows_ask trivial ?_
  rintro f t' ⟨rfl, rfl⟩
  exact k

theorem follows_fdalloc {Q : Post (Option Fd)} (h : t.At b L) (knone : Q none t)
    (ksome : ∀ fd t', b.ofile fd = none → t'.At (b.setOfile fd (some f)) L → Q (some fd) t') :
    (ask (.fdalloc f)).Follows rules Q t := by
  obtain rfl := h.bal
  refine follows_ask trivial ?_
  rintro (_ | fd) t' hpost
  · obtain rfl := hpost
    exact knone
  · obtain ⟨hfd, rfl⟩ := hpost
    exact ksome fd _ hfd (h.setBal _)

theorem follows_clearOfile {fd : Fd} (h : t.At b L)
    (k : ∀ t', t'.At (b.setOfile fd none) L → Q () t') :
    (ask (.clearOfile fd)).Follows rules Q t := by
  obtain rfl := h.bal
  refine follows_ask trivial ?_
  rintro - t' rfl
  exact k _ (h.setBal _)

/-- A descriptor is either not open, or on a file to which there is a reference. -/
theorem follows_argfd {fd : Option Fd} {Q : Post (Option FRef)} (h : t.At b ∅)
    (hi : b.Idle) (knone : Q none t) (ksome : ∀ f, 1 ≤ b.frefs f → Q (some f) t) :
    (argfd fd).Follows rules Q t := by
  cases fd with
  | none => exact knone
  | some fd =>
    refine follows_getOfile h ?_
    cases hf : b.ofile fd with
    | none => exact knone
    | some f =>
      refine ksome f ?_
      rw [hi.frefs]
      exact opens_pos hf

theorem follows_sysDup {fd : Option Fd} (h : t.At b ∅) (hi : b.Idle) :
    (sysDup fd).Follows rules (fun _ t' => t'.Rests) t := by
  refine .bind (follows_argfd h hi ⟨b, h, hi⟩ fun f hf => ?_)
  refine .bind (follows_fdalloc h ⟨b, h, hi⟩ fun fd t1 hfd h1 => ?_)
  have hpre : pre (.filedup f) t1 := by
    rw [pre, h1.bal]
    exact ⟨hf, hi.know f⟩
  refine .bind (follows_ask hpre ?_)
  rintro - t2 rfl
  rw [h1.bal]
  refine ⟨_, h1.setBal _, hi.refs, fun g => ?_, hi.know, hi.ops, hi.pipe⟩
  rw [setFrefs_frefs]
  show _ = (b.setOfile fd (some f)).opens g
  rw [opens_setOfile hfd, ← hi.frefs]
  split
  next hg =>
    subst hg
    rfl
  next => rfl

theorem follows_sysClose {fd : Option Fd} (h : t.At b ∅) (hi : b.Idle) :
    (sysClose fd).Follows rules (fun _ t' => t'.Rests) t := by
  cases fd with
  | none => exact ⟨b, h, hi⟩
  | some fd =>
    refine .bind (follows_getOfile h ?_)
    cases hf : b.ofile fd with
    | none => exact ⟨b, h, hi⟩
    | some f =>
      refine .bind (follows_clearOfile h fun t1 h1 => ?_)
      have hpos : 1 ≤ b.frefs f := by
        rw [hi.frefs]
        exact opens_pos hf
      exact .bind (follows_fileclose h1 backs_empty hpos hi.pipe fun t2 h2 =>
        ⟨_, h2, hi.close hf⟩)

/-! ## Calls with a path -/

theorem Idle.cwd (hi : b.Idle) {ip : IRef} (h : b.cwd = some ip) : 1 ≤ b.refs ip := by
  rw [hi.refs, if_pos h]

theorem follows_fail (h : t.At b.beginOp ∅) (hi : b.Idle)
    (r : Option Nat) : (ask .endOp >>= fun _ => pure r).Follows rules (fun _ t' => t'.Rests) t :=
  .bind (follows_endOp h (Nat.le_add_left 1 _) fun _ h' => ⟨b, h', hi⟩)

theorem follows_putEnd (h : t.At (b.beginOp.addRef ip) (insert ip ∅)) (hi : b.Idle)
    (r : Option Nat) : (iunlockput ip >>= fun _ => ask .endOp >>= fun _ => pure r).Follows rules
      (fun _ t' => t'.Rests) t := by
  refine .bind (follows_iunlockput h (Set.mem_insert ip ∅) (refs_addRef_pos _ _) fun t1 h1 => ?_)
  rw [addRef_dropRef, insert_diff (Set.notMem_empty ip)] at h1
  exact .bind (follows_endOp h1 (Nat.le_add_left 1 _) fun _ h' => ⟨b, h', hi⟩)

theorem follows_getInum {Q : Post Nat} (k : ∀ inum, Q inum t) :
    (ask (.getInum ip)).Follows rules Q t := by
  refine follows_ask trivial ?_
  rintro inum t' rfl
  exact k inum

theorem follows_addLink (h : t.At b L) (hl : ip ∈ L)
    (k : ∀ t', t'.At b L → Q () t') : (addLink ip).Follows rules Q t := by
  obtain ⟨d, hd, ht⟩ := h.held hl
  exact .bind (follows_getInode hd (follows_assign h hd ht rfl rfl k))

theorem follows_dropLink (h : t.At b L) (hl : ip ∈ L)
    (k : ∀ t', t'.At b L → Q () t') : (dropLink ip).Follows rules Q t := by
  obtain ⟨d, hd, ht⟩ := h.held hl
  exact .bind (follows_getInode hd (follows_assign h hd ht rfl rfl k))

theorem follows_linkBad (h : t.At (b.beginOp.addRef ip) ∅) (hi : b.Idle) :
    (linkBad ip).Follows rules (fun _ t' => t'.Rests) t := by
  refine .bind (follows_ilock h (.inl (refs_addRef_pos _ _)) fun t1 h1 _ => ?_)
  exact .bind (follows_dropLink h1 (Set.mem_insert ip ∅) fun t2 h2 => follows_putEnd h2 hi none)

theorem refs_addRef_le (b : Bal) (ip e : IRef) : b.refs e ≤ (b.addRef ip).refs e := by
  rw [addRef_refs]
  split
  next h =>
    subst h
    omega
  next => exact le_rfl

theorem follows_sysLink {old new : Option Path} (h : t.At b ∅) (hi : b.Idle) :
    (sysLink old new).Follows rules (fun _ t' => t'.Rests) t := by
  cases old with
  | none => exact ⟨b, h, hi⟩
  | some old =>
  cases new with
  | none => exact ⟨b, h, hi⟩
  | some new =>
  refine .bind (follows_beginOp h fun t1 h1 => ?_)
  refine .bind (follows_namei h1 (fun _ => Idle.cwd hi) (fun t2 h2 => ?_) fun ip t2 h2 => ?_)
  · exact follows_fail h2 hi none
  have hin : ∀ e : IRef, e ∈ insert e (∅ : Set IRef) := fun e => Set.mem_insert e ∅
  refine .bind (follows_ilock h2 (.inl (refs_addRef_pos _ ip)) fun t3 h3 hnew => ?_)
  obtain ⟨d, hd, ht⟩ := h3.held (hin ip)
  refine .bind (follows_getInode hd ?_)
  split
  · exact follows_putEnd h3 hi none
  refine .bind (follows_addLink h3 (hin ip) fun t4 h4 => ?_)
  refine .bind (follows_iunlock h4 (hin ip) fun t5 h5 => ?_)
  rw [insert_diff hnew] at h5
  refine .bind (follows_namex h5 (fun e he => ?_) (fun t6 h6 => follows_linkBad h6 hi)
    fun dp name t6 h6 => ?_)
  · exact (Idle.cwd hi he).trans (refs_addRef_le b.beginOp ip e)
  have hdp := refs_addRef_pos (b.beginOp.addRef ip) dp
  refine .bind (follows_ilock h6 (.inl hdp) fun t7 h7 hnew' => ?_)
  refine .bind (follows_getInum fun inum => ?_)
  refine .bind (follows_dirlink h7 (hin dp) (backs_empty.insert hdp) fun r t8 h8 => ?_)
  -- both ways the directory is given back first
  have hput : ∀ (k : FsM (Option Nat)),
      (∀ t', t'.At (b.beginOp.addRef ip) ∅ → k.Follows rules (fun _ t' => t'.Rests) t') →
      (iunlockput dp >>= fun _ => k).Follows rules (fun _ t' => t'.Rests) t8 := by
    intro k hk
    refine .bind (follows_iunlockput h8 (hin dp) hdp fun t9 h9 => ?_)
    rw [addRef_dropRef, insert_diff hnew'] at h9
    exact hk t9 h9
  split
  · refine hput _ fun t9 h9 => ?_
    refine .bind (follows_iput h9 (refs_addRef_pos _ _) (fun hm => hm.elim) fun t10 h10 => ?_)
    rw [addRef_dropRef] at h10
    exact follows_fail h10 hi (some 0)
  · exact hput _ fun t9 h9 => follows_linkBad h9 hi

theorem follows_isdirempty {Q : Post Bool} (h : t.At b L) (hl : dp ∈ L)
    (hr : 1 ≤ b.refs dp) (k : ∀ r t', t'.At b L → Q r t') : (isdirempty dp).Follows rules Q t := by
  obtain ⟨d, hd, -⟩ := h.held hl
  refine .bind (follows_getInode hd ?_)
  generalize offsets (2 * DIRENT) d.size = offs
  clear hd
  induction offs generalizing t with
  | nil => exact k _ t h
  | cons off offs ih =>
    refine .bind (follows_readDirent h hl hr fun de t' h' => ?_)
    split
    · exact k _ t' h'
    · exact ih h'

theorem insert_insert_diff (h : ip ∉ insert dp L) (hdp : dp ∉ L) :
    insert ip (insert dp L) \ {dp} = insert ip L := by
  ext e
  by_cases he : e = dp
  · subst he
    have : e ≠ ip := fun heq => h (.inl heq.symm)
    simp [this, hdp]
  · simp [he]

theorem follows_unlinkEntry {off : Nat}
    (h : t.At ((b.beginOp.addRef dp).addRef ip) (insert ip (insert dp ∅)))
    (hne : ip ∉ insert dp (∅ : Set IRef)) (hi : b.Idle) :
    (unlinkEntry dp ip off).Follows rules (fun _ t' => t'.Rests) t := by
  have hdp := (refs_addRef_pos b.beginOp dp).trans (refs_addRef_le _ ip dp)
  have hip_in : ip ∈ insert ip (insert dp (∅ : Set IRef)) := Set.mem_insert _ _
  have hdp_in : dp ∈ insert ip (insert dp (∅ : Set IRef)) := .inr (Set.mem_insert dp ∅)
  refine .bind (follows_writei h hdp_in (.inl hdp) fun r t1 h1 => ?_)
  split
  · exact follows_panic
  obtain ⟨d, hd, -⟩ := h1.held hip_in
  refine .bind (follows_getInode hd ?_)
  have hrest : ∀ t, t.At ((b.beginOp.addRef dp).addRef ip) (insert ip (insert dp ∅)) →
      (iunlockput dp >>= fun _ => dropLink ip >>= fun _ => iunlockput ip >>= fun _ =>
        ask .endOp >>= fun _ => pure (some 0)).Follows rules (fun _ t' => t'.Rests) t := by
    intro t h
    refine .bind (follows_iunlockput h hdp_in hdp fun t2 h2 => ?_)
    rw [addRef_addRef_dropRef, insert_insert_diff hne (Set.notMem_empty dp)] at h2
    refine .bind (follows_dropLink h2 (Set.mem_insert ip ∅) fun t3 h3 => ?_)
    exact follows_putEnd h3 hi (some 0)
  split
  · exact .bind (follows_dropLink h1 hdp_in fun t2 h2 => hrest t2 h2)
  · exact hrest t1 h1

theorem follows_sysUnlink (h : t.At b ∅) (hi : b.Idle) :
    (sysUnlink path).Follows rules (fun _ t' => t'.Rests) t := by
  cases path with
  | none => exact ⟨b, h, hi⟩
  | some path =>
  refine .bind (follows_beginOp h fun t1 h1 => ?_)
  refine .bind (follows_namex h1 (fun _ => Idle.cwd hi) (fun t2 h2 => ?_) fun dp name t2 h2 => ?_)
  · exact follows_fail h2 hi none
  have hin : ∀ e : IRef, e ∈ insert e (∅ : Set IRef) := fun e => Set.mem_insert e ∅
  have hdp := refs_addRef_pos b.beginOp dp
  refine .bind (follows_ilock h2 (.inl hdp) fun t3 h3 hnew => ?_)
  split
  · exact follows_putEnd h3 hi none
  refine .bind (follows_dirlookup h3 (hin dp) hdp (fun t4 h4 => follows_putEnd h4 hi none)
    fun ip off t4 h4 => ?_)
  have hip := refs_addRef_pos (b.beginOp.addRef dp) ip
  refine .bind (follows_ilock h4 (.inl hip) fun t5 h5 hnew' => ?_)
  have hip_in : ip ∈ insert ip (insert dp (∅ : Set IRef)) := Set.mem_insert _ _
  obtain ⟨d, hd, ht⟩ := h5.held hip_in
  refine .bind (follows_getInode hd ?_)
  split
  · exact follows_panic
  split
  · refine .bind (follows_isdirempty h5 hip_in hip fun empty t6 h6 => ?_)
    cases empty with
    | false =>
      refine .bind (follows_iunlockput h6 hip_in hip fun t7 h7 => ?_)
      rw [addRef_dropRef, insert_diff hnew'] at h7
      exact follows_putEnd h7 hi none
    | true => exact follows_unlinkEntry h6 hnew' hi
  · exact follows_unlinkEntry h5 hnew' hi

theorem follows_firstLink {major minor : Nat} (h : t.At b L) (hl : ip ∈ L)
    (k : ∀ t', t'.At b L → Q () t') : (firstLink ip major minor).Follows rules Q t := by
  obtain ⟨d, hd, ht⟩ := h.held hl
  exact .bind (follows_getInode hd (follows_assign h hd ht rfl rfl k))

theorem follows_createDots (h : t.At b L) (hip : ip ∈ L) (hdp : dp ∈ L)
    (hb : Backs b L) (k : ∀ t', t'.At b L → Q () t') : (createDots dp ip).Follows rules Q t := by
  refine .bind (follows_addLink h hdp fun t1 h1 => ?_)
  refine .bind (follows_getInum fun inum => ?_)
  refine .bind (follows_dirlink h1 hip hb fun r t2 h2 => ?_)
  split
  · refine .bind (follows_getInum fun parent => ?_)
    refine .bind (follows_dirlink h2 hip hb fun r t3 h3 => ?_)
    split
    · exact k t3 h3
    · exact follows_panic
  · exact follows_panic

/-- **`create` returns an inode that is locked, with a reference to it.** -/
theorem follows_create {path : Path} {type major minor : Nat} {Q : Post (Option IRef)}
    (h : t.At b ∅) (hcwd : ∀ ip, b.cwd = some ip → 1 ≤ b.refs ip) (htype : type ≠ 0)
    (knone : ∀ t', t'.At b ∅ → Q none t')
    (ksome : ∀ ip t', t'.At (b.addRef ip) (insert ip ∅) → Q (some ip) t') :
    (create path type major minor).Follows rules Q t := by
  have hin : ∀ e : IRef, e ∈ insert e (∅ : Set IRef) := fun e => Set.mem_insert e ∅
  refine .bind (follows_namex h hcwd knone fun dp name t1 h1 => ?_)
  have hdp := refs_addRef_pos b dp
  refine .bind (follows_ilock h1 (.inl hdp) fun t2 h2 hnew => ?_)
  refine .bind (follows_dirlookup h2 (hin dp) hdp (fun t3 h3 => ?_) fun ip off t3 h3 => ?_)
  · refine .bind (follows_ialloc h3 htype fun ip t4 h4 => ?_)
    have hip := refs_addRef_pos (b.addRef dp) ip
    refine .bind (follows_ilock h4 (.inl hip) fun t5 h5 hnew' => ?_)
    have hip_in : ip ∈ insert ip (insert dp (∅ : Set IRef)) := Set.mem_insert _ _
    have hdp_in : dp ∈ insert ip (insert dp (∅ : Set IRef)) := .inr (hin dp)
    have hdp' := hdp.trans (refs_addRef_le _ ip dp)
    have hback := (backs_empty.insert hdp').insert hip
    refine .bind (follows_firstLink h5 hip_in fun t6 h6 => ?_)
    have hrest : ∀ t, t.At ((b.addRef dp).addRef ip) (insert ip (insert dp ∅)) →
        ((ask (.getInum ip) : FsM Nat) >>= fun inum => dirlink dp name inum >>= fun r =>
          if r then iunlockput dp >>= fun _ => pure (some ip)
          else panic "create: dirlink").Follows rules Q t := by
      intro t h
      refine .bind (follows_getInum fun inum => ?_)
      refine .bind (follows_dirlink h hdp_in hback fun r t7 h7 => ?_)
      split
      · refine .bind (follows_iunlockput h7 hdp_in hdp' fun t8 h8 => ?_)
        rw [addRef_addRef_dropRef, insert_insert_diff hnew' (Set.notMem_empty dp)] at h8
        exact ksome ip t8 h8
      · exact follows_panic
    split
    · exact .bind (follows_createDots h6 hip_in hdp_in hback fun t7 h7 => hrest t7 h7)
    · exact hrest t6 h6
  · have hip := refs_addRef_pos b ip
    refine .bind (follows_iunlockput h3 (hin dp) (hdp.trans (refs_addRef_le _ ip dp))
      fun t4 h4 => ?_)
    rw [addRef_addRef_dropRef, insert_diff hnew] at h4
    refine .bind (follows_ilock h4 (.inl hip) fun t5 h5 hnew' => ?_)
    obtain ⟨d, hd, -⟩ := h5.held (hin ip)
    refine .bind (follows_getInode hd ?_)
    split
    · exact ksome ip t5 h5
    · refine .bind (follows_iunlockput h5 (hin ip) hip fun t6 h6 => ?_)
      rw [addRef_dropRef, insert_diff hnew'] at h6
      exact knone t6 h6

theorem follows_openInode {path : Path} {omode : OMode} {Q : Post (Option IRef)} (h : t.At b ∅)
    (hcwd : ∀ ip, b.cwd = some ip → 1 ≤ b.refs ip) (knone : ∀ t', t'.At b ∅ → Q none t')
    (ksome : ∀ ip t', t'.At (b.addRef ip) (insert ip ∅) → Q (some ip) t') :
    (openInode path omode).Follows rules Q t := by
  rw [openInode]
  split
  · exact follows_create h hcwd (by decide) knone ksome
  · refine .bind (follows_namei h hcwd knone fun ip t1 h1 => ?_)
    have hin : ip ∈ insert ip (∅ : Set IRef) := Set.mem_insert ip ∅
    refine .bind (follows_ilock h1 (.inl (refs_addRef_pos b ip)) fun t2 h2 hnew => ?_)
    obtain ⟨d, hd, -⟩ := h2.held hin
    refine .bind (follows_getInode hd ?_)
    split
    · refine .bind (follows_iunlockput h2 hin (refs_addRef_pos b ip) fun t3 h3 => ?_)
      rw [addRef_dropRef, insert_diff hnew] at h3
      exact knone t3 h3
    · exact ksome ip t2 h2

theorem follows_filealloc {Q : Post (Option FRef)} (h : t.At b L) (knone : Q none t)
    (ksome : ∀ f t', b.frefs f = 0 → t'.At ((b.setFrefs f 1).setKnow f .fresh) L → Q (some f) t') :
    (ask .filealloc).Follows rules Q t := by
  obtain rfl := h.bal
  refine follows_ask trivial ?_
  rintro (_ | f) t' hpost
  · obtain rfl := hpost
    exact knone
  · obtain ⟨hf, rfl⟩ := hpost
    exact ksome f _ hf (h.setBal _)

theorem follows_setFile {x : File} (h : t.At b L) (hk : b.know f = .fresh)
    (hf : 1 ≤ b.frefs f) (hx : x.type = .inode → 1 ≤ b.refs x.ip ∧ x.ip ∉ L)
    (k : ∀ t', t'.At (b.give f x) L → Q () t') : (ask (.setFile f x)).Follows rules Q t := by
  obtain ⟨hc, rfl, rfl⟩ := id h
  refine follows_ask ⟨hk, hf, fun hi => ⟨(hx hi).1, not_not.1 (hx hi).2⟩⟩ ?_
  rintro - t' rfl
  exact k _ (h.setBal _)

theorem follows_getFresh {Q : Post File} (h : t.At b L) (hk : b.know f = .fresh)
    (hf : 1 ≤ b.frefs f) (k : ∀ x t', t'.At b L → Q x t') :
    (ask (.getFile f)).Follows rules Q t := by
  refine follows_getFile h hf fun x t' h' hfresh _ => ?_
  have hlearn : b.learn f x = b := by simp [learn, hfresh hk]
  rw [hlearn] at h'
  exact k x t' h'

theorem Idle.unalloc (hi : b.Idle) (hf : b.frefs f = 0) :
    (((b.setFrefs f 1).setKnow f .fresh).dropFile f none).Idle := by
  have hfrefs : ∀ g, (((b.setFrefs f 1).setKnow f .fresh).dropFile f none).frefs g = b.frefs g := by
    intro g
    by_cases hg : g = f
    · subst hg
      simp [dropFile, setFrefs, setKnow, hf]
    · simp [dropFile, setFrefs, setKnow, hg]
  refine ⟨hi.refs, fun g => (hfrefs g).trans (hi.frefs g), fun g => ?_, hi.ops, hi.pipe⟩
  by_cases hg : g = f
  · subst hg
    simp [dropFile]
  · simpa [dropFile, setFrefs, setKnow, hg] using hi.know g

theorem Idle.opened {fd : Fd} (hi : b.Idle) (hf : b.frefs f = 0) (hfd : b.ofile fd = none)
    {b' : Bal} (hrefs : b'.refs = b.refs) (hcwd : b'.cwd = b.cwd) (hops : b'.ops = b.ops)
    (hpipe : b'.pipe = b.pipe)
    (hofile : b'.ofile = (b.setOfile fd (some f)).ofile)
    (hfrefs : b'.frefs = (b.setFrefs f 1).frefs)
    (hknow : ∀ g, b'.know g ≠ .fresh) : b'.Idle := by
  refine ⟨fun ip => by rw [hrefs, hcwd, hi.refs], fun g => ?_, hknow, by rw [hops, hi.ops],
    by rw [hpipe, hi.pipe]⟩
  have hopens : b'.opens g = (b.setOfile fd (some f)).opens g := by
    rw [opens, opens, hofile]
  rw [hopens, opens_setOfile hfd, hfrefs, setFrefs_frefs, ← hi.frefs]
  split
  next hg => rw [hg, hf]
  next => rfl

theorem follows_sysOpen {omode : OMode} (h : t.At b ∅) (hi : b.Idle) :
    (sysOpen path omode).Follows rules (fun _ t' => t'.Rests) t := by
  cases path with
  | none => exact ⟨b, h, hi⟩
  | some path =>
  refine .bind (follows_beginOp h fun t1 h1 => ?_)
  refine .bind (follows_openInode h1 (fun _ => Idle.cwd hi) (fun t2 h2 => ?_) fun ip t2 h2 => ?_)
  · exact follows_fail h2 hi none
  have hin : ip ∈ insert ip (∅ : Set IRef) := Set.mem_insert ip ∅
  have hr := refs_addRef_pos b.beginOp ip
  refine .bind (follows_filealloc h2 (follows_putEnd h2 hi none) fun f t3 hf h3 => ?_)
  refine .bind (follows_fdalloc h3 ?_ fun fd t4 hfd h4 => ?_)
  · have hone : 1 ≤ (((b.beginOp.addRef ip).setFrefs f 1).setKnow f .fresh).frefs f := by
      simp [setKnow]
    refine .bind (follows_fileclose h3 (backs_empty.insert hr) hone hi.pipe fun t4 h4 => ?_)
    exact follows_putEnd (b := ((b.setFrefs f 1).setKnow f .fresh).dropFile f none) h4
      (Idle.unalloc hi hf) none
  · refine .bind (follows_iunlock h4 hin fun t5 h5 => ?_)
    rw [insert_diff (Set.notMem_empty ip)] at h5
    refine .bind (follows_endOp h5 (Nat.le_add_left 1 _) fun t6 h6 => ?_)
    have hk : (((b.beginOp.addRef ip).setFrefs f 1).setKnow f .fresh).know f = .fresh := by simp
    have hone : 1 ≤ ((b.beginOp.addRef ip).setFrefs f 1).frefs f := by simp
    refine .bind (follows_getFresh h6 hk hone fun x t7 h7 => ?_)
    refine .bind (follows_setFile h7 hk hone (fun _ => ⟨hr, Set.notMem_empty _⟩) fun t8 h8 => ?_)
    · refine ⟨_, h8, Idle.opened hi hf hfd ?_ rfl rfl rfl rfl rfl fun g => ?_⟩
      · show ((b.addRef ip).dropRef ip).refs = b.refs
        rw [addRef_dropRef]
      · show ((((b.setFrefs f 1).setKnow f .fresh).setKnow f (.inode ip)).know g) ≠ .fresh
        by_cases hg : g = f
        · subst hg
          simp
        · simpa [hg, setFrefs] using hi.know g

theorem follows_sysMkdir (h : t.At b ∅) (hi : b.Idle) :
    (sysMkdir path).Follows rules (fun _ t' => t'.Rests) t := by
  refine .bind (follows_beginOp h fun t1 h1 => ?_)
  cases path with
  | none => exact .bind (follows_fail h1 hi none)
  | some path =>
    refine .bind (follows_create h1 (fun _ => Idle.cwd hi) (by decide) (fun t2 h2 => ?_)
      fun ip t2 h2 => ?_)
    · exact follows_fail h2 hi none
    · exact follows_putEnd h2 hi (some 0)

theorem follows_sysMknod {major minor : Option Nat} (h : t.At b ∅)
    (hi : b.Idle) : (sysMknod path major minor).Follows rules (fun _ t' => t'.Rests) t := by
  refine .bind (follows_beginOp h fun t1 h1 => ?_)
  split
  · refine .bind (follows_create h1 (fun _ => Idle.cwd hi) (by decide) (fun t2 h2 => ?_)
      fun ip t2 h2 => ?_)
    · exact follows_fail h2 hi none
    · exact follows_putEnd h2 hi (some 0)
  · exact .bind (follows_fail h1 hi none)

theorem follows_getCwd {Q : Post (Option IRef)} (h : t.At b L) (k : Q b.cwd t) :
    (ask .getCwd).Follows rules Q t := by
  obtain rfl := h.bal
  refine follows_ask trivial ?_
  rintro ip t' ⟨rfl, rfl⟩
  exact k

theorem follows_iputCwd (h : t.At b ∅) (hcwd : ∀ ip, b.cwd = some ip → 1 ≤ b.refs ip)
    (k : ∀ ip t', b.cwd = some ip → t'.At (b.dropRef ip) ∅ → Q () t') :
    iputCwd.Follows rules Q t := by
  refine .bind (follows_getCwd h ?_)
  cases hc : b.cwd with
  | none => exact follows_panic
  | some ip => exact follows_iput h (hcwd ip hc) (fun hm => hm.elim) fun t' h' => k ip t' hc h'

theorem follows_setCwd {c : Option IRef} (h : t.At b L)
    (k : ∀ t', t'.At { b with cwd := c } L → Q () t') : (ask (.setCwd c)).Follows rules Q t := by
  obtain rfl := h.bal
  refine follows_ask trivial ?_
  rintro - t' rfl
  exact k _ (h.setBal _)

theorem follows_sysChdir (h : t.At b ∅) (hi : b.Idle) :
    (sysChdir path).Follows rules (fun _ t' => t'.Rests) t := by
  refine .bind (follows_beginOp h fun t1 h1 => ?_)
  cases path with
  | none => exact .bind (follows_fail h1 hi none)
  | some path =>
    refine .bind (follows_namei h1 (fun _ => Idle.cwd hi) (fun t2 h2 => ?_) fun ip t2 h2 => ?_)
    · exact follows_fail h2 hi none
    have hin : ip ∈ insert ip (∅ : Set IRef) := Set.mem_insert ip ∅
    have hr := refs_addRef_pos b.beginOp ip
    refine .bind (follows_ilock h2 (.inl hr) fun t3 h3 hnew => ?_)
    obtain ⟨d, hd, -⟩ := h3.held hin
    refine .bind (follows_getInode hd ?_)
    split
    · exact follows_putEnd h3 hi none
    · refine .bind (follows_iunlock h3 hin fun t4 h4 => ?_)
      rw [insert_diff hnew] at h4
      refine .bind (follows_iputCwd h4 (fun e he => ?_) fun cwd t5 hc h5 => ?_)
      · exact (Idle.cwd hi he).trans (refs_addRef_le b.beginOp ip e)
      refine .bind (follows_endOp h5 (Nat.le_add_left 1 _) fun t6 h6 => ?_)
      refine .bind (follows_setCwd h6 fun t7 h7 => ⟨_, h7, ?_, hi.frefs, hi.know, hi.ops, hi.pipe⟩)
      intro e
      show ((b.addRef ip).dropRef cwd).refs e = if some ip = some e then 1 else 0
      have hcwd : b.cwd = some cwd := hc
      have he := hi.refs e
      have hc' := hi.refs cwd
      have hip := hi.refs ip
      simp only [dropRef_refs, addRef_refs, Option.some.injEq] at he hc' hip ⊢
      grind

/-! ## Pipes, programs and exit -/

/-- An idle process has got these two files, and nothing else. -/
structure Two (b b' : Bal) (f0 f1 : FRef) : Prop where
  idle : b.Idle
  ne : f0 ≠ f1
  none0 : b.frefs f0 = 0
  none1 : b.frefs f1 = 0
  refs : b'.refs = b.refs
  cwd : b'.cwd = b.cwd
  ops : b'.ops = b.ops
  pipe : b'.pipe = b.pipe
  ofile : b'.ofile = b.ofile
  frefs : ∀ g, b'.frefs g = if g = f0 ∨ g = f1 then 1 else b.frefs g
  know : ∀ g, g ≠ f0 → g ≠ f1 → b'.know g ≠ .fresh

/-- It closes both. -/
theorem Two.follows_close {b' : Bal} {f0 f1 : FRef} {k : FsM α} {Q : Post α}
    (hw : Two b b' f0 f1) (h : t.At b' ∅) (hQ : ∀ t', t'.Rests → k.Follows rules Q t') :
    (fileclose f0 >>= fun _ => fileclose f1 >>= fun _ => k).Follows rules Q t := by
  have hne := hw.ne
  have hnone : b'.pipe = none := by rw [hw.pipe, hw.idle.pipe]
  refine .bind (follows_fileclose h backs_empty (by simp [hw.frefs]) hnone fun t1 h1 => ?_)
  have hf1 : (b'.dropFile f0 none).frefs f1 = 1 := by
    simp [dropFile, setKnow, hne.symm, hw.frefs]
  refine .bind (follows_fileclose h1 backs_empty hf1.ge hnone fun t2 h2 =>
    hQ t2 ⟨_, h2, ?_, ?_, ?_, ?_, hnone⟩)
  · intro ip
    have := hw.idle.refs ip
    rw [← hw.refs, ← hw.cwd] at this
    exact this
  · intro g
    have hopens : ((b'.dropFile f0 none).dropFile f1 none).opens g = b.opens g := by
      show (Finset.univ.filter fun fd => b'.ofile fd = some g).card = _
      rw [hw.ofile, opens]
    rw [hopens, ← hw.idle.frefs]
    have hn0 := hw.none0
    have hn1 := hw.none1
    simp only [dropFile, setKnow, setFrefs_frefs, hw.frefs]
    grind
  · intro g
    simp only [dropFile, setKnow_know, setFrefs]
    have := hw.know g
    grind
  · show b'.ops = 0
    rw [hw.ops, hw.idle.ops]

theorem follows_setPipe {readable writable : Bool} {pipe : Nat} {k : FsM α} {Q : Post α}
    (h : t.At b L) (hk : b.know f = .fresh) (hf : 1 ≤ b.frefs f)
    (hQ : ∀ t', t'.At (b.setKnow f .nothing) L → k.Follows rules Q t') :
    ((ask (.getFile f) : FsM File) >>= fun x =>
      ask (.setFile f { x with type := .pipe, readable, writable, pipe }) >>= fun _ => k).Follows
      rules Q t := by
  refine .bind (follows_getFresh h hk hf fun x t1 h1 => ?_)
  refine .bind (follows_setFile h1 hk hf (fun hi => FdType.noConfusion hi) fun t2 h2 => ?_)
  exact hQ t2 h2

theorem follows_pipealloc {page : Option Nat} {Q : Post (Option (FRef × FRef))} (h : t.At b ∅)
    (hi : b.Idle) (knone : ∀ t', t'.Rests → Q none t')
    (ksome : ∀ f0 f1 b' t', t'.At b' ∅ → Two b b' f0 f1 → (∀ g, b'.know g ≠ .fresh) →
      Q (some (f0, f1)) t') : (pipealloc page).Follows rules Q t := by
  refine .bind (follows_filealloc h (knone t ⟨b, h, hi⟩) fun f0 t1 hf0 h1 => ?_)
  have hone : 1 ≤ ((b.setFrefs f0 1).setKnow f0 .fresh).frefs f0 := by simp [setKnow]
  refine .bind (follows_filealloc h1 ?_ fun f1 t2 hf1 h2 => ?_)
  · exact .bind (follows_fileclose h1 backs_empty hone hi.pipe fun t2 h2 =>
      knone t2 ⟨_, h2, Idle.unalloc hi hf0⟩)
  have hne : f0 ≠ f1 := by
    rintro rfl
    simp [setKnow] at hf1
  have hn1 : b.frefs f1 = 0 := by simpa [setKnow, hne.symm] using hf1
  generalize hb2 : (((b.setFrefs f0 1).setKnow f0 .fresh).setFrefs f1 1).setKnow f1 .fresh = b2 at h2
  have hfrefs : ∀ g, b2.frefs g = if g = f0 ∨ g = f1 then 1 else b.frefs g := by
    intro g
    rw [← hb2]
    simp only [setKnow, setFrefs_frefs]
    grind
  have hknow : ∀ g, b2.know g = if g = f0 ∨ g = f1 then .fresh else b.know g := by
    intro g
    rw [← hb2]
    simp only [setFrefs, setKnow_know]
    grind
  have htwo : Two b b2 f0 f1 := by
    refine ⟨hi, hne, hf0, hn1, ?_, ?_, ?_, ?_, ?_, hfrefs, fun g h0 h1 => ?_⟩
    · rw [← hb2]
      rfl
    · rw [← hb2]
      rfl
    · rw [← hb2]
      rfl
    · rw [← hb2]
      rfl
    · rw [← hb2]
      rfl
    · rw [hknow, if_neg (not_or.2 ⟨h0, h1⟩)]
      exact hi.know g
  cases page with
  | some pipe =>
    refine follows_setPipe h2 (by simp [hknow]) (by simp [hfrefs]) fun t3 h3 => ?_
    refine follows_setPipe h3 (by simp [hknow, hne.symm]) (by simp [setKnow, hfrefs])
      fun t4 h4 => ?_
    refine ksome f0 f1 _ t4 h4 ⟨hi, hne, hf0, hn1, htwo.refs, htwo.cwd, htwo.ops, htwo.pipe,
      htwo.ofile, hfrefs, fun g h0 h1 => ?_⟩ fun g => ?_
    · simpa [h0, h1] using htwo.know g h0 h1
    · by_cases h1 : g = f1
      · simp [h1]
      · by_cases h0 : g = f0
        · simp [h0]
        · simpa [h0, h1] using htwo.know g h0 h1
  | none => exact htwo.follows_close h2 fun t' ht' => knone t' ht'

theorem follows_sysPipe {page : Option Nat} (h : t.At b ∅) (hi : b.Idle) :
    (sysPipe page).Follows rules (fun _ t' => t'.Rests) t := by
  refine .bind (follows_pipealloc h hi (fun _ => id) fun rf wf b' t1 h1 htwo hknow => ?_)
  refine .bind (follows_fdalloc h1 ?_ fun fd0 t2 hfd0 h2 => ?_)
  · exact htwo.follows_close h1 fun t' ht' => ht'
  refine .bind (follows_fdalloc h2 ?_ fun fd1 t3 hfd1 h3 => ?_)
  · refine .bind (follows_clearOfile h2 fun t3 h3 => ?_)
    have hback : (b'.setOfile fd0 (some rf)).setOfile fd0 none = b' := by
      simp only [setOfile, update_idem, ← hfd0, update_eq_self]
    rw [hback] at h3
    exact htwo.follows_close h3 fun t' ht' => ht'
  · refine ⟨_, h3, ?_, fun g => ?_, hknow, ?_, htwo.pipe.trans hi.pipe⟩
    · intro ip
      have := hi.refs ip
      rw [← htwo.refs, ← htwo.cwd] at this
      exact this
    · rw [opens_setOfile hfd1, opens_setOfile hfd0]
      have hopens : b'.opens g = b.opens g := by
        rw [opens, opens, htwo.ofile]
      have hfrefs := htwo.frefs g
      have hn0 := htwo.none0
      have hn1 := htwo.none1
      have hne := htwo.ne
      show b'.frefs g = _
      rw [hopens, hfrefs, ← hi.frefs]
      grind
    · show b'.ops = 0
      rw [htwo.ops, hi.ops]

theorem follows_loadPages {fuel off n : Nat} {Q : Post Bool} (h : t.At b L)
    (hl : ip ∈ L) (hr : 1 ≤ b.refs ip) (k : ∀ r t', t'.At b L → Q r t') :
    (loadPages ip fuel off n).Follows rules Q t := by
  induction fuel generalizing off n t with
  | zero => exact k _ t h
  | succ fuel ih =>
    rw [loadPages]
    split
    · exact k _ t h
    · refine .bind (follows_readi h hl (.inl hr) fun r t1 h1 => ?_)
      cases r with
      | none => exact k _ t1 h1
      | some bs =>
        show Script.Follows rules (if bs.length = min n 4096 then _ else _) Q t1
        split
        · exact ih h1
        · exact k _ t1 h1

theorem follows_loadSegments {vm : Nat → Bool} {phnum i off : Nat} {Q : Post Bool}
    (h : t.At b L) (hl : ip ∈ L) (hr : 1 ≤ b.refs ip) (k : ∀ r t', t'.At b L → Q r t') :
    (loadSegments ip vm phnum i off).Follows rules Q t := by
  induction phnum generalizing i off t with
  | zero => exact k _ t h
  | succ phnum ih =>
    refine .bind (follows_readi h hl (.inl hr) fun r t1 h1 => ?_)
    cases r with
    | none => exact k _ t1 h1
    | some ph =>
      show Script.Follows rules (if ph.length ≠ 32 then _ else _) Q t1
      split
      · exact k _ t1 h1
      split
      · exact ih h1
      split
      · exact k _ t1 h1
      split
      · exact k _ t1 h1
      refine .bind (follows_loadPages h1 hl hr fun r t2 h2 => ?_)
      split
      · exact ih h2
      · exact k _ t2 h2

theorem follows_execProgram {path : Path} {vm : Nat → Bool} {stack : List UInt8} {rest : Bool}
    (h : t.At b ∅) (hi : b.Idle) :
    (execProgram path vm stack rest).Follows rules (fun _ t' => t'.Rests) t := by
  refine .bind (follows_beginOp h fun t1 h1 => ?_)
  refine .bind (follows_namei h1 (fun _ => Idle.cwd hi) (fun t2 h2 => ?_) fun ip t2 h2 => ?_)
  · exact follows_fail h2 hi none
  have hin : ip ∈ insert ip (∅ : Set IRef) := Set.mem_insert ip ∅
  have hr := refs_addRef_pos b.beginOp ip
  refine .bind (follows_ilock h2 (.inl hr) fun t3 h3 hnew => ?_)
  have hend : ∀ loaded t, t.At (b.beginOp.addRef ip) (insert ip ∅) →
      (iunlockput ip >>= fun _ => ask .endOp >>= fun _ =>
        if loaded = true ∧ rest = true then pure (some 0) else pure none).Follows rules
        (fun _ t' => t'.Rests) t := by
    intro loaded t h
    split
    · exact follows_putEnd h hi (some 0)
    · exact follows_putEnd h hi none
  refine .bind (.bind (follows_readi h3 hin (.inl hr) fun r t4 h4 => ?_))
  show Script.Follows rules (if r.isSome = true ∧ (r.getD stack).length < 52 then _ else _) _ t4
  split
  · exact hend false t4 h4
  split
  · exact hend false t4 h4
  split
  · exact hend false t4 h4
  · exact follows_loadSegments h4 hin hr fun loaded t5 h5 => hend loaded t5 h5

theorem follows_closeFd {fd : Fd} (h : t.Rests) :
    (closeFd fd).Follows rules (fun _ t' => t'.Rests) t := by
  obtain ⟨b, h, hi⟩ := h
  refine .bind (follows_getOfile h ?_)
  cases hf : b.ofile fd with
  | none => exact ⟨b, h, hi⟩
  | some f =>
    have hpos : 1 ≤ b.frefs f := by
      rw [hi.frefs]
      exact opens_pos hf
    refine .bind (follows_fileclose h backs_empty hpos hi.pipe fun t1 h1 => ?_)
    exact follows_clearOfile h1 fun t2 h2 => ⟨_, h2, hi.close hf⟩

theorem follows_exitFiles (h : t.Rests) : exitFiles.Follows rules (fun _ t' => t'.Rests) t := by
  refine .bind ((Script.follows_forM (fun fd t => follows_closeFd) h).mono ?_)
  rintro - t1 ⟨b, h1, hi⟩
  refine .bind (follows_beginOp h1 fun t2 h2 => ?_)
  refine .bind (follows_iputCwd h2 (fun _ => Idle.cwd hi) fun cwd t3 hc h3 => ?_)
  refine .bind (follows_endOp h3 (Nat.le_add_left 1 _) fun t4 h4 => ?_)
  refine .bind (follows_setCwd h4 fun t5 h5 => ⟨_, h5, ?_, hi.frefs, hi.know, hi.ops, hi.pipe⟩)
  intro e
  show (b.dropRef cwd).refs e = if none = some e then 1 else 0
  have hcwd : b.cwd = some cwd := hc
  have he := hi.refs e
  have hc' := hi.refs cwd
  rw [hcwd] at he hc'
  simp only [dropRef_refs, Option.some.injEq] at he hc' ⊢
  grind

/-- **Every system call brings an idle process back to where it is idle.** -/
theorem Call.follows_body (c : Call) (h : t.Rests) :
    c.body.Follows rules (fun _ t' => t'.Rests) t := by
  obtain ⟨b, hat, hi⟩ := id h
  cases c with
  | dup fd => exact follows_sysDup hat hi
  | read fd n =>
    refine .bind (follows_argfd hat hi h fun f hf => ?_)
    exact .bind (follows_fileread hat hf fun r t' b' h' hs => hs.rests hi h')
  | write fd src n =>
    refine .bind (follows_argfd hat hi h fun f hf => ?_)
    exact follows_filewrite hat hf fun r t' b' h' hs => hs.rests hi h'
  | close fd => exact follows_sysClose hat hi
  | fstat fd =>
    refine .bind (follows_argfd hat hi h fun f hf => ?_)
    exact .bind (follows_filestat hat hf fun r t' b' h' hs => hs.rests hi h')
  | link old new => exact follows_sysLink hat hi
  | unlink path => exact follows_sysUnlink hat hi
  | «open» path omode => exact follows_sysOpen hat hi
  | mkdir path => exact follows_sysMkdir hat hi
  | mknod path major minor => exact follows_sysMknod hat hi
  | chdir path => exact follows_sysChdir hat hi
  | pipe page => exact follows_sysPipe hat hi
  | exec path vm stack rest => exact follows_execProgram hat hi
  | exit => exact follows_exitFiles h

end Hold

end Xv6.Fs
