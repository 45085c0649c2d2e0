import Mathlib.Algebra.BigOperators.Group.Finset.Piecewise
import Mathlib.Algebra.Order.BigOperators.Group.Finset
import OperatingSystems.Fs.Balance

/-!
# The rules are sound

What the processes hold together fits the state (`Inv`): references are counted, a locked
inode is held by one process, a copy that no one has locked agrees with the disk, and a
block is owned by one inode or one process, or is free.  Every operation of a process that
keeps to the rules leaves it so.

* `Refs`, `Locks`, `Owned`: the three parts of the invariant.
* `Inv.step`: an operation of a process.
* `Inv.fork`: a new process.
-/

namespace Xv6.Fs

open Finset Function

/-! ## References -/

/-- The file is the inode. -/
def File.Is (x : File) (ip : IRef) : Prop := x.type = .inode ∧ x.ip = ip

instance (x : File) (ip : IRef) : Decidable (x.Is ip) := inferInstanceAs (Decidable (_ ∧ _))

/-- The files that are the inode. -/
def State.files (s : State) (ip : IRef) : Nat := (univ.filter fun f => (s.file f).Is ip).card

/-- References are counted. -/
structure Refs (s : State) (T : Slot → Hold) : Prop where
  refs : ∀ ip, (s.inode ip).ref = ((∑ p, (T p).bal.refs ip + s.files ip : Nat) : Int)
  frefs : ∀ f, (s.file f).ref = ((∑ p, (T p).bal.frefs f : Nat) : Int)
  notype : ∀ f, (s.file f).ref = 0 → (s.file f).type = .none
  fresh : ∀ p f, (T p).bal.know f = .fresh →
    (T p).bal.frefs f = 1 ∧ (s.file f).ref = 1 ∧ (s.file f).type = .none
  known : ∀ p f ip, (T p).bal.know f = .inode ip → 1 ≤ (T p).bal.frefs f → (s.file f).Is ip
  ops : s.outstanding = ∑ p, (T p).bal.ops
  cwd : ∀ p, s.cwd p = (T p).bal.cwd
  ofile : ∀ p, s.ofile p = (T p).bal.ofile

section Counting

variable {T : Slot → Hold} {p q : Slot} {t : Hold} {s : State}

theorem update_congr {α : Type} (g : Hold → α) (h : g t = g (T p)) (q : Slot) :
    g (update T p t q) = g (T q) := (rfl : _ = update T p t).update_congr g h q

theorem Refs.cwd_self (h : Refs s T) (p : Slot) :
    s.cwd = Function.update s.cwd p (T p).bal.cwd := by
  rw [← h.cwd, Function.update_eq_self]

theorem Refs.ofile_self (h : Refs s T) (p : Slot) :
    s.ofile = Function.update s.ofile p (T p).bal.ofile := by
  rw [← h.ofile, Function.update_eq_self]

theorem sum_set (g : Hold → Nat) (T : Slot → Hold) (p : Slot) (t : Hold) :
    ∑ q, g (update T p t q) + g (T p) = ∑ q, g (T q) + g t := by
  rw [← add_sum_erase univ (fun q => g (update T p t q)) (mem_univ p),
    ← add_sum_erase univ (fun q => g (T q)) (mem_univ p)]
  have : ∀ q ∈ univ.erase p, g (update T p t q) = g (T q) := by
    intro q hq
    rw [update_of_ne (ne_of_mem_erase hq)]
  rw [sum_congr rfl this, update_self]
  omega

theorem le_sum (g : Hold → Nat) (T : Slot → Hold) (p : Slot) : g (T p) ≤ ∑ q, g (T q) :=
  single_le_sum (f := fun q => g (T q)) (fun _ _ => Nat.zero_le _) (mem_univ p)

theorem add_le_sum (g : Hold → Nat) (T : Slot → Hold) (h : p ≠ q) :
    g (T p) + g (T q) ≤ ∑ r, g (T r) := by
  rw [← add_sum_erase univ (fun r => g (T r)) (mem_univ p)]
  have : q ∈ univ.erase p := mem_erase.2 ⟨h.symm, mem_univ q⟩
  have := single_le_sum (f := fun r => g (T r)) (fun _ _ => Nat.zero_le _) this
  omega

/-- How many there are, when one has changed. -/
theorem card_update {ι α : Type} [Fintype ι] [DecidableEq ι] (P : α → Prop) [DecidablePred P]
    (g : ι → α) (i : ι) (y : α) :
    (univ.filter fun j => P (update g i y j)).card + (if P (g i) then 1 else 0) =
      (univ.filter fun j => P (g j)).card + if P y then 1 else 0 := by
  rw [card_filter, card_filter, ← add_sum_erase univ _ (mem_univ i),
    ← add_sum_erase univ (fun j => if P (g j) then 1 else 0) (mem_univ i)]
  have : ∀ j ∈ univ.erase i, (if P (update g i y j) then 1 else 0) = if P (g j) then 1 else 0 := by
    intro j hj
    rw [update_of_ne (ne_of_mem_erase hj)]
  rw [sum_congr rfl this, update_self]
  omega

theorem files_setFile (s : State) (f : FRef) (x : File) (ip : IRef) :
    (s.setFile f x).files ip + (if (s.file f).Is ip then 1 else 0) =
      s.files ip + if x.Is ip then 1 else 0 :=
  card_update (fun x : File => x.Is ip) s.file f x

theorem files_pos {f : FRef} {ip : IRef} (h : (s.file f).Is ip) : 1 ≤ s.files ip :=
  card_pos.2 ⟨f, by simp [h]⟩

theorem Refs.pos (h : Refs s T) {ip : IRef} (hs : (T p).bal.Secures ip) : 1 ≤ (s.inode ip).ref := by
  rw [h.refs]
  obtain hr | ⟨f, hk, hf⟩ := hs
  · have := le_sum (fun t => t.bal.refs ip) T p
    omega
  · have := files_pos (h.known p f ip hk hf)
    omega

end Counting

section RefsStep

variable {T : Slot → Hold} {p : Slot} {t : Hold} {s s' : State}

theorem Refs.update (h : Refs s T)
    (hrefs : ∀ ip, (s'.inode ip).ref + (T p).bal.refs ip + s.files ip =
      (s.inode ip).ref + t.bal.refs ip + s'.files ip)
    (hfrefs : ∀ f, (s'.file f).ref + (T p).bal.frefs f = (s.file f).ref + t.bal.frefs f)
    (hnotype : ∀ f, (s'.file f).ref = 0 → (s'.file f).type = .none)
    (hfresh : ∀ q f, (Function.update T p t q).bal.know f = .fresh →
      (Function.update T p t q).bal.frefs f = 1 ∧ (s'.file f).ref = 1 ∧ (s'.file f).type = .none)
    (hknown : ∀ q f ip, (Function.update T p t q).bal.know f = .inode ip →
      1 ≤ (Function.update T p t q).bal.frefs f → (s'.file f).Is ip)
    (hops : s'.outstanding + (T p).bal.ops = s.outstanding + t.bal.ops)
    (hcwd : s'.cwd = Function.update s.cwd p t.bal.cwd)
    (hofile : s'.ofile = Function.update s.ofile p t.bal.ofile) :
    Refs s' (Function.update T p t) where
  refs ip := by
    have := sum_set (fun t => t.bal.refs ip) T p t
    have := hrefs ip
    have := h.refs ip
    omega
  frefs f := by
    have := sum_set (fun t => t.bal.frefs f) T p t
    have := hfrefs f
    have := h.frefs f
    omega
  notype := hnotype
  fresh := hfresh
  known := hknown
  ops := by
    have := sum_set (fun t => t.bal.ops) T p t
    have := h.ops
    omega
  cwd q := by
    rw [hcwd]
    by_cases hq : q = p
    · subst hq
      simp
    · simp [hq, h.cwd]
  ofile q := by
    rw [hofile]
    by_cases hq : q = p
    · subst hq
      simp
    · simp [hq, h.ofile]

theorem Refs.update_refs (h : Refs s T)
    (hrefs : ∀ ip, (s'.inode ip).ref + (T p).bal.refs ip = (s.inode ip).ref + t.bal.refs ip)
    (hfile : s'.file = s.file) (hfrefs : t.bal.frefs = (T p).bal.frefs)
    (hknow : t.bal.know = (T p).bal.know)
    (hops : s'.outstanding + (T p).bal.ops = s.outstanding + t.bal.ops)
    (hcwd : s'.cwd = Function.update s.cwd p t.bal.cwd)
    (hofile : s'.ofile = Function.update s.ofile p t.bal.ofile) :
    Refs s' (Function.update T p t) := by
  have hk := update_congr (·.bal.know) hknow
  have hf := update_congr (T := T) (·.bal.frefs) hfrefs
  refine h.update (fun ip => ?_) (fun f => ?_) ?_ ?_ ?_ hops hcwd hofile
  · have := hrefs ip
    rw [show s'.files ip = s.files ip by rw [State.files, State.files, hfile]]
    omega
  · rw [hfile, hfrefs]
  · rw [hfile]
    exact h.notype
  · simp only [hk, hf, hfile]
    exact h.fresh
  · simp only [hk, hf, hfile]
    exact h.known

theorem Refs.same (h : Refs s T) (href : ∀ ip, (s'.inode ip).ref = (s.inode ip).ref)
    (hfile : s'.file = s.file) (hbal : t.bal = (T p).bal) (hops : s'.outstanding = s.outstanding)
    (hcwd : s'.cwd = s.cwd) (hofile : s'.ofile = s.ofile) : Refs s' (Function.update T p t) := by
  refine h.update_refs (fun ip => ?_) hfile (by rw [hbal]) (by rw [hbal]) ?_ ?_ ?_
  · rw [href, hbal]
  · rw [hops, hbal]
  · rw [hcwd, hbal]
    exact h.cwd_self p
  · rw [hofile, hbal]
    exact h.ofile_self p

end RefsStep

/-! ## Locks -/

/-- Locked inodes are held by one process, and the others agree with the disk. -/
structure Locks (s : State) (T : Slot → Hold) : Prop where
  uniq : ∀ e e', 0 < (s.inode e).ref → 0 < (s.inode e').ref →
    (s.inode e).inum = (s.inode e').inum → e = e'
  busy : ∀ e, (s.inode e).busy = true ↔ ∃ p, (T p).lock e ≠ .none
  excl : ∀ p q e, (T p).lock e ≠ .none → (T q).lock e ≠ .none → p = q
  secure : ∀ p e, (T p).lock e ≠ .none → (T p).bal.Secures e
  held : ∀ p e d dk, (T p).lock e = .held d dk → (s.inode e).valid = true ∧ (s.inode e).din = d ∧
    s.dinode (s.inode e).inum = dk ∧ dk.type ≠ 0
  rest : ∀ e, 0 < (s.inode e).ref → (s.inode e).valid = true →
    (∀ p, (T p).lock e = .none ∨ (T p).lock e = .wait) →
    (s.inode e).din = s.dinode (s.inode e).inum ∧ (s.inode e).din.type ≠ 0
  zero : ∀ i, (s.dinode i).type = 0 →
    (s.dinode i).size = 0 ∧ ∀ j ≤ NDIRECT, (s.dinode i).addrs j = 0

/-! ## Blocks -/

/-- Who owns a block. -/
inductive Owner
  | free
  /-- It holds no data, or is not on the disk. -/
  | fixed
  /-- An inode that no one holds. -/
  | disk (inum : Nat)
  | proc (p : Slot)
deriving DecidableEq

/-- All blocks of the disk. -/
def State.disk (s : State) : Blocks := fun b => some (s.block b)

/-- Someone has locked the inode and read it. -/
def HeldAt (s : State) (T : Slot → Hold) (i : Nat) : Prop :=
  ∃ p e d dk, (T p).lock e = .held d dk ∧ (s.inode e).inum = i

/-- The inode on the disk points to the block. -/
def State.Uses (s : State) (i b : Nat) : Prop :=
  Fs.Uses s.disk (s.dinode i) (nblocks (s.dinode i).size) b

/-- Every block has one owner. -/
structure Owned (s : State) (T : Slot → Hold) (own : Nat → Owner) : Prop where
  blk : ∀ p b, (T p).blk b = if own b = .proc p then some (s.block b) else none
  mapped : ∀ i, ¬ HeldAt s T i → Mapped s.disk (s.dinode i) (nblocks (s.dinode i).size)
  disk : ∀ i b, own b = .disk i ↔ ¬ HeldAt s T i ∧ s.Uses i b
  bitmap : ∀ b < FSSIZE, s.bitmap b = false ↔ own b = .free
  fixed : ∀ b, own b = .fixed ↔ b < nmeta ∨ FSSIZE ≤ b

/-- What the processes hold fits the state. -/
structure Inv (s : State) (T : Slot → Hold) (own : Nat → Owner) : Prop where
  refs : Refs s T
  locks : Locks s T
  owned : Owned s T own

variable {x : Inode}

section Step

variable {s s' : State} {T : Slot → Hold} {own : Nat → Owner} {p : Slot} {t : Hold}

theorem disk_congr (hb : s'.block = s.block) : s'.disk = s.disk := by
  funext b
  simp [State.disk, hb]

theorem Owned.congr {T' : Slot → Hold} (h : Owned s T own) (hblk : ∀ q, (T' q).blk = (T q).blk)
    (hheld : ∀ i, HeldAt s' T' i ↔ HeldAt s T i) (hb : s'.block = s.block)
    (hd : s'.dinode = s.dinode) (hm : s'.bitmap = s.bitmap) : Owned s' T' own := by
  have hdisk := disk_congr hb
  refine ⟨fun q b => ?_, fun i hi => ?_, fun i b => ?_, fun b hlt => ?_, h.fixed⟩
  · rw [hblk, h.blk, hb]
  · rw [hdisk, hd]
    exact h.mapped i (by rwa [← hheld])
  · rw [h.disk, hheld, State.Uses, State.Uses, hdisk, hd]
  · rw [hm, h.bitmap b hlt]

/-- Only references and files have changed. -/
theorem Inv.bal (h : Inv s T own)
    (hin : ∀ e, s'.inode e = { s.inode e with ref := (s'.inode e).ref })
    (hpos : ∀ e, 0 < (s'.inode e).ref → 0 < (s.inode e).ref) (hd : s'.dinode = s.dinode)
    (hb : s'.block = s.block) (hm : s'.bitmap = s.bitmap) (hl : t.lock = (T p).lock)
    (hk : t.blk = (T p).blk) (hsec : ∀ e, (T p).lock e ≠ .none → t.bal.Secures e)
    (hr : Refs s' (update T p t)) : Inv s' (update T p t) own := by
  have hlock := update_congr (·.lock) hl
  have hblk := update_congr (T := T) (·.blk) hk
  have hinum : ∀ e, (s'.inode e).inum = (s.inode e).inum := fun e => by rw [hin]
  have hvalid : ∀ e, (s'.inode e).valid = (s.inode e).valid := fun e => by rw [hin]
  have hdin : ∀ e, (s'.inode e).din = (s.inode e).din := fun e => by rw [hin]
  have hbusy : ∀ e, (s'.inode e).busy = (s.inode e).busy := fun e => by rw [hin]
  refine ⟨hr, ⟨?_, ?_, ?_, ?_, ?_, ?_, ?_⟩, h.owned.congr hblk ?_ hb hd hm⟩
  · intro e e' he he' heq
    rw [hinum, hinum] at heq
    exact h.locks.uniq e e' (hpos e he) (hpos e' he') heq
  · intro e
    simp only [hlock, hbusy]
    exact h.locks.busy e
  · simp only [hlock]
    exact h.locks.excl
  · intro q e hne
    rw [hlock] at hne
    by_cases hq : q = p
    · subst hq
      rw [update_self]
      exact hsec e hne
    · rw [update_of_ne hq]
      exact h.locks.secure q e hne
  · simp only [hlock, hvalid, hdin, hinum, hd]
    exact h.locks.held
  · intro e he
    simp only [hlock, hvalid, hdin, hinum, hd]
    exact h.locks.rest e (hpos e he)
  · rw [hd]
    exact h.locks.zero
  · intro i
    simp only [HeldAt, hlock, hinum]

theorem Inv.files (h : Inv s T own) (hin : s'.inode = s.inode) (hd : s'.dinode = s.dinode)
    (hb : s'.block = s.block) (hm : s'.bitmap = s.bitmap) (hl : t.lock = (T p).lock)
    (hk : t.blk = (T p).blk) (hsec : ∀ e, (T p).lock e ≠ .none → t.bal.Secures e)
    (hr : Refs s' (update T p t)) : Inv s' (update T p t) own :=
  h.bal (fun e => by rw [hin]) (fun e he => by rwa [hin] at he) hd hb hm hl hk hsec hr

theorem setInode_inode (s : State) (ip e : IRef) (x : Inode) :
    (s.setInode ip x).inode e = if e = ip then x else s.inode e := by
  simp [State.setInode, update_apply]

theorem Inv.setRef (h : Inv s T own) {ip : IRef} {n : Int} (hn : 0 < (s.inode ip).ref)
    (hl : t.lock = (T p).lock) (hk : t.blk = (T p).blk)
    (hsec : ∀ e, (T p).lock e ≠ .none → t.bal.Secures e)
    (hrefs : ∀ e, (if e = ip then n else (s.inode e).ref) + (T p).bal.refs e =
      (s.inode e).ref + t.bal.refs e)
    (hbal : t.bal = { (T p).bal with refs := t.bal.refs }) :
    Inv (s.setInode ip { s.inode ip with ref := n }) (update T p t) own := by
  have hin := setInode_inode s ip
  have href : ∀ e, ((s.setInode ip { s.inode ip with ref := n }).inode e).ref =
      if e = ip then n else (s.inode e).ref := by
    intro e
    rw [hin]
    split <;> rfl
  refine h.bal (fun e => ?_) (fun e he => ?_) rfl rfl rfl hl hk hsec ?_
  · rw [hin]
    split
    next he => rw [he]
    next => rfl
  · by_cases heq : e = ip
    · rwa [heq]
    · rwa [href, if_neg heq] at he
  · refine h.refs.update_refs (fun e => ?_) rfl (by rw [hbal]) (by rw [hbal]) (by rw [hbal]; rfl)
      ?_ ?_
    · rw [href]
      exact hrefs e
    · rw [hbal]
      exact h.refs.cwd_self p
    · rw [hbal]
      exact h.refs.ofile_self p

/-- A process that secures `e`, and has changed the lock of no other inode, secures all
that it locks. -/
theorem Locks.secure_of (h : Locks s T) {e : IRef} (hsec : (T p).bal.Secures e)
    (hbal : t.bal = (T p).bal) (hl : ∀ e' ≠ e, t.lock e' = (T p).lock e') :
    ∀ e', t.lock e' ≠ .none → t.bal.Secures e' := by
  intro e' hne
  rw [hbal]
  by_cases he : e' = e
  · rw [he]
    exact hsec
  · rw [hl e' he] at hne
    exact h.secure p e' hne

theorem Locks.set (h : Locks s T) (hr : Refs s T) {e : IRef}
    (hin : ∀ e', s'.inode e' = if e' = e then x else s.inode e')
    (hdisk : ∀ i ≠ (s.inode e).inum, s'.dinode i = s.dinode i) (hpos : 0 < (s.inode e).ref)
    (hinum : x.inum = (s.inode e).inum) (hl : ∀ e' ≠ e, t.lock e' = (T p).lock e')
    (hother : ∀ q ≠ p, (T q).lock e = .none) (hbusy : x.busy = true ↔ t.lock e ≠ .none)
    (hsec : ∀ e', t.lock e' ≠ .none → t.bal.Secures e')
    (hheld : ∀ d dk, t.lock e = .held d dk → x.valid = true ∧ x.din = d ∧
      s'.dinode x.inum = dk ∧ dk.type ≠ 0)
    (hrest : 0 < x.ref → x.valid = true → t.lock e = .none ∨ t.lock e = .wait →
      x.din = s'.dinode x.inum ∧ x.din.type ≠ 0)
    (hzero : (s'.dinode (s.inode e).inum).type = 0 → (s'.dinode (s.inode e).inum).size = 0 ∧
      ∀ j ≤ NDIRECT, (s'.dinode (s.inode e).inum).addrs j = 0) :
    Locks s' (update T p t) := by
  have hlock : ∀ q e', e' ≠ e → (update T p t q).lock e' = (T q).lock e' := by
    intro q e' he
    by_cases hq : q = p
    · subst hq
      rw [update_self, hl e' he]
    · rw [update_of_ne hq]
  have hlocke : ∀ q, (update T p t q).lock e = if q = p then t.lock e else .none := by
    intro q
    by_cases hq : q = p
    · subst hq
      simp
    · simp [hq, hother q hq]
  have hne : ∀ e', e' ≠ e → s'.inode e' = s.inode e' := fun e' he => by rw [hin, if_neg he]
  have hself : s'.inode e = x := by rw [hin, if_pos rfl]
  -- no other entry is of this inode
  have hi : ∀ e', e' ≠ e → 0 < (s.inode e').ref → (s.inode e').inum ≠ (s.inode e).inum :=
    fun e' he hp heq => he (h.uniq e' e hp hpos heq)
  refine ⟨?_, ?_, ?_, ?_, ?_, ?_, ?_⟩
  · intro e1 e2 h1 h2 heq
    by_cases he1 : e1 = e
    · by_cases he2 : e2 = e
      · rw [he1, he2]
      · rw [he1, hself, hinum, hne e2 he2] at heq
        rw [hne e2 he2] at h2
        exact absurd heq.symm (hi e2 he2 h2)
    · rw [hne e1 he1] at h1 heq
      by_cases he2 : e2 = e
      · rw [he2, hself, hinum] at heq
        exact absurd heq (hi e1 he1 h1)
      · rw [hne e2 he2] at h2 heq
        exact h.uniq e1 e2 h1 h2 heq
  · intro e'
    by_cases he : e' = e
    · subst he
      rw [hself, hbusy]
      simp only [hlocke]
      constructor
      · intro hb
        exact ⟨p, by rwa [if_pos rfl]⟩
      · rintro ⟨q, hq⟩
        split at hq
        · exact hq
        · exact absurd rfl hq
    · rw [hne e' he]
      simp only [hlock _ e' he]
      exact h.busy e'
  · intro q1 q2 e' h1 h2
    by_cases he : e' = e
    · subst he
      rw [hlocke] at h1 h2
      split at h1
      next hq1 =>
        split at h2
        next hq2 => rw [hq1, hq2]
        next => exact absurd rfl h2
      next => exact absurd rfl h1
    · rw [hlock _ e' he] at h1 h2
      exact h.excl q1 q2 e' h1 h2
  · intro q e' hq
    by_cases hqp : q = p
    · subst hqp
      rw [update_self] at hq ⊢
      exact hsec e' hq
    · rw [update_of_ne hqp] at hq ⊢
      exact h.secure q e' hq
  · intro q e' d dk hd
    by_cases he : e' = e
    · subst he
      rw [hlocke] at hd
      split at hd
      · rw [hself]
        exact hheld d dk hd
      · cases hd
    · rw [hlock q e' he] at hd
      have hp := hr.pos (h.secure q e' (by rw [hd]; exact Lock.noConfusion))
      rw [hne e' he, hdisk _ (hi e' he (by omega))]
      exact h.held q e' d dk hd
  · intro e' hp hv hw
    by_cases he : e' = e
    · subst he
      have := hw p
      rw [hlocke, if_pos rfl] at this
      rw [hself] at hp hv ⊢
      exact hrest hp hv this
    · simp only [hlock _ e' he] at hw
      rw [hne e' he] at hp hv ⊢
      rw [hdisk _ (hi e' he hp)]
      exact h.rest e' hp hv hw
  · intro i
    by_cases hie : i = (s.inode e).inum
    · rw [hie]
      exact hzero
    · rw [hdisk i hie]
      exact h.zero i

theorem Locks.other (h : Locks s T) {e : IRef} (he : (T p).lock e ≠ .none ∨ (s.inode e).busy = false)
    {q : Slot} (hq : q ≠ p) : (T q).lock e = .none := by
  by_contra hne
  obtain he | he := he
  · exact hq (h.excl q p e hne he)
  · have := (h.busy e).2 ⟨q, hne⟩
    rw [he] at this
    cases this

theorem Locks.free (h : Locks s T) {e : IRef} (he : (s.inode e).busy = false) (q : Slot) :
    (T q).lock e = .none := by
  by_contra hne
  have := (h.busy e).2 ⟨q, hne⟩
  rw [he] at this
  cases this

/-- The blocks a process owns. -/
def blocksOf (s : State) (own : Nat → Owner) (p : Slot) : Blocks :=
  fun b => if own b = .proc p then some (s.block b) else none

/-- **The blocks of an inode go with its lock.** -/
theorem Owned.open (h : Owned s T own) {i : Nat} (hi : ¬ HeldAt s T i) (hb : s'.block = s.block)
    (hd : s'.dinode = s.dinode) (hm : s'.bitmap = s.bitmap)
    (hheld : ∀ j, HeldAt s' (update T p t) j ↔ HeldAt s T j ∨ j = i)
    (ht : t.blk = blocksOf s (fun b => if own b = .disk i then .proc p else own b) p) :
    Owned s' (update T p t) (fun b => if own b = .disk i then .proc p else own b) ∧
      Hold.Gains (T p).blk t.blk (s.dinode i) := by
  have hdisk := disk_congr hb
  have huse : ∀ b, own b = .disk i ↔ s.Uses i b := fun b => (h.disk i b).trans (and_iff_right hi)
  refine ⟨⟨fun q b => ?_, fun j hj => ?_, fun j b => ?_, fun b hlt => ?_, fun b => ?_⟩, ?_⟩
  · rw [hb]
    by_cases hq : q = p
    · subst hq
      rw [update_self, ht, blocksOf]
    · rw [update_of_ne hq, h.blk]
      by_cases ho : own b = .disk i
      · rw [if_pos ho, ho, if_neg Owner.noConfusion, if_neg (fun he => hq (Owner.proc.inj he).symm)]
      · rw [if_neg ho]
  · rw [hdisk, hd]
    exact h.mapped j fun hh => hj ((hheld j).2 (.inl hh))
  · rw [hheld, State.Uses, hdisk, hd]
    by_cases ho : own b = .disk i
    · rw [if_pos ho]
      refine ⟨fun he => Owner.noConfusion he, fun ⟨hn, hu⟩ => ?_⟩
      have hj := (h.disk j b).2 ⟨fun hh => hn (.inl hh), hu⟩
      exact absurd (.inr (Owner.disk.inj (hj.symm.trans ho))) hn
    · rw [if_neg ho, h.disk]
      refine ⟨fun ⟨hn, hu⟩ => ⟨?_, hu⟩, fun ⟨hn, hu⟩ => ⟨fun hh => hn (.inl hh), hu⟩⟩
      rintro (hh | rfl)
      · exact hn hh
      · exact ho ((huse b).2 hu)
  · rw [hm, h.bitmap b hlt]
    split
    next ho => simp [ho]
    next => rfl
  · rw [← h.fixed]
    split
    next ho => simp [ho]
    next => rfl
  · have hagree : ∀ b, s.Uses i b → t.blk b = s.disk b := by
      intro b hu
      rw [ht, blocksOf, if_pos (if_pos ((huse b).2 hu)), State.disk]
    have hmap := h.mapped i hi
    have hiff := hmap.uses_iff hagree
    refine ⟨hmap.frame hagree, fun b hu => ?_, fun b hu => ?_⟩
    · rw [h.blk, (huse b).2 ((hiff b).1 hu), if_neg Owner.noConfusion]
    · have ho : own b ≠ .disk i := fun ho => hu ((hiff b).2 ((huse b).1 ho))
      rw [ht, blocksOf, if_neg ho, h.blk]

/-- **They go back to the disk when it is unlocked.** -/
theorem Owned.close (h : Owned s T own) {i : Nat} {d : Dinode} (hi : HeldAt s T i)
    (hmap : Mapped (T p).blk d (nblocks d.size)) (hb : s'.block = s.block)
    (hd : ∀ j, s'.dinode j = if j = i then d else s.dinode j) (hm : s'.bitmap = s.bitmap)
    (hheld : ∀ j, HeldAt s' (update T p t) j ↔ HeldAt s T j ∧ j ≠ i)
    {own' : Nat → Owner} (huse : ∀ b, Uses (T p).blk d (nblocks d.size) b → own' b = .disk i)
    (hnot : ∀ b, ¬ Uses (T p).blk d (nblocks d.size) b → own' b = own b)
    (ht : t.blk = blocksOf s own' p) :
    Owned s' (update T p t) own' ∧ Hold.Loses (T p).blk t.blk d := by
  have hdisk := disk_congr hb
  have hown : ∀ b, Uses (T p).blk d (nblocks d.size) b → own b = .proc p := by
    intro b hu
    have := (hmap.own b hu).1
    rw [h.blk] at this
    by_contra hne
    rw [if_neg hne] at this
    exact this rfl
  have hagree : ∀ b, Uses (T p).blk d (nblocks d.size) b → s.disk b = (T p).blk b := by
    intro b hu
    rw [h.blk, if_pos (hown b hu), State.disk]
  have hiff := hmap.uses_iff hagree
  refine ⟨⟨fun q b => ?_, fun j hj => ?_, fun j b => ?_, fun b hlt => ?_, fun b => ?_⟩, ?_⟩
  · rw [hb]
    by_cases hq : q = p
    · subst hq
      rw [update_self, ht, blocksOf]
    · rw [update_of_ne hq, h.blk]
      by_cases hu : Uses (T p).blk d (nblocks d.size) b
      · rw [huse b hu, hown b hu, if_neg (fun he => hq (Owner.proc.inj he).symm),
          if_neg Owner.noConfusion]
      · rw [hnot b hu]
  · rw [hdisk, hd]
    split
    next => exact hmap.frame hagree
    next hji => exact h.mapped j fun hh => hj ((hheld j).2 ⟨hh, hji⟩)
  · rw [hheld, State.Uses, hdisk, hd]
    by_cases hji : j = i
    · subst hji
      rw [if_pos rfl, hiff]
      refine ⟨fun ho => ⟨fun hh => hh.2 rfl, ?_⟩, fun ⟨_, hu⟩ => huse b hu⟩
      by_contra hu
      rw [hnot b hu] at ho
      exact ((h.disk j b).1 ho).1 hi
    · rw [if_neg hji]
      have hnn : ¬ (HeldAt s T j ∧ j ≠ i) ↔ ¬ HeldAt s T j :=
        ⟨fun hn hh => hn ⟨hh, hji⟩, fun hn hh => hn hh.1⟩
      rw [hnn]
      by_cases hu : Uses (T p).blk d (nblocks d.size) b
      · rw [huse b hu]
        refine ⟨fun he => absurd (Owner.disk.inj he).symm hji, fun hh => ?_⟩
        have := (h.disk j b).2 hh
        rw [hown b hu] at this
        cases this
      · rw [hnot b hu]
        exact h.disk j b
  · rw [hm, h.bitmap b hlt]
    by_cases hu : Uses (T p).blk d (nblocks d.size) b
    · rw [hown b hu, huse b hu]
      simp
    · rw [hnot b hu]
  · rw [← h.fixed]
    by_cases hu : Uses (T p).blk d (nblocks d.size) b
    · rw [hown b hu, huse b hu]
      simp
    · rw [hnot b hu]
  · refine ⟨fun b hu => ?_, fun b hu => ?_⟩
    · rw [ht, blocksOf, huse b hu, if_neg Owner.noConfusion]
    · rw [ht, blocksOf, hnot b hu, h.blk]

theorem Owned.hold (h : Owned s T own) {i : Nat} (hi : HeldAt s T i) (hb : s'.block = s.block)
    (hd : ∀ j ≠ i, s'.dinode j = s.dinode j) (hm : s'.bitmap = s.bitmap)
    (hheld : ∀ j, HeldAt s' (update T p t) j ↔ HeldAt s T j)
    (hk : t.blk = (T p).blk) : Owned s' (update T p t) own := by
  have hdisk := disk_congr hb
  have hne : ∀ j, ¬ HeldAt s T j → s'.dinode j = s.dinode j := by
    intro j hj
    refine hd j ?_
    rintro rfl
    exact hj hi
  refine ⟨fun q b => ?_, fun j hj => ?_, fun j b => ?_, fun b hlt => ?_, h.fixed⟩
  · rw [hb, ← h.blk]
    exact congrFun (update_congr (·.blk) hk q) b
  · rw [hheld] at hj
    rw [hdisk, hne j hj]
    exact h.mapped j hj
  · rw [h.disk, hheld]
    refine and_congr_right fun hj => ?_
    rw [State.Uses, State.Uses, hdisk, hne j hj]
  · rw [hm, h.bitmap b hlt]

end Step

/-! ## Operations on inodes -/

section Inodes

variable {s s' : State} {T : Slot → Hold} {own : Nat → Owner} {p : Slot} {t : Hold} {e : IRef}

/-- The inode is held, but not by this process as this entry. -/
def Others (s : State) (T : Slot → Hold) (p : Slot) (e : IRef) (i : Nat) : Prop :=
  ∃ q e' d dk, (q ≠ p ∨ e' ≠ e) ∧ (T q).lock e' = .held d dk ∧ (s.inode e').inum = i

theorem heldAt_iff (s : State) (T : Slot → Hold) (p : Slot) (e : IRef) (i : Nat) : HeldAt s T i ↔
      (∃ d dk, (T p).lock e = .held d dk ∧ (s.inode e).inum = i) ∨ Others s T p e i := by
  constructor
  · rintro ⟨q, e', d, dk, hd, hi⟩
    by_cases hq : q = p ∧ e' = e
    · obtain ⟨rfl, rfl⟩ := hq
      exact .inl ⟨d, dk, hd, hi⟩
    · exact .inr ⟨q, e', d, dk, not_and_or.1 hq, hd, hi⟩
  · rintro (⟨d, dk, hd, hi⟩ | ⟨q, e', d, dk, -, hd, hi⟩)
    · exact ⟨p, e, d, dk, hd, hi⟩
    · exact ⟨q, e', d, dk, hd, hi⟩

theorem others_update (hinum : ∀ e', (s'.inode e').inum = (s.inode e').inum)
    (hl : ∀ e' ≠ e, t.lock e' = (T p).lock e') (i : Nat) :
    Others s' (update T p t) p e i ↔ Others s T p e i := by
  have hlock : ∀ q e', q ≠ p ∨ e' ≠ e → (update T p t q).lock e' = (T q).lock e' := by
    intro q e' hne
    by_cases hq : q = p
    · subst hq
      rw [update_self, hl e' (hne.resolve_left (absurd rfl))]
    · rw [update_of_ne hq]
  constructor
  · rintro ⟨q, e', d, dk, hne, hd, hi⟩
    rw [hlock q e' hne] at hd
    rw [hinum] at hi
    exact ⟨q, e', d, dk, hne, hd, hi⟩
  · rintro ⟨q, e', d, dk, hne, hd, hi⟩
    rw [← hlock q e' hne] at hd
    rw [← hinum] at hi
    exact ⟨q, e', d, dk, hne, hd, hi⟩

/-- No one else holds what this process may lock. -/
theorem Inv.not_others (h : Inv s T own) (hpos : 0 < (s.inode e).ref)
    (hother : ∀ q ≠ p, (T q).lock e = .none) : ¬ Others s T p e (s.inode e).inum := by
  rintro ⟨q, e', d, dk, hne, hd, hi⟩
  have hl : (T q).lock e' ≠ .none := by
    rw [hd]
    exact Lock.noConfusion
  have he : e' = e := h.locks.uniq e' e (by have := h.refs.pos (h.locks.secure q e' hl); omega) hpos hi
  subst he
  obtain hq | hq := hne
  · exact hl (hother q hq)
  · exact hq rfl

theorem setInode_inum (h : x.inum = (s.inode e).inum) (e' : IRef) :
    ((s.setInode e x).inode e').inum = (s.inode e').inum := by
  rw [setInode_inode]
  split
  next he => rw [he, h]
  next => rfl

/-- Nothing of an inode but its state in the cache has changed. -/
structure Keeps (s : State) (e : IRef) (x : Inode) : Prop where
  inum : x.inum = (s.inode e).inum
  ref : x.ref = (s.inode e).ref

theorem Keeps.inum_eq (h : Keeps s e x) (e' : IRef) :
    ((s.setInode e x).inode e').inum = (s.inode e').inum := setInode_inum h.inum e'

theorem Keeps.ref_eq (h : Keeps s e x) (e' : IRef) :
    ((s.setInode e x).inode e').ref = (s.inode e').ref := by
  rw [setInode_inode]
  split
  next he => rw [he, h.ref]
  next => rfl

/-- The process has locked the inode and read it. -/
theorem Inv.open (h : Inv s T own) {d : Dinode} (hpos : 0 < (s.inode e).ref)
    (hother : ∀ q ≠ p, (T q).lock e = .none) (hnot : ∀ d dk, (T p).lock e ≠ .held d dk)
    (hsec : (T p).bal.Secures e) (hx : Keeps s e x) (hbusy : x.busy = true)
    (hvalid : x.valid = true) (hdin : x.din = d) (hd : s.dinode (s.inode e).inum = d)
    (htype : d.type ≠ 0) :
    ∃ blk own', Hold.Gains (T p).blk blk d ∧
      Inv (s.setInode e x) (update T p { (T p).setLock e (.held d d) with blk }) own' := by
  have hno := h.not_others hpos hother
  have hi : ¬ HeldAt s T (s.inode e).inum := by
    rw [heldAt_iff s T p e]
    rintro (⟨d, dk, hl, -⟩ | ho)
    · exact hnot d dk hl
    · exact hno ho
  generalize hblk : blocksOf s (fun b => if own b = .disk (s.inode e).inum then .proc p else own b)
    p = blk
  generalize ht : ({ (T p).setLock e (.held d d) with blk } : Hold) = t
  have hl : ∀ e' ≠ e, t.lock e' = (T p).lock e' := fun e' he => by simp [← ht, he]
  have hle : t.lock e = .held d d := by simp [← ht]
  have hbal : t.bal = (T p).bal := by rw [← ht]; rfl
  have hown : Owned (s.setInode e x) (update T p t) _ ∧ _ := h.owned.open hi rfl rfl rfl
    (fun j => by
      rw [heldAt_iff _ _ p e, heldAt_iff s T p e, others_update hx.inum_eq hl, update_self,
        hx.inum_eq]
      constructor
      · rintro (⟨_, _, _, hj⟩ | ho)
        · exact .inr hj.symm
        · exact .inl (.inr ho)
      · rintro ((⟨_, _, hl', _⟩ | ho) | hj)
        · exact absurd hl' (hnot _ _)
        · exact .inr ho
        · exact .inl ⟨d, d, hle, hj.symm⟩) (by rw [hblk, ← ht])
  rw [hd] at hown
  have hgain : Hold.Gains (T p).blk blk d := by
    have := hown.2
    rwa [← ht] at this
  refine ⟨blk, fun b => if own b = .disk (s.inode e).inum then .proc p else own b, hgain, ?_⟩
  rw [ht]
  refine ⟨h.refs.same hx.ref_eq rfl hbal rfl rfl rfl, ?_, hown.1⟩
  refine h.locks.set h.refs (setInode_inode s e · x) (fun _ _ => rfl) hpos hx.inum hl hother
    ?_ ?_ ?_ ?_ ?_
  · rw [hbusy, hle]
    simp
  · exact h.locks.secure_of hsec hbal hl
  · intro d' dk' hl'
    obtain ⟨rfl, rfl⟩ := Lock.held.inj (hle.symm.trans hl')
    refine ⟨hvalid, hdin, ?_, htype⟩
    rw [hx.inum]
    exact hd
  · intro _ _ hl'
    rw [hle] at hl'
    obtain hl' | hl' := hl' <;> cases hl'
  · exact h.locks.zero _

/-- A process that has locked an inode has a reference to it, and it alone has locked it. -/
theorem Inv.of_held (h : Inv s T own) {d dk : Dinode} (hheld : (T p).lock e = .held d dk) :
    (T p).bal.Secures e ∧ 0 < (s.inode e).ref ∧ ∀ q ≠ p, (T q).lock e = .none := by
  have hne : (T p).lock e ≠ .none := by
    rw [hheld]
    exact Lock.noConfusion
  have hsec := h.locks.secure p e hne
  exact ⟨hsec, h.refs.pos hsec, fun q hq => h.locks.other (.inl hne) hq⟩

theorem Inv.close (h : Inv s T own) {d dk : Dinode} (hheld : (T p).lock e = .held d dk)
    (hmap : Mapped (T p).blk d (nblocks d.size)) (hin : ∀ e', s'.inode e' = if e' = e then x else s.inode e')
    (hb : s'.block = s.block) (hm : s'.bitmap = s.bitmap)
    (hd : ∀ j, s'.dinode j = if j = (s.inode e).inum then d else s.dinode j)
    (hinum : x.inum = (s.inode e).inum) {l : Lock} (hnot : ∀ d dk, l ≠ .held d dk)
    (hbusy : x.busy = true ↔ l ≠ .none)
    (hrest : 0 < x.ref → x.valid = true → l = .none ∨ l = .wait → x.din = d ∧ d.type ≠ 0)
    (hzero : d.type = 0 → d.size = 0 ∧ ∀ j ≤ NDIRECT, d.addrs j = 0)
    (hr : ∀ t : Hold, t.bal = (T p).bal → Refs s' (update T p t)) :
    ∃ blk own', Hold.Loses (T p).blk blk d ∧
      Inv s' (update T p { (T p).setLock e l with blk }) own' := by
  classical
  obtain ⟨hsec, hpos, hother⟩ := h.of_held hheld
  have hno := h.not_others hpos hother
  have hinum' : ∀ e', (s'.inode e').inum = (s.inode e').inum := by
    intro e'
    rw [hin]
    split
    next he => rw [he, hinum]
    next => rfl
  generalize hown' : (fun b => if Uses (T p).blk d (nblocks d.size) b then
    Owner.disk (s.inode e).inum else own b) = own'
  generalize hblk : blocksOf s own' p = blk
  generalize ht : ({ (T p).setLock e l with blk } : Hold) = t
  have hl : ∀ e' ≠ e, t.lock e' = (T p).lock e' := fun e' he => by simp [← ht, he]
  have hle : t.lock e = l := by simp [← ht]
  have hbal : t.bal = (T p).bal := by rw [← ht]; rfl
  have hi : HeldAt s T (s.inode e).inum := ⟨p, e, d, dk, hheld, rfl⟩
  have hown : Owned s' (update T p t) own' ∧ _ := h.owned.close hi hmap hb hd hm (fun j => by
      rw [heldAt_iff _ _ p e, heldAt_iff s T p e, others_update hinum' hl, update_self, hinum', hle]
      constructor
      · rintro (⟨_, _, hl', _⟩ | ho)
        · exact absurd hl' (hnot _ _)
        · refine ⟨.inr ho, ?_⟩
          rintro rfl
          exact hno ho
      · rintro ⟨⟨_, _, _, hj⟩ | ho, hji⟩
        · exact absurd hj.symm hji
        · exact .inr ho)
    (fun b hu => by rw [← hown']; exact if_pos hu) (fun b hu => by rw [← hown']; exact if_neg hu)
    (by rw [hblk, ← ht])
  have hlose : Hold.Loses (T p).blk blk d := by
    have := hown.2
    rwa [← ht] at this
  refine ⟨blk, own', hlose, ?_⟩
  rw [ht]
  refine ⟨hr t hbal, ?_, hown.1⟩
  refine h.locks.set h.refs hin (fun i hie => by rw [hd, if_neg hie]) hpos hinum hl hother ?_ ?_ ?_ ?_ ?_
  · rw [hle, hbusy]
  · exact h.locks.secure_of hsec hbal hl
  · intro d' dk' hl'
    rw [hle] at hl'
    exact absurd hl' (hnot _ _)
  · intro h1 h2 h3
    rw [hle] at h3
    obtain ⟨h4, h5⟩ := hrest h1 h2 h3
    rw [hd, hinum, if_pos rfl, h4]
    exact ⟨rfl, h5⟩
  · rw [hd, if_pos rfl]
    exact hzero

theorem Inv.hold (h : Inv s T own) {d dk d' dk' : Dinode}
    (hheld : (T p).lock e = .held d dk) (hin : ∀ e', s'.inode e' = if e' = e then x else s.inode e')
    (hb : s'.block = s.block) (hm : s'.bitmap = s.bitmap)
    (hd : ∀ j, s'.dinode j = if j = (s.inode e).inum then dk' else s.dinode j)
    (hx : Keeps s e x) (hbusy : x.busy = true) (hvalid : x.valid = true) (hdin : x.din = d')
    (htype : dk'.type ≠ 0) (hr : ∀ t : Hold, t.bal = (T p).bal → Refs s' (update T p t)) :
    Inv s' (update T p ((T p).setLock e (.held d' dk'))) own := by
  obtain ⟨hsec, hpos, hother⟩ := h.of_held hheld
  have hinum' : ∀ e', (s'.inode e').inum = (s.inode e').inum := by
    intro e'
    rw [hin]
    split
    next he => rw [he, hx.inum]
    next => rfl
  generalize ht : (T p).setLock e (.held d' dk') = t
  have hl : ∀ e' ≠ e, t.lock e' = (T p).lock e' := fun e' he => by simp [← ht, he]
  have hle : t.lock e = .held d' dk' := by simp [← ht]
  have hbal : t.bal = (T p).bal := by rw [← ht]; rfl
  have hi : HeldAt s T (s.inode e).inum := ⟨p, e, d, dk, hheld, rfl⟩
  refine ⟨hr t hbal, ?_, h.owned.hold hi hb (fun j hj => by rw [hd, if_neg hj]) hm (fun j => ?_)
    (by rw [← ht]; rfl)⟩
  · refine h.locks.set h.refs hin (fun i hie => by rw [hd, if_neg hie]) hpos hx.inum hl hother
      ?_ ?_ ?_ ?_ ?_
    · rw [hle, hbusy]
      simp
    · exact h.locks.secure_of hsec hbal hl
    · intro d₁ dk₁ hl'
      obtain ⟨rfl, rfl⟩ := Lock.held.inj (hle.symm.trans hl')
      refine ⟨hvalid, hdin, ?_, htype⟩
      rw [hd, hx.inum, if_pos rfl]
    · intro _ _ hl'
      rw [hle] at hl'
      obtain hl' | hl' := hl' <;> cases hl'
    · rw [hd, if_pos rfl]
      exact fun h0 => absurd h0 htype
  · rw [heldAt_iff _ _ p e, heldAt_iff s T p e, others_update hinum' hl, update_self,
      hinum', hle, hheld]
    constructor
    · rintro (⟨_, _, _, hj⟩ | ho)
      · exact .inl ⟨d, dk, rfl, hj⟩
      · exact .inr ho
    · rintro (⟨_, _, _, hj⟩ | ho)
      · exact .inl ⟨d', dk', rfl, hj⟩
      · exact .inr ho

end Inodes

end Xv6.Fs
