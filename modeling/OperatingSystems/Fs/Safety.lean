import OperatingSystems.Fs.Exact
import OperatingSystems.Fs.Files

/-!
# What the bookkeeping rules out

`fs.c` and `file.c` panic when a reference count, a lock or a bit of the free map is not
what the caller should have seen to.  Whatever the processes do, none of these panics is
reached, and no two processes are ever at the same inode or block of data.

* `bookkeeping_sound`: `shortages` are the panics that are left.
* `inode_and_block_exclusive`: there is no race for the copy of an inode, or for a block of
  data.
-/

namespace Xv6.Fs

variable {x : Sys} {T : Slot → Hold} {own : Nat → Owner} {p q : Slot} {e : IRef}

theorem Sys.Inv.pre (hi : x.Inv T own) {o : Op} {k : o.Ret → FsM (Option Nat)}
    (hk : x.thread p = .call (.op o k)) : Hold.pre o (T p) := by
  have hok := hi.thread p
  rw [hk] at hok
  exact hok.1

/-! ## Races -/

/-- What an operation reads or writes without a lock of the tables: the copy of an inode, or
a block of a file.  The blocks of the free map and of the inodes on disk are not counted: any
number of processes may be about to change one, and only the lock of its buffer keeps them
apart. -/
def Op.touches : Op → Option (IRef ⊕ Nat)
  | .ilockRead ip | .iunlock ip | .iputEnd ip | .getInode ip | .setInode ip _ | .iupdate ip =>
    some (.inl ip)
  | .bread b | .logWrite b _ | .bfree b => some (.inr b)
  | _ => none

theorem lock_of_touches {o : Op} {t : Hold} (hpre : Hold.pre o t) (ho : o.touches = some (.inl e)) :
    t.lock e ≠ .none := by
  intro hn
  cases o with
  | ilockRead | iputEnd | getInode | setInode | iupdate | iunlock =>
    cases ho
    simp [Hold.pre, hn] at hpre
  | _ => cases ho

theorem blk_of_touches {o : Op} {t : Hold} {b : Nat} (hpre : Hold.pre o t)
    (ho : o.touches = some (.inr b)) : t.blk b ≠ none := by
  cases o with
  | bread | logWrite | bfree =>
    cases ho
    exact hpre
  | _ => cases ho

/-- What the next operation of a thread is on. -/
def Thread.touches : Thread → Option (IRef ⊕ Nat)
  | .call (.op o _) => o.touches
  | _ => none

theorem Thread.op_of_touches {t : Thread} {r : IRef ⊕ Nat} (h : t.touches = some r) :
    ∃ o k, t = .call (.op o k) ∧ o.touches = some r := by
  unfold Thread.touches at h
  split at h
  · exact ⟨_, _, rfl, h⟩
  · cases h

/-- **Inodes and blocks of data are exclusive.**  In every state reached, no two processes are
at an operation on the copy of one inode, or on one block of a file, which is a block past the
metadata. -/
theorem inode_and_block_exclusive (img : Image) (x : Sys) (h : (system img).Reachable x)
    {p q : Slot} (hpq : p ≠ q) {r : IRef ⊕ Nat} (hp : (x.thread p).touches = some r) :
    (x.thread q).touches ≠ some r ∧ ∀ b, r = .inr b → nmeta ≤ b ∧ b < FSSIZE := by
  obtain ⟨T, own, hi⟩ := sys_inv h
  obtain ⟨o, k, hk, ho⟩ := Thread.op_of_touches hp
  have hpre := hi.pre hk
  constructor
  · intro hq
    obtain ⟨o', k', hk', ho'⟩ := Thread.op_of_touches hq
    have hpre' := hi.pre hk'
    cases r with
    | inl e =>
      exact hpq (hi.inv.locks.excl p q e (lock_of_touches hpre ho) (lock_of_touches hpre' ho'))
    | inr b =>
      have hpb := hi.inv.owned.eq_proc (blk_of_touches hpre ho)
      rw [hi.inv.owned.eq_proc (blk_of_touches hpre' ho')] at hpb
      exact hpq (Owner.proc.inj hpb).symm
  · rintro b rfl
    have hown := hi.inv.owned.eq_proc (blk_of_touches hpre ho)
    have hfixed := mt (hi.inv.owned.fixed b).2 (by rw [hown]; exact Owner.noConfusion)
    omega

/-- A process opens the root directory, and is stopped where it looks at the inode. -/
def opensRoot : List Event :=
  [.start 0 (.open (some [47]) ⟨false, false, false, false⟩)] ++ List.replicate 4 (.run 0)

/-- The child of a process opens it as well. -/
theorem inode_and_block_exclusive_open : ∃ x, (system .root).Reachable x ∧
    (x.thread 0).touches = some (.inl ⟨0, by decide⟩) ∧
    (x.thread 1).touches ≠ some (.inl ⟨0, by decide⟩) := by
  obtain ⟨x, hr, hx⟩ := Machine.reachable_of_run (M := system .root)
    (P := fun x => (x.thread 0).touches = some (.inl ⟨0, by decide⟩))
    ⟨Image.root.boot [], fun _ => .idle⟩
    ([.fork 0 1] ++ List.replicate 17 (.run 0) ++ opensRoot ++
      [.start 1 (.open (some [47]) ⟨false, false, false, false⟩), .run 1, .run 1]) ⟨[], rfl⟩
    (by decide)
  exact ⟨x, hr, hx, (inode_and_block_exclusive .root x hr (by decide) hx).1⟩

/-! ## Panics -/

/-- The panics of operations that are left: something has run out, a free inode is locked, or
a block is logged outside of a transaction. -/
def shortages : List String :=
  ["iget: no inodes", "ilock: no type", "balloc: out of blocks", "too big a transaction",
    "log_write outside of trans"]

section Panics

variable {s : State} {f : FRef} {why : String}

theorem Refs.fpos (h : Refs s T) (hf : 1 ≤ (T p).bal.frefs f) : 1 ≤ (s.file f).ref := by
  rw [h.frefs]
  have := le_sum (fun t => t.bal.frefs f) T p
  omega

/-- A locked inode to which another process has a reference has two of them. -/
theorem Inv.two_refs (h : Inv s T own) (href : 1 ≤ (T p).bal.refs e)
    (hlock : (T p).lock e ≠ .none → 2 ≤ (T p).bal.refs e) (hb : (s.inode e).busy = true) :
    2 ≤ (s.inode e).ref := by
  obtain ⟨q, hq⟩ := (h.locks.busy e).1 hb
  rw [h.refs.refs]
  by_cases hqp : p = q
  · subst hqp
    have := hlock hq
    have := le_sum (fun t => t.bal.refs e) T p
    omega
  · obtain hr | ⟨f, hk, hf⟩ := h.locks.secure q e hq
    · have := add_le_sum (fun t => t.bal.refs e) T hqp
      omega
    · have := files_pos (h.refs.known q f e hk hf)
      have := le_sum (fun t => t.bal.refs e) T p
      omega

theorem log_panic {α : Type} {b : Nat} {r : α} (h : s.log b r = .panic why) : why ∈ shortages := by
  unfold State.log at h
  split_ifs at h <;> cases h <;> simp [shortages]

theorem Inv.exec_panic (h : Inv s T own) {o : Op} (hpre : Hold.pre o (T p))
    (hw : exec p s o = .panic why) : o = .panic why ∨ why ∈ shortages := by
  cases o with
  | iget inum =>
    simp only [exec, execIget] at hw
    split at hw
    · cases hw
    · split at hw <;> cases hw
      simp [shortages]
  | ilockBusy e =>
    have := h.refs.pos hpre
    simp only [exec, execIlockBusy] at hw
    rw [if_neg (by omega)] at hw
    split_ifs at hw
  | ilockRead e =>
    simp only [exec, execIlockRead] at hw
    split_ifs at hw
    cases hw
    simp [shortages]
  | iunlock e =>
    have hl := lock_of_touches hpre rfl
    have hb := (h.locks.busy e).2 ⟨p, hl⟩
    have := h.refs.pos (h.locks.secure p e hl)
    simp only [exec, execIunlock] at hw
    rw [if_neg (by simp [hb]; omega)] at hw
    cases hw
  | iputStart e =>
    simp only [exec, execIputStart] at hw
    split_ifs at hw with hc hb
    have := h.two_refs hpre.1 hpre.2 hb
    omega
  | iallocTry inum type =>
    simp only [exec, execIallocTry] at hw
    split_ifs at hw
    exact .inr (log_panic hw)
  | ballocBit =>
    have hw : execBallocBit s = _ := hw
    unfold execBallocBit at hw
    split at hw
    · exact .inr (log_panic hw)
    · cases hw
      simp [shortages]
  | bfree b =>
    -- the block is the process's, so its bit is set
    have hown := h.owned.eq_proc hpre
    have hbit : s.bitmap b = true :=
      h.bitmap_of_own (by rw [hown]; exact Owner.noConfusion) (by rw [hown]; exact Owner.noConfusion)
    simp only [exec, execBfree] at hw
    rw [if_pos hbit] at hw
    exact .inr (log_panic hw)
  | iupdate | logWrite => exact .inr (log_panic hw)
  | filedup f | fileDrop f =>
    have := h.refs.fpos hpre.1
    simp only [exec, execFiledup, execFileDrop] at hw
    split_ifs at hw
    omega
  | filealloc | fdalloc | beginOp | consoleread =>
    simp only [exec, execFilealloc, execFdalloc, execBeginOp, execConsoleread] at hw
    split at hw <;> cases hw
  | panic msg =>
    cases hw
    exact .inl rfl
  | _ => cases hw

end Panics

/-- **The bookkeeping never fails.**  In every state reached an operation panics only for a
shortage, or because it is a `panic` of the call itself, and `fork` finds the files of its
process in use. -/
theorem bookkeeping_sound (img : Image) (x : Sys) (h : (system img).Reachable x) :
    (∀ p o k why, x.thread p = .call (.op o k) → exec p x.fs o = .panic why →
      o = .panic why ∨ why ∈ shortages) ∧
    ∀ p q fd fds f why, x.thread p = .fork q (fd :: fds) → x.fs.ofile p fd = some f →
      execFiledup x.fs f ≠ .panic why := by
  obtain ⟨T, own, hi⟩ := sys_inv h
  refine ⟨fun p o k why hk => hi.inv.exec_panic (hi.pre hk), ?_⟩
  intro p q fd fds f why hk hf
  have hrest := (hi.rests (p := p) fun k => by rw [hk]; exact Thread.noConfusion).idle
  rw [hi.inv.refs.ofile] at hf
  have := hi.inv.refs.fpos (p := p) (f := f) (by rw [hrest.frefs]; exact Bal.opens_pos hf)
  unfold execFiledup
  rw [if_neg (by omega)]
  nofun

theorem bookkeeping_sound_open : ∃ x, (system .root).Reachable x ∧ ∃ o k,
    x.thread 0 = .call (.op o k) ∧ exec 0 x.fs o ≠ .panic "iunlock" := by
  obtain ⟨x, hr, hx⟩ := Machine.reachable_of_run (M := system .root)
    (P := fun x => (x.thread 0).touches = some (.inl ⟨0, by decide⟩))
    ⟨Image.root.boot [], fun _ => .idle⟩ (opensRoot ++ List.replicate 3 (.run 0)) ⟨[], rfl⟩
    (by decide)
  obtain ⟨o, k, hk, ho⟩ := Thread.op_of_touches hx
  refine ⟨x, hr, o, k, hk, fun hw => ?_⟩
  obtain rfl | hw := (bookkeeping_sound .root x hr).1 0 o k _ hk hw
  · cases ho
  · simp [shortages] at hw

end Xv6.Fs
