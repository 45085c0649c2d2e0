import OperatingSystems.Fs.Step

/-!
# Processes that run at the same time

Any number of processes make system calls on one disk, and the operations of their calls
are interleaved in any way.  `fork` is part of it as far as files go: the open files are
duplicated one by one, and the current directory after them.

* `Image`: a disk on which every block has one use.
* `system`: the runs that start from an image.
* `Sys.Inv.step`, `sys_inv`: in every state reached the processes keep to the rules.
-/

namespace Xv6.Fs

open Function

/-! ## The machine -/

/-- A disk on which the inodes use different blocks, a file has no holes, a free inode has
no blocks, and the free map is right. -/
structure Image where
  bitmap : Nat → Bool
  dinode : Nat → Dinode
  block : Nat → Block
  mapped : ∀ i, Mapped (fun b => some (block b)) (dinode i) (nblocks (dinode i).size)
  zero : ∀ i, (dinode i).type = 0 → (dinode i).size = 0 ∧ ∀ j ≤ NDIRECT, (dinode i).addrs j = 0
  once : ∀ i j b, Uses (fun b => some (block b)) (dinode i) (nblocks (dinode i).size) b →
    Uses (fun b => some (block b)) (dinode j) (nblocks (dinode j).size) b → i = j
  exact : ∀ b < FSSIZE, bitmap b = true ↔
    b < nmeta ∨ ∃ i, Uses (fun b => some (block b)) (dinode i) (nblocks (dinode i).size) b

/-- The bytes of a directory with the entries `.` and `..`, both for the root. -/
def rootBlock : Block := fun i =>
  if i.val = 0 ∨ i.val = 16 then 1
  else if i.val = 2 ∨ i.val = 18 ∨ i.val = 19 then 46
  else 0

/-- The inodes of a disk whose only file is the root directory. -/
def rootDinode (i : Nat) : Dinode :=
  if i = ROOTINO then ⟨T_DIR, 0, 0, 1, BSIZE, fun j => if j = 0 then nmeta else 0⟩ else .zero

theorem uses_rootDinode {blk : Blocks} {i b : Nat} :
    Uses blk (rootDinode i) (nblocks (rootDinode i).size) b ↔ i = ROOTINO ∧ b = nmeta := by
  by_cases hi : i = ROOTINO
  · have hn : nblocks (rootDinode i).size = 1 := by
      simp only [rootDinode, if_pos hi]
      decide
    have ha : addrAt blk (rootDinode i) 0 = nmeta := by
      simp only [rootDinode, if_pos hi]
      rfl
    rw [hn]
    constructor
    · rintro (⟨j, hj, rfl⟩ | ⟨h, -⟩)
      · obtain rfl : j = 0 := by omega
        exact ⟨hi, ha⟩
      · exact absurd h (by decide)
    · rintro ⟨-, rfl⟩
      exact .inl ⟨0, Nat.one_pos, ha⟩
  · have hn : nblocks (rootDinode i).size = 0 := by
      simp only [rootDinode, if_neg hi]
      decide
    rw [hn]
    constructor
    · rintro (⟨j, hj, -⟩ | ⟨h, -⟩)
      · exact absurd hj (Nat.not_lt_zero j)
      · exact absurd h (Nat.not_lt_zero _)
    · rintro ⟨h, -⟩
      exact absurd h hi

theorem mapped_rootDinode (i : Nat) :
    Mapped (fun _ => some rootBlock) (rootDinode i) (nblocks (rootDinode i).size) := by
  by_cases hi : i = ROOTINO
  · have hn : nblocks (rootDinode i).size = 1 := by
      simp only [rootDinode, if_pos hi]
      decide
    have haddr : ∀ j, 1 ≤ j → (rootDinode i).addrs j = 0 := by
      intro j hj
      simp only [rootDinode, if_pos hi]
      exact if_neg (by omega)
    refine ⟨by rw [hn]; decide, fun j _ hj => haddr j (by omega), fun j _ _ h => ?_, ?_, ?_, ?_⟩
    · exact absurd (haddr NDIRECT (by decide)) h
    · intro j k hj hk _
      omega
    · intro h
      rw [hn] at h
      exact absurd h (by decide)
    · intro b hb
      obtain ⟨-, rfl⟩ := uses_rootDinode.1 hb
      exact ⟨Option.some_ne_none _, le_rfl, by decide⟩
  · have hz : rootDinode i = .zero := if_neg hi
    rw [hz]
    exact mapped_zero fun _ _ => rfl

/-- A disk whose only file is the root directory. -/
def Image.root : Image where
  bitmap b := b ≤ nmeta
  dinode := rootDinode
  block _ := rootBlock
  mapped := mapped_rootDinode
  zero i h := by
    by_cases hi : i = ROOTINO
    · rw [rootDinode, if_pos hi] at h
      exact absurd h (by decide)
    · rw [rootDinode, if_neg hi]
      exact ⟨rfl, fun _ _ => rfl⟩
  once i j b hi hj := (uses_rootDinode.1 hi).1.trans (uses_rootDinode.1 hj).1.symm
  exact b _ := by
    rw [decide_eq_true_eq]
    constructor
    · intro hb
      obtain hb | hb := hb.lt_or_eq
      · exact .inl hb
      · exact .inr ⟨ROOTINO, uses_rootDinode.2 ⟨rfl, hb⟩⟩
    · rintro (hb | ⟨i, hi⟩)
      · exact hb.le
      · exact (uses_rootDinode.1 hi).2.le

/-- What a process is doing. -/
inductive Thread
  /-- It is outside the kernel, or the slot is not in use. -/
  | idle
  /-- It is in a system call, with this left to do. -/
  | call (x : FsM (Option Nat))
  /-- It is in `fork`, with these descriptors left to duplicate. -/
  | fork (child : Slot) (fds : List Fd)
  /-- It is being made by `fork`. -/
  | embryo

/-- It is outside the kernel. -/
def Thread.isIdle : Thread → Bool
  | .idle => true
  | _ => false

theorem Thread.eq_idle (th : Thread) (h : th.isIdle = true) : th = .idle := by
  cases th with
  | idle => rfl
  | call | fork | embryo => cases h

/-- The file system and the processes. -/
structure Sys where
  fs : State
  thread : Slot → Thread

inductive Event
  /-- The process makes a system call. -/
  | start (p : Slot) (c : Call)
  /-- The process calls `fork`, which has found the slot `q`. -/
  | fork (p q : Slot)
  /-- The process goes on with its call. -/
  | run (p : Slot)

namespace Sys

def setThread (x : Sys) (p : Slot) (th : Thread) : Sys :=
  { x with thread := update x.thread p th }

/-- The next operation of a call. -/
def runCall (x : Sys) (p : Slot) : FsM (Option Nat) → Option Sys
  | .pure _ => some (x.setThread p .idle)
  | .op o k =>
    match exec p x.fs o with
    | .ok r s => some (setThread { x with fs := s } p (.call (k r)))
    | .block => none
    | .panic _ => none

/-- `fork`, where it duplicates the open files and the current directory. -/
def runFork (x : Sys) (p q : Slot) : List Fd → Option Sys
  | fd :: fds =>
    match x.fs.ofile p fd with
    | none => some (x.setThread p (.fork q fds))
    | some f =>
      match execFiledup x.fs f with
      | .ok _ s => some (setThread
          ⟨{ s with ofile := update s.ofile q (update (s.ofile q) fd (some f)) },
            x.thread⟩ p (.fork q fds))
      | .block => none
      | .panic _ => none
  | [] =>
    match x.fs.cwd p with
    | none => none
    | some ip =>
      let s := x.fs.setInode ip { x.fs.inode ip with ref := (x.fs.inode ip).ref + 1 }
      some (setThread (setThread ⟨{ s with cwd := update s.cwd q (some ip) }, x.thread⟩
        p .idle) q .idle)

/-- A system call begins. -/
def start (x : Sys) (p : Slot) (c : Call) : Option Sys :=
  match x.thread p, x.fs.cwd p with
  | .idle, some _ => some (x.setThread p (.call c.body))
  | _, _ => none

/-- `fork` has found a slot that is not in use. -/
def fork (x : Sys) (p q : Slot) : Option Sys :=
  match x.thread p, x.fs.cwd p, x.thread q, x.fs.cwd q with
  | .idle, some _, .idle, none =>
    if ∀ fd, x.fs.ofile q fd = none then
      some ((x.setThread p (.fork q (List.finRange NOFILE))).setThread q .embryo)
    else none
  | _, _, _, _ => none

/-- A process goes on. -/
def run (x : Sys) (p : Slot) : Option Sys :=
  match x.thread p with
  | .call y => x.runCall p y
  | .fork q fds => x.runFork p q fds
  | .idle => none
  | .embryo => none

def step (x : Sys) : Event → Option Sys
  | .start p c => x.start p c
  | .fork p q => x.fork p q
  | .run p => x.run p

/-- The operation of a call that a step does, and its answer. -/
def did (x : Sys) : Event → Option (Slot × (o : Op) × o.Ret)
  | .run p =>
    match x.thread p with
    | .call (.op o _) =>
      match exec p x.fs o with
      | .ok r _ => some ⟨p, o, r⟩
      | _ => none
    | _ => none
  | _ => none

end Sys

/-- What the kernel has when the first process begins: its current directory is the root. -/
def Image.boot (img : Image) (console : List (Option (List UInt8))) : State where
  bitmap := img.bitmap
  dinode := img.dinode
  block := img.block
  inode ip := ⟨if ip.val = 0 then ROOTINO else 0, if ip.val = 0 then 1 else 0, false, false, .zero⟩
  file _ := ⟨.none, 0, false, false, 0, ⟨0, by decide⟩, 0⟩
  cwd p := if p = 0 then some ⟨0, by decide⟩ else none
  ofile _ _ := none
  outstanding := 0
  lh := []
  console := console

/-- The processes, started on an image. -/
def system (img : Image) : Machine Sys Event where
  init x := ∃ console, x = ⟨img.boot console, fun _ => .idle⟩
  step := Sys.step

/-! ## The invariant -/

/-- What the process has is what it needs for what it has left to do. -/
def Thread.Ok : Thread → Hold → Prop
  | .call y, t => y.Follows Hold.rules (fun _ t' => t'.Rests) t
  | _, t => t.Rests

/-- All processes keep to the rules. -/
structure Sys.Inv (x : Sys) (T : Slot → Hold) (own : Nat → Owner) : Prop where
  inv : Fs.Inv x.fs T own
  thread : ∀ p, (x.thread p).Ok (T p)
  child : ∀ p q fds, x.thread p = .fork q fds → x.thread q = .embryo ∧ (T q).bal.cwd = none ∧
    fds.Nodup ∧ ∀ fd ∈ fds, (T q).bal.ofile fd = none
  parent : ∀ p p' q fds fds', x.thread p = .fork q fds → x.thread p' = .fork q fds' → p = p'

/-- How a step changes what the processes hold: one that does an operation as the rules
say, and in a step without one a process that is at rest stays so. -/
def Sys.Moves (x : Sys) (e : Event) (T T' : Slot → Hold) : Prop :=
  match x.did e with
  | some ⟨p, o, r⟩ => ∃ t, Hold.rules.post o (T p) r t ∧ T' = update T p t
  | none => ∃ q t, (T q).Rests ∧ t.Rests ∧ T' = update T q t

namespace Hold

variable {t : Hold}

theorem Rests.lock (h : t.Rests) (ip : IRef) : t.lock ip = .none := by
  obtain ⟨b, h, -⟩ := h
  have : ip ∉ t.locked := by
    rw [h.locked]
    exact Set.notMem_empty ip
  exact not_not.1 this

theorem Rests.blk (h : t.Rests) (b : Nat) : t.blk b = none := by
  obtain ⟨_, ht, -⟩ := id h
  by_contra hne
  obtain ⟨ip, d, hd, -⟩ := ht.clean.cover b hne
  rw [h.lock] at hd
  cases hd

theorem Rests.idle (h : t.Rests) : t.bal.Idle := by
  obtain ⟨b, h, hi⟩ := h
  rwa [h.bal]

/-- Nothing but the references has changed. -/
theorem Rests.setBal (h : t.Rests) {b : Bal} (hb : b.Idle) : Rests { t with bal := b } := by
  obtain ⟨_, ht, -⟩ := h
  exact ⟨b, ht.setBal b, hb⟩

end Hold

section Fork

variable {s : State} {T : Slot → Hold} {own : Nat → Owner} {p q : Slot} {f : FRef} {fd : Fd}

theorem Inv.forkFile (h : Inv s T own) (hp : (T p).Rests) (hq : (T q).Rests)
    (hf : (T p).bal.ofile fd = some f) (hfd : (T q).bal.ofile fd = none) :
    ∃ t, t.Rests ∧ t.bal.cwd = (T q).bal.cwd ∧ t.bal.ofile = update (T q).bal.ofile fd (some f) ∧
      Inv { s.setFile f { s.file f with ref := (s.file f).ref + 1 } with
        ofile := update s.ofile q (update (s.ofile q) fd (some f)) }
        (update T q t) own := by
  have hpos : 1 ≤ (T p).bal.frefs f := by
    rw [hp.idle.frefs]
    exact Bal.opens_pos hf
  have hpos' : 1 ≤ (s.file f).ref := by
    have := le_sum (fun t => t.bal.frefs f) T p
    have := h.refs.frefs f
    omega
  have hnot : ∀ r, (T r).bal.know f ≠ .fresh := by
    intro r
    by_cases hr : r = p
    · rw [hr]
      exact hp.idle.know f
    · exact h.refs.not_fresh hpos hr
  generalize hb : ((T q).bal.setFrefs f ((T q).bal.frefs f + 1)).setKnow f .nothing = b
  have hfrefs : ∀ g, b.frefs g = if g = f then (T q).bal.frefs f + 1 else (T q).bal.frefs g := by
    intro g
    rw [← hb]
    exact Bal.setFrefs_frefs _ _ _ _
  have hknow : ∀ g, b.know g = if g = f then .nothing else (T q).bal.know g := by
    intro g
    rw [← hb]
    exact Bal.setKnow_know _ _ _ _
  have hfile := h.setFile (b := b) (x := { s.file f with ref := (s.file f).ref + 1 })
    (fun ip => by rw [← hb]; rfl)
    (by rw [hfrefs, if_pos rfl]; push_cast; omega)
    (fun g hg => by rw [hfrefs, if_neg hg]) (fun g hg => by rw [hknow, if_neg hg])
    (fun h0 => by have : (s.file f).ref + 1 = 0 := h0; omega)
    (fun hk => by rw [hknow, if_pos rfl] at hk; cases hk)
    (fun ip hk => by rw [hknow, if_pos rfl] at hk; cases hk)
    (fun r _ _ => .inr (hnot r)) (fun _ _ _ _ hi => hi) (by rw [← hb]; rfl) (by rw [← hb]; rfl)
    (by rw [← hb]; rfl) (fun e he => absurd (hq.lock e) he)
  have hcwd : b.cwd = (T q).bal.cwd := by rw [← hb]; rfl
  have hofile : b.ofile = (T q).bal.ofile := by rw [← hb]; rfl
  have hidle : (b.setOfile fd (some f)).Idle := by
    refine ⟨fun ip => ?_, fun g => ?_, fun g => ?_, ?_, ?_⟩
    · rw [← hb]
      exact hq.idle.refs ip
    · rw [Bal.opens_setOfile (by rw [hofile]; exact hfd)]
      show b.frefs g = _
      rw [hfrefs, Bal.opens, hofile, ← Bal.opens, ← hq.idle.frefs]
      split
      next hg => rw [hg]
      next => rfl
    · show b.know g ≠ .fresh
      rw [hknow]
      split
      · exact Know.noConfusion
      · exact hq.idle.know g
    · rw [← hb]
      exact hq.idle.ops
    · rw [← hb]
      exact hq.idle.pipe
  refine ⟨{ T q with bal := b.setOfile fd (some f) }, hq.setBal hidle, hcwd, ?_, ?_⟩
  · show update b.ofile fd (some f) = _
    rw [hofile]
  · have := hfile.proc (p := q) (b := b.setOfile fd (some f))
      (r := { s.setFile f { s.file f with ref := (s.file f).ref + 1 } with
        ofile := update s.ofile q (update (s.ofile q) fd (some f)) })
      rfl rfl rfl rfl rfl ?_ ?_ ?_ ?_ ?_ ?_
    · simpa using this
    · rw [update_self]
      rfl
    · rw [update_self]
      rfl
    · rw [update_self]
      rfl
    · rw [update_self]
      rfl
    · show s.cwd = update s.cwd q b.cwd
      rw [hcwd, ← h.refs.cwd, update_eq_self]
    · show update s.ofile q (update (s.ofile q) fd (some f)) =
        update s.ofile q (update b.ofile fd (some f))
      rw [hofile, ← h.refs.ofile]

theorem Inv.forkCwd (h : Inv s T own) {ip : IRef} (hp : (T p).Rests) (hq : (T q).Rests)
    (hcwd : (T p).bal.cwd = some ip) (hnone : (T q).bal.cwd = none) :
    ∃ t, t.Rests ∧ Inv { s.setInode ip { s.inode ip with ref := (s.inode ip).ref + 1 } with
        cwd := update s.cwd q (some ip) } (update T q t) own := by
  have hpos : 0 < (s.inode ip).ref := h.refs.pos (.inl (Hold.Idle.cwd hp.idle hcwd))
  have hadd := h.addRef (p := q) hpos
  generalize hb : ({ (T q).bal.addRef ip with cwd := some ip } : Bal) = b
  have hidle : b.Idle := by
    rw [← hb]
    refine ⟨fun e => ?_, hq.idle.frefs, hq.idle.know, hq.idle.ops, hq.idle.pipe⟩
    show ((T q).bal.addRef ip).refs e = if some ip = some e then 1 else 0
    rw [Bal.addRef_refs, hq.idle.refs, hq.idle.refs, hnone]
    by_cases he : e = ip
    · simp [he]
    · simp [he, Ne.symm he]
  refine ⟨{ T q with bal := b }, hq.setBal hidle, ?_⟩
  have := hadd.proc (p := q) (b := b)
    (r := { s.setInode ip { s.inode ip with ref := (s.inode ip).ref + 1 } with
      cwd := update s.cwd q (some ip) }) rfl rfl rfl rfl rfl ?_ ?_ ?_ ?_ ?_ ?_
  · simpa using this
  · rw [update_self, ← hb]
  · rw [update_self, ← hb]
  · rw [update_self, ← hb]
  · rw [update_self, ← hb]
  · rw [← hb]
    rfl
  · rw [← hb]
    exact h.refs.ofile_self q

end Fork

namespace Sys

variable {x x' : Sys} {T : Slot → Hold} {own : Nat → Owner} {p q : Slot}

theorem setThread_thread (x : Sys) (p q : Slot) (th : Thread) :
    (x.setThread p th).thread q = if q = p then th else x.thread q := by
  simp [setThread, update_apply]

theorem Inv.goto (h : x.Inv T own) {s : State} {t : Hold} {th : Thread} {own' : Nat → Owner}
    (hinv : Fs.Inv s (update T p t) own') (hok : th.Ok t)
    (hne : x.thread p ≠ .embryo) (hnf : ∀ q fds, th ≠ .fork q fds) :
    (setThread ⟨s, x.thread⟩ p th).Inv (update T p t) own' := by
  refine ⟨hinv, fun r => ?_, fun r q fds hr => ?_, fun r r' q fds fds' hr hr' => ?_⟩
  · rw [setThread_thread]
    split
    next hrp =>
      rw [hrp, update_self]
      exact hok
    next hrp =>
      rw [update_of_ne hrp]
      exact h.thread r
  · rw [setThread_thread] at hr ⊢
    split at hr
    next => exact absurd hr (hnf q fds)
    next =>
      obtain ⟨h1, h2⟩ := h.child r q fds hr
      have hqp : q ≠ p := by
        rintro rfl
        exact hne h1
      rw [if_neg hqp, update_of_ne hqp]
      exact ⟨h1, h2⟩
  · rw [setThread_thread] at hr hr'
    split at hr
    next => exact absurd hr (hnf q fds)
    next =>
      split at hr'
      next => exact absurd hr' (hnf q fds')
      next => exact h.parent r r' q fds fds' hr hr'

theorem did_pure {r : Option Nat} (hy : x.thread p = .call (.pure r)) : x.did (.run p) = none := by
  simp only [did, hy]

theorem did_op {o : Op} {k : o.Ret → FsM (Option Nat)} {r : o.Ret} {s : State}
    (hy : x.thread p = .call (.op o k)) (he : exec p x.fs o = .ok r s) :
    x.did (.run p) = some ⟨p, o, r⟩ := by
  simp only [did, hy, he]

theorem did_fork {fds : List Fd} (hy : x.thread p = .fork q fds) : x.did (.run p) = none := by
  simp only [did, hy]

theorem moves_self {e : Event} (he : x.did e = none) (hr : (T p).Rests) : x.Moves e T T := by
  unfold Moves
  rw [he]
  exact ⟨p, T p, hr, hr, (update_eq_self p T).symm⟩

theorem moves_rests {e : Event} {t : Hold} (he : x.did e = none) (hr : (T p).Rests) (ht : t.Rests) :
    x.Moves e T (update T p t) := by
  unfold Moves
  rw [he]
  exact ⟨p, t, hr, ht, rfl⟩

theorem Inv.runCall (h : x.Inv T own) {y : FsM (Option Nat)} (hy : x.thread p = .call y)
    (hx : x.runCall p y = some x') : ∃ T' own', x'.Inv T' own' ∧ x.Moves (.run p) T T' := by
  have hok := h.thread p
  have hne : x.thread p ≠ .embryo := by
    rw [hy]
    exact Thread.noConfusion
  rw [hy] at hok
  cases y with
  | pure r =>
    cases hx
    refine ⟨T, own, ?_, moves_self (did_pure hy) hok⟩
    have hself : Fs.Inv x.fs (update T p (T p)) own := by
      rw [update_eq_self]
      exact h.inv
    have hgo : (x.setThread p .idle).Inv (update T p (T p)) own :=
      h.goto hself hok hne (fun _ _ => Thread.noConfusion)
    rwa [update_eq_self] at hgo
  | op o k =>
    rw [Sys.runCall] at hx
    split at hx
    next r s he =>
      cases hx
      obtain ⟨t, own', hpost, hinv⟩ := h.inv.step hok.1 he
      refine ⟨_, own', h.goto hinv (hok.2 r t hpost) hne (fun _ _ => Thread.noConfusion), ?_⟩
      unfold Moves
      rw [did_op hy he]
      exact ⟨t, hpost, rfl⟩
    next => cases hx
    next => cases hx

theorem Inv.forkOn (h : x.Inv T own) {s : State} {t : Hold} {fd : Fd} {fds : List Fd}
    (hp : x.thread p = .fork q (fd :: fds)) (hinv : Fs.Inv s (update T q t) own)
    (ht : t.Rests) (hcwd : t.bal.cwd = (T q).bal.cwd)
    (hofile : ∀ fd' ≠ fd, t.bal.ofile fd' = (T q).bal.ofile fd') :
    (setThread ⟨s, x.thread⟩ p (.fork q fds)).Inv (update T q t) own := by
  obtain ⟨hemb, hnone, hnd, hfree⟩ := h.child p q _ hp
  have hqp : q ≠ p := by
    rintro rfl
    rw [hemb] at hp
    cases hp
  obtain ⟨hmem, hnd⟩ := List.nodup_cons.1 hnd
  refine ⟨hinv, fun r => ?_, fun r q' fds' hr => ?_, fun r r' q' fds' fds'' hr hr' => ?_⟩
  · rw [setThread_thread]
    have hold := h.thread r
    split
    next hrp =>
      rw [hrp, update_of_ne hqp.symm]
      rw [hrp, hp] at hold
      exact hold
    next hrp =>
      by_cases hrq : r = q
      · rw [hrq, update_self, hemb]
        exact ht
      · rw [update_of_ne hrq]
        exact hold
  · rw [setThread_thread] at hr ⊢
    split at hr
    next =>
      cases hr
      rw [if_neg hqp, update_self]
      refine ⟨hemb, hcwd.trans hnone, hnd, fun fd' hfd' => ?_⟩
      have hne : fd' ≠ fd := by
        rintro rfl
        exact hmem hfd'
      rw [hofile fd' hne]
      exact hfree fd' (List.mem_cons_of_mem _ hfd')
    next hrp =>
      obtain ⟨h1, h2⟩ := h.child r q' fds' hr
      have hqq : q' ≠ q := by
        rintro rfl
        exact hrp (h.parent r p q' _ _ hr hp)
      have hqp' : q' ≠ p := by
        rintro rfl
        rw [h1] at hp
        cases hp
      rw [if_neg hqp', update_of_ne hqq]
      exact ⟨h1, h2⟩
  · rw [setThread_thread] at hr hr'
    split at hr
    next hrp =>
      cases hr
      split at hr'
      next hrp' => rw [hrp, hrp']
      next =>
        rw [hrp]
        exact h.parent p r' q _ _ hp hr'
    next =>
      split at hr'
      next hrp' =>
        cases hr'
        rw [hrp']
        exact h.parent r p q _ _ hr hp
      next => exact h.parent r r' q' fds' fds'' hr hr'

theorem Inv.runFork (h : x.Inv T own) {fds : List Fd} (hp : x.thread p = .fork q fds)
    (hx : x.runFork p q fds = some x') : ∃ T' own', x'.Inv T' own' ∧ x.Moves (.run p) T T' := by
  obtain ⟨hemb, hnone, hnd, hfree⟩ := h.child p q _ hp
  have hrp : (T p).Rests := by
    have := h.thread p
    rwa [hp] at this
  have hrq : (T q).Rests := by
    have := h.thread q
    rwa [hemb] at this
  cases fds with
  | cons fd fds =>
    rw [Sys.runFork] at hx
    split at hx
    next =>
      cases hx
      have := h.forkOn hp (by rw [update_eq_self]; exact h.inv) hrq rfl (fun _ _ => rfl)
      exact ⟨_, own, this, moves_rests (did_fork hp) hrq hrq⟩
    next f hf =>
      rw [h.inv.refs.ofile] at hf
      unfold execFiledup at hx
      split at hx
      next heq =>
        split at heq
        next => cases heq
        next =>
          cases heq
          cases hx
          obtain ⟨t, ht, hcwd, hofile, hinv⟩ :=
            h.inv.forkFile hrp hrq hf (hfree fd List.mem_cons_self)
          refine ⟨_, own, h.forkOn hp hinv ht hcwd fun fd' hne => ?_,
            moves_rests (did_fork hp) hrq ht⟩
          rw [hofile, update_of_ne hne]
      next => cases hx
      next => cases hx
  | nil =>
    rw [Sys.runFork] at hx
    split at hx
    next => cases hx
    next ip hcwd =>
      cases hx
      rw [h.inv.refs.cwd] at hcwd
      obtain ⟨t, ht, hinv⟩ := h.inv.forkCwd hrp hrq hcwd hnone
      refine ⟨update T q t, own, ⟨hinv, fun r => ?_, fun r q' fds' hr => ?_,
        fun r r' q' fds' fds'' hr hr' => ?_⟩, moves_rests (did_fork hp) hrq ht⟩
      · rw [setThread_thread, setThread_thread]
        by_cases hrq' : r = q
        · rw [if_pos hrq', hrq', update_self]
          exact ht
        · rw [if_neg hrq', update_of_ne hrq']
          split
          next hrp' =>
            rw [hrp']
            exact hrp
          next => exact h.thread r
      · rw [setThread_thread, setThread_thread] at hr ⊢
        split at hr
        next => cases hr
        next =>
          split at hr
          next => cases hr
          next hrp' =>
            obtain ⟨h1, h2⟩ := h.child r q' fds' hr
            have hqq : q' ≠ q := by
              rintro rfl
              exact hrp' (h.parent r p q' _ _ hr hp)
            have hqp' : q' ≠ p := by
              rintro rfl
              rw [h1] at hp
              cases hp
            rw [if_neg hqq, if_neg hqp', update_of_ne hqq]
            exact ⟨h1, h2⟩
      · rw [setThread_thread, setThread_thread] at hr hr'
        split at hr
        next => cases hr
        next =>
          split at hr
          next => cases hr
          next =>
            split at hr'
            next => cases hr'
            next =>
              split at hr'
              next => cases hr'
              next => exact h.parent r r' q' fds' fds'' hr hr'

theorem Inv.fork (h : x.Inv T own) {ip : IRef} (hp : x.thread p = .idle)
    (hcwd : x.fs.cwd p = some ip) (hq : x.thread q = .idle) (hnone : x.fs.cwd q = none)
    (hfree : ∀ fd, x.fs.ofile q fd = none) :
    ((x.setThread p (.fork q (List.finRange NOFILE))).setThread q .embryo).Inv T own := by
  have hnot : ∀ r fds, x.thread r ≠ .fork q fds := by
    intro r fds hr
    have := (h.child r q fds hr).1
    rw [hq] at this
    cases this
  refine ⟨h.inv, fun r => ?_, fun r q' fds hr => ?_, fun r r' q' fds fds' hr hr' => ?_⟩
  · have hold := h.thread r
    rw [setThread_thread, setThread_thread]
    split
    next hrq =>
      rw [hrq, hq] at hold
      rw [hrq]
      exact hold
    next =>
      split
      next hrp =>
        rw [hrp, hp] at hold
        rw [hrp]
        exact hold
      next => exact hold
  · rw [setThread_thread, setThread_thread] at hr ⊢
    split at hr
    next => cases hr
    next =>
      split at hr
      next =>
        cases hr
        rw [if_pos rfl, ← h.inv.refs.cwd]
        refine ⟨rfl, hnone, List.nodup_finRange _, fun fd _ => ?_⟩
        rw [← h.inv.refs.ofile]
        exact hfree fd
      next =>
        obtain ⟨h1, h2⟩ := h.child r q' fds hr
        have hqq : q' ≠ q := by
          rintro rfl
          exact hnot r fds hr
        have hqp : q' ≠ p := by
          rintro rfl
          rw [hp] at h1
          cases h1
        rw [if_neg hqq, if_neg hqp]
        exact ⟨h1, h2⟩
  · rw [setThread_thread, setThread_thread] at hr hr'
    split at hr
    next => cases hr
    next =>
      split at hr'
      next => cases hr'
      next =>
        split at hr
        next hrp =>
          cases hr
          split at hr'
          next hrp' => rw [hrp, hrp']
          next => exact absurd hr' (hnot r' fds')
        next =>
          split at hr'
          next =>
            cases hr'
            exact absurd hr (hnot r fds)
          next => exact h.parent r r' q' fds fds' hr hr'

/-- **Every step keeps the processes to the rules.** -/
theorem Inv.step (h : x.Inv T own) {e : Event} (hx : x.step e = some x') :
    ∃ T' own', x'.Inv T' own' ∧ x.Moves e T T' := by
  cases e with
  | start p c =>
    have hx : x.start p c = some x' := hx
    unfold Sys.start at hx
    split at hx
    next hp hcwd =>
      cases hx
      have hrp : (T p).Rests := by
        have := h.thread p
        rwa [hp] at this
      refine ⟨update T p (T p), own, h.goto ?_
        (Hold.Call.follows_body c hrp) (by rw [hp]; exact Thread.noConfusion)
        (fun _ _ => Thread.noConfusion), moves_rests rfl hrp hrp⟩
      rw [update_eq_self]
      exact h.inv
    next => cases hx
  | fork p q =>
    have hx : x.fork p q = some x' := hx
    unfold Sys.fork at hx
    split at hx
    next hp hcwd hq hnone =>
      split at hx
      next hfree =>
        cases hx
        have hrp : (T p).Rests := by
          have := h.thread p
          rwa [hp] at this
        exact ⟨T, own, h.fork hp hcwd hq hnone hfree, moves_self rfl hrp⟩
      next => cases hx
    next => cases hx
  | run p =>
    have hx : x.run p = some x' := hx
    unfold Sys.run at hx
    split at hx
    next y hp => exact h.runCall hp hx
    next q fds hp => exact h.runFork hp hx
    next => cases hx
    next => cases hx

end Sys

/-! ## The start -/

/-- What the processes hold in the beginning. -/
def bootHold (p : Slot) : Hold where
  bal := ⟨fun ip => if p = 0 ∧ ip.val = 0 then 1 else 0, fun _ => 0, fun _ => .nothing,
    if p = 0 then some ⟨0, by decide⟩ else none, fun _ => none, 0, none⟩
  lock _ := .none
  blk _ := none

theorem bootHold_rests (p : Slot) : (bootHold p).Rests := by
  refine ⟨(bootHold p).bal, ⟨⟨fun _ => .inl rfl, ?_, ?_, ?_⟩, rfl, ?_⟩, ⟨fun ip => ?_, fun f => ?_,
    fun _ => Know.noConfusion, rfl, rfl⟩⟩
  · intro ip d hd
    cases hd
  · intro ip ip' d d' b _ hd
    cases hd
  · intro b hb
    exact absurd rfl hb
  · ext ip
    simp [Hold.locked, bootHold]
  · show (if p = 0 ∧ ip.val = 0 then 1 else 0) =
      if (if p = 0 then some (⟨0, by decide⟩ : IRef) else none) = some ip then 1 else 0
    by_cases hp : p = 0
    · simp [hp, Fin.ext_iff, eq_comm]
    · simp [hp]
  · simp [Bal.opens, bootHold]

section Boot

variable (img : Image) (console : List (Option (List UInt8)))

theorem Image.boot_refs : Refs (img.boot console) bootHold where
  refs ip := by
    have hfiles : (img.boot console).files ip = 0 := by
      simp [State.files, Image.boot, File.Is]
    have hsum : ∑ p : Slot, (bootHold p).bal.refs ip = if ip.val = 0 then 1 else 0 := by
      rw [Finset.sum_eq_single 0]
      · simp [bootHold]
      · intro p _ hp
        simp [bootHold, hp]
      · simp
    rw [hfiles, hsum]
    show (if ip.val = 0 then (1 : Int) else 0) = _
    split <;> rfl
  frefs f := by simp [Image.boot, bootHold]
  notype _ _ := rfl
  fresh p f hk := by cases hk
  known p f ip hk := by cases hk
  ops := by simp [Image.boot, bootHold]
  cwd _ := rfl
  ofile _ := rfl

theorem Image.boot_locks : Locks (img.boot console) bootHold where
  uniq e e' he he' _ := by
    have hroot : ∀ e : IRef, 0 < ((img.boot console).inode e).ref → e.val = 0 := by
      intro e he
      by_contra hne
      simp [Image.boot, hne] at he
    exact Fin.ext ((hroot e he).trans (hroot e' he').symm)
  busy e := by simp [Image.boot, bootHold]
  excl p q e hp := absurd rfl hp
  secure p e hp := absurd rfl hp
  held p e d dk hl := by cases hl
  rest e _ hv := by cases hv
  zero := img.zero

/-- Who owns the blocks in the beginning. -/
theorem Image.exists_owned : ∃ own, Owned (img.boot console) bootHold own := by
  classical
  have hno : ∀ i, ¬ HeldAt (img.boot console) bootHold i := by
    rintro i ⟨p, e, d, dk, hl, -⟩
    cases hl
  let uses (i b : Nat) : Prop := (img.boot console).Uses i b
  let own : Nat → Owner := fun b =>
    if b < nmeta ∨ FSSIZE ≤ b then .fixed
    else if h : ∃ i, uses i b then .disk h.choose else .free
  have hrange : ∀ i b, uses i b → ¬ (b < nmeta ∨ FSSIZE ≤ b) := by
    intro i b hu
    have := (img.mapped i).own b hu
    omega
  have hfree : ∀ b, own b = .free ↔ ¬ (b < nmeta ∨ FSSIZE ≤ b) ∧ ¬ ∃ i, uses i b := by
    intro b
    by_cases h1 : b < nmeta ∨ FSSIZE ≤ b
    · simp [own, h1]
    · by_cases h2 : ∃ i, uses i b
      · simp [own, h1, h2]
      · simp [own, h1, h2]
  refine ⟨own, fun p b => ?_, fun i _ => img.mapped i, fun i b => ?_, fun b hb => ?_, fun b => ?_⟩
  · have : own b ≠ .proc p := by
      by_cases h1 : b < nmeta ∨ FSSIZE ≤ b
      · simp [own, h1]
      · by_cases h2 : ∃ i, uses i b
        · simp [own, h1, h2]
        · simp [own, h1, h2]
    rw [if_neg this]
    rfl
  · constructor
    · intro ho
      refine ⟨hno i, ?_⟩
      by_cases h1 : b < nmeta ∨ FSSIZE ≤ b
      · simp [own, h1] at ho
      · by_cases h2 : ∃ i, uses i b
        · simp only [own, if_neg h1, dif_pos h2] at ho
          rw [← Owner.disk.inj ho]
          exact h2.choose_spec
        · simp [own, h1, h2] at ho
    · rintro ⟨-, hu⟩
      have h2 : ∃ i, uses i b := ⟨i, hu⟩
      simp only [own, if_neg (hrange i b hu), dif_pos h2]
      rw [img.once _ i b h2.choose_spec hu]
  · rw [hfree, ← Bool.not_eq_true]
    have hexact := img.exact b hb
    show ¬ img.bitmap b = true ↔ _
    rw [hexact, not_or, not_or]
    constructor
    · rintro ⟨h1, h2⟩
      exact ⟨⟨h1, by omega⟩, h2⟩
    · rintro ⟨⟨h1, -⟩, h2⟩
      exact ⟨h1, h2⟩
  · by_cases h1 : b < nmeta ∨ FSSIZE ≤ b
    · simp [own, h1]
    · by_cases h2 : ∃ i, uses i b
      · simp [own, h1, h2]
      · simp [own, h1, h2]

theorem Image.boot_inv : ∃ own, Sys.Inv ⟨img.boot console, fun _ => .idle⟩ bootHold own := by
  obtain ⟨own, ho⟩ := img.exists_owned console
  refine ⟨own, ⟨img.boot_refs console, img.boot_locks console, ho⟩, fun p => bootHold_rests p, ?_, ?_⟩
  · intro p q fds hp
    cases hp
  · intro p p' q fds fds' hp
    cases hp

end Boot

/-- **In every state reached the processes keep to the rules.** -/
theorem sys_inv {img : Image} {x : Sys} (h : (system img).Reachable x) : ∃ T own, x.Inv T own := by
  refine Machine.ReachableBy.induct (I := fun x : Sys => ∃ T own, x.Inv T own) ?_ ?_ h
  · rintro x ⟨console, rfl⟩
    obtain ⟨own, hi⟩ := img.boot_inv console
    exact ⟨bootHold, own, hi⟩
  · rintro x e x' - ⟨T, own, hi⟩ - hs
    obtain ⟨T', own', hi', -⟩ := hi.step hs
    exact ⟨T', own', hi'⟩

end Xv6.Fs
