import OperatingSystems.Log.Bio

/-!
# The log

The model of `log.c`: any number of processes between `begin_op` and `end_op`, the
commit, crashes, and the recovery.

A step is one critical section under `log.lock`, or one iteration of a loop over
the blocks of the log, which writes one block to the disk.  `log_write` is two
steps: its checks are made before it takes the lock.  A crash may come before
any step, and leaves nothing but the disk.

* `LogArea`, `putHead`, `getHead`: the log on the disk, and its header.
* `Sys`, `Sys.step`, `logSystem`: the state, the steps and the machine.
-/

namespace Xv6

/-- Where the log is on the disk: `log.start` and `log.size`.  There is a header
block, it has room for the block numbers, and the area is on the disk. -/
structure LogArea where
  start : Blockno
  size : Nat
  pos : 0 < size
  header : size ≤ LOGSIZE + 1
  fits : start.toNat + size ≤ FSSIZE

namespace LogArea

/-- The block is in the area. -/
def Has (A : LogArea) (b : Blockno) : Prop :=
  A.start.toNat ≤ b.toNat ∧ b.toNat < A.start.toNat + A.size

instance (A : LogArea) (b : Blockno) : Decidable (A.Has b) := inferInstanceAs (Decidable (_ ∧ _))

/-- `log.start+tail+1`. -/
def slot (A : LogArea) (tail : Nat) : Blockno := A.start + UInt32.ofNat (tail + 1)

theorem has_start (A : LogArea) : A.Has A.start := by
  have := A.pos
  exact ⟨le_refl _, by omega⟩

theorem toNat_slot (A : LogArea) {tail : Nat} (h : tail + 1 < A.size) :
    (A.slot tail).toNat = A.start.toNat + (tail + 1) := by
  have hfits := A.fits
  have hsize := A.header
  unfold FSSIZE at hfits
  unfold slot
  rw [UInt32.toNat_add, UInt32.toNat_ofNat']
  omega

theorem has_slot (A : LogArea) {tail : Nat} (h : tail + 1 < A.size) : A.Has (A.slot tail) := by
  unfold Has
  rw [A.toNat_slot h]
  omega

theorem slot_ne_start (A : LogArea) {tail : Nat} (h : tail + 1 < A.size) :
    A.slot tail ≠ A.start := by
  intro heq
  have := congrArg UInt32.toNat heq
  rw [A.toNat_slot h] at this
  omega

theorem slot_inj (A : LogArea) {i j : Nat} (hi : i + 1 < A.size) (hj : j + 1 < A.size)
    (h : A.slot i = A.slot j) : i = j := by
  have := congrArg UInt32.toNat h
  rw [A.toNat_slot hi, A.toNat_slot hj] at this
  omega

/-- The area `mkfs` makes. -/
def mkfs : LogArea := ⟨2, LOGSIZE, by decide, by decide, by decide⟩

end LogArea

/-! ## The header block -/

/-- The loop of `write_head`. -/
def putBlocks : Nat → List Blockno → Block → Block
  | _, [], data => data
  | i, b :: bs, data => putBlocks (i + 1) bs (data.put32 (4 + 4 * i) b)

/-- The header block as `write_head` changes it. -/
def putHead (lh : List Blockno) (data : Block) : Block :=
  putBlocks 0 lh (data.put32 0 (UInt32.ofNat lh.length))

/-- The header as `read_head` reads it. -/
def getHead (data : Block) : List Blockno :=
  (List.range (data.get32 0).toInt32.toInt.toNat).map fun i => data.get32 (4 + 4 * i)

/-- Integers before those the loop writes. -/
theorem get32_putBlocks_of_lt {i j : Nat} (bs : List Blockno) (data : Block) (h : j + 4 ≤ 4 + 4 * i) :
    (putBlocks i bs data).get32 j = data.get32 j := by
  induction bs generalizing i data with
  | nil => rfl
  | cons b bs ih =>
    rw [putBlocks, ih _ (by omega)]
    exact Bytes.get32_put32_of_disjoint _ _ (.inl h)

theorem get32_putBlocks {i : Nat} (bs : List Blockno) (data : Block)
    (hroom : 4 + 4 * (i + bs.length) ≤ BSIZE) {k : Nat} (hk : k < bs.length) :
    (putBlocks i bs data).get32 (4 + 4 * (i + k)) = bs[k] := by
  induction bs generalizing i data k with
  | nil => simp at hk
  | cons b bs ih =>
    rw [putBlocks]
    rw [List.length_cons] at hroom
    cases k with
    | zero =>
      rw [get32_putBlocks_of_lt _ _ (by omega)]
      exact Bytes.get32_put32 _ _ (by unfold BSIZE at *; omega)
    | succ k =>
      have hstep := ih (i := i + 1) (data.put32 (4 + 4 * i) b) (by omega) (by simpa using hk)
      rw [show i + (k + 1) = i + 1 + k by omega]
      simpa using hstep

/-- **The header is read back.** -/
theorem getHead_putHead {lh : List Blockno} (data : Block) (h : lh.length ≤ LOGSIZE) :
    getHead (putHead lh data) = lh := by
  have hn : ((putHead lh data).get32 0).toInt32.toInt.toNat = lh.length := by
    have hlen : ∀ n, n ≤ LOGSIZE → (UInt32.ofNat n).toInt32.toInt.toNat = n := by decide
    rw [putHead, get32_putBlocks_of_lt _ _ (by omega)]
    exact (congrArg (fun v : UInt32 => v.toInt32.toInt.toNat)
      (Bytes.get32_put32 data _ (by decide))).trans (hlen _ h)
  have hroom : 4 + 4 * (0 + lh.length) ≤ BSIZE := by
    unfold LOGSIZE MAXOPBLOCKS at h
    unfold BSIZE
    omega
  unfold getHead
  rw [hn]
  refine List.ext_getElem (by simp) ?_
  intro k hk hk'
  have hget := get32_putBlocks lh (data.put32 0 (UInt32.ofNat lh.length)) hroom hk'
  simpa [putHead] using hget

namespace Bio

/-- `read_head`. -/
def readHead (io : Bio) (start : Blockno) : Except Halt (Bio × List Blockno) := do
  let io ← io.bread start
  let lh := getHead (io.view start).data
  let io ← io.brelse start
  return (io, lh)

/-- `write_head`. -/
def writeHead (io : Bio) (start : Blockno) (lh : List Blockno) : Except Halt Bio := do
  let io ← io.bread start
  let io := io.update start fun x => x.put (putHead lh x.data)
  let io ← io.bwrite start
  io.brelse start

/-- One iteration of `write_log`. -/
def writeLog (io : Bio) (dst src : Blockno) : Except Halt Bio := do
  let io ← io.bread dst
  let io ← io.bread src
  let io := io.memmove dst src
  let io ← io.bwrite dst
  let io ← io.brelse src
  io.brelse dst

/-- One iteration of `install_trans`. -/
def installTrans (io : Bio) (lbuf dbuf : Blockno) : Except Halt Bio := do
  let io ← io.bread lbuf
  let io ← io.bread dbuf
  let io := io.memmove dbuf lbuf
  let io ← io.bwrite dbuf
  let io ← io.brelse lbuf
  io.brelse dbuf

end Bio

/-! ## The state -/

/-- `struct log`, with the block numbers of its header as a list. -/
structure Log where
  outstanding : Nat
  committing : Bool
  lh : List Blockno

/-- Where `commit` stands. -/
inductive CommitPc
  | start
  | writeLog (tail : Nat)
  | writeHead
  | installTrans (tail : Nat)
  | eraseHead
  | done
deriving DecidableEq

/-- Where `recover_from_log` stands. -/
inductive RecoverPc
  | readHead
  | installTrans (tail : Nat)
  | writeHead
deriving DecidableEq

/-- Where a process stands: not in an operation, in an operation, in `log_write`
after its checks, or in the commit. -/
inductive Pc
  | outside
  | inOp
  | logWrite (b : Blockno)
  | commit (pc : CommitPc)
deriving DecidableEq

/-- A process: the blocks whose buffers it has, those of them it has changed and not
logged yet, and the blocks its operation has logged. -/
structure Thread where
  pc : Pc
  held : List Blockno
  changed : List Blockno
  logged : List Blockno

/-- The process has appended a block to the log. -/
def Thread.append (t : Thread) (b : Blockno) : Thread :=
  { t with
    pc := .inOp
    changed := t.changed.filter (· ≠ b)
    logged := if b ∈ t.logged then t.logged else b :: t.logged }

/-- A block is appended to the header unless it is there. -/
def Log.append (l : Log) (b : Blockno) : Log :=
  { l with lh := if b ∈ l.lh then l.lh else l.lh ++ [b] }

theorem Log.mem_append {l : Log} {b b' : Blockno} : b' ∈ (l.append b).lh ↔ b' ∈ l.lh ∨ b' = b := by
  simp only [Log.append]
  split
  · rename_i hin
    exact ⟨.inl, fun h => h.elim id fun heq => heq ▸ hin⟩
  · simp

/-- What the machine is doing. -/
inductive Activity
  | recovering (pc : RecoverPc)
  | running
  | panicked (why : Panic)
deriving DecidableEq

structure Sys where
  io : Bio
  log : Log
  thread : Nat → Thread
  mode : Activity

namespace Sys

inductive Event
  | beginOp (p : Nat)
  | bread (p : Nat) (b : Blockno)
  | change (p : Nat) (b : Blockno) (d : Block)
  | logWrite (p : Nat) (b : Blockno)
  | append (p : Nat)
  | brelse (p : Nat) (b : Blockno)
  | endOp (p : Nat)
  | commit (p : Nat)
  | recover
  | crash

/-- The machine starts, with nothing but its disk. -/
def boot (d : Disk) : Sys :=
  ⟨.binit d, ⟨0, false, []⟩, fun _ => ⟨.outside, [], [], []⟩, .recovering .readHead⟩

/-- Change the state of a process. -/
def setThread (s : Sys) (p : Nat) (t : Thread) : Sys :=
  { s with thread := Function.update s.thread p t }

/-- Go on with what a call returns, sleep, or panic. -/
def after {α : Type} (s : Sys) (r : Except Halt α) (k : α → Sys) : Option Sys :=
  match r with
  | .ok a => some (k a)
  | .error .sleep => none
  | .error (.panic why) => some { s with mode := .panicked why }

/-- `begin_op`; it sleeps while there is a commit, or too little space is left. -/
def beginOp (s : Sys) (p : Nat) : Option Sys :=
  if (s.thread p).pc = .outside then
    if s.log.committing then none
    else if s.log.lh.length + (s.log.outstanding + 1) * MAXOPBLOCKS > LOGSIZE then none
    else
      some { s.setThread p { s.thread p with pc := .inOp, logged := [] } with
        log := { s.log with outstanding := s.log.outstanding + 1 } }
  else none

/-- A process takes a buffer.  The file system reads no block of the log. -/
def take (A : LogArea) (s : Sys) (p : Nat) (b : Blockno) : Option Sys :=
  if ((s.thread p).pc = .outside ∨ (s.thread p).pc = .inOp) ∧ ¬ A.Has b then
    s.after (s.io.bread b) fun io =>
      { s.setThread p { s.thread p with held := b :: (s.thread p).held } with io }
  else none

/-- A process in an operation changes a block whose buffer it has. -/
def change (s : Sys) (p : Nat) (b : Blockno) (d : Block) : Option Sys :=
  if (s.thread p).pc = .inOp ∧ b ∈ (s.thread p).held then
    some { s.setThread p { s.thread p with changed := b :: (s.thread p).changed } with
      io := s.io.update b (Buf.put d) }
  else none

/-- The checks of `log_write`. -/
def logWrite (A : LogArea) (s : Sys) (p : Nat) (b : Blockno) : Option Sys :=
  if (s.thread p).pc = .inOp ∧ b ∈ (s.thread p).held then
    if LOGSIZE ≤ s.log.lh.length ∨ A.size ≤ s.log.lh.length + 1 then
      some { s with mode := .panicked .tooBigATransaction }
    else if s.log.outstanding < 1 then
      some { s with mode := .panicked .logWriteOutsideOfTrans }
    else some (s.setThread p { s.thread p with pc := .logWrite b })
  else none

/-- The rest of `log_write`, under the lock. -/
def append (s : Sys) (p : Nat) : Option Sys :=
  match (s.thread p).pc with
  | .logWrite b =>
    some { s.setThread p ((s.thread p).append b) with
      log := s.log.append b, io := s.io.update b Buf.pin }
  | _ => none

/-- A process gives a buffer back.  It has logged what it changed. -/
def release (s : Sys) (p : Nat) (b : Blockno) : Option Sys :=
  if ((s.thread p).pc = .outside ∨ (s.thread p).pc = .inOp) ∧ b ∈ (s.thread p).held ∧
      b ∉ (s.thread p).changed then
    s.after (s.io.brelse b) fun io =>
      { s.setThread p { s.thread p with held := (s.thread p).held.erase b } with io }
  else none

/-- `end_op` up to the call of `commit`.  The operation has given its buffers back. -/
def endOp (s : Sys) (p : Nat) : Option Sys :=
  if (s.thread p).pc = .inOp ∧ (s.thread p).held = [] then
    if s.log.committing then some { s with mode := .panicked .logCommitting }
    else if s.log.outstanding - 1 = 0 then
      some { s.setThread p { s.thread p with pc := .commit .start } with
        log := { s.log with outstanding := s.log.outstanding - 1, committing := true } }
    else
      some { s.setThread p { s.thread p with pc := .outside } with
        log := { s.log with outstanding := s.log.outstanding - 1 } }
  else none

/-- The process in the commit goes on to `pc`. -/
def commitTo (s : Sys) (p : Nat) (pc : CommitPc) : Sys :=
  s.setThread p { s.thread p with pc := .commit pc }

/-- `commit`, and the end of `end_op`. -/
def commit (A : LogArea) (s : Sys) (p : Nat) : Option Sys :=
  match (s.thread p).pc with
  | .commit .start =>
    some (s.commitTo p (if 0 < s.log.lh.length then .writeLog 0 else .done))
  | .commit (.writeLog tail) =>
    match s.log.lh[tail]? with
    | some b =>
      s.after (s.io.writeLog (A.slot tail) b) fun io =>
        { s.commitTo p (.writeLog (tail + 1)) with io }
    | none => some (s.commitTo p .writeHead)
  | .commit .writeHead =>
    s.after (s.io.writeHead A.start s.log.lh) fun io =>
      { s.commitTo p (.installTrans 0) with io }
  | .commit (.installTrans tail) =>
    match s.log.lh[tail]? with
    | some b =>
      s.after (s.io.installTrans (A.slot tail) b) fun io =>
        { s.commitTo p (.installTrans (tail + 1)) with io }
    | none => some { s.commitTo p .eraseHead with log := { s.log with lh := [] } }
  | .commit .eraseHead =>
    s.after (s.io.writeHead A.start s.log.lh) fun io => { s.commitTo p .done with io }
  | .commit .done =>
    some { s.setThread p { s.thread p with pc := .outside } with
      log := { s.log with committing := false } }
  | _ => none

/-- `recover_from_log`. -/
def recover (A : LogArea) (s : Sys) : RecoverPc → Option Sys
  | .readHead =>
    s.after (s.io.readHead A.start) fun r =>
      { s with io := r.1, log := { s.log with lh := r.2 }, mode := .recovering (.installTrans 0) }
  | .installTrans tail =>
    match s.log.lh[tail]? with
    | some b =>
      s.after (s.io.installTrans (A.slot tail) b) fun io =>
        { s with io, mode := .recovering (.installTrans (tail + 1)) }
    | none => some { s with log := { s.log with lh := [] }, mode := .recovering .writeHead }
  | .writeHead =>
    s.after (s.io.writeHead A.start s.log.lh) fun io => { s with io, mode := .running }

/-- A step of the running system. -/
def run (A : LogArea) (s : Sys) : Event → Option Sys
  | .beginOp p => s.beginOp p
  | .bread p b => s.take A p b
  | .change p b d => s.change p b d
  | .logWrite p b => s.logWrite A p b
  | .append p => s.append p
  | .brelse p b => s.release p b
  | .endOp p => s.endOp p
  | .commit p => s.commit A p
  | .recover => none
  | .crash => none

/-- A step of the machine. -/
def step (A : LogArea) (s : Sys) (e : Event) : Option Sys :=
  match e, s.mode with
  | .crash, _ => some (boot s.io.disk)
  | .recover, .recovering pc => s.recover A pc
  | e, .running => s.run A e
  | _, _ => none

end Sys

/-- The log on a disk that holds `d` when the machine is first started. -/
def logSystem (A : LogArea) (d : Disk) : Machine Sys Sys.Event where
  init := fun s => s = Sys.boot d
  step := fun s e => s.step A e

end Xv6
