import OperatingSystems.Lib.Script
import OperatingSystems.Log.Bio
import OperatingSystems.Proc.Table

/-!
# The state of the file system

What `fs.c` and `file.c` keep: the disk, as it is seen through the buffer cache, the
inode cache, the table of open files, and the current directory and open files of every
process.  The free map and the inodes on the disk are tables here, and every other block
is the bytes it holds.

The code above is written as programs over `Op`.  An operation is one critical section:
what is done under `icache.lock` or `ftable.lock`, or with the buffer of one block between
`bread` and `brelse`, or with fields of the caller's own that no one else touches.  What
it does to the state is `exec`.

* `State`: the state.
* `Op`, `exec`: the operations.
* `FsM`: programs over them.
-/

namespace Xv6.Fs

open Function

/-! ## Constants -/

/-- `NDIRECT`: the block addresses in an inode. -/
def NDIRECT : Nat := 12

/-- `NINDIRECT`: the block addresses in an indirect block. -/
def NINDIRECT : Nat := BSIZE / 4

/-- `MAXFILE`: the most blocks of a file. -/
def MAXFILE : Nat := NDIRECT + NINDIRECT

/-- `IPB`: inodes per block. -/
def IPB : Nat := BSIZE / 64

/-- `BPB`: bits of the free map per block. -/
def BPB : Nat := BSIZE * 8

/-- `DIRSIZ`: the size of a name in a directory entry. -/
def DIRSIZ : Nat := 14

/-- `sizeof(struct dirent)`. -/
def DIRENT : Nat := 16

/-- `ROOTINO`: the number of the root inode. -/
def ROOTINO : Nat := 1

/-- `NINODE`: the size of the inode cache. -/
def NINODE : Nat := 50

/-- `NFILE`: open files per system. -/
def NFILE : Nat := 100

/-- `NOFILE`: open files per process. -/
def NOFILE : Nat := 16

/-- `CONSOLE`: the device number of the console. -/
def CONSOLE : Nat := 1

/-- `NINODES`: the inodes `mkfs` makes room for, which is `sb.ninodes`. -/
def NINODES : Nat := 200

def T_DIR : Nat := 1

def T_FILE : Nat := 2

def T_DEV : Nat := 3

/-- `sb.inodestart`: the log is before the inodes. -/
def inodestart : Nat := 2 + LOGSIZE

/-- `sb.bmapstart`. -/
def bmapstart : Nat := inodestart + (NINODES / IPB + 1)

/-- `nmeta`: the number of blocks that hold no data. -/
def nmeta : Nat := bmapstart + (FSSIZE / BPB + 1)

/-- `IBLOCK`: the block of an inode. -/
def iblock (inum : Nat) : Nat := inum / IPB + inodestart

/-- `BBLOCK`: the block of the free map with the bit of a block. -/
def bblock (b : Nat) : Nat := b / BPB + bmapstart

/-! ## The state -/

/-- `struct dinode`.  `nlink` is a `short`. -/
structure Dinode where
  type : Nat
  major : Nat
  minor : Nat
  nlink : Int
  size : Nat
  addrs : Nat → Nat

/-- An inode that is all zeroes. -/
def Dinode.zero : Dinode := ⟨0, 0, 0, 0, 0, fun _ => 0⟩

/-- An integer as a `short` holds it. -/
def short (x : Int) : Int := x.bmod 65536

/-- `struct inode`: `din` is the copy of the inode on the disk. -/
structure Inode where
  inum : Nat
  ref : Int
  busy : Bool
  valid : Bool
  din : Dinode

/-- What a file is. -/
inductive FdType
  | none
  | pipe
  | inode
deriving DecidableEq

abbrev IRef := Fin NINODE

abbrev FRef := Fin NFILE

abbrev Fd := Fin NOFILE

instance neZero_NFILE : NeZero NFILE := ⟨by decide⟩

instance neZero_NOFILE : NeZero NOFILE := ⟨by decide⟩

/-- `struct file`; `pipe` is an address. -/
structure File where
  type : FdType
  ref : Int
  readable : Bool
  writable : Bool
  pipe : Nat
  ip : IRef
  off : Nat

/-- The file system.  `lh` is the header of the log, and `console` is what the calls of
`consoleread` to come return: the bytes, or `none` if the process is killed. -/
structure State where
  bitmap : Nat → Bool
  dinode : Nat → Dinode
  block : Nat → Block
  inode : IRef → Inode
  file : FRef → File
  cwd : Slot → Option IRef
  ofile : Slot → Fd → Option FRef
  outstanding : Nat
  lh : List Nat
  console : List (Option (List UInt8))

namespace State

def setInode (s : State) (ip : IRef) (x : Inode) : State :=
  { s with inode := update s.inode ip x }

def setFile (s : State) (f : FRef) (x : File) : State :=
  { s with file := update s.file f x }

/-- `log_write`, of a buffer that was changed already.  It puts the block in the header
unless it is there. -/
def log {α : Type} (s : State) (b : Nat) (r : α) : Outcome State α :=
  if LOGSIZE ≤ s.lh.length ∨ LOGSIZE - 1 ≤ s.lh.length then .panic "too big a transaction"
  else if s.outstanding < 1 then .panic "log_write outside of trans"
  else .ok r { s with lh := if b ∈ s.lh then s.lh else s.lh ++ [b] }

/-- The block `balloc` takes: the first one that is free. -/
def freeBlock (s : State) : Option Nat := (List.range FSSIZE).find? fun b => !s.bitmap b

/-- The entry of `iget` for an inode that is in use. -/
def cached (s : State) (inum : Nat) : Option IRef :=
  (List.finRange NINODE).find? fun ip => 0 < (s.inode ip).ref ∧ (s.inode ip).inum = inum

/-- The first entry of the cache that is not in use. -/
def empty (s : State) : Option IRef :=
  (List.finRange NINODE).find? fun ip => (s.inode ip).ref = 0

/-- The first file that is not in use. -/
def freeFile (s : State) : Option FRef := (List.finRange NFILE).find? fun f => (s.file f).ref = 0

/-- The first file descriptor of a process that is not in use. -/
def freeFd (s : State) (p : Slot) : Option Fd :=
  (List.finRange NOFILE).find? fun fd => s.ofile p fd = none

end State

/-! ## The operations -/

inductive Op
  /-- The whole of `iget`. -/
  | iget (inum : Nat)
  /-- The whole of `idup`. -/
  | idup (ip : IRef)
  /-- `ilock` up to where it has set `I_BUSY`. -/
  | ilockBusy (ip : IRef)
  /-- The rest of `ilock`: the inode is read unless it is valid. -/
  | ilockRead (ip : IRef)
  /-- The whole of `iunlock`. -/
  | iunlock (ip : IRef)
  /-- The first section of `iput`: whether the inode is to be freed. -/
  | iputStart (ip : IRef)
  /-- The last section of `iput`, for an inode that was freed. -/
  | iputEnd (ip : IRef)
  /-- Read the fields of a locked inode. -/
  | getInode (ip : IRef)
  /-- Assign the fields of a locked inode. -/
  | setInode (ip : IRef) (d : Dinode)
  /-- `ip->inum`. -/
  | getInum (ip : IRef)
  /-- The whole of `iupdate`. -/
  | iupdate (ip : IRef)
  /-- An iteration of `ialloc`: whether the inode was free. -/
  | iallocTry (inum type : Nat)
  /-- `balloc` up to the call of `bzero`. -/
  | ballocBit
  /-- The whole of `bfree`. -/
  | bfree (b : Nat)
  /-- `bread` and `brelse`. -/
  | bread (b : Nat)
  /-- Put these bytes in the buffer, and `log_write` it. -/
  | logWrite (b : Nat) (d : Block)
  /-- The whole of `filealloc`. -/
  | filealloc
  /-- The whole of `filedup`. -/
  | filedup (f : FRef)
  /-- The first section of `fileclose`: the file, if this was its last reference. -/
  | fileDrop (f : FRef)
  /-- The whole of `pipeclose`. -/
  | pipeclose (pipe : Nat) (writable : Bool)
  /-- Read the fields of a file. -/
  | getFile (f : FRef)
  /-- Assign the fields of a file, all but `ref`. -/
  | setFile (f : FRef) (x : File)
  /-- `f->off += r`. -/
  | addOff (f : FRef) (r : Nat)
  /-- The whole of `fdalloc`. -/
  | fdalloc (f : FRef)
  /-- `proc->ofile[fd]`. -/
  | getOfile (fd : Fd)
  /-- `proc->ofile[fd] = 0`. -/
  | clearOfile (fd : Fd)
  /-- `proc->cwd`. -/
  | getCwd
  /-- `proc->cwd = ip`. -/
  | setCwd (ip : Option IRef)
  | beginOp
  | endOp
  /-- What the console gives to `consoleread`. -/
  | consoleread (n : Nat)
  | panic (why : String)

/-- What an operation answers. -/
@[reducible] def Op.Ret : Op → Type
  | .iget _ => IRef
  | .iputStart _ => Bool
  | .getInode _ => Dinode
  | .getInum _ => Nat
  | .iallocTry _ _ => Bool
  | .ballocBit => Nat
  | .bread _ => Block
  | .filealloc => Option FRef
  | .fileDrop _ => Option File
  | .getFile _ => File
  | .fdalloc _ => Option Fd
  | .getOfile _ => Option FRef
  | .getCwd => Option IRef
  | .consoleread _ => Option (List UInt8)
  | .panic _ => Empty
  | _ => Unit

/-- `iget`. -/
def execIget (s : State) (inum : Nat) : Outcome State IRef :=
  match s.cached inum with
  | some ip => .ok ip (s.setInode ip { s.inode ip with ref := (s.inode ip).ref + 1 })
  | none =>
    match s.empty with
    | some ip =>
      .ok ip (s.setInode ip { s.inode ip with inum, ref := 1, busy := false, valid := false })
    | none => .panic "iget: no inodes"

/-- `ilock`, up to where the lock is taken. -/
def execIlockBusy (s : State) (ip : IRef) : Outcome State Unit :=
  if (s.inode ip).ref < 1 then .panic "ilock"
  else if (s.inode ip).busy then .block
  else .ok () (s.setInode ip { s.inode ip with busy := true })

/-- `ilock`, once the lock is taken. -/
def execIlockRead (s : State) (ip : IRef) : Outcome State Unit :=
  if (s.inode ip).valid then .ok () s
  else if (s.dinode (s.inode ip).inum).type = 0 then .panic "ilock: no type"
  else .ok () (s.setInode ip { s.inode ip with din := s.dinode (s.inode ip).inum, valid := true })

/-- `iunlock`. -/
def execIunlock (s : State) (ip : IRef) : Outcome State Unit :=
  if (s.inode ip).busy = false ∨ (s.inode ip).ref < 1 then .panic "iunlock"
  else .ok () (s.setInode ip { s.inode ip with busy := false })

/-- The first section of `iput`. -/
def execIputStart (s : State) (ip : IRef) : Outcome State Bool :=
  if (s.inode ip).ref = 1 ∧ (s.inode ip).valid = true ∧ (s.inode ip).din.nlink = 0 then
    if (s.inode ip).busy then .panic "iput busy"
    else .ok true (s.setInode ip { s.inode ip with busy := true })
  else .ok false (s.setInode ip { s.inode ip with ref := (s.inode ip).ref - 1 })

/-- An iteration of `ialloc`. -/
def execIallocTry (s : State) (inum type : Nat) : Outcome State Bool :=
  if (s.dinode inum).type = 0 then
    { s with dinode := update s.dinode inum { Dinode.zero with type } }.log (iblock inum) true
  else .ok false s

/-- `balloc`, up to the call of `bzero`. -/
def execBallocBit (s : State) : Outcome State Nat :=
  match s.freeBlock with
  | some b => { s with bitmap := update s.bitmap b true }.log (bblock b) b
  | none => .panic "balloc: out of blocks"

/-- `bfree`. -/
def execBfree (s : State) (b : Nat) : Outcome State Unit :=
  if s.bitmap b then { s with bitmap := update s.bitmap b false }.log (bblock b) ()
  else .panic "freeing free block"

/-- `filealloc`. -/
def execFilealloc (s : State) : Outcome State (Option FRef) :=
  match s.freeFile with
  | some f => .ok (some f) (s.setFile f { s.file f with ref := 1 })
  | none => .ok none s

/-- `filedup`. -/
def execFiledup (s : State) (f : FRef) : Outcome State Unit :=
  if (s.file f).ref < 1 then .panic "filedup"
  else .ok () (s.setFile f { s.file f with ref := (s.file f).ref + 1 })

/-- The first section of `fileclose`. -/
def execFileDrop (s : State) (f : FRef) : Outcome State (Option File) :=
  if (s.file f).ref < 1 then .panic "fileclose"
  else if 0 < (s.file f).ref - 1 then
    .ok none (s.setFile f { s.file f with ref := (s.file f).ref - 1 })
  else .ok (some (s.file f)) (s.setFile f { s.file f with ref := 0, type := .none })

/-- `fdalloc`. -/
def execFdalloc (p : Slot) (s : State) (f : FRef) : Outcome State (Option Fd) :=
  match s.freeFd p with
  | some fd =>
    .ok (some fd) { s with ofile := update s.ofile p (update (s.ofile p) fd (some f)) }
  | none => .ok none s

/-- `begin_op`. -/
def execBeginOp (s : State) : Outcome State Unit :=
  if LOGSIZE < s.lh.length + (s.outstanding + 1) * MAXOPBLOCKS then .block
  else .ok () { s with outstanding := s.outstanding + 1 }

/-- What the console gives to `consoleread`. -/
def execConsoleread (s : State) (n : Nat) : Outcome State (Option (List UInt8)) :=
  match s.console with
  | [] => .block
  | r :: rs => .ok (r.map (List.take n)) { s with console := rs }

/-- What an operation of process `p` does. -/
def exec (p : Slot) (s : State) : (o : Op) → Outcome State o.Ret
  | .iget inum => execIget s inum
  | .idup ip => .ok () (s.setInode ip { s.inode ip with ref := (s.inode ip).ref + 1 })
  | .ilockBusy ip => execIlockBusy s ip
  | .ilockRead ip => execIlockRead s ip
  | .iunlock ip => execIunlock s ip
  | .iputStart ip => execIputStart s ip
  | .iputEnd ip =>
    .ok () (s.setInode ip
      { s.inode ip with ref := (s.inode ip).ref - 1, busy := false, valid := false })
  | .getInode ip => .ok (s.inode ip).din s
  | .setInode ip d => .ok () (s.setInode ip { s.inode ip with din := d })
  | .getInum ip => .ok (s.inode ip).inum s
  | .iupdate ip =>
    { s with dinode := update s.dinode (s.inode ip).inum (s.inode ip).din }.log
      (iblock (s.inode ip).inum) ()
  | .iallocTry inum type => execIallocTry s inum type
  | .ballocBit => execBallocBit s
  | .bfree b => execBfree s b
  | .bread b => .ok (s.block b) s
  | .logWrite b d => { s with block := update s.block b d }.log b ()
  | .filealloc => execFilealloc s
  | .filedup f => execFiledup s f
  | .fileDrop f => execFileDrop s f
  | .pipeclose _ _ => .ok () s
  | .getFile f => .ok (s.file f) s
  | .setFile f x => .ok () (s.setFile f { x with ref := (s.file f).ref })
  | .addOff f r => .ok () (s.setFile f { s.file f with off := (s.file f).off + r })
  | .fdalloc f => execFdalloc p s f
  | .getOfile fd => .ok (s.ofile p fd) s
  | .clearOfile fd =>
    .ok () { s with ofile := update s.ofile p (update (s.ofile p) fd none) }
  | .getCwd => .ok (s.cwd p) s
  | .setCwd ip => .ok () { s with cwd := update s.cwd p ip }
  | .beginOp => execBeginOp s
  | .endOp =>
    .ok () { s with
      outstanding := s.outstanding - 1
      lh := if s.outstanding - 1 = 0 then [] else s.lh }
  | .consoleread n => execConsoleread s n
  | .panic why => .panic why

/-- Programs of the file system. -/
abbrev FsM (α : Type) : Type := Script Op Op.Ret α

/-- Call an operation. -/
def ask (o : Op) : FsM o.Ret := Script.call o

theorem follows_ask {τ : Type} {P : Script.Protocol Op Op.Ret τ} {o : Op} {t : τ}
    {Q : o.Ret → τ → Prop} (h : P.pre o t) (hQ : ∀ r t', P.post o t r t' → Q r t') :
    (ask o).Follows P Q t := ⟨h, hQ⟩

end Xv6.Fs
