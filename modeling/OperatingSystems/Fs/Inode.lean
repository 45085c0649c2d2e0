import OperatingSystems.Fs.State

/-!
# Inodes

The model of `fs.c` up to the reading and writing of files: blocks, inodes, and what is in
them.  Every function is a program over the operations of `State.lean`; a loop runs over
the list of its indices, or over the bytes that are left.
-/

namespace Xv6.Fs

/-- `panic`. -/
def panic {α : Type} (why : String) : FsM α := do
  let r : Empty ← ask (.panic why)
  nomatch r

/-! ## Blocks -/

/-- `bzero`. -/
def bzero (b : Nat) : FsM Unit := ask (.logWrite b .zero)

/-- `balloc`. -/
def balloc : FsM Nat := do
  let b : Nat ← ask .ballocBit
  bzero b
  return b

/-- `bfree`. -/
def bfree (b : Nat) : FsM Unit := ask (.bfree b)

/-- `bread`, for the bytes of a block. -/
def bread (b : Nat) : FsM Block := ask (.bread b)

/-- `log_write`. -/
def logWrite (b : Nat) (d : Block) : FsM Unit := ask (.logWrite b d)

/-! ## Inodes -/

/-- `iget`. -/
def iget (inum : Nat) : FsM IRef := ask (.iget inum)

/-- `idup`. -/
def idup (ip : IRef) : FsM IRef := do
  ask (.idup ip)
  return ip

/-- `ilock`. -/
def ilock (ip : IRef) : FsM Unit := do
  ask (.ilockBusy ip)
  ask (.ilockRead ip)

/-- `iunlock`. -/
def iunlock (ip : IRef) : FsM Unit := ask (.iunlock ip)

/-- The fields of an inode. -/
def getInode (ip : IRef) : FsM Dinode := ask (.getInode ip)

def setInode (ip : IRef) (d : Dinode) : FsM Unit := ask (.setInode ip d)

/-- `iupdate`. -/
def iupdate (ip : IRef) : FsM Unit := ask (.iupdate ip)

/-- `addrs[i] = b`. -/
def Dinode.setAddr (d : Dinode) (i b : Nat) : Dinode :=
  { d with addrs := Function.update d.addrs i b }

/-- The loop of `ialloc`. -/
def iallocFrom (type : Nat) : List Nat → FsM IRef
  | [] => panic "ialloc: no inodes"
  | inum :: inums => do
      let free : Bool ← ask (.iallocTry inum type)
      if free then iget inum
      else iallocFrom type inums

/-- `ialloc`. -/
def ialloc (type : Nat) : FsM IRef := iallocFrom type ((List.range NINODES).drop 1)

/-- An iteration of the first loop of `itrunc`. -/
def truncDirect (ip : IRef) (i : Nat) : FsM Unit := do
  let d ← getInode ip
  if d.addrs i ≠ 0 then
    bfree (d.addrs i)
    setInode ip (d.setAddr i 0)

/-- An iteration of the second loop of `itrunc`. -/
def truncIndirect (a : Block) (j : Nat) : FsM Unit := do
  if a.get32 (4 * j) ≠ 0 then
    bfree (a.get32 (4 * j)).toNat

/-- `itrunc`. -/
def itrunc (ip : IRef) : FsM Unit := do
  (List.range NDIRECT).forM (truncDirect ip)
  let d ← getInode ip
  if d.addrs NDIRECT ≠ 0 then
    let a ← bread (d.addrs NDIRECT)
    (List.range NINDIRECT).forM (truncIndirect a)
    bfree (d.addrs NDIRECT)
    setInode ip (d.setAddr NDIRECT 0)
  let d ← getInode ip
  setInode ip { d with size := 0 }
  iupdate ip

/-- `iput`. -/
def iput (ip : IRef) : FsM Unit := do
  let last : Bool ← ask (.iputStart ip)
  if last then
    itrunc ip
    let d ← getInode ip
    setInode ip { d with type := 0 }
    iupdate ip
    ask (.iputEnd ip)

/-- `iunlockput`. -/
def iunlockput (ip : IRef) : FsM Unit := do
  iunlock ip
  iput ip

/-! ## The content of inodes -/

/-- `ip->addrs[i]`, which is allocated if it is not there. -/
def addrOf (ip : IRef) (i : Nat) : FsM Nat := do
  let d ← getInode ip
  if d.addrs i = 0 then
    let addr ← balloc
    setInode ip (d.setAddr i addr)
    return addr
  else return d.addrs i

/-- `a[bn]` of an indirect block, which is allocated if it is not there. -/
def entryOf (addr bn : Nat) : FsM Nat := do
  let a ← bread addr
  if a.get32 (4 * bn) = 0 then
    let b ← balloc
    logWrite addr (a.put32 (4 * bn) (UInt32.ofNat b))
    return b
  else return (a.get32 (4 * bn)).toNat

/-- `bmap`. -/
def bmap (ip : IRef) (bn : Nat) : FsM Nat := do
  if bn < NDIRECT then addrOf ip bn
  else if bn - NDIRECT < NINDIRECT then
    let addr ← addrOf ip NDIRECT
    entryOf addr (bn - NDIRECT)
  else panic "bmap: out of range"

/-- `consoleread`, which gives the lock away while it waits. -/
def consoleread (ip : IRef) (n : Nat) : FsM (Option (List UInt8)) := do
  iunlock ip
  let r : Option (List UInt8) ← ask (.consoleread n)
  ilock ip
  return r

/-- `consolewrite`. -/
def consolewrite (ip : IRef) (n : Nat) : FsM (Option Nat) := do
  iunlock ip
  ilock ip
  return some n

/-- The loop of `readi`, with `n` bytes left to read. -/
def readLoop (ip : IRef) : (fuel off n : Nat) → FsM (List UInt8)
  | 0, _, _ => return []
  | fuel + 1, off, n => do
      if n = 0 then return []
      let b ← bmap ip (off / BSIZE)
      let d ← bread b
      let m := min n (BSIZE - off % BSIZE)
      let rest ← readLoop ip fuel (off + m) (n - m)
      return d.slice (off % BSIZE) m ++ rest

/-- `readi`; `none` is `-1`. -/
def readi (ip : IRef) (off n : Nat) : FsM (Option (List UInt8)) := do
  let d ← getInode ip
  if d.type = T_DEV then
    if d.major = CONSOLE then consoleread ip n
    else return none
  else if d.size < off ∨ 2 ^ 32 ≤ off + n then return none
  else
    let n := if d.size < off + n then d.size - off else n
    return some (← readLoop ip n off n)

/-- The loop of `writei`, with `n` bytes left to write. -/
def writeLoop (ip : IRef) : (fuel : Nat) → (src : Nat → UInt8) → (off n : Nat) → FsM Unit
  | 0, _, _, _ => return
  | fuel + 1, src, off, n => do
      if n = 0 then return
      let b ← bmap ip (off / BSIZE)
      let d ← bread b
      let m := min n (BSIZE - off % BSIZE)
      logWrite b (d.blit (off % BSIZE) m src)
      writeLoop ip fuel (fun k => src (m + k)) (off + m) (n - m)

/-- `writei`; `none` is `-1`. -/
def writei (ip : IRef) (src : Nat → UInt8) (off n : Nat) : FsM (Option Nat) := do
  let d ← getInode ip
  if d.type = T_DEV then
    if d.major = CONSOLE then consolewrite ip n
    else return none
  else if d.size < off ∨ 2 ^ 32 ≤ off + n then return none
  else if MAXFILE * BSIZE < off + n then return none
  else
    writeLoop ip n src off n
    let d ← getInode ip
    if 0 < n ∧ d.size < off + n then
      setInode ip { d with size := off + n }
      iupdate ip
    return some n

/-- What `stati` copies: the number of the inode, its type, links and size. -/
def stati (ip : IRef) : FsM (Nat × Nat × Int × Nat) := do
  let inum : Nat ← ask (.getInum ip)
  let d ← getInode ip
  return (inum, d.type, d.nlink, d.size)

end Xv6.Fs
