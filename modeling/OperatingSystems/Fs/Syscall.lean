import OperatingSystems.Fs.Path

/-!
# Files and system calls

The model of `file.c` and `sysfile.c`, and of what `exec`, `fork` and `exit` do with files
and inodes.  The arguments are those the calls have fetched: a path that `argstr` could
not fetch is `none`.  The result `-1` is `none`.
-/

namespace Xv6.Fs

/-! ## Open files -/

/-- `fileclose`. -/
def fileclose (f : FRef) : FsM Unit := do
  let last : Option File ← ask (.fileDrop f)
  match last with
  | some ff =>
    if ff.type = .pipe then
      ask (.pipeclose ff.pipe ff.writable)
    else if ff.type = .inode then
      ask .beginOp
      iput ff.ip
      ask .endOp
  | none => return

/-- `filestat`. -/
def filestat (f : FRef) : FsM (Option (Nat × Nat × Int × Nat)) := do
  let x : File ← ask (.getFile f)
  if x.type = .inode then
    ilock x.ip
    let st ← stati x.ip
    iunlock x.ip
    return some st
  else return none

/-- `fileread`, of a file that is not a pipe. -/
def fileread (f : FRef) (n : Nat) : FsM (Option (List UInt8)) := do
  let x : File ← ask (.getFile f)
  if x.readable = false then return none
  else if x.type = .pipe then return none
  else if x.type = .inode then
    ilock x.ip
    let x : File ← ask (.getFile f)
    let r ← readi x.ip x.off n
    match r with
    | some bs => if 0 < bs.length then ask (.addOff f bs.length)
    | none => pure ()
    iunlock x.ip
    return r
  else panic "fileread"

/-- `max` in `filewrite`. -/
def maxWrite : Nat := (LOGSIZE - 1 - 1 - 2) / 2 * 512

/-- An iteration of `filewrite`, from `begin_op` up to `end_op`. -/
def writeSection (f : FRef) (src : Nat → UInt8) (n1 : Nat) : FsM (Option Nat) := do
  ask .beginOp
  let x : File ← ask (.getFile f)
  ilock x.ip
  let x : File ← ask (.getFile f)
  let r ← writei x.ip src x.off n1
  match r with
  | some k => if 0 < k then ask (.addOff f k)
  | none => pure ()
  iunlock x.ip
  return r

/-- An iteration of `filewrite`. -/
def writeChunk (f : FRef) (src : Nat → UInt8) (n1 : Nat) : FsM (Option Nat) := do
  let r ← writeSection f src n1
  ask .endOp
  return r

/-- The loop of `filewrite`, with `n` bytes left to write. -/
def writeChunks (f : FRef) : (fuel : Nat) → (src : Nat → UInt8) → (n : Nat) → FsM Bool
  | 0, _, n => return n = 0
  | fuel + 1, src, n => do
      if n = 0 then return true
      let n1 := min n maxWrite
      match ← writeChunk f src n1 with
      | none => return false
      | some r =>
        if r ≠ n1 then panic "short filewrite"
        else writeChunks f fuel (fun k => src (r + k)) (n - r)

/-- `filewrite`, of a file that is not a pipe. -/
def filewrite (f : FRef) (src : Nat → UInt8) (n : Nat) : FsM (Option Nat) := do
  let x : File ← ask (.getFile f)
  if x.writable = false then return none
  else if x.type = .pipe then return none
  else if x.type = .inode then
    if ← writeChunks f n src n then return some n
    else return none
  else panic "filewrite"

/-! ## System calls -/

/-- `argfd`: the file of a descriptor. -/
def argfd (fd : Option Fd) : FsM (Option FRef) := do
  match fd with
  | none => return none
  | some fd => ask (.getOfile fd)

/-- `sys_dup`. -/
def sysDup (fd : Option Fd) : FsM (Option Nat) := do
  match ← argfd fd with
  | none => return none
  | some f =>
    let r : Option Fd ← ask (.fdalloc f)
    match r with
    | none => return none
    | some fd =>
      ask (.filedup f)
      return some fd

/-- `sys_read`. -/
def sysRead (fd : Option Fd) (n : Nat) : FsM (Option Nat) := do
  match ← argfd fd with
  | none => return none
  | some f => return (← fileread f n).map List.length

/-- `sys_write`. -/
def sysWrite (fd : Option Fd) (src : Nat → UInt8) (n : Nat) : FsM (Option Nat) := do
  match ← argfd fd with
  | none => return none
  | some f => filewrite f src n

/-- `sys_close`. -/
def sysClose (fd : Option Fd) : FsM (Option Nat) := do
  match fd with
  | none => return none
  | some fd =>
    let f : Option FRef ← ask (.getOfile fd)
    match f with
    | none => return none
    | some f =>
      ask (.clearOfile fd)
      fileclose f
      return some 0

/-- `sys_fstat`. -/
def sysFstat (fd : Option Fd) : FsM (Option Nat) := do
  match ← argfd fd with
  | none => return none
  | some f => return (← filestat f).map fun _ => 0

/-- `ip->nlink++; iupdate(ip)`. -/
def addLink (ip : IRef) : FsM Unit := do
  let d ← getInode ip
  setInode ip { d with nlink := short (d.nlink + 1) }
  iupdate ip

/-- `ip->nlink--; iupdate(ip)`. -/
def dropLink (ip : IRef) : FsM Unit := do
  let d ← getInode ip
  setInode ip { d with nlink := short (d.nlink - 1) }
  iupdate ip

/-- The end of `sys_link` after it has failed. -/
def linkBad (ip : IRef) : FsM (Option Nat) := do
  ilock ip
  dropLink ip
  iunlockput ip
  ask .endOp
  return none

/-- `sys_link`. -/
def sysLink (old new : Option Path) : FsM (Option Nat) := do
  match old, new with
  | some old, some new =>
    ask .beginOp
    match ← namei old with
    | none =>
      ask .endOp
      return none
    | some ip =>
      ilock ip
      let d ← getInode ip
      if d.type = T_DIR then
        iunlockput ip
        ask .endOp
        return none
      else
        addLink ip
        iunlock ip
        match ← nameiparent new with
        | none => linkBad ip
        | some (dp, name) =>
          ilock dp
          let inum : Nat ← ask (.getInum ip)
          if ← dirlink dp name inum then
            iunlockput dp
            iput ip
            ask .endOp
            return some 0
          else
            iunlockput dp
            linkBad ip
  | _, _ => return none

/-- The loop of `isdirempty`. -/
def emptyEntries (dp : IRef) : List Nat → FsM Bool
  | [] => return true
  | off :: offs => do
      let de ← readDirent dp off "isdirempty: readi"
      if deInum de ≠ 0 then return false
      else emptyEntries dp offs

/-- `isdirempty`. -/
def isdirempty (dp : IRef) : FsM Bool := do
  let d ← getInode dp
  emptyEntries dp (offsets (2 * DIRENT) d.size)

/-- `"."`. -/
def dot : Name := [46]

/-- `".."`. -/
def dotdot : Name := [46, 46]

/-- The end of `sys_unlink` after it has failed. -/
def unlinkFail (dp : IRef) : FsM (Option Nat) := do
  iunlockput dp
  ask .endOp
  return none

/-- The end of `sys_unlink`: the entry is cleared and the links are counted down. -/
def unlinkEntry (dp ip : IRef) (off : Nat) : FsM (Option Nat) := do
  let r ← writei dp (fun _ => 0) off DIRENT
  if r ≠ some DIRENT then panic "unlink: writei"
  else
    let d ← getInode ip
    if d.type = T_DIR then dropLink dp
    iunlockput dp
    dropLink ip
    iunlockput ip
    ask .endOp
    return some 0

/-- `sys_unlink`. -/
def sysUnlink (path : Option Path) : FsM (Option Nat) := do
  match path with
  | none => return none
  | some path =>
    ask .beginOp
    match ← nameiparent path with
    | none =>
      ask .endOp
      return none
    | some (dp, name) =>
      ilock dp
      if namecmp name dot ∨ namecmp name dotdot then unlinkFail dp
      else
        match ← dirlookup dp name with
        | none => unlinkFail dp
        | some (ip, off) =>
          ilock ip
          let d ← getInode ip
          if d.nlink < 1 then panic "unlink: nlink < 1"
          else
            let empty ← if d.type = T_DIR then isdirempty ip else pure true
            if empty = false then
              iunlockput ip
              unlinkFail dp
            else unlinkEntry dp ip off

/-- The entries `create` makes in a new directory. -/
def createDots (dp ip : IRef) : FsM Unit := do
  addLink dp
  let inum : Nat ← ask (.getInum ip)
  if ← dirlink ip dot inum then
    let parent : Nat ← ask (.getInum dp)
    if ← dirlink ip dotdot parent then return
    else panic "create dots"
  else panic "create dots"

/-- What `create` puts in a new inode. -/
def firstLink (ip : IRef) (major minor : Nat) : FsM Unit := do
  let d ← getInode ip
  setInode ip { d with major, minor, nlink := 1 }
  iupdate ip

/-- `create`: the inode is returned locked. -/
def create (path : Path) (type major minor : Nat) : FsM (Option IRef) := do
  match ← nameiparent path with
  | none => return none
  | some (dp, name) =>
    ilock dp
    match ← dirlookup dp name with
    | some (ip, _) =>
      iunlockput dp
      ilock ip
      let d ← getInode ip
      if type = T_FILE ∧ d.type = T_FILE then return some ip
      else
        iunlockput ip
        return none
    | none =>
      let ip ← ialloc type
      ilock ip
      firstLink ip major minor
      if type = T_DIR then createDots dp ip
      let inum : Nat ← ask (.getInum ip)
      if ← dirlink dp name inum then
        iunlockput dp
        return some ip
      else panic "create: dirlink"

/-- The flags of `open`. -/
structure OMode where
  wronly : Bool
  rdwr : Bool
  create : Bool
  /-- any other bit is set -/
  other : Bool

/-- `omode == O_RDONLY`. -/
def OMode.rdonly (m : OMode) : Bool := !m.wronly && !m.rdwr && !m.create && !m.other

/-- The inode `sys_open` opens, locked. -/
def openInode (path : Path) (omode : OMode) : FsM (Option IRef) := do
  if omode.create then create path T_FILE 0 0
  else
    match ← namei path with
    | none => return none
    | some ip =>
      ilock ip
      let d ← getInode ip
      if d.type = T_DIR ∧ omode.rdonly = false then
        iunlockput ip
        return none
      else return some ip

/-- `sys_open`. -/
def sysOpen (path : Option Path) (omode : OMode) : FsM (Option Nat) := do
  match path with
  | none => return none
  | some path =>
    ask .beginOp
    match ← openInode path omode with
    | none =>
      ask .endOp
      return none
    | some ip =>
      let f : Option FRef ← ask .filealloc
      match f with
      | none =>
        iunlockput ip
        ask .endOp
        return none
      | some f =>
        let fd : Option Fd ← ask (.fdalloc f)
        match fd with
        | none =>
          fileclose f
          iunlockput ip
          ask .endOp
          return none
        | some fd =>
          iunlock ip
          ask .endOp
          let x : File ← ask (.getFile f)
          ask (.setFile f { x with
            type := .inode, ip, off := 0, readable := !omode.wronly
            writable := omode.wronly || omode.rdwr })
          return some fd

/-- `sys_mkdir`. -/
def sysMkdir (path : Option Path) : FsM (Option Nat) := do
  ask .beginOp
  let ip ← match path with
    | none => pure none
    | some path => create path T_DIR 0 0
  match ip with
  | none =>
    ask .endOp
    return none
  | some ip =>
    iunlockput ip
    ask .endOp
    return some 0

/-- `sys_mknod`; `create` takes the numbers of the device as `short`s. -/
def sysMknod (path : Option Path) (major minor : Option Nat) : FsM (Option Nat) := do
  ask .beginOp
  let ip ← match path, major, minor with
    | some path, some major, some minor => create path T_DEV (major % 65536) (minor % 65536)
    | _, _, _ => pure none
  match ip with
  | none =>
    ask .endOp
    return none
  | some ip =>
    iunlockput ip
    ask .endOp
    return some 0

/-- `iput(proc->cwd)`. -/
def iputCwd : FsM Unit := do
  let cwd : Option IRef ← ask .getCwd
  match cwd with
  | none => panic "trap"
  | some cwd => iput cwd

/-- `sys_chdir`. -/
def sysChdir (path : Option Path) : FsM (Option Nat) := do
  ask .beginOp
  let ip ← match path with
    | none => pure none
    | some path => namei path
  match ip with
  | none =>
    ask .endOp
    return none
  | some ip =>
    ilock ip
    let d ← getInode ip
    if d.type ≠ T_DIR then
      iunlockput ip
      ask .endOp
      return none
    else
      iunlock ip
      iputCwd
      ask .endOp
      ask (.setCwd (some ip))
      return some 0

/-- `pipealloc`; `page` is what `kalloc` returns. -/
def pipealloc (page : Option Nat) : FsM (Option (FRef × FRef)) := do
  let f0 : Option FRef ← ask .filealloc
  match f0 with
  | none => return none
  | some f0 =>
    let f1 : Option FRef ← ask .filealloc
    match f1 with
    | none =>
      fileclose f0
      return none
    | some f1 =>
      match page with
      | some pipe =>
        let x : File ← ask (.getFile f0)
        ask (.setFile f0 { x with type := .pipe, readable := true, writable := false, pipe })
        let x : File ← ask (.getFile f1)
        ask (.setFile f1 { x with type := .pipe, readable := false, writable := true, pipe })
        return some (f0, f1)
      | none =>
        fileclose f0
        fileclose f1
        return none

/-- `sys_pipe`. -/
def sysPipe (page : Option Nat) : FsM (Option Nat) := do
  match ← pipealloc page with
  | none => return none
  | some (rf, wf) =>
    let fd0 : Option Fd ← ask (.fdalloc rf)
    match fd0 with
    | none =>
      fileclose rf
      fileclose wf
      return none
    | some fd0 =>
      let fd1 : Option Fd ← ask (.fdalloc wf)
      match fd1 with
      | none =>
        ask (.clearOfile fd0)
        fileclose rf
        fileclose wf
        return none
      | some _ => return some 0

/-! ## Programs and processes -/

/-- The pages of a segment that `loaduvm` reads, `n` of its bytes being left. -/
def loadPages (ip : IRef) : (fuel off n : Nat) → FsM Bool
  | 0, _, _ => return true
  | fuel + 1, off, n => do
      if n = 0 then return true
      let m := min n 4096
      match ← readi ip (off % 2 ^ 32) m with
      | some bs => if bs.length = m then loadPages ip fuel (off + m) (n - m) else return false
      | none => return false

/-- A 32-bit integer of a header. -/
def word (bs : List UInt8) (i : Nat) : Nat :=
  (bs.getD i 0).toNat + 256 * (bs.getD (i + 1) 0).toNat + 65536 * (bs.getD (i + 2) 0).toNat +
    16777216 * (bs.getD (i + 3) 0).toNat

/-- The loop of `exec` over the program headers.  `vm` says which calls of `allocuvm`
succeed. -/
def loadSegments (ip : IRef) (vm : Nat → Bool) : (phnum i off : Nat) → FsM Bool
  | 0, _, _ => return true
  | phnum + 1, i, off => do
      match ← readi ip (off % 2 ^ 32) 32 with
      | some ph =>
        if ph.length ≠ 32 then return false
        else if word ph 0 ≠ 1 then loadSegments ip vm phnum (i + 1) (off + 32)
        else if word ph 20 < word ph 16 then return false
        else if vm i = false then return false
        else if ← loadPages ip (word ph 16) (word ph 4) (word ph 16) then
          loadSegments ip vm phnum (i + 1) (off + 32)
        else return false
      | none => return false

/-- What `exec` does with the inode, up to where it is unlocked.  The comparison of what
`readi` returns is one of unsigned integers, so that `-1` passes; the header is then what
is on the stack. -/
def loadProgram (ip : IRef) (vm : Nat → Bool) (stack : List UInt8) : FsM Bool := do
  let r ← readi ip 0 52
  let elf := r.getD stack
  if r.isSome ∧ elf.length < 52 then return false
  else if word elf 0 ≠ 0x464C457F then return false
  else if vm 0 = false then return false
  else loadSegments ip vm ((elf.getD 44 0).toNat + 256 * (elf.getD 45 0).toNat) 1 (word elf 28)

/-- `exec`.  `vm` says which of its calls to the virtual memory succeed, the last of them
being all it does after it has given the inode back. -/
def execProgram (path : Path) (vm : Nat → Bool) (stack : List UInt8) (rest : Bool) :
    FsM (Option Nat) := do
  ask .beginOp
  match ← namei path with
  | none =>
    ask .endOp
    return none
  | some ip =>
    ilock ip
    let loaded ← loadProgram ip vm stack
    iunlockput ip
    ask .endOp
    if loaded ∧ rest then return some 0
    else return none

/-- An iteration of the loop of `exit`. -/
def closeFd (fd : Fd) : FsM Unit := do
  let f : Option FRef ← ask (.getOfile fd)
  match f with
  | none => return
  | some f =>
    fileclose f
    ask (.clearOfile fd)

/-- What `exit` does with files. -/
def exitFiles : FsM (Option Nat) := do
  (List.finRange NOFILE).forM closeFd
  ask .beginOp
  iputCwd
  ask .endOp
  ask (.setCwd none)
  return none

/-- A system call, with the arguments it has fetched. -/
inductive Call
  | dup (fd : Option Fd)
  | read (fd : Option Fd) (n : Nat)
  | write (fd : Option Fd) (src : Nat → UInt8) (n : Nat)
  | close (fd : Option Fd)
  | fstat (fd : Option Fd)
  | link (old new : Option Path)
  | unlink (path : Option Path)
  | open (path : Option Path) (omode : OMode)
  | mkdir (path : Option Path)
  | mknod (path : Option Path) (major minor : Option Nat)
  | chdir (path : Option Path)
  | pipe (page : Option Nat)
  | exec (path : Path) (vm : Nat → Bool) (stack : List UInt8) (rest : Bool)
  | exit

/-- What a system call does. -/
def Call.body : Call → FsM (Option Nat)
  | .dup fd => sysDup fd
  | .read fd n => sysRead fd n
  | .write fd src n => sysWrite fd src n
  | .close fd => sysClose fd
  | .fstat fd => sysFstat fd
  | .link old new => sysLink old new
  | .unlink path => sysUnlink path
  | .open path omode => sysOpen path omode
  | .mkdir path => sysMkdir path
  | .mknod path major minor => sysMknod path major minor
  | .chdir path => sysChdir path
  | .pipe page => sysPipe page
  | .exec path vm stack rest => execProgram path vm stack rest
  | .exit => exitFiles

end Xv6.Fs
