import OperatingSystems.Fs.Inode

/-!
# Directories and paths

The model of the rest of `fs.c`.  A path is the bytes of a string, without the zero at
its end; a name is what is left of an element of a path after it was cut to `DIRSIZ`
bytes.

* `skipelem`, `elems`: the elements of a path.
* `dirlookup`, `dirlink`, `namex`: directories, and the walk along a path.
-/

namespace Xv6.Fs

abbrev Name := List UInt8

abbrev Path := List UInt8

/-- The bytes of a `char` array up to the first zero. -/
def cstr (bs : List UInt8) : Name := (bs.take DIRSIZ).takeWhile (· ≠ 0)

/-- `namecmp(s, t) == 0`. -/
def namecmp (s t : List UInt8) : Bool := cstr s == cstr t

/-- `strncpy` into the name of an entry, which is filled up with zeroes. -/
def strncpy (name : Name) : List UInt8 :=
  cstr name ++ List.replicate (DIRSIZ - (cstr name).length) 0

/-- `de.inum`. -/
def deInum (de : List UInt8) : Nat := (de.getD 0 0).toNat + 256 * (de.getD 1 0).toNat

/-- `de.name`. -/
def deName (de : List UInt8) : List UInt8 := de.drop 2

/-- The bytes of a `struct dirent`. -/
def mkDirent (inum : Nat) (name : Name) : List UInt8 :=
  [UInt8.ofNat inum, UInt8.ofNat (inum / 256)] ++ strncpy name

/-- The offsets of the loops over a directory of `size` bytes, from `off` on. -/
def offsets (off size : Nat) : List Nat :=
  (List.range ((size - off + (DIRENT - 1)) / DIRENT)).map fun k => off + DIRENT * k

/-- Read an entry of a directory. -/
def readDirent (dp : IRef) (off : Nat) (why : String) : FsM (List UInt8) := do
  match ← readi dp off DIRENT with
  | some de => if de.length = DIRENT then return de else panic why
  | none => panic why

/-- The loop of `dirlookup`. -/
def lookupFrom (dp : IRef) (name : Name) : List Nat → FsM (Option (IRef × Nat))
  | [] => return none
  | off :: offs => do
      let de ← readDirent dp off "dirlink read"
      if deInum de = 0 then lookupFrom dp name offs
      else if namecmp name (deName de) then
        let ip ← iget (deInum de)
        return some (ip, off)
      else lookupFrom dp name offs

/-- `dirlookup`: the inode, and the offset of its entry. -/
def dirlookup (dp : IRef) (name : Name) : FsM (Option (IRef × Nat)) := do
  let d ← getInode dp
  if d.type ≠ T_DIR then panic "dirlookup not DIR"
  else lookupFrom dp name (offsets 0 d.size)

/-- The loop of `dirlink` that looks for an empty entry. -/
def emptyFrom (dp : IRef) : (offs : List Nat) → (last : Nat) → FsM Nat
  | [], last => return last
  | off :: offs, _ => do
      let de ← readDirent dp off "dirlink read"
      if deInum de = 0 then return off
      else emptyFrom dp offs (off + DIRENT)

/-- `dirlink`; `false` is `-1`. -/
def dirlink (dp : IRef) (name : Name) (inum : Nat) : FsM Bool := do
  match ← dirlookup dp name with
  | some (ip, _) =>
    iput ip
    return false
  | none =>
    let d ← getInode dp
    let off ← emptyFrom dp (offsets 0 d.size) 0
    let r ← writei dp (fun k => (mkDirent inum name).getD k 0) off DIRENT
    if r = some DIRENT then return true
    else panic "dirlink"

/-! ## Paths -/

/-- `'/'`. -/
def SLASH : UInt8 := 47

/-- `skipelem`: the first element of a path, and what follows. -/
def skipelem (path : Path) : Option (Name × Path) :=
  match path.dropWhile (· = SLASH) with
  | [] => none
  | path =>
    some ((path.takeWhile (· ≠ SLASH)).take DIRSIZ,
      (path.dropWhile (· ≠ SLASH)).dropWhile (· = SLASH))

/-- The elements the loop of `namex` comes to. -/
def elemsFrom : (fuel : Nat) → Path → List Name
  | 0, _ => []
  | fuel + 1, path =>
    match skipelem path with
    | none => []
    | some (name, path) => name :: elemsFrom fuel path

/-- The elements of a path. -/
def elems (path : Path) : List Name := elemsFrom path.length path

/-- The loop of `namex`. -/
def walk (nameiparent : Bool) : (ip : IRef) → (name : Name) → List Name → FsM (Option (IRef × Name))
  | ip, name, [] => do
      if nameiparent then
        iput ip
        return none
      else return some (ip, name)
  | ip, _, name :: names => do
      ilock ip
      let d ← getInode ip
      if d.type ≠ T_DIR then
        iunlockput ip
        return none
      else if nameiparent ∧ names = [] then
        iunlock ip
        return some (ip, name)
      else
        match ← dirlookup ip name with
        | none =>
          iunlockput ip
          return none
        | some (next, _) =>
          iunlockput ip
          walk nameiparent next name names

/-- `namex`. -/
def namex (path : Path) (nameiparent : Bool) : FsM (Option (IRef × Name)) := do
  if path.head? = some SLASH then
    let ip ← iget ROOTINO
    walk nameiparent ip [] (elems path)
  else
    let cwd : Option IRef ← ask .getCwd
    match cwd with
    | none => panic "trap"
    | some cwd =>
      let ip ← idup cwd
      walk nameiparent ip [] (elems path)

/-- `namei`. -/
def namei (path : Path) : FsM (Option IRef) := do
  return (← namex path false).map Prod.fst

/-- `nameiparent`. -/
def nameiparent (path : Path) : FsM (Option (IRef × Name)) := namex path true

end Xv6.Fs
