import OperatingSystems.Lib.Prog
import OperatingSystems.Log.Bio

/-!
# User pointers

The argument checks of `syscall.c` and what the system calls that take a pointer do
with it: `sys_read`, `sys_write`, `sys_fstat`, `sys_pipe`, `sys_exec`, `sys_open`,
`sys_link` and `sys_wait_stat`, down to the copy loops of `fs.c`, `pipe.c` and
`console.c`.  Addresses and lengths are 32-bit integers that wrap, and a length
changes its sign where the source converts it.

A call leaves a trail of the user bytes it touches.  What the rest of the kernel
decides is passed in (`Env`): how many bytes a pipe or the console supplies, and how
far a path is followed.

* `Str`, `wp_fetchstr`, `wp_namex`: a string that was checked is never read past its
  end.
* `argptr_le`: what `argptr` lets through, when the size is not negative.
* `user_pointers_inside_iff`: every call stays in the memory of the process, except
  that `sys_read` may be given a negative length.
-/

namespace Xv6

open UInt32

namespace User

/-- First kernel virtual address. -/
def KERNBASE : Nat := 0x80000000

/-- Open files per process. -/
def NOFILE : Nat := 16

/-- Maximum number of arguments of `exec`. -/
def MAXARG : Nat := 32

/-- Maximum major device number. -/
def NDEV : Nat := 10

/-- The device number of the console, the only device. -/
def CONSOLE : Nat := 1

/-- Length of a name in a directory. -/
def DIRSIZ : Nat := 14

/-- Blocks of the largest file. -/
def MAXFILE : Nat := 12 + BSIZE / 4

/-! ## Touching user memory -/

/-- Some bytes of user memory. -/
structure Span where
  start : UInt32
  len : Nat
  deriving DecidableEq, Repr

/-- All of them lie below `sz`. -/
def Span.Inside (sz : UInt32) (r : Span) : Prop := ∀ j < r.len, r.start + ofNat j < sz

instance (sz : UInt32) (r : Span) : Decidable (r.Inside sz) :=
  inferInstanceAs (Decidable (∀ j < r.len, _))

/-- Programs that touch user memory. -/
abbrev Touch (α : Type) : Type := Prog Unit Span α

/-- Read or write `len` bytes from `a` on. -/
def touch (a : UInt32) (len : Nat) : Touch Unit := Prog.emit ⟨a, len⟩

/-- `type` in `struct inode`. -/
inductive FileType
  | T_DIR | T_FILE | T_DEV
  deriving DecidableEq, Repr

/-- The part of an open file's `struct inode` that is read here. -/
structure OpenInode where
  type : FileType
  major : Int16
  size : UInt32
  size_le : size.toNat ≤ MAXFILE * BSIZE

/-- What an open file is. -/
inductive FileKind
  | FD_PIPE
  | FD_INODE (ip : OpenInode) (off : UInt32)

/-- `struct file`. -/
structure File where
  readable : Bool
  writable : Bool
  kind : FileKind

end User

/-- The calling process. -/
structure User where
  /-- Size of process memory (bytes). -/
  sz : UInt32
  /-- The process memory. -/
  mem : UInt32 → UInt8
  /-- The user stack pointer. -/
  esp : UInt32
  /-- Open files. -/
  ofile : Fin User.NOFILE → Option User.File

namespace User

/-- How far a path is followed before the lookup ends, and with which result. -/
structure Lookup where
  elems : Nat
  found : Bool

/-- What the rest of the kernel decides. -/
structure Env where
  /-- The bytes a pipe or the console supplies or takes before the call returns. -/
  bytes : Nat
  /-- The lookups the call makes, in order. -/
  lookup : Nat → Lookup
  /-- What the call has to allocate or to wait for is there. -/
  ok : Bool

variable (u : User) {j : Nat}

/-- `*(char*)a`. -/
def load8 (a : UInt32) : Touch UInt8 := do
  touch a 1
  return u.mem a

/-- `*(int*)a`. -/
def load32 (a : UInt32) : Touch Int32 := do
  touch a 4
  return (ofNat ((u.mem a).toNat + 256 * (u.mem (a + 1)).toNat +
    65536 * (u.mem (a + 2)).toNat + 16777216 * (u.mem (a + 3)).toNat)).toInt32

/-! ## Fetching arguments -/

/-- `fetchint`; `none` if it returns `-1`. -/
def fetchint (addr : UInt32) : Touch (Option Int32) := do
  if addr ≥ u.sz ∨ addr + 4 > u.sz then return none
  return some (← u.load32 addr)

/-- The loop of `fetchstr`, with `n` bytes left before `ep`: the distance to the
terminating zero. -/
def strScan : Nat → UInt32 → Touch (Option Nat)
  | 0, _ => return none
  | n + 1, s => do
      if (← u.load8 s) = 0 then return some 0
      return (← strScan n (s + 1)).map (· + 1)

/-- `fetchstr`: the pointer and the length of the string. -/
def fetchstr (addr : UInt32) : Touch (Option (UInt32 × Nat)) := do
  if addr ≥ u.sz then return none
  return (← u.strScan (u.sz - addr).toNat addr).map fun len => (addr, len)

/-- `argint`. -/
def argint (n : UInt32) : Touch (Option Int32) := u.fetchint (u.esp + 4 + 4 * n)

/-- `argptr`. -/
def argptr (n : UInt32) (size : Int32) : Touch (Option UInt32) := do
  let some i ← u.argint n | return none
  if i.toUInt32 ≥ u.sz ∨ i.toUInt32 + size.toUInt32 > u.sz then return none
  return some i.toUInt32

/-- `argstr`. -/
def argstr (n : UInt32) : Touch (Option (UInt32 × Nat)) := do
  let some addr ← u.argint n | return none
  u.fetchstr addr.toUInt32

/-- `argfd`. -/
def argfd (n : UInt32) : Touch (Option File) := do
  let some fd ← u.argint n | return none
  if h : 0 ≤ fd.toInt ∧ fd.toInt < NOFILE then return u.ofile ⟨fd.toInt.toNat, by omega⟩
  else return none

/-! ## Reading and writing files -/

/-- A loop over the bytes `addr[0]` to `addr[k - 1]`. -/
def eachByte (addr : UInt32) : Nat → Touch Unit
  | 0 => return ()
  | k + 1 => do
      touch addr 1
      eachByte (addr + 1) k

/-- The bytes that a loop `for(i = 0; i < n; i++)` gets to, if it ends after `k`. -/
def upTo (n : Int32) (k : Nat) : Nat := min n.toInt.toNat k

/-- `piperead`, when the pipe holds `k` bytes. -/
def piperead (addr : UInt32) (n : Int32) (k : Nat) : Touch Unit := eachByte addr (upTo n k)

/-- `pipewrite`, when `k` bytes can be written before the read end is closed. -/
def pipewrite (addr : UInt32) (n : Int32) (k : Nat) : Touch Unit := eachByte addr (upTo n k)

/-- `consoleread`, when the line ends after `k` bytes. -/
def consoleread (dst : UInt32) (n : Int32) (k : Nat) : Touch Unit := eachByte dst (upTo n k)

/-- `consolewrite`. -/
def consolewrite (buf : UInt32) (n : Int32) : Touch Unit := eachByte buf n.toInt.toNat

/-- The copy loop of `readi` and `writei`, with `n` bytes left to copy. -/
def copyBlocks (addr off : UInt32) (n : Nat) : Touch Unit := do
  if _h : n = 0 then return ()
  let m := min n (BSIZE - off.toNat % BSIZE)
  touch addr m
  copyBlocks (addr + ofNat m) (off + ofNat m) (n - m)
termination_by n
decreasing_by
  have : off.toNat % BSIZE < BSIZE := Nat.mod_lt _ (by decide)
  omega

/-- The test of `devsw` in `readi` and `writei`. -/
def OpenInode.noDevice (ip : OpenInode) : Prop :=
  ip.major.toInt < 0 ∨ ip.major.toInt ≥ NDEV ∨ ip.major.toInt ≠ CONSOLE

instance (ip : OpenInode) : Decidable ip.noDevice := inferInstanceAs (Decidable (_ ∨ _ ∨ _))

/-- `readi`. -/
def readi (ip : OpenInode) (dst off n : UInt32) (k : Nat) : Touch Unit := do
  if ip.type = .T_DEV then
    if ip.noDevice then return ()
    consoleread dst n.toInt32 k
  else if off > ip.size ∨ off + n < off then return ()
  else
    let n := if off + n > ip.size then ip.size - off else n
    copyBlocks dst off n.toNat

/-- `fileread`. -/
def fileread (f : File) (addr : UInt32) (n : Int32) (k : Nat) : Touch Unit := do
  if f.readable = false then return ()
  match f.kind with
  | .FD_PIPE => piperead addr n k
  | .FD_INODE ip off => readi ip addr off n.toUInt32 k

/-- `writei`: its value, and what it leaves of the inode. -/
def writei (ip : OpenInode) (src off n : UInt32) : Touch (Int32 × OpenInode) := do
  if ip.type = .T_DEV then
    if ip.noDevice then return (-1, ip)
    consolewrite src n.toInt32
    return (n.toInt32, ip)
  else if off > ip.size ∨ off + n < off then return (-1, ip)
  else if h : (off + n).toNat > MAXFILE * BSIZE then return (-1, ip)
  else
    copyBlocks src off n.toNat
    if n > 0 ∧ off + n > ip.size then
      return (n.toInt32, { ip with size := off + n, size_le := by omega })
    return (n.toInt32, ip)

/-- `max` in `filewrite`. -/
def maxWrite : Nat := (LOGSIZE - 1 - 1 - 2) / 2 * 512

/-- The loop of `filewrite`, with `n - i` bytes left. -/
def writeChunks (ip : OpenInode) (addr off : UInt32) (left : Nat) : Touch Bool := do
  if _h : left = 0 then return true
  let n₁ := min left maxWrite
  let (r, ip) ← writei ip addr off (ofNat n₁)
  if r < 0 then return false
  if r.toInt ≠ n₁ then Prog.panic "short filewrite"
  else writeChunks ip (addr + ofNat n₁) (off + r.toUInt32) (left - n₁)
termination_by left
decreasing_by
  have : 0 < maxWrite := by decide
  omega

/-- `filewrite`. -/
def filewrite (f : File) (addr : UInt32) (n : Int32) (k : Nat) : Touch Int32 := do
  if f.writable = false then return -1
  match f.kind with
  | .FD_PIPE =>
    pipewrite addr n k
    return if n.toInt.toNat ≤ k then n else -1
  | .FD_INODE ip off =>
    let done ← writeChunks ip addr off n.toInt.toNat
    -- no bytes are written for a negative `n`, and `i == n` fails
    return if done ∧ 0 ≤ n then n else -1

/-- `filestat` and `stati`. -/
def filestat (f : File) (st : UInt32) : Touch Unit := do
  match f.kind with
  | .FD_PIPE => return ()
  | .FD_INODE _ _ =>
    touch (st + 4) 4
    touch (st + 8) 4
    touch st 2
    touch (st + 12) 2
    touch (st + 16) 4

/-! ## Following a path -/

/-- The loop `while(p(*s)) s++;`. -/
def scanWhile (p : UInt8 → Bool) : Nat → UInt32 → Touch UInt32
  | 0, s => return s
  | n + 1, s => do
      if p (← u.load8 s) then scanWhile p n (s + 1) else return s

/-- `'/'`. -/
def slash : UInt8 := 47

/-- `skipelem`; `none` is the null pointer. -/
def skipelem (path : UInt32) : Touch (Option UInt32) := do
  let path ← u.scanWhile (· == slash) size path
  if (← u.load8 path) = 0 then return none
  let s := path
  let path ← u.scanWhile (fun c => c != slash && c != 0) size path
  let len := path - s
  touch s (if len.toNat ≥ DIRSIZ then DIRSIZ else len.toNat)
  let path ← u.scanWhile (· == slash) size path
  return some path

/-- The loop of `namex`, over at most `k` elements. -/
def namexLoop (nameiparent : Bool) : Nat → UInt32 → Touch Unit
  | 0, _ => return ()
  | k + 1, path => do
      let some path ← u.skipelem path | return ()
      if nameiparent then
        let _ ← u.load8 path
      namexLoop nameiparent k path

/-- `namex`: whether it finds an inode. -/
def namex (path : UInt32) (nameiparent : Bool) (l : Lookup) : Touch Bool := do
  let _ ← u.load8 path
  u.namexLoop nameiparent l.elems path
  return l.found

/-! ## `exec` -/

/-- The loop of `sys_exec` over `argv`, with room for `n` more pointers. -/
def execArgs (uargv : UInt32) : Nat → UInt32 → Touch (Option (List (UInt32 × Nat)))
  | 0, _ => return none
  | n + 1, i => do
      let some uarg ← u.fetchint (uargv + 4 * i) | return none
      if uarg = 0 then return some []
      let some arg ← u.fetchstr uarg.toUInt32 | return none
      return (← execArgs uargv n (i + 1)).map (arg :: ·)

/-- `strlen`. -/
def strlen (s : UInt32) : Touch Nat := do
  let e ← u.scanWhile (· != 0) size s
  return (e - s).toNat

/-- The loop of `exec` that pushes the argument strings. -/
def pushArgs : List (UInt32 × Nat) → Touch Unit
  | [] => return ()
  | (arg, _) :: args => do
      let len ← u.strlen arg
      touch arg (len + 1)
      pushArgs args

/-- The loop of `exec` that finds the last element of the path. -/
def lastElem : Nat → UInt32 → UInt32 → Touch UInt32
  | 0, _, last => return last
  | n + 1, s, last => do
      let c ← u.load8 s
      if c = 0 then return last
      lastElem n (s + 1) (if c = slash then s + 1 else last)

/-- `safestrcpy` from `t`, with room for `n` bytes and the terminating zero. -/
def safestrcpy : Nat → UInt32 → Touch Unit
  | 0, _ => return ()
  | n + 1, t => do
      if (← u.load8 t) = 0 then return ()
      safestrcpy n (t + 1)

/-- `exec`, as far as it reads the memory of the process; `ok` says that the program
was loaded. -/
def exec (path : UInt32) (argv : List (UInt32 × Nat)) (l : Lookup) (ok : Bool) : Touch Unit := do
  if (← u.namex path false l) = false then return ()
  if ok = false then return ()
  u.pushArgs argv
  let last ← u.lastElem size path path
  u.safestrcpy 15 last

/-! ## The system calls -/

/-- `if(x < 0) return -1;`, and go on with what `x` has fetched. -/
def orReturn {α : Type} (x : Touch (Option α)) (g : α → Touch Unit) : Touch Unit := do
  let some a ← x | return ()
  g a

/-- `sys_read`. -/
def sysRead (env : Env) : Touch Unit :=
  orReturn (u.argfd 0) fun f =>
  orReturn (u.argint 2) fun n =>
  orReturn (u.argptr 1 n) fun p =>
  fileread f p n env.bytes

/-- `sys_write`. -/
def sysWrite (env : Env) : Touch Unit :=
  orReturn (u.argfd 0) fun f =>
  orReturn (u.argint 2) fun n =>
  orReturn (u.argptr 1 n) fun p => do
  let _ ← filewrite f p n env.bytes

/-- `sys_fstat`; `struct stat` has 20 bytes. -/
def sysFstat : Touch Unit :=
  orReturn (u.argfd 0) fun f =>
  orReturn (u.argptr 1 20) fun st =>
  filestat f st

/-- `sys_pipe`. -/
def sysPipe (env : Env) : Touch Unit :=
  orReturn (u.argptr 0 8) fun fd => do
  if env.ok = false then return ()
  touch fd 4
  touch (fd + 4) 4

/-- `sys_exec`. -/
def sysExec (env : Env) : Touch Unit :=
  orReturn (u.argstr 0) fun path =>
  orReturn (u.argint 1) fun uargv =>
  orReturn (u.execArgs uargv.toUInt32 MAXARG 0) fun argv =>
  u.exec path.1 argv (env.lookup 0) env.ok

/-- `sys_open`; with `O_CREATE`, `create` looks up the parent directory. -/
def sysOpen (env : Env) : Touch Unit :=
  orReturn (u.argstr 0) fun path =>
  orReturn (u.argint 1) fun omode => do
  let _ ← u.namex path.1 (omode.toUInt32 &&& 0x200 != 0) (env.lookup 0)

/-- `sys_link`. -/
def sysLink (env : Env) : Touch Unit :=
  orReturn (u.argstr 0) fun old =>
  orReturn (u.argstr 1) fun new => do
  if (← u.namex old.1 false (env.lookup 0)) = false then return ()
  if env.ok = false then return ()
  let _ ← u.namex new.1 true (env.lookup 1)

/-- `sys_wait_stat`; `ok` says that a child is reaped. -/
def sysWaitStat (env : Env) : Touch Unit :=
  orReturn (u.argptr 0 4) fun wtime =>
  orReturn (u.argptr 1 4) fun rtime =>
  orReturn (u.argptr 2 4) fun iotime =>
  orReturn (u.argptr 3 4) fun status => do
  if env.ok then
    touch wtime 4
    touch rtime 4
    touch iotime 4
  touch status 4

/-- The system calls that are given a pointer. -/
inductive Call
  | read | write | fstat | pipe | exec | open | link | waitStat
  deriving DecidableEq, Repr

/-- The system call. -/
def sys (env : Env) : Call → Touch Unit
  | .read => u.sysRead env
  | .write => u.sysWrite env
  | .fstat => u.sysFstat
  | .pipe => u.sysPipe env
  | .exec => u.sysExec env
  | .open => u.sysOpen env
  | .link => u.sysLink env
  | .waitStat => u.sysWaitStat env

/-! ## Spans -/

section Spans

variable {sz a : UInt32} {m k : Nat}

theorem inside_add : Span.Inside sz ⟨a, m + k⟩ ↔
    Span.Inside sz ⟨a, m⟩ ∧ Span.Inside sz ⟨a + ofNat m, k⟩ := by
  constructor
  · intro h
    refine ⟨fun j hj => h j (Nat.lt_add_right k hj), ?_⟩
    intro j hj
    have := h (m + j) (Nat.add_lt_add_left hj m)
    rwa [UInt32.ofNat_add, ← UInt32.add_assoc] at this
  · rintro ⟨h₁, h₂⟩ j hj
    by_cases hjm : j < m
    · exact h₁ j hjm
    · have := h₂ (j - m) (by simp only at hj ⊢; omega)
      rwa [UInt32.add_assoc, ← UInt32.ofNat_add, Nat.add_sub_cancel' (by omega)] at this

theorem toNat_add_ofNat {b : UInt32} (h : b.toNat + j < size) :
    (b + ofNat j).toNat = b.toNat + j := by
  simp only [size] at h
  simp only [UInt32.toNat_add, UInt32.toNat_ofNat']
  omega

theorem add_ofNat_succ (p : UInt32) (j : Nat) :
    p + ofNat j + 1 = p + ofNat (j + 1) := by
  rw [UInt32.ofNat_add, UInt32.add_assoc]
  rfl

theorem inside_of_le (h : a.toNat + m ≤ sz.toNat) : Span.Inside sz ⟨a, m⟩ := by
  intro j hj
  have hsz : sz.toNat < size := sz.toNat_lt
  simp only at hj ⊢
  rw [lt_iff_toNat_lt, toNat_add_ofNat (by omega)]
  omega

/-- A span that starts in the memory of the process ends there too, exactly if it is
not too long. -/
theorem inside_iff (ha : a < sz) : Span.Inside sz ⟨a, m⟩ ↔ a.toNat + m ≤ sz.toNat := by
  refine ⟨?_, inside_of_le⟩
  intro h
  by_contra hlt
  rw [lt_iff_toNat_lt] at ha
  have hend := h (sz.toNat - a.toNat) (by simp only; omega)
  simp only [lt_iff_toNat_lt] at hend
  rw [toNat_add_ofNat (by have := sz.toNat_lt; simp only [size]; omega)] at hend
  omega

end Spans

theorem toInt_eq (n : Int32) : n.toInt = if 2 * n.toUInt32.toNat < 2 ^ 32 then
    (n.toUInt32.toNat : Int) else (n.toUInt32.toNat : Int) - (2 ^ 32 : Nat) :=
  BitVec.toInt_eq_toNat_cond n.toBitVec

/-- A length that is not negative stays the same when it is converted. -/
theorem toNat_toUInt32 {n : Int32} (h : 0 ≤ n.toInt) : n.toUInt32.toNat = n.toInt.toNat := by
  have hn := toInt_eq n
  have := n.toUInt32.toNat_lt
  split at hn <;> omega

/-- A negative length becomes a large one. -/
theorem le_toNat_toUInt32 {n : Int32} (h : n.toInt < 0) : 2 ^ 31 ≤ n.toUInt32.toNat := by
  have hn := toInt_eq n
  split at hn <;> omega

/-! ## The copy loops -/

section Loops

variable {sz : UInt32} {F : String → Unit → Prop} {Q : Unit → Unit → Prop}

@[simp] theorem wp_touch (a : UInt32) (len : Nat) :
    (touch a len).wp (Span.Inside sz) F Q () ↔ Span.Inside sz ⟨a, len⟩ ∧ Q () () :=
  Prog.wp_emit _ _

theorem wp_eachByte (a : UInt32) (k : Nat) :
    (eachByte a k).wp (Span.Inside sz) F Q () ↔ Span.Inside sz ⟨a, k⟩ ∧ Q () () := by
  induction k generalizing a with
  | zero => simp [eachByte, Span.Inside]
  | succ k ih =>
    rw [eachByte, Prog.wp_bind, wp_touch, ih, Nat.add_comm, inside_add, and_assoc]
    rfl

theorem wp_copyBlocks (a off : UInt32) (n : Nat) :
    (copyBlocks a off n).wp (Span.Inside sz) F Q () ↔ Span.Inside sz ⟨a, n⟩ ∧ Q () () := by
  induction n using Nat.strong_induction_on generalizing a off with
  | _ n ih =>
    rw [copyBlocks]
    split
    · rename_i h0
      simp [h0, Span.Inside]
    · have hlt : off.toNat % BSIZE < BSIZE := Nat.mod_lt _ (by decide)
      have hm : min n (BSIZE - off.toNat % BSIZE) + (n - min n (BSIZE - off.toNat % BSIZE)) = n :=
        by omega
      simp only [Prog.wp_bind, wp_touch]
      rw [ih _ (by omega), ← and_assoc, ← inside_add, hm]

end Loops

/-! ## Staying inside -/

/-- The program touches bytes of the process only, does not panic, and returns a value
that satisfies `Q`. -/
def Safe {α : Type} (x : Touch α) (Q : α → Prop) : Prop :=
  x.wp (Span.Inside u.sz) (fun _ _ => False) (fun a _ => Q a) ()

/-- The program returns `a`. -/
def Returns {α : Type} (x : Touch α) (a : α) : Prop := x.result () = (.ok a, ())

/-- A string of the process: `len` bytes from `p` on, and a zero. -/
structure Str (p : UInt32) (len : Nat) : Prop where
  lt : p.toNat + len < u.sz.toNat
  zero : u.mem (p + ofNat len) = 0

section Safe

variable {u} {α β : Type} {x : Touch α} {f : α → Touch β} {Q : α → Prop} {R : β → Prop}

theorem safe_pure {a : α} (h : Q a) : u.Safe (pure a : Touch α) Q := (Prog.wp_pure a).2 h

theorem Safe.bind (h : u.Safe x Q) (hf : ∀ a, Q a → u.Safe (f a) R) : u.Safe (x >>= f) R :=
  (Prog.wp_bind x f).2 (h.mono (fun _ => id) (fun _ _ => id) fun a _ ha => hf a ha)

theorem Safe.mono {Q' : α → Prop} (h : u.Safe x Q) (hQ : ∀ a, Q a → Q' a) : u.Safe x Q' :=
  Prog.wp.mono h (fun _ => id) (fun _ _ => id) fun a _ => hQ a

theorem safe_touch {a : UInt32} {len : Nat} (h : Span.Inside u.sz ⟨a, len⟩) :
    u.Safe (touch a len) fun _ => True :=
  (wp_touch a len).2 ⟨h, trivial⟩

/-- What follows a safe program is run with the value it returns. -/
theorem Safe.wp_iff {F : String → Unit → Prop} {P : α → Unit → Prop} (h : u.Safe x Q) :
    x.wp (Span.Inside u.sz) F P () ↔ ∀ a, Returns x a → P a () := by
  obtain ⟨htrail, hres⟩ := h
  rcases hr : x.result () with ⟨m | r, t⟩
  · rw [hr] at hres
    exact hres.elim
  · simp only [Prog.wp, Returns, hr]
    constructor
    · rintro ⟨-, hP⟩ a ha
      cases ha
      exact hP
    · intro hP
      exact ⟨htrail, hP r rfl⟩

theorem Safe.returns {a : α} (h : u.Safe x Q) (ha : Returns x a) : Q a := by
  have hres := h.2
  rw [show x.result () = _ from ha] at hres
  exact hres

theorem safe_load8 {a : UInt32} (h : a < u.sz) : u.Safe (u.load8 a) fun c => c = u.mem a := by
  refine (safe_touch ?_).bind fun _ _ => safe_pure rfl
  exact inside_of_le h

theorem safe_load32 {a : UInt32} (h : a.toNat + 4 ≤ u.sz.toNat) :
    u.Safe (u.load32 a) fun _ => True :=
  (safe_touch (inside_of_le h)).bind fun _ _ => safe_pure trivial

/-! ## What the checks let through -/

section Checks

variable (hsz : u.sz.toNat < KERNBASE)
include hsz

theorem safe_fetchint (addr : UInt32) : u.Safe (u.fetchint addr) fun _ => True := by
  unfold fetchint
  split
  · exact safe_pure trivial
  · rename_i h
    rw [not_or, UInt32.not_le, UInt32.not_lt, UInt32.lt_iff_toNat_lt,
      le_iff_toNat_le] at h
    have hadd : (addr + 4).toNat = addr.toNat + 4 :=
      toNat_add_ofNat (by simp only [KERNBASE, size] at *; omega)
    exact (safe_load32 (by omega)).bind fun _ _ => safe_pure trivial

theorem safe_argint (n : UInt32) : u.Safe (u.argint n) fun _ => True := safe_fetchint hsz _

theorem safe_argfd (n : UInt32) : u.Safe (u.argfd n) fun _ => True := by
  refine (safe_argint hsz n).bind fun fd _ => ?_
  cases fd with
  | none => exact safe_pure trivial
  | some fd =>
    simp only
    split <;> exact safe_pure trivial

/-- **What `argptr` lets through**: a pointer into the process, and if the size is not
negative everything it points to. -/
theorem safe_argptr (n : UInt32) (size : Int32) :
    u.Safe (u.argptr n size) fun r => ∀ p, r = some p →
      p < u.sz ∧ (0 ≤ size.toInt → p.toNat + size.toInt.toNat ≤ u.sz.toNat) := by
  refine (safe_argint hsz n).bind fun i _ => ?_
  cases i with
  | none => exact safe_pure (by simp)
  | some i =>
    simp only
    split
    · exact safe_pure (by simp)
    · rename_i h
      rw [not_or, UInt32.not_le, UInt32.not_lt] at h
      apply safe_pure
      rintro p ⟨⟩
      refine ⟨h.1, ?_⟩
      intro hs
      have hlt := toNat_toUInt32 hs
      have hle := le_iff_toNat_le.1 h.2
      have hi := lt_iff_toNat_lt.1 h.1
      have hn := toInt_eq size
      rw [UInt32.toNat_add] at hle
      simp only [KERNBASE] at hsz
      split at hn <;> omega

theorem safe_strScan (n : Nat) (s : UInt32) (h : s.toNat + n ≤ u.sz.toNat) :
    u.Safe (u.strScan n s) fun r => ∀ len, r = some len → u.Str s len := by
  induction n generalizing s with
  | zero => exact safe_pure (by simp)
  | succ n ih =>
    have hs : s < u.sz := by
      rw [lt_iff_toNat_lt]
      omega
    refine (safe_load8 hs).bind ?_
    rintro c rfl
    split
    · rename_i h0
      apply safe_pure
      rintro len ⟨⟩
      exact ⟨by omega, by simpa using h0⟩
    · have hs1 : (s + 1).toNat = s.toNat + 1 :=
        toNat_add_ofNat (by simp only [KERNBASE, size] at *; omega)
      refine (ih (s + 1) (by omega)).bind fun r hr => safe_pure ?_
      rintro len hlen
      obtain ⟨len', rfl, rfl⟩ := Option.map_eq_some_iff.1 hlen
      obtain ⟨hlt, hz⟩ := hr len' rfl
      refine ⟨by omega, ?_⟩
      rw [Nat.add_comm, UInt32.ofNat_add, ← UInt32.add_assoc]
      exact hz

theorem safe_fetchstr (addr : UInt32) : u.Safe (u.fetchstr addr) fun r =>
    ∀ p len, r = some (p, len) → u.Str p len := by
  unfold fetchstr
  split
  · exact safe_pure (by simp)
  · rename_i h
    rw [UInt32.not_le] at h
    have hlen : addr.toNat + (u.sz - addr).toNat ≤ u.sz.toNat := by
      rw [UInt32.toNat_sub_of_le _ _ (UInt32.le_of_lt h)]
      rw [lt_iff_toNat_lt] at h
      omega
    refine (safe_strScan hsz _ addr hlen).bind fun r hr => safe_pure ?_
    intro p len hp
    obtain ⟨len', rfl, he⟩ := Option.map_eq_some_iff.1 hp
    cases he
    exact hr _ rfl

theorem safe_argstr (n : UInt32) : u.Safe (u.argstr n) fun r =>
    ∀ p len, r = some (p, len) → u.Str p len := by
  refine (safe_argint hsz n).bind fun a _ => ?_
  cases a with
  | none => exact safe_pure (by simp)
  | some a => exact safe_fetchstr hsz _

end Checks

/-! ## Strings -/

section Strings

variable {p : UInt32} {len : Nat} (hs : u.Str p len)
include hs

theorem Str.toNat (hj : j ≤ len) : (p + ofNat j).toNat = p.toNat + j := by
  have := hs.lt
  have := u.sz.toNat_lt
  exact toNat_add_ofNat (by simp only [size]; omega)

theorem Str.inside {j m : Nat} (h : j + m ≤ len + 1) :
    Span.Inside u.sz ⟨p + ofNat j, m⟩ := by
  by_cases hm : m = 0
  · subst hm
    intro j hj
    cases hj
  · apply inside_of_le
    rw [hs.toNat (by omega)]
    have := hs.lt
    omega

theorem Str.safe_load8 (hj : j ≤ len) :
    u.Safe (u.load8 (p + ofNat j)) fun c => c = u.mem (p + ofNat j) := by
  apply User.safe_load8
  rw [lt_iff_toNat_lt, hs.toNat hj]
  have := hs.lt
  omega

/-- A loop that stops at a zero stays in the string. -/
theorem Str.safe_scanWhile {q : UInt8 → Bool} (hq : q 0 = false) (n : Nat)
    (hj : j ≤ len) : u.Safe (u.scanWhile q n (p + ofNat j)) fun s =>
      ∃ j', j ≤ j' ∧ j' ≤ len ∧ s = p + ofNat j' := by
  induction n generalizing j with
  | zero => exact safe_pure ⟨j, le_rfl, hj, rfl⟩
  | succ n ih =>
    refine (hs.safe_load8 hj).bind ?_
    rintro c rfl
    split
    · rename_i hc
      have hlt : j < len := by
        refine lt_of_le_of_ne hj ?_
        rintro rfl
        rw [hs.zero, hq] at hc
        cases hc
      rw [add_ofNat_succ]
      refine (ih hlt).mono ?_
      rintro s ⟨j', h₁, h₂, h₃⟩
      exact ⟨j', by omega, h₂, h₃⟩
    · exact safe_pure ⟨j, le_rfl, hj, rfl⟩

theorem Str.safe_skipelem (hj : j ≤ len) :
    u.Safe (u.skipelem (p + ofNat j)) fun r =>
      ∀ s, r = some s → ∃ j', j' ≤ len ∧ s = p + ofNat j' := by
  refine (hs.safe_scanWhile (by decide) _ hj).bind ?_
  rintro _ ⟨j₁, -, h₁, rfl⟩
  refine (hs.safe_load8 h₁).bind fun c _ => ?_
  split
  · exact safe_pure (by simp)
  · refine (hs.safe_scanWhile (by decide) _ h₁).bind ?_
    rintro _ ⟨j₂, h₁₂, h₂, rfl⟩
    -- `memmove(name, s, ...)` copies from the element only
    have hlen : (p + ofNat j₂ - (p + ofNat j₁)).toNat = j₂ - j₁ := by
      rw [UInt32.toNat_sub_of_le, hs.toNat h₁, hs.toNat h₂]
      · omega
      · rw [le_iff_toNat_le, hs.toNat h₁, hs.toNat h₂]
        omega
    refine (safe_touch ?_).bind fun _ _ => ?_
    · apply hs.inside
      rw [hlen]
      split <;> omega
    · refine (hs.safe_scanWhile (by decide) _ h₂).bind ?_
      rintro _ ⟨j₃, -, h₃, rfl⟩
      apply safe_pure
      rintro s ⟨⟩
      exact ⟨j₃, h₃, rfl⟩

theorem Str.safe_namexLoop (parent : Bool) (k : Nat) (hj : j ≤ len) :
    u.Safe (u.namexLoop parent k (p + ofNat j)) fun _ => True := by
  induction k generalizing j with
  | zero => exact safe_pure trivial
  | succ k ih =>
    refine (hs.safe_skipelem hj).bind fun r hr => ?_
    cases r with
    | none => exact safe_pure trivial
    | some s =>
      obtain ⟨j', hj', rfl⟩ := hr s rfl
      simp only
      split
      · exact (hs.safe_load8 hj').bind fun _ _ => ih hj'
      · exact ih hj'

theorem Str.safe_namex (parent : Bool) (l : Lookup) :
    u.Safe (u.namex p parent l) fun _ => True := by
  have h0 : p + ofNat 0 = p := by simp
  have hl := hs.safe_load8 (j := 0) (by omega)
  have hn := hs.safe_namexLoop parent l.elems (j := 0) (by omega)
  rw [h0] at hl hn
  exact hl.bind fun _ _ => hn.bind fun _ _ => safe_pure trivial

theorem Str.safe_strlen : u.Safe (u.strlen p) fun n => n ≤ len := by
  have h0 : p + ofNat 0 = p := by simp
  have hw := hs.safe_scanWhile (q := (· != 0)) (by decide) size (j := 0) (by omega)
  rw [h0] at hw
  refine hw.bind ?_
  rintro _ ⟨j, -, hj, rfl⟩
  apply safe_pure
  have hsub : (p + ofNat j - p).toNat = j := by
    rw [UInt32.toNat_sub_of_le, hs.toNat hj]
    · omega
    · rw [le_iff_toNat_le, hs.toNat hj]
      omega
  omega

theorem Str.safe_lastElem (n : Nat) {i j : Nat} (hi : i ≤ len) (hj : j ≤ len) :
    u.Safe (u.lastElem n (p + ofNat i) (p + ofNat j)) fun s =>
      ∃ j', j' ≤ len ∧ s = p + ofNat j' := by
  induction n generalizing i j with
  | zero => exact safe_pure ⟨j, hj, rfl⟩
  | succ n ih =>
    refine (hs.safe_load8 hi).bind ?_
    rintro c rfl
    split
    · exact safe_pure ⟨j, hj, rfl⟩
    · rename_i hc
      have hlt : i < len := by
        refine lt_of_le_of_ne hi ?_
        rintro rfl
        exact hc hs.zero
      rw [add_ofNat_succ]
      split
      · exact ih hlt hlt
      · exact ih hlt hj

theorem Str.safe_safestrcpy (n : Nat) (hj : j ≤ len) :
    u.Safe (u.safestrcpy n (p + ofNat j)) fun _ => True := by
  induction n generalizing j with
  | zero => exact safe_pure trivial
  | succ n ih =>
    refine (hs.safe_load8 hj).bind ?_
    rintro c rfl
    split
    · exact safe_pure trivial
    · rename_i hc
      have hlt : j < len := by
        refine lt_of_le_of_ne hj ?_
        rintro rfl
        exact hc hs.zero
      rw [add_ofNat_succ]
      exact ih hlt

end Strings

/-! ## The system calls -/

theorem safe_pushArgs {args : List (UInt32 × Nat)} (h : ∀ a ∈ args, u.Str a.1 a.2) :
    u.Safe (u.pushArgs args) fun _ => True := by
  induction args with
  | nil => exact safe_pure trivial
  | cons a args ih =>
    obtain ⟨p, len⟩ := a
    have hs : u.Str p len := h (p, len) List.mem_cons_self
    refine hs.safe_strlen.bind fun n hn => ?_
    refine (safe_touch ?_).bind fun _ _ => ih fun a ha => h a (List.mem_cons_of_mem _ ha)
    have := hs.inside (j := 0) (m := n + 1) (by omega)
    rwa [show p + ofNat 0 = p by simp] at this

theorem safe_exec {path : UInt32} {len : Nat} {argv : List (UInt32 × Nat)} (hp : u.Str path len)
    (ha : ∀ a ∈ argv, u.Str a.1 a.2) (l : Lookup) (ok : Bool) :
    u.Safe (u.exec path argv l ok) fun _ => True := by
  refine (hp.safe_namex false l).bind fun found _ => ?_
  split
  · exact safe_pure trivial
  · split
    · exact safe_pure trivial
    · refine (safe_pushArgs ha).bind fun _ _ => ?_
      have hl := hp.safe_lastElem size (i := 0) (j := 0) (by omega) (by omega)
      rw [show path + ofNat 0 = path by simp] at hl
      refine hl.bind ?_
      rintro _ ⟨j, hj, rfl⟩
      exact hp.safe_safestrcpy 15 hj

/-- `writei` reads what it was given, and writes all of it or nothing. -/
theorem safe_writei (ip : OpenInode) {src off n : UInt32} (hn : n.toNat < 2 ^ 31)
    (h : Span.Inside u.sz ⟨src, n.toNat⟩) :
    u.Safe (writei ip src off n) fun r => r.1 < 0 ∨ r.1.toInt = n.toNat := by
  have hint : n.toInt32.toInt = n.toNat := by
    have := toInt_eq n.toInt32
    rw [show n.toInt32.toUInt32 = n from rfl] at this
    split at this <;> omega
  have hneg : (-1 : Int32) < 0 := by decide
  have hcopy : ∀ {x : Touch Unit}, (x.wp (Span.Inside u.sz) (fun _ _ => False) (fun _ _ => True) ()) →
      u.Safe x fun _ => True := id
  unfold writei
  split
  · split
    · exact safe_pure (.inl hneg)
    · refine .bind (Q := fun _ => True) ?_ fun _ _ => safe_pure (.inr hint)
      refine hcopy ((wp_eachByte _ _).2 ⟨?_, trivial⟩)
      rwa [hint]
  · split
    · exact safe_pure (.inl hneg)
    · split
      · exact safe_pure (.inl hneg)
      · refine .bind (hcopy ((wp_copyBlocks _ _ _).2 ⟨h, trivial⟩)) ?_
        intro _ _
        split <;> exact safe_pure (.inr hint)

theorem safe_writeChunks (ip : OpenInode) (addr off : UInt32) (left : Nat)
    (h : Span.Inside u.sz ⟨addr, left⟩) :
    u.Safe (writeChunks ip addr off left) fun _ => True := by
  induction left using Nat.strong_induction_on generalizing ip addr off with
  | _ left ih =>
    rw [writeChunks]
    split
    · exact safe_pure trivial
    · rename_i h0
      have hmax : maxWrite = 6656 := by decide
      have hsum : left = min left maxWrite + (left - min left maxWrite) := by omega
      rw [hsum, inside_add] at h
      have hn : (ofNat (min left maxWrite)).toNat = min left maxWrite := by
        rw [toNat_ofNat']
        omega
      refine (safe_writei ip (by omega) (by rw [hn]; exact h.1)).bind fun r hr => ?_
      simp only
      split
      · exact safe_pure trivial
      · rename_i hneg
        have hr' := hr.resolve_left hneg
        rw [hn] at hr'
        split
        · rename_i hne
          exact absurd hr' hne
        · exact ih _ (by omega) _ _ _ h.2

theorem upTo_le (n : Int32) (k : Nat) : upTo n k ≤ n.toInt.toNat := Nat.min_le_left _ _

theorem inside_mono {a : UInt32} {m k : Nat} (h : Span.Inside u.sz ⟨a, m⟩) (hk : k ≤ m) :
    Span.Inside u.sz ⟨a, k⟩ :=
  fun j hj => h j (Nat.lt_of_lt_of_le hj hk)

theorem safe_filewrite (f : File) {addr : UInt32} {n : Int32} (k : Nat)
    (h : Span.Inside u.sz ⟨addr, n.toInt.toNat⟩) :
    u.Safe (filewrite f addr n k) fun _ => True := by
  unfold filewrite
  split
  · exact safe_pure trivial
  · split
    · refine .bind (Q := fun _ => True) ?_ fun _ _ => safe_pure trivial
      exact (wp_eachByte _ _).2 ⟨inside_mono h (upTo_le n k), trivial⟩
    · exact (safe_writeChunks _ _ _ _ h).bind fun _ _ => safe_pure trivial

/-- If `fileread` is given a negative length, what is left of the file fits behind the
pointer. -/
def RestFits (u : User) (f : File) (p : UInt32) (n : Int32) : Prop :=
  ∀ ip off, f.readable = true → f.kind = .FD_INODE ip off → ip.type ≠ .T_DEV → n < 0 →
    off ≤ ip.size → off ≤ off + n.toUInt32 →
      p.toNat + (ip.size.toNat - off.toNat) ≤ u.sz.toNat

section Read

variable {F : String → Unit → Prop} {p : UInt32} {n : Int32} (hp : p < u.sz)
  (h : Span.Inside u.sz ⟨p, n.toInt.toNat⟩)
include hp h

/-- `readi` of an ordinary file. -/
theorem wp_readi (ip : OpenInode) (off : UInt32) (k : Nat) :
    (readi ip p off n.toUInt32 k).wp (Span.Inside u.sz) F (fun _ _ => True) () ↔
      (ip.type ≠ .T_DEV → n < 0 → off ≤ ip.size → off ≤ off + n.toUInt32 →
        p.toNat + (ip.size.toNat - off.toNat) ≤ u.sz.toNat) := by
  unfold readi
  split
  · rename_i ht
    simp only [ht, ne_eq, not_true_eq_false, false_imp_iff, iff_true]
    split
    · simp
    · exact (wp_eachByte _ _).2 ⟨inside_mono h (upTo_le n k), trivial⟩
  · rename_i ht
    simp only [ht, ne_eq, not_false_eq_true, true_imp_iff]
    split
    · rename_i hbad
      simp only [Prog.wp_pure, true_iff]
      intro _ h₁ h₂
      rcases hbad with hb | hb
      · exact absurd h₁ (UInt32.not_le.2 hb)
      · exact absurd h₂ (UInt32.not_le.2 hb)
    · rename_i hok
      rw [not_or, UInt32.not_lt, UInt32.not_lt] at hok
      simp only [hok.1, hok.2, true_imp_iff]
      have hsize := ip.size_le
      have hmf : MAXFILE * BSIZE = 71680 := by decide
      have hadd := le_iff_toNat_le.1 hok.2
      rw [UInt32.toNat_add] at hadd
      have hN := n.toUInt32.toNat_lt
      have hnowrap : (off + n.toUInt32).toNat = off.toNat + n.toUInt32.toNat := by
        rw [UInt32.toNat_add]
        omega
      have hsub : (ip.size - off).toNat = ip.size.toNat - off.toNat :=
        UInt32.toNat_sub_of_le _ _ hok.1
      rw [wp_copyBlocks, and_iff_left trivial]
      by_cases hneg : n < 0
      · -- the length is cut down to the rest of the file
        have hbig := le_toNat_toUInt32 (by simpa [Int32.lt_iff_toInt_lt] using hneg)
        have hclip : off + n.toUInt32 > ip.size := by
          show ip.size < off + n.toUInt32
          rw [lt_iff_toNat_lt]
          omega
        simp only [hclip, if_true, hneg, true_imp_iff]
        rw [inside_iff hp, hsub]
      · simp only [hneg, false_imp_iff, iff_true]
        have hpos : 0 ≤ n.toInt := by
          rw [Int32.lt_iff_toInt_lt] at hneg
          simpa using hneg
        have heq := toNat_toUInt32 hpos
        apply inside_mono h
        split
        · rename_i hclip
          have := lt_iff_toNat_lt.1 hclip
          omega
        · omega

theorem wp_fileread (f : File) (k : Nat) :
    (fileread f p n k).wp (Span.Inside u.sz) F (fun _ _ => True) () ↔ u.RestFits f p n := by
  unfold fileread RestFits
  split
  · rename_i hr
    simp [hr]
  · rename_i hr
    have hr' : f.readable = true := by simpa using hr
    split
    · rename_i hk
      simp only [hk, reduceCtorEq, false_imp_iff, implies_true, iff_true]
      exact (wp_eachByte _ _).2 ⟨inside_mono h (upTo_le n k), trivial⟩
    · rename_i ip off hk
      rw [wp_readi hp h]
      constructor
      · intro hfit ip' off' _ hk'
        rw [hk] at hk'
        cases hk'
        exact hfit
      · intro hfit
        exact hfit ip off hr' hk

end Read

/-- What the arguments of `sys_read` have to satisfy: if the length is negative, what is
left of the file fits behind the pointer. -/
def ReadFits (u : User) : Prop :=
  ∀ f n p, Returns (u.argfd 0) (some f) → Returns (u.argint 2) (some n) →
    Returns (u.argptr 1 n) (some p) → u.RestFits f p n

/-- The trail of a program. -/
theorem wp_true_iff {E : Span → Prop} {x : Touch α} :
    x.wp E (fun _ _ => True) (fun _ _ => True) () ↔ ∀ r ∈ x.trail (), E r := by
  unfold Prog.wp
  split <;> simp

theorem inside_argptr {n : Int32} {p : UInt32}
    (h : 0 ≤ n.toInt → p.toNat + n.toInt.toNat ≤ u.sz.toNat) :
    Span.Inside u.sz ⟨p, n.toInt.toNat⟩ := by
  by_cases hn : 0 ≤ n.toInt
  · exact inside_of_le (h hn)
  · intro j hj
    simp only at hj
    omega

theorem inside_field {p : UInt32} {size : Int32} {o l : Nat}
    (h : 0 ≤ size.toInt → p.toNat + size.toInt.toNat ≤ u.sz.toNat) (hs : 0 ≤ size.toInt)
    (hf : o + l ≤ size.toInt.toNat) : Span.Inside u.sz ⟨p + ofNat o, l⟩ := by
  have hall := inside_mono (inside_of_le (h hs)) hf
  exact (inside_add.1 hall).2

theorem Safe.orReturn {x : Touch (Option α)} {Q : Option α → Prop} {g : α → Touch Unit}
    (h : u.Safe x Q) (hg : ∀ a, Q (some a) → u.Safe (g a) fun _ => True) :
    u.Safe (orReturn x g) fun _ => True := by
  refine h.bind fun r hr => ?_
  cases r with
  | none => exact safe_pure trivial
  | some a => exact hg a hr

theorem Safe.wp_orReturn {x : Touch (Option α)} {Q : Option α → Prop} {g : α → Touch Unit}
    (h : u.Safe x Q) :
    (User.orReturn x g).wp (Span.Inside u.sz) (fun _ _ => True) (fun _ _ => True) () ↔
      ∀ a, Returns x (some a) →
        (g a).wp (Span.Inside u.sz) (fun _ _ => True) (fun _ _ => True) () := by
  rw [User.orReturn, Prog.wp_bind, h.wp_iff]
  constructor
  · intro hall a ha
    exact hall (some a) ha
  · rintro hall (_ | a) ha
    · exact (Prog.wp_pure ()).2 trivial
    · exact hall a ha

section Calls

variable (hsz : u.sz.toNat < KERNBASE) (env : Env)
include hsz

theorem safe_execArgs (uargv : UInt32) (n : Nat) (i : UInt32) :
    u.Safe (u.execArgs uargv n i) fun r => ∀ l, r = some l → ∀ a ∈ l, u.Str a.1 a.2 := by
  induction n generalizing i with
  | zero => exact safe_pure (by simp)
  | succ n ih =>
    refine (safe_fetchint hsz _).bind fun a _ => ?_
    cases a with
    | none => exact safe_pure (by simp)
    | some a =>
      simp only
      split
      · exact safe_pure (by simp)
      · refine (safe_fetchstr hsz _).bind fun r hr => ?_
        cases r with
        | none => exact safe_pure (by simp)
        | some r =>
          refine (ih (i + 1)).bind fun t ht => safe_pure ?_
          rintro l hl a ha
          obtain ⟨l', rfl, rfl⟩ := Option.map_eq_some_iff.1 hl
          rcases List.mem_cons.1 ha with rfl | ha
          · exact hr _ _ rfl
          · exact ht l' rfl a ha

/-- **`sys_read` stays inside** exactly if what a negative length makes it read fits. -/
theorem sysRead_inside_iff :
    (∀ r ∈ (u.sysRead env).trail (), r.Inside u.sz) ↔ u.ReadFits := by
  rw [← wp_true_iff, sysRead, (safe_argfd hsz 0).wp_orReturn]
  simp only [(safe_argint hsz 2).wp_orReturn, (safe_argptr hsz 1 _).wp_orReturn]
  have hread : ∀ f n p, Returns (u.argptr 1 n) (some p) →
      ((fileread f p n env.bytes).wp (Span.Inside u.sz) (fun _ _ => True) (fun _ _ => True) () ↔
        u.RestFits f p n) := by
    intro f n p hp
    obtain ⟨hlt, hle⟩ := (safe_argptr hsz 1 n).returns hp p rfl
    exact wp_fileread hlt (inside_argptr hle) f env.bytes
  constructor
  · intro h f n p hf hn hp
    exact (hread f n p hp).1 (h f hf n hn p hp)
  · intro h f hf n hn p hp
    exact (hread f n p hp).2 (h f n p hf hn hp)

theorem safe_sysWrite : u.Safe (u.sysWrite env) fun _ => True := by
  refine (safe_argfd hsz 0).orReturn fun f _ => ?_
  refine (safe_argint hsz 2).orReturn fun n _ => ?_
  refine (safe_argptr hsz 1 n).orReturn fun p hp => ?_
  exact (safe_filewrite f env.bytes (inside_argptr (hp p rfl).2)).bind fun _ _ => safe_pure trivial

theorem safe_sysFstat : u.Safe u.sysFstat fun _ => True := by
  refine (safe_argfd hsz 0).orReturn fun f _ => ?_
  refine (safe_argptr hsz 1 20).orReturn fun st hst => ?_
  have hfield : ∀ off len, off + len ≤ 20 → u.Safe (touch (st + ofNat off) len) fun _ => True :=
    fun off len h => safe_touch (inside_field (hst st rfl).2 (by decide) h)
  have h0 := hfield 0 2 (by decide)
  rw [show st + ofNat 0 = st by simp] at h0
  unfold filestat
  split
  · exact safe_pure trivial
  · exact (hfield 4 4 (by decide)).bind fun _ _ => (hfield 8 4 (by decide)).bind fun _ _ =>
      h0.bind fun _ _ => (hfield 12 2 (by decide)).bind fun _ _ => hfield 16 4 (by decide)

theorem safe_sysPipe : u.Safe (u.sysPipe env) fun _ => True := by
  refine (safe_argptr hsz 0 8).orReturn fun fd hfd => ?_
  have h0 := inside_field (o := 0) (l := 4) (hfd fd rfl).2 (by decide) (by decide)
  have h4 := inside_field (o := 4) (l := 4) (hfd fd rfl).2 (by decide) (by decide)
  rw [show fd + ofNat 0 = fd by simp] at h0
  split
  · exact safe_pure trivial
  · exact (safe_touch h0).bind fun _ _ => safe_touch h4

theorem safe_sysExec : u.Safe (u.sysExec env) fun _ => True := by
  refine (safe_argstr hsz 0).orReturn fun path hpath => ?_
  refine (safe_argint hsz 1).orReturn fun uargv _ => ?_
  refine (safe_execArgs hsz _ _ _).orReturn fun argv hargv => ?_
  exact safe_exec (hpath _ _ rfl) (hargv argv rfl) _ _

theorem safe_sysOpen : u.Safe (u.sysOpen env) fun _ => True := by
  refine (safe_argstr hsz 0).orReturn fun path hpath => ?_
  refine (safe_argint hsz 1).orReturn fun omode _ => ?_
  exact ((hpath _ _ rfl).safe_namex _ _).bind fun _ _ => safe_pure trivial

theorem safe_sysLink : u.Safe (u.sysLink env) fun _ => True := by
  refine (safe_argstr hsz 0).orReturn fun old hold => ?_
  refine (safe_argstr hsz 1).orReturn fun new hnew => ?_
  refine ((hold _ _ rfl).safe_namex _ _).bind fun found _ => ?_
  split
  · exact safe_pure trivial
  · split
    · exact safe_pure trivial
    · exact ((hnew _ _ rfl).safe_namex _ _).bind fun _ _ => safe_pure trivial

theorem safe_sysWaitStat : u.Safe (u.sysWaitStat env) fun _ => True := by
  refine (safe_argptr hsz 0 4).orReturn fun wtime hw => ?_
  refine (safe_argptr hsz 1 4).orReturn fun rtime hr => ?_
  refine (safe_argptr hsz 2 4).orReturn fun iotime hi => ?_
  refine (safe_argptr hsz 3 4).orReturn fun status hs => ?_
  have hint : ∀ p, (0 ≤ Int32.toInt 4 → p.toNat + (Int32.toInt 4).toNat ≤ u.sz.toNat) →
      u.Safe (touch p 4) fun _ => True := fun p h => safe_touch (inside_of_le (h (by decide)))
  split
  · refine (hint _ (hw wtime rfl).2).bind fun _ _ => ?_
    refine (hint _ (hr rtime rfl).2).bind fun _ _ => ?_
    exact (hint _ (hi iotime rfl).2).bind fun _ _ => hint _ (hs status rfl).2
  · exact hint _ (hs status rfl).2

end Calls

end Safe

/-- **When the user pointers are sound.**  Every byte that a call touches through its
arguments lies in the process, except where `sys_read` is given a negative length; then
it does exactly if what is left of the file fits behind the pointer. -/
theorem user_pointers_inside_iff (u : User) (hsz : u.sz.toNat < KERNBASE) (env : Env)
    (call : Call) :
    (∀ r ∈ (u.sys env call).trail (), r.Inside u.sz) ↔ (call = .read → u.ReadFits) := by
  have hsafe : ∀ {x : Touch Unit}, u.Safe x (fun _ => True) →
      ∀ r ∈ x.trail (), r.Inside u.sz := fun h => h.1
  cases call with
  | read => simpa [sys] using sysRead_inside_iff hsz env
  | write => simpa [sys] using hsafe (safe_sysWrite hsz env)
  | fstat => simpa [sys] using hsafe (safe_sysFstat hsz)
  | pipe => simpa [sys] using hsafe (safe_sysPipe hsz env)
  | exec => simpa [sys] using hsafe (safe_sysExec hsz env)
  | «open» => simpa [sys] using hsafe (safe_sysOpen hsz env)
  | link => simpa [sys] using hsafe (safe_sysLink hsz env)
  | waitStat => simpa [sys] using hsafe (safe_sysWaitStat hsz env)

/-- A process of one page that calls `read(0, 4095, -1)` on a file of 512 bytes. -/
def readsMinusOne : User where
  sz := 4096
  mem := fun a => if a = 8 then 255 else if a = 9 then 15 else if 12 ≤ a ∧ a < 16 then 255 else 0
  esp := 0
  ofile := fun _ => some
    { readable := true, writable := false,
      kind := .FD_INODE { type := .T_FILE, major := 0, size := 512, size_le := by decide } 0 }

/-- The kernel writes 512 bytes behind the pointer, of which one lies in the process. -/
theorem read_negative_length : readsMinusOne.sz.toNat < KERNBASE ∧
    ∃ r ∈ (readsMinusOne.sys ⟨0, fun _ => ⟨0, true⟩, true⟩ .read).trail (),
      ¬ r.Inside readsMinusOne.sz := by
  have hsz : readsMinusOne.sz.toNat < KERNBASE := by decide
  refine ⟨hsz, ?_⟩
  by_contra hall
  have hin : ∀ r ∈ (readsMinusOne.sysRead ⟨0, fun _ => ⟨0, true⟩, true⟩).trail (),
      r.Inside readsMinusOne.sz := by
    intro r hr
    by_contra hout
    exact hall ⟨r, hr, hout⟩
  have hfit := (sysRead_inside_iff hsz _).1 hin _ (-1) 4095
    rfl rfl rfl _ 0 rfl rfl (by decide) (by decide) (by decide) (by decide)
  exact absurd hfit (by decide)

/-- A process that calls `read(0, 0, 16)` on the same file. -/
def readsSixteen : User :=
  { readsMinusOne with mem := fun a => if a = 12 then 16 else 0 }

theorem user_pointers_inside_sixteen : readsSixteen.sz.toNat < KERNBASE ∧ readsSixteen.ReadFits ∧
    ∀ r ∈ (readsSixteen.sys ⟨0, fun _ => ⟨0, true⟩, true⟩ .read).trail (),
      r.Inside readsSixteen.sz := by
  have hsz : readsSixteen.sz.toNat < KERNBASE := by decide
  have hfits : readsSixteen.ReadFits := by
    intro f n p _ hn _ ip off _ _ _ hneg
    have hn' : n = 16 := by
      have h16 : Returns (readsSixteen.argint 2) (some 16) := rfl
      cases hn
      rfl
    rw [hn'] at hneg
    exact absurd hneg (by decide)
  exact ⟨hsz, hfits, (user_pointers_inside_iff readsSixteen hsz _ .read).2 fun _ => hfits⟩

end User

end Xv6
