import OperatingSystems.User.Pointers
import OperatingSystems.Vm.Paging

/-!
# `exec`

`exec.c`, with `loaduvm` of `vm.c`: a file is read as an ELF executable and its segments
are loaded into a new address space, then a stack with the arguments is made, and the
new address space replaces the old one.  The file is an arbitrary sequence of bytes.

* `loaduvm`, `loadSegments`, `loadImage` — loading the segments.
* `pushArgs`, `buildStack` — the arguments.
* `exec` — all of it; the old address space is freed at the end, or the new one if
  something went wrong.
-/

namespace Xv6.Vm

/-- "\x7FELF" in little endian. -/
def ELF_MAGIC : UInt32 := 0x464C457F

/-- A segment that is loaded. -/
def ELF_PROG_LOAD : UInt32 := 1

/-- `sizeof(struct elfhdr)`. -/
def ELFHDRSIZE : Nat := 52

/-- The file that is executed. -/
structure Image where
  size : Nat
  byte : Nat → UInt8
  size_le : size ≤ User.MAXFILE * BSIZE

namespace Image

/-- A `ushort` of the file. -/
def u16 (im : Image) (i : Nat) : Nat := (im.byte i).toNat + 256 * (im.byte (i + 1)).toNat

/-- A `uint` of the file. -/
def u32 (im : Image) (i : Nat) : UInt32 := UInt32.ofNat (im.u16 i + 65536 * im.u16 (i + 2))

/-- `elf.magic`. -/
def magic (im : Image) : UInt32 := im.u32 0

/-- `elf.entry`. -/
def entry (im : Image) : UInt32 := im.u32 24

/-- `elf.phoff`. -/
def phoff (im : Image) : UInt32 := im.u32 28

/-- `elf.phnum`. -/
def phnum (im : Image) : Nat := im.u16 44

/-- The program header at an offset. -/
def progHdr (im : Image) (off : UInt32) : ProgHdr where
  type := im.u32 off.toNat
  off := im.u32 (off.toNat + 4)
  vaddr := im.u32 (off.toNat + 8)
  filesz := im.u32 (off.toNat + 16)
  memsz := im.u32 (off.toNat + 20)

/-- How many bytes `readi` reads; `none` is `-1`. -/
def readi (im : Image) (off n : UInt32) : Option UInt32 :=
  if off.toNat > im.size ∨ off + n < off then none
  else if (off + n).toNat > im.size then some (UInt32.ofNat im.size - off)
  else some n

end Image

/-- A string argument: its length, and its bytes, of which the one after the last is
the terminator. -/
structure Str where
  len : Nat
  byte : Nat → UInt8

/-- The bytes of some words. -/
def wordBytes (ws : List UInt32) (i : Nat) : UInt8 :=
  UInt8.ofNat (((ws.getD (i / 4) 0).toNat / 256 ^ (i % 4)) % 256)

/-- `ustack`: a return PC, `argc`, and `argv` with its words. -/
def stackWords (sp argc : UInt32) (ustack : List UInt32) : List UInt32 :=
  [0xFFFFFFFF, argc, sp - (argc + 1) * 4] ++ ustack ++ [0]

section Exec

variable (K : Layout)

/-- A turn of the loop of `loaduvm`: whether `readi` read `n` bytes. -/
def loadPage (im : Image) (cur pgdir : Nat) (va off n : UInt32) : M Bool := do
  match ← walkpgdir pgdir va false with
  | none => .panic "loaduvm: address should exist"
  | some (pgtab, j) =>
    let pte ← read pgtab j
    match im.readi off n with
    | none => return false
    | some k =>
      if k = 0 then return decide (k = n)
      else
        record (.load pgdir va (ptePage pte))
        write (← kernelPage K cur (ptePage pte)) fun f =>
          splice f 0 k.toNat fun b => im.byte (off.toNat + b)
        return decide (k = n)

/-- The loop of `loaduvm`.  The file ends before `i` can wrap, so `fuel` pages are
enough. -/
def loadLoop (im : Image) (cur pgdir : Nat) (addr offset sz : UInt32) : Nat → UInt32 → M Bool
  | 0, _ => return true
  | fuel + 1, i => do
      if i < sz then
        let n := if sz - i < 4096 then sz - i else 4096
        if (← loadPage K im cur pgdir (addr + i) (offset + i) n) then
          loadLoop im cur pgdir addr offset sz fuel (i + 4096)
        else return false
      else return true

/-- `loaduvm`: whether the segment was loaded. -/
def loaduvm (im : Image) (cur pgdir : Nat) (addr offset sz : UInt32) : M Bool :=
  if addr.toNat % PGSIZE ≠ 0 then .panic "loaduvm: addr must be page aligned"
  else loadLoop K im cur pgdir addr offset sz (NPDENTRIES * NPTENTRIES) 0

/-- The loop of `exec` over the program headers, of which `n` are to come: the size of
the image, or `none` if it goes to `bad`. -/
def loadSegments (im : Image) (cur pgdir : Nat) : Nat → UInt32 → UInt32 → M (Option UInt32)
  | 0, _, sz => return some sz
  | n + 1, off, sz => do
      if im.readi off 32 ≠ some 32 then return none
      else
        let ph := im.progHdr off
        if ph.type ≠ ELF_PROG_LOAD then loadSegments im cur pgdir n (off + 32) sz
        else if ph.memsz < ph.filesz then return none
        else
          let sz ← allocuvm K pgdir sz (ph.vaddr + ph.memsz)
          if sz = 0 then return none
          else
            record (.segment pgdir ph sz)
            if (← loaduvm K im cur pgdir ph.vaddr ph.off ph.filesz) then
              loadSegments im cur pgdir n (off + 32) sz
            else return none

/-- The first half of `exec`: the new page directory, if there is one, and the size of
the image in it, if it could be loaded. -/
def loadImage (im : Image) (cur : Nat) : M (Option (Nat × Option UInt32)) := do
  if im.size < ELFHDRSIZE then return none
  else if im.magic ≠ ELF_MAGIC then return none
  else
    match ← setupkvm K with
    | none => return none
    | some pgdir =>
      let sz ← loadSegments K im cur pgdir im.phnum im.phoff 0
      return some (pgdir, sz)

/-- The loop of `exec` over the arguments: the stack pointer, and the addresses of the
strings. -/
def pushArgs (cur pgdir : Nat) : List Str → Nat → UInt32 → List UInt32 →
    M (Option (UInt32 × List UInt32))
  | [], _, sp, ustack => return some (sp, ustack)
  | s :: rest, argc, sp, ustack => do
      if argc ≥ User.MAXARG then return none
      else
        let sp := (sp - UInt32.ofNat (s.len + 1)) &&& 0xFFFFFFFC
        if (← copyout K cur pgdir sp s.byte (s.len + 1)) then
          pushArgs cur pgdir rest (argc + 1) sp (ustack ++ [sp])
        else return none

/-- The part of `exec` that makes the stack above an image of size `sz`: the new size,
and the stack pointer. -/
@[irreducible] def buildStack (cur pgdir : Nat) (argv : List Str) (sz : UInt32) :
    M (Option (UInt32 × UInt32)) := do
  let sz := PGROUNDUP sz
  let sz ← allocuvm K pgdir sz (sz + 2 * 4096)
  if sz = 0 then return none
  else
    clearpteu pgdir (sz - 2 * 4096)
    match ← pushArgs K cur pgdir argv 0 sz [] with
    | none => return none
    | some (sp, ustack) =>
      let argc := UInt32.ofNat argv.length
      let words := stackWords sp argc ustack
      let sp := sp - (3 + argc + 1) * 4
      if (← copyout K cur pgdir sp (wordBytes words) (4 * (3 + argv.length + 1))) then
        return some (sz, sp)
      else return none

/-- The pages of the stack above an image of size `sz`, the lower one not for the user: the
new size. -/
def stackPages (pgdir : Nat) (sz : UInt32) : M (Option UInt32) := do
  let sz := PGROUNDUP sz
  let sz ← allocuvm K pgdir sz (sz + 2 * 4096)
  if sz = 0 then return none
  else
    clearpteu pgdir (sz - 2 * 4096)
    return some sz

/-- The arguments, in a stack that ends at `sz`. -/
def pushStack (cur pgdir : Nat) (argv : List Str) (sz : UInt32) : M (Option (UInt32 × UInt32)) := do
  match ← pushArgs K cur pgdir argv 0 sz [] with
  | none => return none
  | some (sp, ustack) =>
    let argc := UInt32.ofNat argv.length
    let words := stackWords sp argc ustack
    let sp := sp - (3 + argc + 1) * 4
    if (← copyout K cur pgdir sp (wordBytes words) (4 * (3 + argv.length + 1))) then
      return some (sz, sp)
    else return none

theorem buildStack_eq (cur pgdir : Nat) (argv : List Str) (sz : UInt32) :
    buildStack K cur pgdir argv sz = (do
      match ← stackPages K pgdir sz with
      | none => return none
      | some sz => pushStack K cur pgdir argv sz) := by
  unfold buildStack stackPages
  dsimp only
  rw [Cmd.bind_assoc]
  generalize allocuvm K pgdir (PGROUNDUP sz) (PGROUNDUP sz + 2 * 4096) = c
  congr 1
  funext r
  by_cases hr : r = 0
  · rw [if_pos hr, if_pos hr]
    rfl
  · rw [if_neg hr, if_neg hr, Cmd.bind_assoc]
    rfl

/-- What `exec` makes of the process. -/
structure Loaded where
  pgdir : Nat
  sz : UInt32
  eip : UInt32
  esp : UInt32

/-- `exec`, by the process whose page directory is `cur`; `none` is `-1`. -/
def exec (im : Image) (cur : Nat) (argv : List Str) : M (Option Loaded) := do
  match ← loadImage K im cur with
  | none => return none
  | some (pgdir, none) =>
    freevm K pgdir
    return none
  | some (pgdir, some sz) =>
    match ← buildStack K cur pgdir argv sz with
    | none =>
      freevm K pgdir
      return none
    | some (sz, sp) =>
      -- the process has the new directory from here on
      freevm K cur
      return some ⟨pgdir, sz, im.entry, sp⟩

end Exec

end Xv6.Vm
