import Mathlib.Data.Nat.Bitwise
import Mathlib.Tactic.NormNum
import OperatingSystems.Lib.Bytes
import OperatingSystems.Lib.Heap

/-!
# Physical memory and page tables

`kalloc.c` and `vm.c`.  Physical memory is what it is on the machine: pages of bytes,
in which page tables, page directories, user memory and the links of the free list
all lie.  A page is known by its number, and a kernel pointer to the start of a page is
taken for that number; addresses in page table entries and in the links of the free
list are the 32-bit integers of the source.

* `Vm.kalloc`, `Vm.kfree` — the allocator, as it works on memory.
* `walkpgdir`, `mappages`, `setupkvm`, `inituvm`, `allocuvm`, `deallocuvm`, `freevm`,
  `clearpteu`, `copyuvm`, `uva2ka`, `copyout` — programs over it.
* `memory` — **physical memory is a memory with an allocator**: what a program does to
  the pages it has can be said without the others.

The linker's symbols `data` and `end` are parameters (`Layout`).  Programs record what
they use pages for; nothing reads the record.
-/

namespace Xv6

open Nat UInt32

variable {p : Nat}

namespace Vm

/-! ## Constants -/

/-- Bytes mapped by a page. -/
def PGSIZE : Nat := 4096

/-- Directory entries per page directory. -/
def NPDENTRIES : Nat := 1024

/-- Entries per page table. -/
def NPTENTRIES : Nat := 1024

/-- First kernel virtual address. -/
def KERNBASE : UInt32 := 0x80000000

theorem toNat_KERNBASE : KERNBASE.toNat = 2 ^ 31 := rfl

/-- Start of extended memory. -/
def EXTMEM : UInt32 := 0x100000

/-- Top of physical memory. -/
def PHYSTOP : UInt32 := 0xE000000

/-- Other devices are at high addresses. -/
def DEVSPACE : UInt32 := 0xFE000000

/-- Present. -/
def PTE_P : UInt32 := 1

/-- Writeable. -/
def PTE_W : UInt32 := 2

/-- User. -/
def PTE_U : UInt32 := 4

/-- The contents of a page. -/
abbrev Frame := Bytes PGSIZE

/-- What the linker decides: the first page of the kernel's data, and the first page
after the kernel, which ends below 4 megabytes. -/
structure Layout where
  data : Nat
  first : Nat
  text_lt : 256 < data
  data_le : data ≤ first
  first_le : first ≤ 1024

/-! ## Addresses and entries -/

/-- Address in page table or page directory entry. -/
def PTE_ADDR (pte : UInt32) : UInt32 := pte &&& 0xFFFFF000

/-- Flags in an entry. -/
def PTE_FLAGS (pte : UInt32) : UInt32 := pte &&& 0xFFF

/-- Nat directory index. -/
def PDX (va : UInt32) : Nat := ((va >>> 22) &&& 0x3FF).toNat

/-- Nat table index. -/
def PTX (va : UInt32) : Nat := ((va >>> 12) &&& 0x3FF).toNat

def PGROUNDUP (sz : UInt32) : UInt32 := (sz + 4095) &&& 0xFFFFF000

def PGROUNDDOWN (a : UInt32) : UInt32 := a &&& 0xFFFFF000

/-- The physical address of a page. -/
def pa (p : Nat) : UInt32 := ofNat (p * PGSIZE)

/-- The kernel's pointer to a page. -/
def P2V (p : Nat) : UInt32 := pa p + KERNBASE

/-- The page at a physical address. -/
def pageAt (a : UInt32) : Nat := a.toNat / PGSIZE

/-- The page a pointer of the kernel points to. -/
def pageOf (v : UInt32) : Nat := pageAt (v - KERNBASE)

/-- The entry is present. -/
def Present (pte : UInt32) : Prop := pte &&& PTE_P ≠ 0

instance (pte : UInt32) : Decidable (Present pte) := inferInstanceAs (Decidable (_ ≠ _))

/-- The page an entry maps. -/
def ptePage (pte : UInt32) : Nat := pageAt (PTE_ADDR pte)

/-- The `i`th entry of a page table; of a free page, the first is the link. -/
def entry (f : Frame) (i : Nat) : UInt32 := f.get32 (4 * i)

/-- Set the `i`th entry. -/
def setEntry (f : Frame) (i : Nat) (v : UInt32) : Frame := f.put32 (4 * i) v

/-- A page of bytes `b`. -/
def filled (b : UInt8) : Frame := fun _ => b

/-- A page of which `n` bytes from `i` on are replaced. -/
def splice (f : Frame) (i n : Nat) (src : Nat → UInt8) : Frame := fun j =>
  if i ≤ j.val ∧ j.val < i + n then src (j.val - i) else f j

/-! ## Arithmetic of addresses -/

theorem and_mask_eq {a : Nat} (ha : a < 2 ^ 32) (k : Nat) :
    a &&& ((2 ^ (32 - k) - 1) * 2 ^ k) = a / 2 ^ k * 2 ^ k := by
  apply eq_of_testBit_eq
  intro i
  rw [testBit_and, testBit_mul_two_pow, testBit_mul_two_pow,
    testBit_two_pow_sub_one, testBit_div_two_pow]
  by_cases h : k ≤ i
  · rw [Nat.sub_add_cancel h]
    by_cases hi : i < 32
    · simp [h, show i - k < 32 - k by omega]
    · have hbit : a.testBit i = false :=
        Nat.testBit_lt_two_pow (ha.trans_le (Nat.pow_le_pow_right (by norm_num) (by omega)))
      simp [hbit]
  · simp [h]

theorem toNat_and_mask (a : UInt32) : (a &&& 0xFFFFF000).toNat = a.toNat / 4096 * 4096 := by
  rw [UInt32.toNat_and]
  exact and_mask_eq a.toNat_lt 12

theorem toNat_align4 (a : UInt32) : (a &&& 0xFFFFFFFC).toNat = a.toNat / 4 * 4 := by
  rw [UInt32.toNat_and]
  exact and_mask_eq a.toNat_lt 2

theorem toNat_PGROUNDDOWN (a : UInt32) : (PGROUNDDOWN a).toNat = a.toNat / 4096 * 4096 :=
  toNat_and_mask a

theorem PGROUNDDOWN_eq_self {a : UInt32} (ha : a.toNat % 4096 = 0) : PGROUNDDOWN a = a := by
  apply UInt32.toNat_inj.1
  rw [toNat_PGROUNDDOWN]
  omega

theorem toNat_PGROUNDUP {a : UInt32} (ha : a.toNat ≤ 2 ^ 31) :
    (PGROUNDUP a).toNat = (a.toNat + 4095) / 4096 * 4096 := by
  have hadd : (a + 4095).toNat = a.toNat + 4095 := by
    rw [UInt32.toNat_add]
    have hc : toNat 4095 = 4095 := rfl
    omega
  unfold PGROUNDUP
  rw [toNat_and_mask, hadd]

theorem toNat_add_page {a : UInt32} {v : Nat} (ha : a.toNat = 4096 * v) (hv : v + 1 < 2 ^ 20) :
    (a + 4096).toNat = 4096 * (v + 1) := by
  have h4 : UInt32.toNat 4096 = 4096 := rfl
  rw [UInt32.toNat_add, h4, ha]
  omega

theorem toNat_PTE_FLAGS (a : UInt32) : (PTE_FLAGS a).toNat = a.toNat % 4096 := by
  unfold PTE_FLAGS
  rw [UInt32.toNat_and]
  exact and_two_pow_sub_one_eq_mod a.toNat 12

theorem ptePage_eq (w : UInt32) : ptePage w = w.toNat / 4096 := by
  unfold ptePage pageAt PTE_ADDR PGSIZE
  rw [toNat_and_mask, Nat.mul_div_cancel _ (by norm_num)]

theorem PDX_eq (va : UInt32) : PDX va = va.toNat / 4096 / 1024 := by
  have hva := va.toNat_lt
  have hmask : UInt32.toNat 0x3FF = 2 ^ 10 - 1 := rfl
  have hshift : toNat 22 % 32 = 22 := rfl
  unfold PDX
  rw [UInt32.toNat_and, UInt32.toNat_shiftRight, hmask, hshift, and_two_pow_sub_one_eq_mod,
    shiftRight_eq_div_pow]
  omega

theorem PTX_eq (va : UInt32) : PTX va = va.toNat / 4096 % 1024 := by
  have hmask : UInt32.toNat 0x3FF = 2 ^ 10 - 1 := rfl
  have hshift : toNat 12 % 32 = 12 := rfl
  unfold PTX
  rw [UInt32.toNat_and, UInt32.toNat_shiftRight, hmask, hshift, and_two_pow_sub_one_eq_mod,
    shiftRight_eq_div_pow]

theorem toNat_pa (hp : p < 2 ^ 20) : (pa p).toNat = p * 4096 := by
  simp only [pa, PGSIZE, toNat_ofNat']
  omega

theorem toNat_or_of_lt {a x : UInt32} (ha : a.toNat % 4096 = 0) (hx : x.toNat < 4096) :
    (a ||| x).toNat = a.toNat + x.toNat := by
  have h := two_pow_add_eq_or_of_lt (i := 12) hx (a.toNat / 4096)
  rw [show 2 ^ 12 * (a.toNat / 4096) = a.toNat by omega] at h
  rw [UInt32.toNat_or, h]

theorem present_iff (w : UInt32) : Present w ↔ w.toNat % 2 = 1 := by
  have hmask : UInt32.toNat 1 = 2 ^ 1 - 1 := rfl
  have hzero : UInt32.toNat 0 = 0 := rfl
  unfold Present PTE_P
  rw [← UInt32.toNat_inj.ne, UInt32.toNat_and, hmask, hzero, and_two_pow_sub_one_eq_mod]
  omega

theorem pageOf_P2V (hp : p < 2 ^ 20) : pageOf (P2V p) = p := by
  unfold pageOf P2V pageAt
  rw [UInt32.add_sub_cancel, toNat_pa hp, PGSIZE, Nat.mul_div_cancel _ (by norm_num)]

theorem P2V_ne_zero (hp : p < 2 ^ 19) : P2V p ≠ 0 := by
  have hpa := toNat_pa (p := p) (by omega)
  have hbase := toNat_KERNBASE
  intro h
  have h0 := congrArg UInt32.toNat h
  rw [P2V, UInt32.toNat_add, hpa, hbase, UInt32.toNat_zero] at h0
  omega

theorem entry_setEntry (f : Frame) {i : Nat} (hi : i < 1024) (v : UInt32) :
    entry (setEntry f i v) i = v :=
  f.get32_put32 v (by unfold PGSIZE; omega)

theorem entry_setEntry_of_ne (f : Frame) {i j : Nat} (hij : j ≠ i) (v : UInt32) :
    entry (setEntry f i v) j = entry f j :=
  f.get32_put32_of_disjoint v (by omega)

@[simp] theorem entry_filled_zero (i : Nat) : entry (filled 0) i = 0 :=
  Bytes.get32_zero (4 * i)

/-! ## Programs -/

/-- A program header of an executable. -/
structure ProgHdr where
  type : UInt32
  off : UInt32
  vaddr : UInt32
  filesz : UInt32
  memsz : UInt32
  deriving DecidableEq, Repr

/-- What pages are used for. -/
inductive Ev
  /-- `walkpgdir` made a page table for an entry of a directory. -/
  | table (pgdir : Nat) (i : Nat)
  /-- `allocuvm` allocated a page for a user address. -/
  | uvm (pgdir : Nat) (va : UInt32) (p : Nat)
  /-- `exec` is about to load a segment, and the image has this size. -/
  | segment (pgdir : Nat) (ph : ProgHdr) (sz : UInt32)
  /-- `loaduvm` is about to write to the page it found for an address. -/
  | load (pgdir : Nat) (va : UInt32) (p : Nat)
  deriving DecidableEq, Repr

/-- Programs over physical memory. -/
abbrev M (α : Type) : Type := Cmd Nat Frame Ev α

/-- Record what a page is used for. -/
def record (e : Ev) : M Unit := .emit e (.ret ())

/-- Write to a page. -/
def write (p : Nat) (f : Frame → Frame) : M Unit := .update p f (.ret ())

/-- Read an entry of a page. -/
def read (p : Nat) (i : Nat) : M UInt32 := .get p fun f => .ret (entry f i)

/-- `kalloc`; `none` is the null pointer. -/
def kalloc : M (Option Nat) := .alloc .ret

section Kernel

variable (K : Layout)

/-- `kfree`. -/
def kfree (p : Nat) : M Unit :=
  if p < K.first ∨ pageAt PHYSTOP ≤ p then .panic "kfree" else .free p (.ret ())

/-- `freerange`, for `n` pages from `p` on. -/
def freerange (p : Nat) : Nat → M Unit
  | 0 => return ()
  | n + 1 => do
      kfree K p
      freerange (p + 1) n

/-! ### Walking and mapping -/

/-- `walkpgdir`: the page table, and the index of the entry in it; `none` is the null
pointer. -/
def walkpgdir (pgdir : Nat) (va : UInt32) (alloc : Bool) : M (Option (Nat × Nat)) := do
  let pde ← read pgdir (PDX va)
  if Present pde then return some (ptePage pde, PTX va)
  else if alloc = false then return none
  else
    match ← kalloc with
    | none => return none
    | some pgtab =>
      write pgtab fun _ => filled 0
      write pgdir fun f => setEntry f (PDX va) (pa pgtab ||| PTE_P ||| PTE_W ||| PTE_U)
      record (.table pgdir (PDX va))
      return some (pgtab, PTX va)

/-- A turn of the loop of `mappages`: whether there was a page table. -/
def mapPage (pgdir : Nat) (a pte : UInt32) : M Bool := do
  match ← walkpgdir pgdir a true with
  | none => return false
  | some (pgtab, i) =>
    if Present (← read pgtab i) then .panic "remap"
    else
      write pgtab fun f => setEntry f i pte
      return true

/-- The loop of `mappages`, with `n` more pages to follow; `a == last` when `n` is
`0`.  It returns whether the pages were mapped. -/
def mapLoop (pgdir : Nat) (perm : UInt32) : Nat → UInt32 → UInt32 → M Bool
  | 0, a, addr => mapPage pgdir a (addr ||| perm ||| PTE_P)
  | n + 1, a, addr => do
      if (← mapPage pgdir a (addr ||| perm ||| PTE_P)) then
        mapLoop pgdir perm n (a + 4096) (addr + 4096)
      else return false

/-- `mappages`. -/
def mappages (pgdir : Nat) (va size addr perm : UInt32) : M Bool :=
  let a := PGROUNDDOWN va
  let last := PGROUNDDOWN (va + size - 1)
  mapLoop pgdir perm ((last - a).toNat / PGSIZE) a addr

/-- An entry of `kmap`. -/
structure Kmap where
  virt : UInt32
  phys_start : UInt32
  phys_end : UInt32
  perm : UInt32

/-- `kmap`. -/
def kmap : List Kmap :=
  [⟨KERNBASE, 0, EXTMEM, PTE_W⟩, ⟨KERNBASE + EXTMEM, EXTMEM, pa K.data, 0⟩,
   ⟨P2V K.data, pa K.data, PHYSTOP, PTE_W⟩,
   ⟨DEVSPACE, DEVSPACE, 0, PTE_W⟩]

/-- The loop of `setupkvm`. -/
def mapKernel (pgdir : Nat) : List Kmap → M Bool
  | [] => return true
  | k :: ks => do
      if (← mappages pgdir k.virt (k.phys_end - k.phys_start) k.phys_start k.perm) then
        mapKernel pgdir ks
      else return false

/-- `setupkvm`. -/
def setupkvm : M (Option Nat) := do
  match ← kalloc with
  | none => return none
  | some pgdir =>
    write pgdir fun _ => filled 0
    if PHYSTOP + KERNBASE > DEVSPACE then .panic "PHYSTOP too high"
    else if (← mapKernel pgdir (kmap K)) then return some pgdir
    else return none

/-! ### User memory -/

/-- `inituvm`: the page of the first process.  The pointer `kalloc` returns is used
even if it is null, when nothing is mapped there yet. -/
def inituvm (pgdir : Nat) (init : Nat → UInt8) (sz : UInt32) : M Unit := do
  if sz ≥ 4096 then .panic "inituvm: more than a page"
  else
    match ← kalloc with
    | none => .panic "trap"
    | some mem =>
      write mem fun _ => filled 0
      let _ ← mappages pgdir 0 4096 (pa mem) (PTE_W ||| PTE_U)
      write mem fun f => splice f 0 sz.toNat init

/-- The loop of `deallocuvm`.  Every turn goes on by a page at least, so `fuel` pages
are enough. -/
def deallocLoop (pgdir : Nat) (oldsz : UInt32) : Nat → UInt32 → M Unit
  | 0, _ => return ()
  | fuel + 1, a => do
      if a < oldsz then
        match ← walkpgdir pgdir a false with
        | none => deallocLoop pgdir oldsz fuel (a + (1024 - 1) * 4096 + 4096)
        | some (pgtab, i) =>
          let pte ← read pgtab i
          if Present pte then
            if PTE_ADDR pte = 0 then .panic "kfree"
            else
              kfree K (ptePage pte)
              write pgtab fun f => setEntry f i 0
              deallocLoop pgdir oldsz fuel (a + 4096)
          else deallocLoop pgdir oldsz fuel (a + 4096)
      else return ()

/-- `deallocuvm`. -/
def deallocuvm (pgdir : Nat) (oldsz newsz : UInt32) : M UInt32 := do
  if newsz ≥ oldsz then return oldsz
  else
    deallocLoop K pgdir oldsz (NPDENTRIES * NPTENTRIES) (PGROUNDUP newsz)
    return newsz

/-- The loop of `allocuvm`: whether there was enough memory.  Every turn goes on by a
page, so `fuel` pages are enough. -/
def allocLoop (pgdir : Nat) (newsz : UInt32) : Nat → UInt32 → M Bool
  | 0, _ => return true
  | fuel + 1, a => do
      if a < newsz then
        match ← kalloc with
        | none => return false
        | some mem =>
          write mem fun _ => filled 0
          record (.uvm pgdir a mem)
          -- the result of `mappages` is not looked at
          let _ ← mappages pgdir a 4096 (pa mem) (PTE_W ||| PTE_U)
          allocLoop pgdir newsz fuel (a + 4096)
      else return true

/-- `allocuvm`. -/
def allocuvm (pgdir : Nat) (oldsz newsz : UInt32) : M UInt32 := do
  if newsz ≥ KERNBASE then return 0
  else if newsz < oldsz then return oldsz
  else if (← allocLoop pgdir newsz (NPDENTRIES * NPTENTRIES) (PGROUNDUP oldsz)) then
    return newsz
  else
    let _ ← deallocuvm K pgdir newsz oldsz
    return 0

/-- The loop of `freevm` over the page tables, from entry `i` on. -/
def freeTables (pgdir : Nat) (i : Nat) : Nat → M Unit
  | 0 => return ()
  | n + 1 => do
      let pde ← read pgdir i
      if Present pde then
        kfree K (ptePage pde)
        freeTables pgdir (i + 1) n
      else freeTables pgdir (i + 1) n

/-- `freevm`. -/
def freevm (pgdir : Nat) : M Unit := do
  let _ ← deallocuvm K pgdir KERNBASE 0
  freeTables K pgdir 0 NPDENTRIES
  kfree K pgdir

/-- `clearpteu`. -/
def clearpteu (pgdir : Nat) (uva : UInt32) : M Unit := do
  match ← walkpgdir pgdir uva false with
  | none => .panic "clearpteu"
  | some (pgtab, i) => write pgtab fun f => setEntry f i (entry f i &&& 0xFFFFFFFB)

/-- The loop of `copyuvm`: whether there was enough memory. -/
def copyLoop (pgdir d : Nat) (sz : UInt32) : Nat → UInt32 → M Bool
  | 0, _ => return true
  | fuel + 1, i => do
      if i < sz then
        match ← walkpgdir pgdir i false with
        | none => .panic "copyuvm: pte should exist"
        | some (pgtab, j) =>
          let pte ← read pgtab j
          if Present pte then
            match ← kalloc with
            | none => return false
            | some mem =>
              .get (ptePage pte) fun src => do
                write mem fun _ => src
                if (← mappages d i 4096 (pa mem) (PTE_FLAGS pte)) then
                  copyLoop pgdir d sz fuel (i + 4096)
                else return false
          else .panic "copyuvm: page not present"
      else return true

/-- `copyuvm`. -/
def copyuvm (pgdir : Nat) (sz : UInt32) : M (Option Nat) := do
  match ← setupkvm K with
  | none => return none
  | some d =>
    if (← copyLoop pgdir d sz (NPDENTRIES * NPTENTRIES) 0) then return some d
    else
      freevm K d
      return none

/-! ### Pointers to user memory -/

/-- The page that a user address is mapped to for the running process.  An address
that is not mapped is a fault. -/
def translate (cur : Nat) (va : UInt32) : M Nat := do
  match ← walkpgdir cur va false with
  | none => .panic "trap"
  | some (pgtab, i) =>
    let pte ← read pgtab i
    if Present pte then return ptePage pte else .panic "trap"

/-- The page that is written through the kernel's pointer `P2V(p)` while `cur` is the
page directory in use.  With `kmap`, that is page `p` itself if it is below `PHYSTOP`,
but for the kernel's text, which is read-only; then nothing, and devices from `DEVSPACE`
on.  Past that the pointer has wrapped and is an address of the running process. -/
def kernelPage (cur p : Nat) : M Nat :=
  if pageAt EXTMEM ≤ p ∧ p < K.data then .panic "trap"
  else if p < pageAt PHYSTOP then return p
  else if P2V p ≥ DEVSPACE then return pageAt (P2V p)
  else if P2V p ≥ KERNBASE then .panic "trap"
  else translate cur (P2V p)

/-- `uva2ka`: the page; `none` is the null pointer.  The entry is read even if
`walkpgdir` has found none, and then it is the first word of the running process. -/
def uva2ka (cur pgdir : Nat) (uva : UInt32) : M (Option Nat) := do
  let pte ← do
    match ← walkpgdir pgdir uva false with
    | none => do read (← translate cur 0) 0
    | some (pgtab, i) => read pgtab i
  if pte &&& PTE_P = 0 then return none
  else if pte &&& PTE_U = 0 then return none
  -- the pointer `p2v` makes may itself be null
  else if P2V (ptePage pte) = 0 then return none
  else return some (ptePage pte)

/-- The loop of `copyout`, with `len` bytes to go.  Every turn copies a byte at least,
so `fuel` bytes are enough. -/
def copyoutLoop (cur pgdir : Nat) : Nat → UInt32 → (Nat → UInt8) → Nat → M Bool
  | 0, _, _, _ => return true
  | fuel + 1, va, src, len => do
      if len = 0 then return true
      else
        let va0 := PGROUNDDOWN va
        match ← uva2ka cur pgdir va0 with
        | none => return false
        | some pa0 =>
          let n := min (PGSIZE - (va - va0).toNat) len
          write (← kernelPage K cur pa0) fun f => splice f (va - va0).toNat n src
          copyoutLoop cur pgdir fuel (va0 + 4096) (fun j => src (j + n)) (len - n)

/-- `copyout`, of the `len` bytes of `src`. -/
def copyout (cur pgdir : Nat) (va : UInt32) (src : Nat → UInt8) (len : Nat) : M Bool :=
  copyoutLoop K cur pgdir len va src len

end Kernel

end Vm

/-! ## Memory -/

/-- Physical memory, and `kmem`. -/
structure Vm where
  /-- The pages. -/
  page : Nat → Vm.Frame
  /-- `kmem.freelist`, a pointer of the kernel; `0` if the list is empty. -/
  freelist : UInt32

variable {K : Layout}

namespace Vm

/-- Change a page. -/
def update (m : Vm) (p : Nat) (f : Frame → Frame) : Vm :=
  { m with page := fun q => if q = p then f (m.page p) else m.page q }

/-- What `kalloc` does, with the lock. -/
def takeFree (m : Vm) : Option Nat × Vm :=
  if m.freelist = 0 then (none, m)
  else (some (pageOf m.freelist), { m with freelist := entry (m.page (pageOf m.freelist)) 0 })

/-- What `kfree` does to a page that passed its checks. -/
def putFree (m : Vm) (p : Nat) : Vm :=
  let m := m.update p fun _ => filled 1
  let m := m.update p fun f => setEntry f 0 m.freelist
  { m with freelist := P2V p }

/-- The free list is `l`, from the pointer `v` on. -/
def Linked (m : Vm) : UInt32 → List Nat → Prop
  | v, [] => v = 0
  | v, p :: l => v = P2V p ∧ m.Linked (entry (m.page p) 0) l

/-- The pages the allocator hands out. -/
def Managed (K : Layout) (p : Nat) : Prop := K.first ≤ p ∧ p < pageAt PHYSTOP

instance (K : Layout) (p : Nat) : Decidable (Managed K p) := inferInstanceAs (Decidable (_ ∧ _))

theorem Managed.lt (hp : Managed K p) : p < 57344 := hp.2

theorem Managed.ne_zero (hp : Managed K p) : p ≠ 0 := by
  have h1 := K.text_lt
  have h2 := K.data_le
  have h3 := hp.1
  omega

/-- The free pages are these. -/
def FreePages (K : Layout) (m : Vm) (E : Finset Nat) : Prop :=
  ∃ l : List Nat, l.Nodup ∧ l.toFinset = E ∧ m.Linked m.freelist l ∧ ∀ p ∈ l, Managed K p

theorem Linked.congr {m m' : Vm} {l : List Nat} {v : UInt32} (h : m.Linked v l)
    (hp : ∀ p ∈ l, m'.page p = m.page p) : m'.Linked v l := by
  induction l generalizing v with
  | nil => exact h
  | cons p l ih =>
    refine ⟨h.1, ?_⟩
    rw [hp p (by simp)]
    exact ih h.2 fun q hq => hp q (by simp [hq])

theorem page_update (m : Vm) (p : Nat) (f : Frame → Frame) (q : Nat) :
    (m.update p f).page q = if q = p then f (m.page p) else m.page q := rfl

theorem FreePages.update {m : Vm} {E : Finset Nat} (f : Frame → Frame)
    (h : FreePages K m E) (hp : p ∉ E) : FreePages K (m.update p f) E := by
  obtain ⟨l, hnd, rfl, hl, hm⟩ := h
  refine ⟨l, hnd, rfl, hl.congr fun q hq => ?_, hm⟩
  rw [page_update, if_neg]
  rintro rfl
  exact hp (List.mem_toFinset.2 hq)

theorem FreePages.takeFree_empty {m : Vm} (h : FreePages K m ∅) : m.takeFree = (none, m) := by
  obtain ⟨l, -, hE, hl, -⟩ := h
  rw [List.toFinset_eq_empty_iff] at hE
  subst hE
  exact if_pos hl

theorem FreePages.takeFree_nonempty {m : Vm} {E : Finset Nat}
    (h : FreePages K m E) (hne : E.Nonempty) :
    ∃ p ∈ E, ∃ m', m.takeFree = (some p, m') ∧ FreePages K m' (E.erase p) ∧
      ∀ q, q ∉ E → m'.page q = m.page q := by
  obtain ⟨l, hnd, rfl, hl, hm⟩ := h
  cases l with
  | nil => exact absurd hne (by simp)
  | cons p l =>
    have hp := (hm p (by simp)).lt
    have hpage : pageOf m.freelist = p := by rw [hl.1, pageOf_P2V (by omega)]
    have hne0 : m.freelist ≠ 0 := by rw [hl.1]; exact P2V_ne_zero (by omega)
    refine ⟨p, by simp, { m with freelist := entry (m.page p) 0 }, ?_, ⟨l, ?_⟩, fun _ _ => rfl⟩
    · simp only [takeFree, if_neg hne0, hpage]
    · obtain ⟨hpl, hnd⟩ := List.nodup_cons.1 hnd
      refine ⟨hnd, ?_, hl.2.congr fun _ _ => rfl, fun q hq => hm q (by simp [hq])⟩
      rw [List.toFinset_cons, Finset.erase_insert (by simpa using hpl)]

theorem page_putFree_of_ne {m : Vm} {p q : Nat} (hq : q ≠ p) : (m.putFree p).page q = m.page q := by
  simp [putFree, update, hq]

theorem FreePages.putFree {m : Vm} {E : Finset Nat}
    (h : FreePages K m E) (hp : p ∉ E) (hm : Managed K p) :
    FreePages K (m.putFree p) (insert p E) := by
  obtain ⟨l, hnd, rfl, hl, hml⟩ := h
  have hpl : p ∉ l := by simpa using hp
  refine ⟨p :: l, List.nodup_cons.2 ⟨hpl, hnd⟩, by simp, ⟨rfl, ?_⟩, ?_⟩
  · have hlink : entry ((m.putFree p).page p) 0 = m.freelist := by
      simp only [Vm.putFree, Vm.update, if_pos]
      exact entry_setEntry _ (by norm_num) _
    rw [hlink]
    refine hl.congr fun q hq => page_putFree_of_ne ?_
    rintro rfl
    exact hpl hq
  · rintro q (_ | ⟨_, hq⟩)
    · exact hm
    · exact hml q hq

/-- **Physical memory is a memory with an allocator.** -/
def memory (K : Layout) : Cmd.Allocator Vm Nat Frame where
  managed := Managed K
  read := Vm.page
  update := Vm.update
  alloc := takeFree
  free := putFree
  Free := FreePages K
  managed_of_free := by
    rintro m _ p ⟨l, -, rfl, -, hm⟩ hp
    exact hm p (List.mem_toFinset.1 hp)
  read_update m p f q := rfl
  free_update f h hp := h.update f hp
  alloc_empty h := h.takeFree_empty
  alloc_nonempty h hne := h.takeFree_nonempty hne
  free_free h hp hm := h.putFree hp hm
  read_free hq := page_putFree_of_ne hq

end Vm

end Xv6
