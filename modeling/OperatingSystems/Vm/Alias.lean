import OperatingSystems.Vm.Isolation

/-!
# A string that becomes a page table

`exec` copies its arguments below the top of the new stack, however long they are.  A
string of a little more than 32 MB starts below the devices, where nothing is mapped, and
`walkpgdir` returns the null pointer for it.  `uva2ka` then reads the page table entry
from address zero, that is from the first word of the process itself.  If the process has
put the address of its own page table there, with the user flag, the string is written
over that page table.

* `wp_userinit_ok`, `wp_grow_ok`, `wp_exec_alias` — the run, with enough memory.
* `page_has_two_roles` — **the kernel stack of the process becomes a page of its user
  part**.
-/

namespace Xv6.Vm

open Cmd Heap UInt32

variable {K : Layout} {S : Space} {h : Heap Nat Frame} {n : Nat} {t : List Ev} {init : Nat → UInt8}

/-- Nothing panics. -/
abbrev noPanic : String → List Ev → Prop := fun _ _ => False

/-- A space with one user page `p`, and the page table `T` for it. -/
structure First (K : Layout) (S : Space) (T p : Nat) : Prop where
  tab : S.tab 0 = some T
  pte : S.pte 0 = pa p ||| (PTE_W ||| PTE_U) ||| PTE_P
  managed : Managed K p
  rest : ∀ {u : Nat}, 1 ≤ u → u < USERPAGES → S.pte u = 0

/-- `inituvm`, with enough memory. -/
theorem wp_inituvm_ok {Q : Post Unit} (hR : Rep K S h) (hS : KernelSpace S) (hn : 2 ≤ n)
    (ok : ∀ S' h' T p n' t', Rep K S' h' → First K S' T p → S'.dir = S.dir → n ≤ n' + 1025 →
      Q () ⟨h', some n', t'⟩) :
    wp (whole K) noPanic (inituvm S.dir init 0) Q ⟨h, some n, t⟩ := by
  rw [inituvm, if_neg (by decide), wp_bind]
  refine wp_kalloc (fun hf => ?_) fun _ mem f hm hfree => ?_
  · rcases hf with hf | hf <;> simp at hf
    omega
  have hfree' : h mem = none := hfree
  simp only [wp_bind]
  refine wp_write (put_self _ _ _) ?_
  simp only [put_put]
  refine wp_mapUser hR (v := 0) rfl (by decide) hfree' hm (by decide) (fun hp => ?_) ?_ ?_
  · rw [hS.user (by decide)] at hp
    exact absurd hp not_present_zero
  · intro _ hc
    simp at hc
    omega
  intro T S₁ h' c' t' hW _ hR'
  obtain ⟨n₁, rfl, -, hcr⟩ := (hW.grown 0).credit (n := n - 1) rfl
  have habs := S.absentTabs_le
  have hpte : (S₁.setPte 0 (pa mem ||| (PTE_W ||| PTE_U) ||| PTE_P) (filled 0)).pte 0 =
      pa mem ||| (PTE_W ||| PTE_U) ||| PTE_P := S₁.pte_setPte_self _ _ _
  have huser : (S₁.setPte 0 (pa mem ||| (PTE_W ||| PTE_U) ||| PTE_P) (filled 0)).page (.user 0) =
      some mem := by
    refine Space.page_user.2 ⟨by decide, ?_, ?_⟩
    · rw [hpte]
      exact present_or_P _
    · rw [hpte]
      exact ptePage_mapped (by have := hm.lt; omega) (by decide)
  have hrest : ∀ {u}, 1 ≤ u → u < USERPAGES →
      (S₁.setPte 0 (pa mem ||| (PTE_W ||| PTE_U) ||| PTE_P) (filled 0)).pte u = 0 := by
    intro u h1 h2
    rw [S₁.pte_setPte_of_ne _ _ (by omega), hW.pte]
    exact hS.user h2
  refine wp_write (hR'.user_mem huser) ?_
  exact ok _ _ T mem n₁ t' (hR'.setMem huser) ⟨hW.tab, hpte, hm, hrest⟩ (hW.grown 0).dir (by omega)

theorem wp_userinit_ok {Q : Post (Nat × Nat)} (hn : 3000 ≤ n)
    (ok : ∀ ks S h r T p n' t', Rep K S h → h.Disjoint r → First K S T p → n ≤ n' + 2060 →
      Q (ks, S.dir) ⟨h ∪ r, some n', t'⟩) :
    wp (whole K) noPanic (userinit K init 0) Q ⟨empty, some n, t⟩ := by
  rw [userinit, wp_bind]
  refine wp_kalloc (fun hf => ?_) fun _ ks f _ _ => ?_
  · rcases hf with hf | hf <;> simp at hf
    omega
  simp only [wp_bind]
  rw [← empty_union (put empty ks f)]
  refine wp.frame (empty_disjoint _) (wp_setupkvm (fun _ _ _ hle _ _ => ?_) ?_)
  · have := hle (n - 1) rfl
    omega
  intro S h c' t' hR hS _ hG hd
  obtain ⟨n₁, rfl, -, hcr⟩ := hG.credit (n := n - 1 - 1) rfl
  have habs := (Space.new S.dir).absentTabs_le
  simp only [wp_bind]
  refine wp.frame hd (wp_inituvm_ok hR hS (by omega) ?_)
  intro S' h' T p n' t' hR' hF hdir hn' hd'
  rw [wp_pure, ← hdir]
  exact ok ks S' h' _ T p n' t' hR' hd' hF (by omega)

theorem wp_grow_ok {Q : Post UInt32} {T p : Nat} {sz N : UInt32}
    {d : Int32} (hR : Rep K S h) (hF : First K S T p) (hn : 10000 ≤ n) (hpos : d > 0)
    (hsz : sz.toNat = 4096) (hN : sz + d.toUInt32 = N) (hN' : N.toNat = 33570816)
    (ok : ∀ S' h' r n' t', Rep K S' h' → h'.Disjoint r → S'.dir = S.dir → S'.tab 0 = some T →
      S'.pte 0 = S.pte 0 → n ≤ n' + 9300 → Q N ⟨h' ∪ r, some n', t'⟩) :
    wp (whole K) noPanic (growPages K S.dir sz d) Q ⟨h, some n, t⟩ := by
  rw [growPages, if_pos hpos, hN]
  have hbase := toNat_KERNBASE
  have hsmall : N < KERNBASE := by
    rw [lt_iff_toNat_lt]
    omega
  have habs := S.absentTabs_le
  refine wp_allocuvm hR ?_ ?_ ?_ ?_ ?_
  · rintro - ⟨u, h1, h2, h3⟩
    rw [hF.rest (by omega) (by unfold USERPAGES; omega)] at h3
    exact absurd h3 not_present_zero
  · intro hge
    exact absurd hsmall (UInt32.not_lt.2 hge)
  · intro _ hlt
    rw [lt_iff_toNat_lt] at hlt
    omega
  · intro S₁ S' h' g c₁ c' t' _ hA _ _ _
    obtain ⟨n₁, hn₁, -, hcr⟩ := hA.grown.credit rfl
    have h0 := hA.fail rfl
    rw [hn₁] at h0
    simp at h0
    omega
  · intro S' h' g c' t' _ _ hA hR' hd
    obtain ⟨n₁, rfl, -, hcr⟩ := hA.grown.credit rfl
    exact ok S' h' g n₁ t' hR' hd hA.grown.dir (hA.grown.tab hF.tab) (hA.outside (.inl (by omega))).1
      (by omega)

theorem or_and (x y z : UInt32) : (x ||| y) &&& z = (x &&& z) ||| (y &&& z) := by
  apply UInt32.toBitVec_inj.1
  exact BitVec.and_or_distrib_right

theorem wp_userStore_ok {Q : Post Unit} {T p : Nat} (hR : Rep K S h)
    (hT : S.tab 0 = some T) (hpte : S.pte 0 = pa p ||| (PTE_W ||| PTE_U) ||| PTE_P)
    (hm : Managed K p) (g : Frame) (ok : ∀ h', Rep K (S.setMem 0 g) h' → Q () ⟨h', some n, t⟩) :
    wp (whole K) noPanic (userStore S.dir 0 g) Q ⟨h, some n, t⟩ := by
  have hlt := hm.lt
  have hflags : Present (S.pte 0) ∧ S.pte 0 &&& PTE_W ≠ 0 ∧ S.pte 0 &&& PTE_U ≠ 0 := by
    rw [hpte]
    refine ⟨present_or_P _, ?_, ?_⟩ <;>
      · rw [UInt32.or_assoc, or_and, ne_eq, UInt32.or_eq_zero_iff]
        exact fun h0 => absurd h0.2 (by decide)
  have hpage : ptePage (S.pte 0) = p := by
    rw [hpte]
    exact ptePage_mapped (by omega) (by decide)
  have huser : S.page (.user 0) = some p := Space.page_user.2 ⟨by decide, hflags.1, hpage⟩
  rw [userStore, wp_bind]
  refine wp_walkRead hR (.refl h) ?_ fun h0 => ?_
  · intro T' hT'
    simp only [wp_bind]
    refine wp_entryRead hR (.refl h) hT' ?_
    rw [show toNat 0 / 4096 = 0 from rfl, if_pos hflags, hpage]
    exact wp_write (hR.user_mem huser) (ok _ (hR.setMem huser))
  · rw [show PDX 0 = 0 from rfl, hT] at h0
    cases h0

/-! ## The string -/

/-- A file without segments. -/
def smallImage : Image where
  size := 52
  byte
    | 0 => 0x7F | 1 => 0x45 | 2 => 0x4C | 3 => 0x46
    | _ => 0
  size_le := by decide

/-- A string of 33566719 bytes, that is of words `0x0DFFF107`: page `0xDFFF`, present,
writable, and for the user. -/
def longString : Str where
  len := 33566719
  byte i := if i < 33566719 then
    match i % 4 with
    | 0 => 0x07 | 1 => 0xF1 | 2 => 0xFF | _ => 0x0D
    else 0

theorem get_splice (f : Frame) (src : Nat → UInt8) {j : Nat} (hj : j < 4096) :
    (splice f 0 4096 src).get j = src j := by
  have hlt : j < PGSIZE := hj
  simp [Bytes.get, splice, hj, hlt]

theorem entry_splice_longString (f : Frame) :
    entry (splice f 0 4096 longString.byte) 0 = 0x0DFFF107 := by
  rw [entry, Bytes.get32, get_splice f _ (by decide), get_splice f _ (by decide),
    get_splice f _ (by decide), get_splice f _ (by decide)]
  decide

/-! ## `exec` -/

section Exec

variable {L : Local Nat Frame Ev} {va : UInt32} {cur : Nat} {hc : Heap Nat Frame} {C : Space}

/-- `uva2ka` in the kernel's part. -/
theorem wp_uva2ka_kernel {Q : Post (Option Nat)} (hR : Rep K S h)
    (hs : h.Sub L.heap) (hT : S.tab (PDX va) ≠ none) (hU : S.pte (va.toNat / 4096) &&& PTE_U = 0)
    (hQ : Q none L) : wp (whole K) noPanic (uva2ka cur S.dir va) Q L := by
  rw [uva2ka]
  simp only [wp_bind]
  refine wp_walkRead hR hs ?_ fun h0 => absurd h0 hT
  intro T hT'
  simp only [wp_bind]
  refine wp_entryRead hR hs hT' ?_
  by_cases hp : S.pte (va.toNat / 4096) &&& PTE_P = 0
  · rw [if_pos hp]
    exact hQ
  · rw [if_neg hp, if_pos hU]
    exact hQ

/-- `uva2ka` without a page table, when the first word of the running process is the entry
of its own first page table in its directory. -/
theorem wp_uva2ka_null {Q : Post (Option Nat)} {T : Nat} (hR : Rep K S h)
    (hs : h.Sub L.heap) (hnone : S.tab (PDX va) = none) (hC : Rep K C hc) (hcs : hc.Sub L.heap)
    (hT : C.tab 0 = some T) (hp : Present (C.pte 0)) (hword : entry (C.mem 0) 0 = pdeOf (some T))
    (hQ : Q (some T) L) : wp (whole K) noPanic (uva2ka C.dir S.dir va) Q L := by
  have hlt := (hC.managed (a := .tab 0) hT).lt
  have hval := toNat_pdeOf (T := T) (by omega)
  have huser : C.page (.user 0) = some (ptePage (C.pte 0)) :=
    Space.page_user.2 ⟨by decide, hp, rfl⟩
  have hU : pdeOf (some T) &&& PTE_U ≠ 0 := by
    rw [ne_eq, user_iff, hval]
    omega
  rw [uva2ka]
  simp only [wp_bind]
  refine wp_walkRead hR hs (fun T' h0 => absurd (hnone.symm.trans h0) (by simp)) fun _ => ?_
  rw [translate]
  simp only [wp_bind]
  refine wp_walkRead hC hcs (fun T' hT' => ?_) fun h0 => ?_
  · simp only [wp_bind]
    refine wp_entryRead hC hcs hT' ?_
    rw [if_pos (show Present (C.pte (toNat 0 / 4096)) from hp)]
    refine wp_read (hcs _ _ (hC.user_mem huser)) ?_
    rw [hword, if_neg (present_pdeOf (by omega)), if_neg hU, ptePage_pdeOf (by omega),
      if_neg (P2V_ne_zero (by omega))]
    exact hQ
  · rw [show PDX 0 = 0 from rfl, hT] at h0
    cases h0

/-- `copyout` to the last page below the devices: one page is written, where the first
word of the process says, and then it fails. -/
theorem wp_copyout_null {Q : Post Bool} {T len k : Nat} {f : Frame}
    {src : Nat → UInt8} (hR : Rep K S h) (hs : h.Sub L.heap) (hva : va.toNat = 0xFDFFF000)
    (hnone : S.tab 1015 = none) (hdev : S.tab 1016 ≠ none) (hU : S.pte 0xFE000 &&& PTE_U = 0)
    (hC : Rep K C hc) (hcs : hc.Sub L.heap) (hT : C.tab 0 = some T) (hp : Present (C.pte 0))
    (hword : entry (C.mem 0) 0 = pdeOf (some T)) (hf : L.heap T = some f) (hfresh : h T = none)
    (hlen : 4096 < len) (hQ : Q false { L with heap := L.heap.put T (splice f 0 4096 src) }) :
    wp (whole K) noPanic (copyoutLoop K C.dir S.dir (k + 1 + 1) va src len) Q L := by
  have hdown : PGROUNDDOWN va = va := PGROUNDDOWN_eq_self (by omega)
  have h4 : toNat 4096 = 4096 := rfl
  have hnext : (va + 4096).toNat = 0xFE000000 := by
    rw [UInt32.toNat_add, h4]
    omega
  have hdown' : PGROUNDDOWN (va + 4096) = va + 4096 := PGROUNDDOWN_eq_self (by omega)
  have hsub : (va - va).toNat = 0 := by
    rw [UInt32.sub_self]
    rfl
  rw [copyoutLoop, if_neg (by omega)]
  simp only [wp_bind, hdown, hsub]
  refine wp_uva2ka_null hR hs (by rw [PDX_eq, hva]; exact hnone) hC hcs hT hp hword ?_
  simp only [wp_bind]
  refine wp_kernelPage_of_managed (hC.managed (a := .tab 0) hT) (wp_write hf ?_)
  have hn : min (PGSIZE - 0) len = 4096 := by
    unfold PGSIZE
    omega
  rw [hn, copyoutLoop, if_neg (by omega), hdown', wp_bind]
  refine wp_uva2ka_kernel hR (fun q v hv => ?_) (by rw [PDX_eq, hnext]; exact hdev)
    (by rw [hnext]; exact hU) hQ
  have hq : q ≠ T := by
    rintro rfl
    rw [hfresh] at hv
    cases hv
  exact (put_of_ne _ _ hq).trans (hs q v hv)

theorem wp_stackPages_small {Q : Post (Option UInt32)} (hR : Rep K S h)
    (hS : KernelSpace S) (hn : 3000 ≤ n)
    (ok : ∀ S' h' g c' t', Rep K S' h' → h'.Disjoint g → S'.dir = S.dir → S'.tab 1015 = none →
      S'.tab 1016 ≠ none → (∀ v, 2 ≤ v → S'.pte v = S.pte v) → Q (some 8192) ⟨h' ∪ g, c', t'⟩) :
    wp (whole K) noPanic (stackPages K S.dir 0) Q ⟨h, some n, t⟩ := by
  have habs := S.absentTabs_le
  unfold stackPages
  simp only [wp_bind]
  rw [show PGROUNDUP 0 = 0 from rfl]
  generalize hN : (0 : UInt32) + 2 * 4096 = N
  have hN' : N.toNat = 8192 := by rw [← hN]; rfl
  have hlo : (toNat 0 + 4095) / 4096 = 0 := rfl
  have hhi : (N.toNat + 4095) / 4096 = 2 := by rw [hN']
  have hbase := toNat_KERNBASE
  have hsmall : N < KERNBASE := by
    rw [lt_iff_toNat_lt]
    omega
  have hne : N ≠ 0 := by
    rintro rfl
    cases hN'
  have hzero : (N - 2 * 4096).toNat / 4096 = 0 := by
    rw [← hN]
    rfl
  refine wp_allocuvm hR ?_ ?_ ?_ ?_ ?_
  · rintro - ⟨u, -, h2, h3⟩
    rw [hS.user (by unfold USERPAGES; omega)] at h3
    exact absurd h3 not_present_zero
  · intro hge
    exact absurd hsmall (UInt32.not_lt.2 hge)
  · intro _ hlt
    exact absurd hlt (Nat.not_lt_zero _)
  · intro S₁ S' h' g c₁ c' t' _ hA _ _ _
    obtain ⟨n₁, hn₁, -, hcr⟩ := hA.grown.credit rfl
    have h0 := hA.fail rfl
    rw [hn₁] at h0
    simp at h0
    omega
  intro S₁ h₁ g c₁ t₁ _ _ hA hR₁ hd₁
  obtain ⟨n₁, rfl, -, hcr⟩ := hA.grown.credit rfl
  have htab0 : S₁.tab 0 ≠ none := by
    rcases hA.holes rfl (by simp) hlo.le (by rw [hhi]; decide) with hall | ⟨-, h0⟩
    · exact tab_ne_none_of_present hR₁ hall.present
    · simp at h0
      omega
  have htab : ∀ {i}, 1 ≤ i → S.tab i = none → S₁.tab i = none := by
    intro i hi hnone
    by_contra hsome
    have := (hA.only hnone hsome).2
    omega
  have hpte : ∀ {v}, 2 ≤ v → S₁.pte v = S.pte v := fun hv => (hA.outside (.inr (by omega))).1
  rw [if_neg hne, wp_bind, ← hA.grown.dir]
  refine wp.frame hd₁ (wp_clearpteu hR₁ hzero (fun h0 => absurd h0 htab0) ?_)
  intro h₂ _ hR₂ hd₂
  generalize hS₂ : S₁.setPte 0 (S₁.pte 0 &&& 0xFFFFFFFB) (S₁.mem 0) = S₂ at hR₂
  have htab₂ : S₂.tab = S₁.tab := by rw [← hS₂]; rfl
  have hdir₂ : S₂.dir = S₁.dir := by rw [← hS₂]; rfl
  have hpte₂ : ∀ v, 2 ≤ v → S₂.pte v = S.pte v := by
    intro v hv
    rw [← hS₂, S₁.pte_setPte_of_ne _ _ (by omega), hpte hv]
  have hdev : S₂.tab 1016 ≠ none := by
    have hp' := hS.dev (v := 0xFE000) (by omega) (by omega)
    rw [← hpte₂ _ (by omega)] at hp'
    exact tab_ne_none_of_present hR₂ hp'
  rw [wp_pure, ← hN]
  exact ok S₂ h₂ g _ t₁ hR₂ hd₂ (hdir₂.trans hA.grown.dir)
    (by rw [htab₂]; exact htab (by omega) (hS.gap (by omega) (by omega))) hdev hpte₂

theorem wp_buildStack_null {Q : Post (Option (UInt32 × UInt32))} {T : Nat}
    (hR : Rep K S h) (hS : KernelSpace S) (hn : 3000 ≤ n) (hC : Rep K C hc) (hd : h.Disjoint hc)
    (hT : C.tab 0 = some T) (hp : Present (C.pte 0)) (hword : entry (C.mem 0) 0 = pdeOf (some T))
    (ok : ∀ S' h' r c' t', Rep K S' h' → h'.Disjoint r → S'.dir = S.dir → r C.dir = hc C.dir →
      (∃ f, r T = some (splice f 0 4096 longString.byte)) → Q none ⟨h' ∪ r, c', t'⟩) :
    wp (whole K) noPanic (buildStack K C.dir S.dir [longString] 0) Q ⟨h ∪ hc, some n, t⟩ := by
  obtain ⟨f, hf⟩ := hC.own (a := .tab 0) hT
  have hdirT : C.dir ≠ T := hC.ne_of_place (a := .dir) rfl (b := .tab 0) hT (by simp)
  have hsp : (((8192 : UInt32) - ofNat (longString.len + 1)) &&& 0xFFFFFFFC).toNat =
      0xFDFFF000 := rfl
  rw [buildStack_eq, wp_bind]
  refine wp.frame hd (wp_stackPages_small hR hS hn ?_)
  intro S₂ h₂ g c₁ t₁ hR₂ hd₁ hdir₂ hgap hdev hpte₂ hd₂
  obtain ⟨hd₃, hd₄⟩ := disjoint_union_left.1 hd₂
  have hd₅ : h₂.Disjoint (g ∪ hc) := disjoint_union_right.2 ⟨hd₁, hd₃⟩
  have hfT : h₂ T = none := (disjoint_union_right.1 hd₅).2.symm.right_none hf
  have hcs : hc.Sub (h₂ ∪ (g ∪ hc)) := fun q v hv =>
    sub_union_right hd₅ _ _ (sub_union_right hd₄ _ _ hv)
  simp only [union_assoc]
  rw [pushStack, ← hdir₂, wp_bind, pushArgs, if_neg (by decide)]
  simp only [wp_bind]
  rw [copyout, show longString.len + 1 = 33566718 + 1 + 1 from rfl]
  refine wp_copyout_null hR₂ (fun q v hv => union_left hv) hsp hgap hdev
    (by rw [hpte₂ _ (by omega)]; exact hS.flag _) hC hcs hT hp hword (hcs _ _ hf) hfT (by omega) ?_
  rw [if_neg (by simp), wp_pure, wp_pure]
  simp only [← union_put _ hfT]
  refine ok S₂ h₂ _ _ _ hR₂ ?_ hdir₂ ?_ ⟨f, put_self _ _ _⟩
  · refine (Heap.Disjoint.put ?_ _ hfT).symm
    exact Heap.Disjoint.symm hd₅
  · rw [put_of_ne _ _ hdirT]
    obtain ⟨fd, hfd⟩ := hC.own (a := .dir) rfl
    rw [hfd]
    exact sub_union_right hd₄ _ _ hfd

/-- `exec` of the string, by a process whose first word is the entry of its own page
table in its directory: it fails, and the page table holds the string. -/
theorem wp_exec_alias {Q : Post (Option Loaded)} {T : Nat} (hC : Rep K C hc)
    (hn : 5000 ≤ n) (hT : C.tab 0 = some T) (hp : Present (C.pte 0))
    (hword : entry (C.mem 0) 0 = pdeOf (some T))
    (ok : ∀ r c' t', r C.dir = hc C.dir → (∃ f, r T = some (splice f 0 4096 longString.byte)) →
      Q none ⟨r, c', t'⟩) :
    wp (whole K) noPanic (exec K smallImage C.dir [longString]) Q ⟨hc, some n, t⟩ := by
  rw [exec, wp_bind, loadImage, if_neg (by decide), if_neg (by decide), wp_bind, ← empty_union hc]
  refine wp.frame (empty_disjoint hc) (wp_setupkvm (fun _ _ _ hle _ _ => ?_) ?_)
  · have := hle n rfl
    omega
  intro S h c' t' hR hS _ hG hd
  obtain ⟨n₁, rfl, -, hcr⟩ := hG.credit (n := n - 1) rfl
  have habs := (Space.new S.dir).absentTabs_le
  rw [show smallImage.phnum = 0 by decide]
  simp only [loadSegments, wp_bind, wp_pure]
  refine wp_buildStack_null hR hS (by omega) hC hd hT hp hword ?_
  rintro S' h' r c₂ t₂ hR' hd' hdir hrC ⟨f, hrT⟩
  obtain ⟨fd, hfd⟩ := hC.own (a := .dir) rfl
  rw [wp_bind, ← hdir]
  refine wp.frame hd' (wp_freevm hR' fun g c₃ hd₃ => ?_)
  rw [wp_pure]
  refine ok _ _ _ ?_ ⟨f, sub_union_right hd₃ _ _ hrT⟩
  rw [hfd] at hrC ⊢
  exact sub_union_right hd₃ _ _ hrC

end Exec

/-! ## The run -/

theorem wp_startKernel_ok {Q : Post (Nat × List Nat)} {page : Nat → Frame} (hfirst : K.first ≤ 900)
    (ok : ∀ kpgdir h n t', 50000 ≤ n → Q (kpgdir, []) ⟨h, some n, t'⟩) :
    wp (whole K) noPanic (startKernel K 0) Q ⟨pagesFrom page K.first, some 0, t⟩ := by
  simp only [startKernel, wp_bind]
  refine wp_freerange _ (fun q h1 h2 => ⟨⟨h1, show q < 57344 by omega⟩, _, if_pos (by omega)⟩) ?_
  intro h₁ hout _
  rw [← empty_union h₁]
  refine wp.frame (empty_disjoint _) (wp_setupkvm (fun _ _ _ hle _ _ => ?_) ?_)
  · have := hle (0 + (1024 - K.first)) rfl
    omega
  intro S hk c t' _ _ _ hG hd
  obtain ⟨n, rfl, -, hcr⟩ := hG.credit rfl
  simp only [allocStacks, wp_bind, wp_pure]
  refine wp_freerange _ (fun q h1 h2 => ?_) fun h₂ _ _ => ok _ _ (n + (57344 - 1024)) _ (by omega)
  have hq : h₁ q = some (page q) := (hout q (by omega)).trans (if_pos (by omega))
  exact ⟨⟨by omega, show q < 57344 by omega⟩, _, sub_union_right hd _ _ hq⟩

/-- The programs of the run, one after the other. -/
def takeOver (K : Layout) (d : Int32) :
    M ((Nat × List Nat) × (Nat × Nat) × UInt32 × Option Loaded) := do
  let k ← startKernel K 0
  let u ← userinit K (fun _ => 0) 0
  let sz ← growPages K u.2 4096 d
  let pde ← read u.2 0
  userStore u.2 0 (setEntry (filled 0) 0 pde)
  let r ← exec K smallImage u.2 [longString]
  return (k, u, sz, r)

/-- Page `57343` is mapped at address zero by the directory `d`. -/
def Mapped0 (d : Nat) (L : Local Nat Frame Ev) : Prop :=
  ∃ T f g, T < 57344 ∧ L.heap d = some f ∧ entry f 0 = pdeOf (some T) ∧ L.heap T = some g ∧
    entry g 0 = 0x0DFFF107

theorem wp_takeOver {d : Int32} {N : UInt32} {page : Nat → Frame} (hfirst : K.first ≤ 900)
    (hpos : d > 0) (hN : 4096 + d.toUInt32 = N) (hN' : N.toNat = 33570816) :
    wp (whole K) noPanic (takeOver K d) (fun r L => r.2.2 = (N, none) ∧ Mapped0 r.2.1.2 L)
      ⟨pagesFrom page K.first, some 0, t⟩ := by
  simp only [takeOver, wp_bind]
  refine wp_startKernel_ok hfirst fun kpgdir h n t' hn => ?_
  rw [← empty_union h]
  refine wp.frame (empty_disjoint _) (wp_userinit_ok (by omega) ?_)
  intro ks S hs r T p n' t'' hR hd hF hn' hdr
  obtain ⟨hd₁, -⟩ := disjoint_union_left.1 hdr
  have hd₂ : hs.Disjoint (r ∪ h) := disjoint_union_right.2 ⟨hd, hd₁⟩
  rw [union_assoc]
  refine wp.frame hd₂ (wp_grow_ok hR hF (by omega) hpos rfl hN hN' ?_)
  intro S' hs' r' n'' t₃ hR' hd' hdir hT hpte hn'' hd₃
  obtain ⟨hd₄, -⟩ := disjoint_union_left.1 hd₃
  obtain ⟨fd, hfd⟩ := hR'.own (a := .dir) rfl
  rw [← hdir, union_assoc]
  refine wp_read (union_left hfd) ?_
  rw [hR'.dir_entry hfd (by decide), hT]
  refine wp.frame (disjoint_union_right.2 ⟨hd', hd₄⟩)
    (wp_userStore_ok hR' hT (hpte.trans hF.pte) hF.managed _ ?_)
  intro hs₁ hR₁ hd₅
  have hword : entry ((S'.setMem 0 (setEntry (filled 0) 0 (pdeOf (some T)))).mem 0) 0 =
      pdeOf (some T) := entry_setEntry _ (by decide) _
  have hpres : Present (S'.pte 0) := by
    rw [hpte, hF.pte]
    exact present_or_P _
  refine wp.frame hd₅ (wp_exec_alias (C := S'.setMem 0 _) hR₁ (by omega) hT hpres hword ?_)
  intro h₂ c₂ t₂ hdir₂ ⟨f, hf⟩ hd₆
  obtain ⟨g, hg⟩ := hR₁.own (a := .dir) rfl
  refine ⟨rfl, T, g, _, (hR'.managed (a := .tab 0) hT).lt, union_left (hdir₂.trans hg), ?_,
    union_left hf, entry_splice_longString f⟩
  rw [hR₁.dir_entry hg (by decide)]
  exact congrArg pdeOf hT

theorem run_freerange_succ {p k : Nat} {m : Vm} (hp : K.first ≤ p) (hlt : p < 57344) :
    run (memory K) (freerange K p (k + 1)) m t =
      run (memory K) (freerange K (p + 1) k) (m.putFree p) t := by
  rw [freerange, kfree, if_neg (by rw [show pageAt PHYSTOP = 57344 by decide]; omega)]
  rfl

/-- The last page that `freerange` frees is the first one of the free list. -/
theorem run_freerange (n : Nat) {p : Nat} {m : Vm} (hp : K.first ≤ p) (hn : p + n < 57344) :
    ∃ m', run (memory K) (freerange K p (n + 1)) m t = ((.ok (), m'), t) ∧
      m'.freelist = P2V (p + n) := by
  induction n generalizing p m with
  | zero => exact ⟨_, run_freerange_succ hp (by omega), rfl⟩
  | succ n ih =>
    rw [run_freerange_succ hp (by omega)]
    obtain ⟨m', hrun, hlist⟩ := ih (p := p + 1) (by omega) (by omega)
    exact ⟨m', hrun, by rw [hlist, Nat.add_assoc, Nat.add_comm 1 n]⟩

theorem freelist_startKernel {m m' : Vm} {k : Nat × List Nat} {t' : List Ev}
    (h : run (memory K) (startKernel K 0) m t = ((.ok k, m'), t')) :
    m'.freelist = P2V 57343 := by
  have hfirst := K.first_le
  obtain ⟨-, m₁, t₁, -, h₁⟩ := run_bind_eq_ok h
  obtain ⟨d, m₂, t₂, -, h₂⟩ := run_bind_eq_ok h₁
  cases d with
  | none => cases h₂
  | some d =>
    obtain ⟨l, m₃, t₃, -, h₃⟩ := run_bind_eq_ok h₂
    obtain ⟨_, m₄, t₄, h₄, h₅⟩ := run_bind_eq_ok h₃
    obtain ⟨m₅, hrun, hlist⟩ := run_freerange 56319 (by omega) (by omega)
    rw [show 57344 - 1024 = 56319 + 1 from rfl, hrun] at h₄
    cases h₄
    cases h₅
    exact hlist

theorem kstack_userinit {m m' : Vm} {initsz : UInt32} {u : Nat × Nat}
    {t' : List Ev} (hlist : m.freelist = P2V 57343)
    (h : run (memory K) (userinit K init initsz) m t = ((.ok u, m'), t')) : u.1 = 57343 := by
  obtain ⟨ks, m₁, t₁, h₁, h₂⟩ := run_bind_eq_ok h
  have hks : ks = some 57343 := by
    have h0 : run (memory K) kalloc m t = ((.ok (m.takeFree).1, m.takeFree.2), t) := rfl
    rw [h0, takeFree, hlist, if_neg (by decide)] at h₁
    cases h₁
    exact congrArg some (show pageOf (P2V 57343) = 57343 by decide)
  subst hks
  obtain ⟨d, m₂, t₂, -, h₃⟩ := run_bind_eq_ok h₂
  cases d with
  | none => cases h₃
  | some d =>
    obtain ⟨-, m₃, t₃, -, h₄⟩ := run_bind_eq_ok h₃
    cases h₄
    rfl

theorem perform_of_run {s : Sys} {α : Type} {c : M α} {a : α} {m : Vm} {t' : List Ev}
    (h : run (memory K) c s.mem t = ((.ok a, m), t')) :
    s.perform K c = some (a, { s with mem := m }) := by
  have h0 := run_fst_eq (M := memory K) c s.mem [] t
  rw [h] at h0
  rw [Sys.perform, h0]

theorem split_start (K : Layout) (page : Nat → Frame) :
    Split (memory K) ⟨page, 0⟩ (Finset.Ico K.first 57344) ∅
      (⟨pagesFrom page K.first, some 0, []⟩ : Local Nat Frame Ev) := by
  refine ⟨⟨[], List.nodup_nil, rfl, rfl, by simp⟩, Finset.disjoint_empty_right _, ?_, ?_, ?_⟩
  · intro p hp
    exact Finset.mem_Ico.1 hp
  · funext q
    simp only [pagesFrom, restrict, Finset.mem_Ico]
    rfl
  · rintro n hn
    exact Option.some.inj hn

theorem userOf_of_mapped {m : Vm} {O E : Finset Nat} {L : Local Nat Frame Ev} {d : Nat}
    (hs : Split (memory K) m O E L) (h : Mapped0 d L) : userOf m d 0 = some 57343 := by
  obtain ⟨T, f, g, hT, hf, hfe, hg, hge⟩ := h
  have hd : m.page d = f := (hs.read hf).2
  have htab : tableOf m d 0 = some T := by
    rw [tableOf, hd, hfe, if_pos ⟨by decide, present_pdeOf (by omega)⟩, ptePage_pdeOf (by omega)]
  have hmT : m.page T = g := (hs.read hg).2
  simp only [userOf, Nat.zero_div, Nat.zero_mod, htab, Option.bind_eq_bind, Option.bind_some, hmT,
    hge]
  decide

/-- **The programs run.**  What each of them returns, and the memory between them. -/
theorem takeOver_run {d : Int32} {N : UInt32} (hfirst : K.first ≤ 900) (hpos : d > 0)
    (hN : 4096 + d.toUInt32 = N) (hN' : N.toNat = 33570816) (page : Nat → Frame) :
    ∃ (k : Nat × List Nat) (u : Nat) (m : Vm) (t : List Ev), run (memory K) (boot K 0 (fun _ => 0) 0) ⟨page, 0⟩ [] =
        ((.ok ⟨k.1, k.2, 57343, u⟩, m), t) ∧
      ∃ m₁ t₁, run (memory K) (growPages K u 4096 d) m t = ((.ok N, m₁), t₁) ∧
      ∃ m₂ t₂, run (memory K) (userStore u 0 (setEntry (filled 0) 0 (entry (m₁.page u) 0))) m₁ t₁ =
          ((.ok (), m₂), t₂) ∧
      ∃ m₃ t₃, run (memory K) (exec K smallImage u [longString]) m₂ t₂ = ((.ok none, m₃), t₃) ∧
        userOf m₃ u 0 = some 57343 := by
  have hran := (run_sound (fun _ h => h) (split_start K page)
    (wp_takeOver hfirst hpos hN hN')).resolve_left fun ⟨_, h, _⟩ => h
  rcases hr : run (memory K) (takeOver K d) ⟨page, 0⟩ [] with ⟨⟨msg | ⟨k, u, sz, r⟩, m'⟩, t'⟩
  · rw [hr] at hran
    exact hran.elim
  rw [hr] at hran
  obtain ⟨O, E, L, hs, -, -, -, hsz, hmap⟩ := hran
  obtain ⟨k', m₀, t₀, h₀, hr⟩ := run_bind_eq_ok hr
  obtain ⟨u', m, t, hu, hr⟩ := run_bind_eq_ok hr
  obtain ⟨sz', m₁, t₁, h₁, hr⟩ := run_bind_eq_ok hr
  obtain ⟨pde, m₁', t₁', hread, hr⟩ := run_bind_eq_ok hr
  cases hread
  obtain ⟨_, m₂, t₂, h₂, hr⟩ := run_bind_eq_ok hr
  obtain ⟨r', m₃, t₃, h₃, hr⟩ := run_bind_eq_ok hr
  cases hr
  cases hsz
  have hks := kstack_userinit (freelist_startKernel h₀) hu
  refine ⟨k, u.2, m, t, ?_, m₁, t₁, h₁, m₂, t₂, h₂, m', t', h₃, userOf_of_mapped hs hmap⟩
  rw [boot, run_bind, h₀]
  simp only [run_bind, hu]
  rw [← hks]
  rfl

/-- The bytes before the end of a string are not zero. -/
def Str.Proper (a : Str) : Prop := (∀ i < a.len, a.byte i ≠ 0) ∧ a.byte a.len = 0

/-- A step whose `exec`, if it is one, is of a file with its segments below `KERNBASE`. -/
def PlainStep (_ : Sys) (a : Nat × Call) : Prop :=
  ∀ im argv, a.2 = .exec im argv → im.Below ∧ ∀ str ∈ argv, str.Proper

theorem longString_proper : longString.Proper := by
  refine ⟨fun i hi => ?_, by decide⟩
  have hi' : i < 33566719 := hi
  simp only [longString, if_pos hi']
  split <;> decide

theorem step_growproc {s : Sys} {d : Int32} {N : UInt32} {m₁ : Vm} {t t₁ : List Ev}
    (hrun : (s.proc 0).state = .RUNNABLE) (hN : N ≠ 0)
    (h₁ : run (memory K) (growPages K (s.proc 0).pgdir (s.proc 0).sz d) s.mem t =
      ((.ok N, m₁), t₁)) :
    (paging K).step s (0, .growproc d) =
      some (({ s with mem := m₁ } : Sys).setProc 0 { s.proc 0 with sz := N }) := by
  have hp : s.perform K (growPages K (s.proc 0).pgdir (s.proc 0).sz d) =
      some (N, { s with mem := m₁ }) := perform_of_run h₁
  refine (if_pos hrun).trans ?_
  change s.growproc K 0 d = _
  rw [Sys.growproc, hp]
  exact if_neg fun h => hN h.2

/-- **The kernel stack of a process becomes a page of its user part.**  The first process
grows to a little more than 32 MB, stores the entry of its page table at address zero, and
calls `exec` with a long string. -/
theorem page_has_two_roles :
    ∃ s, (paging someLayout).ReachableBy PlainStep s ∧ s.HasRole 57343 (.kstack 0) ∧
      s.HasRole 57343 (.user 0 0) := by
  obtain ⟨k, u, m, t, hboot, m₁, t₁, h₁, m₂, t₂, h₂, m₃, t₃, h₃, huser⟩ :=
    takeOver_run (K := someLayout) (d := 33566720) (N := 33570816) (by decide) (by decide)
      (by decide) (by decide) fun _ => filled 0
  have hinit : (paging someLayout).init (Sys.start m ⟨k.1, k.2, 57343, u⟩) :=
    ⟨_, _, _, _, _, _, _, hboot, rfl⟩
  set s₀ := Sys.start m ⟨k.1, k.2, 57343, u⟩
  let s₁ := ({ s₀ with mem := m₁ } : Sys).setProc 0 { s₀.proc 0 with sz := 33570816 }
  have hstep₁ : (paging someLayout).step s₀ (0, .growproc 33566720) = some s₁ :=
    step_growproc rfl (by decide) h₁
  let s₂ : Sys := { s₁ with mem := m₂ }
  have hstep₂ : (paging someLayout).step s₁
      (0, .store 0 (setEntry (filled 0) 0 (entry (m₁.page u) 0))) = some s₂ := by
    have hp : s₁.perform someLayout (userStore (s₁.proc 0).pgdir 0
        (setEntry (filled 0) 0 (entry (m₁.page u) 0))) = some ((), s₂) := perform_of_run h₂
    change s₁.store someLayout 0 0 _ = some s₂
    rw [Sys.store, hp]
    rfl
  let s₃ : Sys := { s₂ with mem := m₃ }
  have hstep₃ : (paging someLayout).step s₂ (0, .exec smallImage [longString]) = some s₃ := by
    have hp : s₂.perform someLayout (Vm.exec someLayout smallImage (s₂.proc 0).pgdir [longString]) =
        some (none, s₃) := perform_of_run h₃
    have hargs : [longString].length < User.MAXARG ∧
        ∀ a ∈ [longString], a.len < (s₂.proc 0).sz.toNat := by
      refine ⟨by decide, fun a ha => ?_⟩
      obtain rfl := List.mem_singleton.1 ha
      exact show 33566719 < toNat 33570816 by decide
    change s₂.exec someLayout 0 smallImage [longString] = some s₃
    rw [Sys.exec, if_pos hargs, hp]
    rfl
  refine ⟨s₃, ?_, ⟨by simp [s₃, s₂, s₁, s₀, Sys.start, Sys.setProc], rfl⟩,
    u, ⟨by simp [s₃, s₂, s₁, s₀, Sys.start, Sys.setProc], rfl⟩, huser⟩
  refine (((Machine.ReachableBy.init hinit).step ?_ hstep₁).step ?_ hstep₂).step ?_ hstep₃
  · intro im argv h
    cases h
  · intro im argv h
    cases h
  · intro im argv h
    cases h
    refine ⟨fun i hi => ?_, by simpa using longString_proper⟩
    cases hi

/-- The kernel stack of the first process, after it has grown. -/
theorem page_has_one_role_grown :
    ∃ s, (paging someLayout).ReachableBy SafeStep s ∧ (s.proc 0).sz = 33570816 ∧
      s.HasRole 57343 (.kstack 0) ∧ ∀ r, s.HasRole 57343 r → r = .kstack 0 := by
  obtain ⟨k, u, m, t, hboot, m₁, t₁, h₁, -⟩ :=
    takeOver_run (K := someLayout) (d := 33566720) (N := 33570816) (by decide) (by decide)
      (by decide) (by decide) fun _ => filled 0
  have hinit : (paging someLayout).init (Sys.start m ⟨k.1, k.2, 57343, u⟩) :=
    ⟨_, _, _, _, _, _, _, hboot, rfl⟩
  have hreach : (paging someLayout).ReachableBy SafeStep _ :=
    .step (.init hinit) (fun _ _ h => by cases h) (step_growproc rfl (by decide) h₁)
  refine ⟨_, hreach, rfl, ?_, fun r hr => page_has_one_role someLayout hreach hr ?_⟩
  · exact ⟨by simp [Sys.start, Sys.setProc], rfl⟩
  · exact ⟨by simp [Sys.start, Sys.setProc], rfl⟩

end Xv6.Vm
