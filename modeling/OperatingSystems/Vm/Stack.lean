import OperatingSystems.Vm.Copyout

/-!
# The stack that `exec` makes

`copyout` walks the new page directory with `uva2ka`, which takes the entry that
`walkpgdir` returns without a look at whether there is one.  There is one for every page
of the image and of the stack, if the stack page is in the same page table as the guard
page below it, and for the devices at the top of the address space.  A string that is
pushed below address zero ends up there, if it is not longer than the devices.

* `wp_copyout`, `wp_buildStack` — then nothing but pages of the new image is written.
* `wp_exec` — **`exec` works on pages of its own and keeps the old address space, or it
  succeeds and frees it**.
-/

namespace Xv6.Vm

open Cmd Heap UInt32

variable {K : Layout} {stop : List Ev → Prop} {F : String → List Ev → Prop}
  {S S' : Space} {h : Heap Nat Frame} {c : Option Nat} {t : List Ev} {va : UInt32} {V cur : Nat}
  {Q : Post (Option Loaded)}

/-- Every page below `V` has a page table, and so have the devices; the kernel's part is
not for the user. -/
structure Stacked (S : Space) (V : Nat) : Prop where
  le : V ≤ USERPAGES
  tab : ∀ {v : Nat}, v < V → S.tab (v / 1024) ≠ none
  kernel : ∀ {v : Nat}, USERPAGES ≤ v → S.pte v &&& PTE_U = 0
  dev : ∀ {v : Nat}, 0xFE000 ≤ v → v < 2 ^ 20 → S.tab (v / 1024) ≠ none

theorem Stacked.same (hS : Stacked S V) (hE : SameEntries S S') : Stacked S' V := by
  refine ⟨hS.le, ?_, ?_, ?_⟩
  · rw [hE.tab]
    exact hS.tab
  · rw [hE.pte]
    exact hS.kernel
  · rw [hE.tab]
    exact hS.dev

/-- **`copyout`** to an address below `V`, or to the devices, where it fails. -/
theorem wp_copyout {Q : Post Bool} {src : Nat → UInt8} {len : Nat}
    (hR : Rep K S h) (hS : Stacked S V)
    (hva : va.toNat + len ≤ 4096 * V ∨ (0xFE000000 ≤ va.toNat ∧ 0 < len))
    (ok : ∀ b S' h', Rep K S' h' → SameEntries S S' →
      (b = true → va.toNat + len ≤ 4096 * V) → Q b ⟨h', c, t⟩) :
    wp (ctx K stop) F (copyout K cur S.dir va src len) Q ⟨h, c, t⟩ := by
  have hle := hS.le
  rw [copyout_eq, copyoutWith]
  refine wp_copyoutLoopWith len le_rfl hR (fun _ => hS.kernel) ?_ ?_
  · intro n h' hn hin hT
    rcases hva with hva | ⟨hva, -⟩
    · exact absurd hT (hS.tab (by omega))
    -- no page of the devices is for the user
    rcases Nat.eq_zero_or_pos n with rfl | hpos
    · have hlt := va.toNat_lt
      exact absurd hT (hS.dev (by omega) (by omega))
    · exact absurd (hS.kernel (by unfold USERPAGES; omega)) (hin va.toNat le_rfl (by omega)).2
  · intro b n S' h' hR' hcopy hin _ htrue _
    refine ok b S' h' hR' hcopy.same fun hb => ?_
    rcases hva with hva | ⟨hva, hlen⟩
    · exact hva
    · have hn := htrue hb
      exact absurd (hS.kernel (by unfold USERPAGES; omega)) (hin va.toNat le_rfl (by omega)).2

theorem wp_pushArgs {Q : Post (Option (UInt32 × List UInt32))}
    (argv : List Str) {argc : Nat} {sp : UInt32} {ustack : List UInt32} (hR : Rep K S h)
    (hS : Stacked S V) (hsp : sp.toNat ≤ 4096 * V) (hlen : ∀ a ∈ argv, a.len < 2 ^ 25)
    (fail : ∀ S' h', Rep K S' h' → SameEntries S S' → Q none ⟨h', c, t⟩)
    (ok : ∀ sp' ustack' S' h', Rep K S' h' → SameEntries S S' → sp'.toNat ≤ 4096 * V →
      Q (some (sp', ustack')) ⟨h', c, t⟩) :
    wp (ctx K stop) F (pushArgs K cur S.dir argv argc sp ustack) Q ⟨h, c, t⟩ := by
  induction argv generalizing S h argc sp ustack with
  | nil => exact ok sp ustack S h hR (.refl S) hsp
  | cons a rest ih =>
    rw [pushArgs]
    split
    · exact fail S h hR (.refl S)
    have hle := hS.le
    have ha := hlen a List.mem_cons_self
    have hof : (ofNat (a.len + 1)).toNat = a.len + 1 := by
      rw [toNat_ofNat']
      omega
    have hsp' : ((sp - ofNat (a.len + 1)) &&& 0xFFFFFFFC).toNat =
        (2 ^ 32 - (a.len + 1) + sp.toNat) % 2 ^ 32 / 4 * 4 := by
      rw [toNat_align4, UInt32.toNat_sub, hof]
    simp only [wp_bind]
    refine wp_copyout hR hS (by omega) ?_
    intro b S' h' hR' hE hb
    cases b with
    | false =>
      rw [if_neg (by simp)]
      exact fail S' h' hR' hE
    | true =>
      have hb' := hb rfl
      rw [if_pos rfl, ← hE.dir]
      refine ih hR' (hS.same hE) (by omega)
        (fun a' ha' => hlen a' (List.mem_cons_of_mem _ ha')) ?_ ?_
      · exact fun S'' h'' hR'' hE' => fail S'' h'' hR'' (hE.trans hE')
      · exact fun sp' u S'' h'' hR'' hE' => ok sp' u S'' h'' hR'' (hE.trans hE')

/-! ## The stack -/

/-- A space that `setupkvm` made, and that was not changed in the kernel's part. -/
def Made (S : Space) : Prop := ∃ S₀, KernelSpace S₀ ∧ SameKernel S₀ S

theorem Made.same (hS : Made S) (hK : SameKernel S S') : Made S' := by
  obtain ⟨S₀, h0, hK₀⟩ := hS
  exact ⟨S₀, h0, hK₀.trans hK⟩

theorem Made.flag (hS : Made S) {v : Nat} (hv : USERPAGES ≤ v) : S.pte v &&& PTE_U = 0 := by
  obtain ⟨S₀, h0, hK⟩ := hS
  rw [hK.pte hv]
  exact h0.flag v

theorem Made.dev (hS : Made S) (hR : Rep K S h) {v : Nat} (h1 : 0xFE000 ≤ v) (h2 : v < 2 ^ 20) :
    S.tab (v / 1024) ≠ none := by
  obtain ⟨S₀, h0, hK⟩ := hS
  intro hnone
  have hp := h0.dev h1 h2
  rw [← hK.pte (by unfold USERPAGES; omega), hR.pte_none hnone] at hp
  exact not_present_zero hp

theorem pages_PGROUNDUP {sz : UInt32} (hsz : sz < KERNBASE) :
    ((PGROUNDUP sz).toNat + 4095) / 4096 = pages sz := by
  have hbase := toNat_KERNBASE
  have hlt := lt_iff_toNat_lt.1 hsz
  rw [toNat_PGROUNDUP (by omega), pages]
  omega

/-- The two pages of the stack are there, and the lower one is not for the user. -/
theorem Loading.stacked {S₁ S₂ : Space} {h₂ : Heap Nat Frame} {sz : UInt32} {c₁ : Option Nat}
    {t₁ : List Ev} (hL : Loading K S sz c t) (hR : Rep K S h) (hM : Made S)
    (hA : Alloced K (pages sz) (pages sz + 2) true S c t S₁ c₁ t₁)
    (hle : pages sz + 2 ≤ USERPAGES) (hmod : (pages sz + 1) % 1024 ≠ 0)
    (hE : S₂.tab = S₁.tab) (hK : SameKernel S₁ S₂) (hR₂ : Rep K S₂ h₂)
    (hguard : S₁.tab (pages sz / 1024) ≠ none) : Stacked S₂ (pages sz + 2) := by
  have hM₂ : Made S₂ :=
    hM.same (⟨hK.dir.trans hA.grown.dir, fun hv =>
      (hK.pte hv).trans (hA.outside (.inr (by omega))).1⟩)
  refine ⟨hle, ?_, hM₂.flag, hM₂.dev hR₂⟩
  intro v hv
  rw [hE]
  by_cases hlow : v < pages sz
  · rcases hL.filled hlow with hall | ⟨-, h0⟩
    · obtain ⟨T, hT⟩ := Option.ne_none_iff_exists'.1 (tab_ne_none_of_present hR hall.present)
      rw [hA.grown.tab hT]
      simp
    · -- with no free page the stack could not have been allocated
      have := (hA.stuck h0).2 rfl
      omega
  · rwa [show v / 1024 = pages sz / 1024 by omega]

/-- **The stack and the arguments.**  Only pages of the new space are written. -/
theorem wp_buildStack {Q : Post (Option (UInt32 × UInt32))} {sz : UInt32}
    {argv : List Str} (hR : Rep K S h) (hL : Loading K S sz c t) (hM : Made S)
    (hmod : (pages sz + 1) % 1024 ≠ 0) (hargc : argv.length < User.MAXARG)
    (hlen : ∀ a ∈ argv, a.len < 2 ^ 25) (hF : ∀ msg t', F msg t')
    (fail : ∀ S' h' g c' t', Rep K S' h' → h'.Disjoint g → SameKernel S S' →
      Q none ⟨h' ∪ g, c', t'⟩)
    (ok : ∀ sz' sp S' h' g c' t', Rep K S' h' → h'.Disjoint g → SameKernel S S' →
      sz' < KERNBASE → Q (some (sz', sp)) ⟨h' ∪ g, c', t'⟩) :
    wp (ctx K stop) F (buildStack K cur S.dir argv sz) Q ⟨h, c, t⟩ := by
  have hbase := toNat_KERNBASE
  have h8 : UInt32.toNat (2 * 4096) = 8192 := rfl
  have hsz := lt_iff_toNat_lt.1 hL.size
  have hup : (PGROUNDUP sz).toNat = 4096 * pages sz := by
    rw [toNat_PGROUNDUP (by omega), pages, Nat.mul_comm]
  have hpages := pages_le hL.size
  unfold USERPAGES at hpages
  unfold buildStack
  simp only [wp_bind]
  generalize hN : PGROUNDUP sz + 2 * 4096 = N
  have hnew : N.toNat = 4096 * (pages sz + 2) := by
    rw [← hN, UInt32.toNat_add, hup, h8]
    omega
  have hguard : (N - 2 * 4096).toNat / 4096 = pages sz := by
    rw [← hN, UInt32.add_sub_cancel, hup]
    omega
  have hne : N ≠ 0 := by
    rintro rfl
    have : toNat 0 = 0 := rfl
    omega
  refine wp_allocuvm hR ?_ ?_ ?_ ?_ ?_
  · intro _ _ t' _
    exact hF _ _
  · intro _
    rw [if_pos rfl, ← union_empty h]
    exact fail S h _ c t hR (disjoint_empty h) (.refl S)
  · intro _ hlt
    rw [lt_iff_toNat_lt, hnew, hup] at hlt
    omega
  · intro S₁ S' h' g c₁ c' t' hsmall hA hFr hR' hd
    rw [if_pos rfl]
    refine fail S' h' g c' t' hR' hd (SameKernel.trans ?_ hFr.sameKernel)
    exact hA.sameKernel hsmall
  intro S₁ h₁ g₁ c₁ t₁ hsmall _ hA hR₁ hd₁
  have hK₁ : SameKernel S S₁ := hA.sameKernel hsmall
  have hlt := lt_iff_toNat_lt.1 hsmall
  rw [pages_PGROUNDUP hL.size, hnew,
    show (4096 * (pages sz + 2) + 4095) / 4096 = pages sz + 2 by omega] at hA
  rw [if_neg hne, wp_bind, ← hK₁.dir]
  refine wp.frame hd₁ (wp_clearpteu hR₁ hguard (fun _ => hF _ _) ?_)
  intro h₂ htab hR₂ hd₂
  generalize hS₂ : S₁.setPte (pages sz) (S₁.pte (pages sz) &&& 0xFFFFFFFB) (S₁.mem (pages sz)) =
    S₂ at hR₂
  have hK₂ : SameKernel S₁ S₂ := by
    rw [← hS₂]
    refine ⟨rfl, fun hv => S₁.pte_setPte_of_ne _ _ ?_⟩
    unfold USERPAGES at hv
    omega
  have hS := hL.stacked hR hM hA (by unfold USERPAGES; omega) hmod (by rw [← hS₂]; rfl) hK₂ hR₂ htab
  rw [wp_bind, ← hK₂.dir]
  have hfail : ∀ {S' h' g}, Rep K S' h' → h'.Disjoint g → SameEntries S₂ S' →
      Q none ⟨h' ∪ g, c₁, t₁⟩ := fun hR' hd' hE =>
    fail _ _ _ _ _ hR' hd' ((hK₁.trans hK₂).trans hE.sameKernel)
  refine wp.frame hd₂ (wp_pushArgs argv hR₂ hS (by rw [hnew]) hlen ?_ ?_)
  · intro S' h' hR' hE hd'
    exact hfail hR' hd' hE
  intro sp ustack S₃ h₃ hR₃ hE₃ hsp hd₃
  simp only [wp_bind]
  rw [← hE₃.dir]
  refine wp.frame hd₃ (wp_copyout hR₃ (hS.same hE₃) ?_ ?_)
  · have hargc' : argv.length < 32 := hargc
    have hwords : ((3 + ofNat argv.length + 1) * 4).toNat = 4 * (3 + argv.length + 1) := by
      have h3 : toNat 3 = 3 := rfl
      have h1 : toNat 1 = 1 := rfl
      have h4 : toNat 4 = 4 := rfl
      rw [UInt32.toNat_mul, UInt32.toNat_add, UInt32.toNat_add, UInt32.toNat_ofNat', h1, h3, h4]
      omega
    rw [UInt32.toNat_sub, hwords]
    omega
  · intro b S₄ h₄ hR₄ hE₄ _ hd₄
    cases b with
    | false =>
      rw [if_neg (by simp)]
      exact hfail hR₄ hd₄ (hE₃.trans hE₄)
    | true =>
      rw [if_pos rfl]
      exact ok _ _ S₄ h₄ g₁ c₁ t₁ hR₄ hd₄ ((hK₁.trans hK₂).trans (hE₃.trans hE₄).sameKernel) hsmall

/-! ## `exec` -/

/-- The segments of a file lie below `KERNBASE`. -/
def Image.Below (im : Image) : Prop :=
  ∀ i, i < im.phnum → (im.progHdr (im.phoff + ofNat (32 * i))).type = ELF_PROG_LOAD →
    (im.progHdr (im.phoff + ofNat (32 * i))).vaddr.toNat +
      (im.progHdr (im.phoff + ofNat (32 * i))).memsz.toNat ≤ KERNBASE.toNat

/-- The number of pages of the image, without the stack. -/
def Image.pages (im : Image) : Nat := Vm.pages (im.top im.phnum im.phoff 0)

/-- Such a segment has no page past its end. -/
theorem Image.Below.not_overruns {im : Image} (hb : im.Below) : ¬ im.Overruns := by
  rintro ⟨i, hi, htype, hfile, hle, -, j, hj, hpast⟩
  have hend := hb i hi htype
  have hbase := toNat_KERNBASE
  refine hpast (UInt32.lt_iff_toNat_lt.2 ?_)
  rw [UInt32.le_iff_toNat_le] at hfile hle
  rw [UInt32.toNat_add] at hle
  rw [ProgHdr.page, UInt32.toNat_add, UInt32.toNat_ofNat']
  omega

theorem wp_giveUp {h' g : Heap Nat Frame}
    (hR : Rep K S' h') (hd : h'.Disjoint (g ∪ h)) (hg : g.Disjoint h)
    (fail : ∀ g c' t', g.Disjoint h → Q none ⟨g ∪ h, c', t'⟩) :
    wp (ctx K stop) F (do freevm K S'.dir; return none) Q ⟨h' ∪ (g ∪ h), c, t⟩ := by
  rw [wp_bind]
  refine wp.frame hd (wp_freevm hR fun k c' hd' => ?_)
  rw [wp_pure, ← union_assoc]
  exact fail _ _ _ (disjoint_union_left.2 ⟨(disjoint_union_right.1 hd').2, hg⟩)

theorem wp_execStack {S₂ : Space}
    {h₂ g : Heap Nat Frame} {sz eip : UInt32} {argv : List Str} (hR : Rep K S h)
    (hR₂ : Rep K S₂ h₂) (hL₂ : Loading K S₂ sz c t) (hM₂ : Made S₂) (hd : h₂.Disjoint (g ∪ h))
    (hg : g.Disjoint h) (hmod : (pages sz + 1) % 1024 ≠ 0) (hargc : argv.length < User.MAXARG)
    (hlen : ∀ a ∈ argv, a.len < 2 ^ 25) (hF : ∀ msg t', F msg t')
    (fail : ∀ g c' t', g.Disjoint h → Q none ⟨g ∪ h, c', t'⟩)
    (ok : ∀ l S' h' g c' t', Rep K S' h' → h'.Disjoint g → Made S' → S'.dir = l.pgdir →
      l.sz < KERNBASE → Q (some l) ⟨h' ∪ g, c', t'⟩) :
    wp (ctx K stop) F (do
      match ← buildStack K S.dir S₂.dir argv sz with
      | none =>
        freevm K S₂.dir
        return none
      | some (sz, sp) =>
        freevm K S.dir
        return some ⟨S₂.dir, sz, eip, sp⟩) Q ⟨h₂ ∪ (g ∪ h), c, t⟩ := by
  rw [wp_bind]
  refine wp.frame hd (wp_buildStack hR₂ hL₂ hM₂ hmod hargc hlen hF ?_ ?_)
  · intro S' h' g' c' t' hR' hd' hK hd''
    obtain ⟨h1, h2⟩ := disjoint_union_left.1 hd''
    obtain ⟨-, h2h⟩ := disjoint_union_right.1 h2
    rw [← hK.dir, union_assoc, ← union_assoc g']
    refine wp_giveUp hR' ?_ (disjoint_union_left.2 ⟨h2h, hg⟩) fail
    rw [union_assoc]
    exact disjoint_union_right.2 ⟨hd', h1⟩
  · intro sz' sp S' h' g' c' t' hR' hd' hK hsz' hd''
    obtain ⟨h1, h2⟩ := disjoint_union_left.1 hd''
    obtain ⟨h1g, h1h⟩ := disjoint_union_right.1 h1
    obtain ⟨-, h2h⟩ := disjoint_union_right.1 h2
    have hrest : (h' ∪ (g' ∪ g)).Disjoint h :=
      disjoint_union_left.2 ⟨h1h, disjoint_union_left.2 ⟨h2h, hg⟩⟩
    rw [wp_bind, union_assoc, ← union_assoc g', ← union_assoc h', union_comm hrest]
    refine wp.frame hrest.symm (wp_freevm hR fun k c'' hdk => ?_)
    obtain ⟨hk1, -⟩ := disjoint_union_right.1 hdk
    rw [wp_pure, union_comm hdk, union_assoc]
    refine ok _ S' h' _ _ _ hR' ?_ (hM₂.same hK) hK.dir hsz'
    exact disjoint_union_right.2 ⟨disjoint_union_right.2 ⟨hd', h1g⟩, hk1.symm⟩

/-- **`exec`**, of a file whose segments lie below `KERNBASE`, with arguments that are
not too long, and with the two pages of the stack in one page table. -/
theorem wp_exec {im : Image} {argv : List Str}
    {n : Nat} (hR : Rep K S h) (hb : im.Below) (hmod : (im.pages + 1) % 1024 ≠ 0)
    (hargc : argv.length < User.MAXARG) (hlen : ∀ a ∈ argv, a.len < 2 ^ 25)
    (hF : ∀ msg t', F msg t')
    (fail : ∀ g c' t', g.Disjoint h → Q none ⟨g ∪ h, c', t'⟩)
    (ok : ∀ l S' h' g c' t', Rep K S' h' → h'.Disjoint g → Made S' → S'.dir = l.pgdir →
      l.sz < KERNBASE → Q (some l) ⟨h' ∪ g, c', t'⟩) :
    wp (ctx K stop) F (exec K im S.dir argv) Q ⟨h, some n, []⟩ := by
  have hnone : Q none ⟨h, some n, []⟩ := by
    rw [← empty_union h]
    exact fail _ _ _ (empty_disjoint h)
  rw [exec, wp_bind, loadImage]
  split
  · exact hnone
  split
  · exact hnone
  rw [wp_bind, ← empty_union h]
  refine wp.frame (empty_disjoint h) (wp_setupkvm ?_ ?_)
  · intro h' c' t' _ _ hd
    exact fail h' c' t' hd
  intro S₁ h₁ c₁ t₁ hR₁ hS₁ _ hG₁ hd₁
  simp only [wp_bind]
  refine wp.frame hd₁ (wp_loadSegments _ hR₁ (hS₁.loading (by simp) hG₁)
    (Good.nil.paging hG₁.trace) (fun i hi hr => absurd ⟨i, hi, hr⟩ hb.not_overruns)
    (fun _ _ _ => hF _ _) ?_ ?_)
  · intro S' h' g c' t' hR' hd hK _ hdh
    obtain ⟨h1, h2⟩ := disjoint_union_left.1 hdh
    rw [← hK.dir, union_assoc]
    exact wp_giveUp hR' (disjoint_union_right.2 ⟨hd, h1⟩) h2 fail
  · intro sz S₂ h₂ g₂ c₂ t₂ hR₂ hd₂ hK₂ hL₂ htop _ hdh
    obtain ⟨h1, h2⟩ := disjoint_union_left.1 hdh
    rw [← hK₂.dir, union_assoc]
    have hmod₂ : (pages sz + 1) % 1024 ≠ 0 := by
      rw [htop]
      exact hmod
    exact wp_execStack hR hR₂ hL₂ ⟨S₁, hS₁, hK₂⟩ (disjoint_union_right.2 ⟨hd₂, h1⟩) h2 hmod₂
      hargc hlen hF fail ok

end Xv6.Vm
