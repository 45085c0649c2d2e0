import OperatingSystems.Vm.Failing

/-!
# What `allocuvm` returns and what it has done

`allocuvm` takes a page for each page of the range and maps it, and does not look at
whether it could be mapped.  If the page table for it was refused, the page is lost: it is
neither mapped nor free.

* `wp_force_allocuvm` — `allocuvm`, up to the first refusal of a page table.
* `wp_force_allocuvm_lost` — after that, a page is left that is nobody's.
* `allocuvm_faithful_iff` — **`allocuvm` reports failure faithfully exactly if no page
  table is refused before a page is**.
-/

namespace Xv6.Vm

open Cmd Heap

variable {K : Layout} {stop : List Ev → Prop} {F : String → List Ev → Prop}
  {S S' S₁ S₂ : Space} {h h₁ : Heap Nat Frame} {c : Option Nat} {t : List Ev}
  {fails : Nat → Bool} {N k lo hi u : Nat} {oldsz newsz : UInt32}

/-! ## `allocuvm` -/

/-- What `allocuvm` does after its loop. -/
def allocEnd (K : Layout) (pgdir : Nat) (oldsz newsz : UInt32) (b : Bool) : M UInt32 :=
  if b then return newsz
  else do
    let _ ← deallocuvm K pgdir newsz oldsz
    return 0

theorem allocuvm_eq (K : Layout) (pgdir : Nat) (hsmall : newsz < KERNBASE) (hle : oldsz ≤ newsz) :
    allocuvm K pgdir oldsz newsz = (allocLoop pgdir newsz (NPDENTRIES * NPTENTRIES)
      (PGROUNDUP oldsz) >>= allocEnd K pgdir oldsz newsz) := by
  rw [allocuvm, if_neg (UInt32.not_le.2 hsmall), if_neg (UInt32.not_lt.2 hle)]
  rfl

theorem quiet_allocEnd (K : Layout) (pgdir : Nat) (oldsz newsz : UInt32) (b : Bool) :
    (allocEnd K pgdir oldsz newsz b).Quiet := by
  rw [allocEnd]
  split
  · trivial
  · exact (quiet_deallocuvm K _ _ _).bind fun _ => trivial

/-- What was mapped is taken away again. -/
theorem Filled.undo (hF : Filled K lo u S S₁) (hR : Rep K S₁ h₁) (hS : Swept hi lo S₁ S₂)
    (hle : u ≤ hi) (hfree : ∀ w, lo ≤ w → w < hi → S.pte w = 0) : S₂.pte = S.pte := by
  funext w
  by_cases hw : lo ≤ w ∧ w < hi
  · rw [hfree w hw.1 hw.2]
    by_cases hvis : Visits S₁.tab hi lo w
    · exact hS.gone hvis
    · rw [hS.kept hvis]
      by_cases hwu : w < u
      · -- every page up to there has a page table, so the loop comes to it
        have htab : ∀ {x}, lo ≤ x → x < u → S₁.tab (x / 1024) ≠ none :=
          fun h1 h2 => tab_ne_none_of_present hR (hF.present h1 h2)
        exact absurd (visits_of_le (.inl (htab (Nat.le_refl lo) (by omega))) hw.1 hw.2
          (htab hw.1 hwu)) hvis
      · rw [(hF.outside (by omega)).1]
        exact hfree w hw.1 hw.2
  · rw [hS.kept fun hvis => hw ⟨hvis.bounds.1, hvis.bounds.2.1⟩, (hF.outside (by omega)).1]

/-- The entries of a space are as they were, and so is what it maps outside of a range. -/
structure Undone (lo hi : Nat) (S S' : Space) : Prop where
  dir : S'.dir = S.dir
  tab : ∀ {i T : Nat}, S.tab i = some T → S'.tab i = some T
  pte : S'.pte = S.pte
  mem : ∀ {u : Nat}, u < lo ∨ hi ≤ u → S'.mem u = S.mem u

/-- `allocuvm` takes away what it has mapped. -/
theorem wp_allocEnd_undo {Q : Post UInt32} (hsmall : newsz < KERNBASE)
    (hF : Filled K (pages oldsz) u S S₁) (hu : u < pages newsz)
    (hlo : pages oldsz ≤ u) (hR : Rep K S₁ h₁)
    (hfree : ∀ w, pages oldsz ≤ w → w < pages newsz → S.pte w = 0)
    (ok : ∀ S' h' c', Rep K S' h' → Undone (pages oldsz) (pages newsz) S S' → Q 0 ⟨h', c', t⟩) :
    wp (ctx K stop) F (allocEnd K S.dir oldsz newsz false) Q ⟨h₁, c, t⟩ := by
  have hbase := toNat_KERNBASE
  have hlt' := UInt32.lt_iff_toNat_lt.1 hsmall
  have hlt : oldsz < newsz := by
    rw [UInt32.lt_iff_toNat_lt]
    unfold pages at *
    omega
  rw [allocEnd, if_neg (by simp), wp_bind, ← hF.dir]
  refine wp_deallocuvm_swept (by omega) hlt hR fun S' h' c' hR' hS => ok S' h' c' hR' ?_
  refine ⟨hS.dir.trans hF.dir, fun hT => ?_, hF.undo hR hS (by omega) hfree, fun hw => ?_⟩
  · rw [hS.tab]
    exact hF.tab hT
  · rw [hS.mem]
    exact (hF.outside (by omega)).2

/-- **`allocuvm`**, of a larger size. -/
theorem wp_force_allocuvm {Q : Post (UInt32 × Nat)} (hR : Rep K S h)
    (hsmall : newsz < KERNBASE) (hle : oldsz ≤ newsz)
    (hfree : ∀ u, pages oldsz ≤ u → u < pages newsz → S.pte u = 0)
    (ok : ∀ S' h' k' t', Rep K S' h' → Filled K (pages oldsz) (pages newsz) S S' →
      k' = k + (allocPlan (pages newsz - pages oldsz) S.has (pages oldsz)).length →
      Clear (Short fails N) k k' → Q (newsz, k') ⟨h', some (N - k'), t'⟩)
    (fail : ∀ S' h' k' c' t', Rep K S' h' → Undone (pages oldsz) (pages newsz) S S' →
      pages oldsz < pages newsz →
      Spared (Short fails N) k (allocPlan (pages newsz - pages oldsz) S.has (pages oldsz)) →
      ¬ Clear (Short fails N) k
        (k + (allocPlan (pages newsz - pages oldsz) S.has (pages oldsz)).length) →
      Q (0, k') ⟨h', c', t'⟩)
    (lost : ∀ S₁ h₁ u l mem t₁ fuel a,
      Lost K fails N (pages newsz) (pages oldsz) k S u l mem S₁ h₁ →
      a.toNat = 4096 * (u + 1) → pages newsz ≤ u + 1 + fuel →
      wp (ctx K stop) F (force fails (l + 1) (allocLoop S.dir newsz fuel a))
        (fun x L => wp (ctx K stop) F (allocEnd K S.dir oldsz newsz x.1)
          (fun r L' => Q (r, x.2) L') L)
        ⟨h₁.put mem (filled 0), some (N - l), t₁⟩) :
    wp (ctx K stop) F (force fails k (allocuvm K S.dir oldsz newsz)) Q ⟨h, some (N - k), t⟩ := by
  have hbase := toNat_KERNBASE
  have hlt' := UInt32.lt_iff_toNat_lt.1 hsmall
  have hle' := UInt32.le_iff_toNat_le.1 hle
  have hpages : pages oldsz ≤ pages newsz := by
    unfold pages
    omega
  have hstart : (PGROUNDUP oldsz).toNat = 4096 * pages oldsz := by
    rw [toNat_PGROUNDUP (by omega), pages, Nat.mul_comm]
  have hfuel : pages newsz ≤ pages oldsz + NPDENTRIES * NPTENTRIES := by
    unfold pages NPDENTRIES NPTENTRIES
    omega
  have hnp : ∀ u, pages oldsz ≤ u → u < pages newsz → ¬ Present (S.pte u) := by
    intro u h1 h2
    rw [hfree u h1 h2]
    exact not_present_zero
  rw [allocuvm_eq K _ hsmall hle, wp_force_bind]
  refine wp_force_allocLoop rfl (pages_le hsmall) _ hR hstart hpages hfuel hnp ?_ ?_ ?_
  · intro S' h' k' t' hR' hS' hk' hc
    exact ok S' h' k' t' hR' hS' hk' hc
  · intro S' h' u k' c' t' h1 h2 hR' hS' hsp hnc
    rw [wp_force_quiet (quiet_allocEnd K _ _ _ _)]
    exact wp_allocEnd_undo hsmall hS' h2 h1 hR' hfree fun S'' h'' c'' hR'' hS'' =>
      fail S'' h'' k' c'' t' hR'' hS'' (by omega) hsp hnc
  · intro S₁ h₁ u l mem t₁ fuel a hL ha hf
    refine (lost S₁ h₁ u l mem t₁ fuel a hL ha hf).mono fun x L hx => ?_
    rwa [wp_force_quiet (quiet_allocEnd K _ _ _ _)]

theorem Filled.page (hF : Filled K lo hi S S') (hnp : ∀ u, lo ≤ u → u < hi → S.pte u = 0)
    {a : Place} {p : Nat} (ha : S.page a = some p) : S'.page a = some p := by
  cases a with
  | dir => exact (congrArg some hF.dir).trans ha
  | tab i => exact hF.tab ha
  | user v =>
    obtain ⟨hv, hp, hpage⟩ := Space.page_user.1 ha
    have hout : v < lo ∨ hi ≤ v := by
      by_contra hin
      rw [hnp v (by omega) (by omega)] at hp
      exact not_present_zero hp
    exact Space.page_user.2 ⟨hv, by rwa [(hF.outside hout).1], by rwa [(hF.outside hout).1]⟩

/-- If a page table is refused, a page is left that is nobody's. -/
theorem wp_force_allocuvm_lost {Q : Post (UInt32 × Nat)} (hR : Rep K S h)
    (hsmall : newsz < KERNBASE) (hle : oldsz ≤ newsz)
    (hfree : ∀ u, pages oldsz ≤ u → u < pages newsz → S.pte u = 0)
    (hns : ¬ Spared (Short fails N) k (allocPlan (pages newsz - pages oldsz) S.has (pages oldsz)))
    (ok : ∀ r k' S' h' g mem f c' t', Rep K S' h' → h'.Disjoint g → g mem = some f →
      S'.dir = S.dir → (∀ a, S.page a ≠ some mem) → Q (r, k') ⟨h' ∪ g, c', t'⟩) :
    wp (ctx K stop) F (force fails k (allocuvm K S.dir oldsz newsz)) Q ⟨h, some (N - k), t⟩ := by
  have hbase := toNat_KERNBASE
  have hlt' := UInt32.lt_iff_toNat_lt.1 hsmall
  refine wp_force_allocuvm hR hsmall hle hfree ?_ ?_ ?_
  · intro S' h' k' t' _ _ hk' hc
    refine absurd ?_ hns
    intro i hi hs
    have hlt := (List.getElem?_eq_some_iff.1 hi).1
    exact absurd hs (hc (k + i) (by omega) (by omega))
  · intro S' h' k' c' t' _ _ _ hsp _
    exact absurd hsp hns
  intro S₁ h₁ u l mem t₁ fuel a hL ha hf
  have hmem : ∀ a, S.page a ≠ some mem := by
    intro a ha
    have ha' := hL.filled.page (fun w h1 h2 => hfree w h1 (by have := hL.lt; omega)) ha
    obtain ⟨f, hf⟩ := hL.rep.own ha'
    rw [hL.free] at hf
    cases hf
  have hdir := hL.filled.dir
  rw [← union_single _ hL.free, ← hdir]
  refine wp.frame (disjoint_single.2 hL.free) ?_
  -- whatever is refused from here on, the rest keeps to pages of the space
  refine (wp.force (Q := fun b L => ∃ S' h' g, L.heap = h' ∪ g ∧ h'.Disjoint g ∧ Rep K S' h' ∧
    S'.dir = S₁.dir) (wp_allocLoop rfl (pages_le hsmall) fuel hL.rep ha hL.lt hf ?_ ?_) _).mono ?_
  · rintro ⟨w, h1, h2, h3⟩
    have h2' : w < pages newsz := h2
    have := hL.ge
    rw [(hL.filled.outside (.inr (by omega))).1, hfree w (by omega) h2'] at h3
    exact absurd h3 not_present_zero
  · intro b S' h' g c' t' hR' hd hA
    exact ⟨S', h', g, rfl, hd, hR', hA.grown.dir⟩
  rintro ⟨b, k'⟩ ⟨heap, c', t'⟩ ⟨S', h', g, rfl, hd, hR', hdir'⟩ hdm
  obtain ⟨hm1, hm2⟩ := disjoint_union_left.1 hdm
  have hmg : (g ∪ single mem (filled 0)) mem = some (filled 0) := by
    rw [union_single _ (disjoint_single.1 hm2), put_self]
  have hd' : h'.Disjoint (g ∪ single mem (filled 0)) :=
    disjoint_union_right.2 ⟨hd, hm1⟩
  rw [union_assoc]
  cases b with
  | true => exact ok _ _ S' h' _ mem _ c' t' hR' hd' hmg (hdir'.trans hdir) hmem
  | false =>
    rw [allocEnd, if_neg (by simp), wp_bind, ← hdir']
    refine wp.frame hd' (wp_deallocuvm (by omega) hR' ?_ ?_)
    · intro _ hd''
      exact ok _ _ S' h' _ mem _ c' t' hR' hd'' hmg (hdir'.trans hdir) hmem
    · intro S'' h'' c'' _ hR'' hFr hd''
      exact ok _ _ S'' h'' _ mem _ c'' t' hR'' hd'' hmg ((hFr.dir.trans hdir').trans hdir) hmem

/-! ### In memory -/

variable {m m' : Vm} {O O' E E' : Finset Nat}

/-- What `allocuvm` has returned is what it has done. -/
structure Faithful (K : Layout) (m : Vm) (E : Finset Nat) (d : Nat) (oldsz newsz r : UInt32)
    (m' : Vm) : Prop where
  /-- Every page of the range is mapped, for the user to write, to a page of zeros that was
  free. -/
  mapped : r = newsz → ∀ v, pages oldsz ≤ v → v < pages newsz →
    ∃ p ∈ E, pteOf m' d v = pa p ||| (PTE_W ||| PTE_U) ||| PTE_P ∧ m'.page p = filled 0
  distinct : r = newsz → ∀ v w, pages oldsz ≤ v → v < pages newsz → pages oldsz ≤ w →
    w < pages newsz → v ≠ w → ptePage (pteOf m' d v) ≠ ptePage (pteOf m' d w)
  undone : r = 0 → ∀ v, v < USERPAGES → pteOf m' d v = pteOf m d v
  /-- Every page that was free is free, or mapped, or a page table. -/
  kept : ∃ E', FreePages K m' E' ∧ ∀ p ∈ E, p ∈ E' ∨ (∃ v, userOf m' d v = some p) ∨
    ∃ i, tableOf m' d i = some p

/-- The pages of the space and the free pages are what they were together. -/
theorem Resident.kept (hm : Resident K m S O E) (hm' : Resident K m' S' O' E')
    (hB : O' ∪ E' = O ∪ E) (hd : S'.dir = S.dir) {p : Nat} (hp : p ∈ E) :
    p ∈ E' ∨ (∃ v, userOf m' S.dir v = some p) ∨ ∃ i, tableOf m' S.dir i = some p := by
  have hmem : p ∈ O' ∪ E' := hB ▸ Finset.mem_union_right O hp
  rcases Finset.mem_union.1 hmem with hO | hE
  · obtain ⟨a, ha⟩ := hm'.mem_iff.1 hO
    rw [← hd]
    cases a with
    | dir =>
      have : S.dir = p := hd ▸ Option.some.inj ha
      exact absurd hp (this ▸ Finset.disjoint_left.1 hm.apart (hm.page_mem (a := .dir) rfl))
    | tab i => exact .inr (.inr ⟨i, (hm'.tableOf_eq i).trans ha⟩)
    | user v => exact .inr (.inl ⟨v, (hm'.userOf_eq v).trans ha⟩)
  · exact .inl hE

theorem Filled.mem_free (hF : Filled K lo hi S S') (hm : Resident K m S O E)
    (hm' : Resident K m' S' O' E') (hB : O' ∪ E' = O ∪ E)
    (hfree : ∀ w, lo ≤ w → w < hi → S.pte w = 0) (hhi : hi ≤ USERPAGES) {v : Nat} (h1 : lo ≤ v)
    (h2 : v < hi) : ptePage (S'.pte v) ∈ E := by
  have huser : S'.page (.user v) = some (ptePage (S'.pte v)) :=
    Space.page_user.2 ⟨by omega, hF.present h1 h2, rfl⟩
  have hmem : ptePage (S'.pte v) ∈ O ∪ E := hB ▸ Finset.mem_union_left E' (hm'.page_mem huser)
  refine (Finset.mem_union.1 hmem).resolve_left fun hO => ?_
  obtain ⟨a, ha⟩ := hm.mem_iff.1 hO
  obtain rfl := hm'.rep.inj (hF.page hfree ha) huser
  have hp := (Space.page_user.1 ha).2.1
  rw [hfree v h1 h2] at hp
  exact not_present_zero hp

theorem faithful_of_filled (hm : Resident K m S O E) (hm' : Resident K m' S' O' E')
    (hB : O' ∪ E' = O ∪ E) (hsmall : newsz < KERNBASE)
    (hfree : ∀ u, pages oldsz ≤ u → u < pages newsz → S.pte u = 0)
    (hF : Filled K (pages oldsz) (pages newsz) S S') :
    Faithful K m E S.dir oldsz newsz newsz m' := by
  have hhi := pages_le hsmall
  have hpte : ∀ v, pteOf m' S.dir v = S'.pte v := fun v => hF.dir ▸ hm'.pteOf_eq v
  have huser : ∀ v, pages oldsz ≤ v → v < pages newsz →
      S'.page (.user v) = some (ptePage (S'.pte v)) := fun v h1 h2 =>
    Space.page_user.2 ⟨by omega, hF.present h1 h2, rfl⟩
  refine ⟨?_, ?_, ?_, E', hm'.free, fun p hp => hm.kept hm' hB hF.dir hp⟩
  · intro _ v h1 h2
    obtain ⟨hzero, p, hpm, hp⟩ := hF.inside h1 h2
    have hpage : ptePage (S'.pte v) = p := by
      rw [hp]
      exact ptePage_mapped (by have := hpm.lt; omega) (by decide)
    refine ⟨p, hpage ▸ hF.mem_free hm hm' hB hfree hhi h1 h2, by rw [hpte, hp], ?_⟩
    rw [hm'.page_eq (hpage ▸ huser v h1 h2), hzero]
  · intro _ v w hv1 hv2 hw1 hw2 hne
    rw [hpte, hpte]
    exact hm'.rep.ne_of_place (huser v hv1 hv2) (huser w hw1 hw2) (by simpa using hne)
  · intro h0 v _
    -- with the size zero there was nothing to do
    have hzero : pages newsz = 0 := by
      rw [h0]
      decide
    rw [hpte, hm.pteOf_eq]
    exact (hF.outside (by omega)).1

theorem faithful_of_undone (hm : Resident K m S O E) (hm' : Resident K m' S' O' E')
    (hB : O' ∪ E' = O ∪ E) (hpos : pages oldsz < pages newsz)
    (hU : Undone (pages oldsz) (pages newsz) S S') : Faithful K m E S.dir oldsz newsz 0 m' := by
  have hne : (0 : UInt32) ≠ newsz := by
    rintro rfl
    have : pages 0 = 0 := by decide
    omega
  refine ⟨fun h => absurd h hne, fun h => absurd h hne, fun _ v _ => ?_, E', hm'.free,
    fun p hp => hm.kept hm' hB hU.dir hp⟩
  rw [← hU.dir, hm'.pteOf_eq, hU.dir, hm.pteOf_eq, hU.pte]

/-- `allocuvm` returns, and what it returns is what it has done, when the calls of `kalloc`
that `fails` names fail. -/
def AllocatesFaithfully (K : Layout) (m : Vm) (E : Finset Nat) (d : Nat) (oldsz newsz : UInt32)
    (fails : Nat → Bool) : Prop :=
  ∃ r k m' t, run (memory K) (force fails 0 (allocuvm K d oldsz newsz)) m [] =
    ((.ok (r, k), m'), t) ∧ Faithful K m E d oldsz newsz r m'

/-- What `allocuvm` needs, if the directory is as it is in memory. -/
def allocuvmPlan (m : Vm) (d : Nat) (oldsz newsz : UInt32) : List Need :=
  allocPlan (pages newsz - pages oldsz) (fun i => (tableOf m d i).isSome) (pages oldsz)

theorem Resident.allocuvmPlan_eq (hm : Resident K m S O E) (oldsz newsz : UInt32) :
    allocuvmPlan m S.dir oldsz newsz =
      allocPlan (pages newsz - pages oldsz) S.has (pages oldsz) := by
  have hhas : (fun i => (tableOf m S.dir i).isSome) = S.has := by
    funext i
    rw [hm.tableOf_eq]
    rfl
  rw [allocuvmPlan, hhas]

/-- Nothing is mapped above the size. -/
theorem Resident.free_above (hm : Resident K m S O E)
    (hmap : ∀ v, v < USERPAGES → (Present (pteOf m S.dir v) ↔ v < pages oldsz))
    (hsmall : newsz < KERNBASE) : ∀ u, pages oldsz ≤ u → u < pages newsz → S.pte u = 0 := by
  intro u h1 h2
  have hu := h2.trans_le (pages_le hsmall)
  refine hm.rep.absent fun hp => ?_
  have := (hmap u hu).1 (by rwa [hm.pteOf_eq])
  omega

section

variable (hm : Resident K m S O E) (hle : oldsz ≤ newsz) (hsmall : newsz < KERNBASE)
  (hmap : ∀ v, v < USERPAGES → (Present (pteOf m S.dir v) ↔ v < pages oldsz))

include hm hle hsmall hmap

theorem allocatesFaithfully_of_spared
    (hsp : Spared (Short fails E.card) 0 (allocuvmPlan m S.dir oldsz newsz)) :
    AllocatesFaithfully K m E S.dir oldsz newsz fails := by
  have hfree := hm.free_above hmap hsmall
  rw [hm.allocuvmPlan_eq] at hsp
  obtain ⟨⟨r, k⟩, m', t, O', E', L, hrun, hs, hB, -, S', hR', hcase⟩ := hm.run
    (Q := fun x L => ∃ S', Rep K S' L.heap ∧
      ((x.1 = newsz ∧ Filled K (pages oldsz) (pages newsz) S S') ∨
        (x.1 = 0 ∧ pages oldsz < pages newsz ∧ Undone (pages oldsz) (pages newsz) S S')))
    (wp_force_allocuvm hm.rep hsmall hle hfree
      (fun S' h' k' t' hR' hF _ _ => ⟨S', hR', .inl ⟨rfl, hF⟩⟩)
      (fun S' h' k' c' t' hR' hU hpos _ _ => ⟨S', hR', .inr ⟨rfl, hpos, hU⟩⟩)
      fun S₁ h₁ u l mem t₁ fuel a hL => absurd hsp hL.notSpared)
  refine ⟨r, k, m', t, hrun, ?_⟩
  have hm' := resident_of_split hs hR'
  rcases hcase with ⟨rfl, hF⟩ | ⟨rfl, hpos, hU⟩
  · exact faithful_of_filled hm hm' hB hsmall hfree hF
  · exact faithful_of_undone hm hm' hB hpos hU

theorem not_allocatesFaithfully_of_not_spared
    (hns : ¬ Spared (Short fails E.card) 0 (allocuvmPlan m S.dir oldsz newsz)) :
    ¬ AllocatesFaithfully K m E S.dir oldsz newsz fails := by
  have hfree := hm.free_above hmap hsmall
  rw [hm.allocuvmPlan_eq] at hns
  rintro ⟨r, k, m', t, hrun, hfaith⟩
  obtain ⟨x, m'', t', O', E', L, hrun', hs, hB, -, S', h', g, mem, f, hL, hR', hd, hg, hdir,
      hmem⟩ := hm.run
    (Q := fun x L => ∃ S' h' g mem f, L.heap = h' ∪ g ∧ Rep K S' h' ∧ h'.Disjoint g ∧
      g mem = some f ∧ S'.dir = S.dir ∧ ∀ a, S.page a ≠ some mem)
    (wp_force_allocuvm_lost hm.rep hsmall hle hfree hns
      fun r k' S' h' g mem f c' t' hR' hd hg hdir hmem =>
        ⟨S', h', g, mem, f, rfl, hR', hd, hg, hdir, hmem⟩)
  rw [hrun] at hrun'
  cases hrun'
  -- the lost page was free, and is neither free nor part of the space
  obtain ⟨O'', hsub, hm', hout⟩ := exists_resident_of_split hs hL hd hR'
  have hmemO : mem ∈ O' := (hs.read (by
    rw [hL, union_comm hd]
    exact union_left hg)).1
  have hmemO'' : mem ∉ O'' := (hout mem hmemO).2 (by simp [hg])
  have hmemE : mem ∈ E := by
    have : mem ∈ O ∪ E := hB ▸ Finset.mem_union_left E' hmemO
    refine (Finset.mem_union.1 this).resolve_left fun hO => ?_
    obtain ⟨a, ha⟩ := hm.mem_iff.1 hO
    exact hmem a ha
  obtain ⟨E'', hfree', hkept⟩ := hfaith.kept
  obtain rfl := hfree'.unique hs.free
  rcases hkept mem hmemE with hE | ⟨v, hv⟩ | ⟨i, hi⟩
  · exact Finset.disjoint_left.1 hs.apart hmemO hE
  · rw [← hdir, hm'.userOf_eq] at hv
    exact hmemO'' (hm'.page_mem hv)
  · rw [← hdir, hm'.tableOf_eq] at hi
    exact hmemO'' (hm'.page_mem (a := .tab i) hi)

end

/-- **`allocuvm` reports failure faithfully exactly if the first call of `kalloc` that fails,
if any does, is not for a page table.** -/
theorem allocuvm_faithful_iff (K : Layout) {m : Vm} {S : Space} {O E : Finset Nat}
    (hm : Resident K m S O E) {oldsz newsz : UInt32} (hle : oldsz ≤ newsz)
    (hsmall : newsz < KERNBASE)
    (hmap : ∀ v, v < USERPAGES → (Present (pteOf m S.dir v) ↔ v < pages oldsz))
    (fails : Nat → Bool) : AllocatesFaithfully K m E S.dir oldsz newsz fails ↔
      Spared (Short fails E.card) 0 (allocuvmPlan m S.dir oldsz newsz) := by
  constructor
  · intro h
    by_contra hns
    exact not_allocatesFaithfully_of_not_spared hm hle hsmall hmap hns h
  · exact allocatesFaithfully_of_spared hm hle hsmall hmap

theorem exists_resident_new {E : Finset Nat} (hE : ∀ p ∈ E, Managed someLayout p ∧ p ≠ 300) :
    ∃ m O, Resident someLayout m (Space.new 300) O E := by
  have hR : Rep someLayout (Space.new 300) (single 300 (filled 0)) :=
    Rep.new ⟨by decide, by decide⟩
  obtain ⟨m, O, hm, -⟩ := exists_resident hR fun p hp =>
    ⟨(hE p hp).1, single_of_ne _ (hE p hp).2⟩
  exact ⟨m, O, hm⟩

theorem mapped_new (hm : Resident K m (Space.new 300) O E) (v : Nat) (_ : v < USERPAGES) :
    Present (pteOf m (Space.new 300).dir v) ↔ v < pages 0 := by
  have hzero : pages 0 = 0 := by decide
  rw [hm.pteOf_eq, hzero]
  exact iff_of_false not_present_zero (Nat.not_lt_zero v)

/-- With one free page and an empty directory, the page is allocated and lost, and
`allocuvm` returns the new size. -/
theorem allocuvm_loses_page : ∃ m O, Resident someLayout m (Space.new 300) O {301} ∧
    ¬ AllocatesFaithfully someLayout m {301} (Space.new 300).dir 0 4096 fun _ => false := by
  obtain ⟨m, O, hm⟩ := exists_resident_new (E := {301}) (by decide)
  refine ⟨m, O, hm, not_allocatesFaithfully_of_not_spared hm (by decide) (by decide)
    (mapped_new hm) ?_⟩
  rw [spared_never_iff, hm.allocuvmPlan_eq, not_not]
  rfl

/-- With two free pages it is mapped. -/
theorem allocuvm_faithful_iff_new : ∃ m O, Resident someLayout m (Space.new 300) O {301, 302} ∧
    (AllocatesFaithfully someLayout m {301, 302} (Space.new 300).dir 0 4096 (fun _ => false) ↔
      Spared (Short (fun _ => false) ({301, 302} : Finset Nat).card) 0
        (allocuvmPlan m (Space.new 300).dir 0 4096)) := by
  obtain ⟨m, O, hm⟩ := exists_resident_new (E := {301, 302}) (by decide)
  exact ⟨m, O, hm, allocuvm_faithful_iff someLayout hm (by decide) (by decide) (mapped_new hm) _⟩

end Xv6.Vm
