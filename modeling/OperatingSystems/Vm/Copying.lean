import OperatingSystems.Vm.Failing

/-!
# What `copyuvm` copies

`copyuvm` makes a directory with the kernel's part, and then takes a page for every page of
the parent and copies it.  If a call of `kalloc` fails on the way it frees what it has, which
is everything but the page for which it got no page table.

* `wp_freevm_all` — `freevm` gives back every page of a space.
* `wp_force_copyuvm` — `copyuvm`: a copy; or nothing is left of it; or a page is lost.
* `copyuvm_private_copy` — **what `copyuvm` returns is an exact copy that shares no page**.
-/

namespace Xv6.Vm

open Cmd Heap Nat

variable {K : Layout} {stop : List Ev → Prop} {F : String → List Ev → Prop}
  {S S' C C' : Space} {h hc : Heap Nat Frame} {c : Option Nat} {t : List Ev}
  {fails : Nat → Bool} {N k lo hi v u : Nat} {sz : UInt32}

/-! ## `freevm` -/

/-- **`freevm`** gives back every page of the space. -/
theorem wp_freevm_all {Q : Post Unit} (hR : Rep K S h) (ok : ∀ c', Q () ⟨empty, c', t⟩) :
    wp (ctx K stop) F (freevm K S.dir) Q ⟨h, c, t⟩ := by
  rw [freevm, wp_bind]
  refine wp_deallocuvm_swept (by decide) (by decide) hR fun S' h' c' hR' hS => ?_
  -- the loop starts with a range, so it comes to every page that is there
  have hgone : ∀ v, v < USERPAGES → S'.pte v = 0 := by
    intro v hv
    by_cases hT : S.tab (v / 1024) = none
    · rw [hS.kept fun hV => hV.bounds.2.2 hT, hR.pte_none hT]
    · exact hS.gone (visits_of_le (.inr (by decide)) (zero_le v) hv hT)
  obtain ⟨f, hf⟩ := hR'.own (a := .dir) rfl
  rw [wp_bind, ← hS.dir]
  refine wp_freeTables hR' NPDENTRIES (by rfl) hf hf (fun j T _ hT => hR'.own (a := .tab j) hT) ?_
  intro g c'' hd hleft
  refine wp_kfree (hR'.managed (a := .dir) rfl) hd ?_
  have hempty : g.erase S'.dir = empty := by
    funext p
    by_cases hp : p = S'.dir
    · rw [hp]
      exact erase_self _ _
    rw [erase_of_ne _ hp]
    cases hg : g p with
    | none => rfl
    | some f' =>
      obtain ⟨hp', hnot⟩ := hleft p f' hg
      obtain ⟨a, ha⟩ := hR'.only hp'
      cases a with
      | dir => exact absurd (Option.some.inj ha).symm hp
      | tab j => exact absurd ha (hnot j (zero_le j))
      | user v =>
        obtain ⟨hv, hpres, -⟩ := Space.page_user.1 ha
        rw [hgone v hv] at hpres
        exact absurd hpres not_present_zero
  simp only [hempty]
  exact ok _

/-! ## The loop -/

/-- The pages from `lo` to `hi` are copies of those of `S`. -/
abbrev Copied (K : Layout) (S : Space) (lo hi : Nat) : Space → Space → Prop :=
  Populated K S.mem (fun u => PTE_FLAGS (S.pte u)) lo hi

/-- **The loop of `copyuvm`**: it copies the range; or a page is refused; or a page table is,
and the page that it was for is nobody's. -/
theorem wp_force_copyLoop {Q : Post (Bool × Nat)} (hhi : hi = pages sz)
    (hu : hi ≤ USERPAGES) (hR : Rep K S h) (hp : ∀ u, u < hi → Present (S.pte u)) (fuel : Nat)
    {i : UInt32} (hi' : i.toNat = 4096 * v) (hv : v ≤ hi) (hfuel : hi ≤ v + fuel)
    (hC : Rep K C hc) (hd : hc.Disjoint h) (hnp : ∀ u, v ≤ u → u < hi → C.pte u = 0)
    (ok : ∀ C' hc' k' t', Rep K C' hc' → hc'.Disjoint h → Copied K S v hi C C' →
      k' = k + (allocPlan (hi - v) C.has v).length → Clear (Short fails N) k k' →
      Q (true, k') ⟨hc' ∪ h, some (N - k'), t'⟩)
    (fail : ∀ C' hc' k' c' t', Rep K C' hc' → C'.dir = C.dir → hc'.Disjoint h →
      Spared (Short fails N) k (allocPlan (hi - v) C.has v) →
      ¬ Clear (Short fails N) k (k + (allocPlan (hi - v) C.has v).length) →
      Q (false, k') ⟨hc' ∪ h, c', t'⟩)
    (lost : ∀ C' hc' mem g k' c' t', Rep K C' hc' → C'.dir = C.dir →
      hc'.Disjoint (single mem g ∪ h) → h mem = none →
      ¬ Spared (Short fails N) k (allocPlan (hi - v) C.has v) →
      Q (false, k') ⟨hc' ∪ (single mem g ∪ h), c', t'⟩) :
    wp (ctx K stop) F (force fails k (copyLoop S.dir C.dir sz fuel i)) Q
      ⟨hc ∪ h, some (N - k), t⟩ := by
  have hhi' : hi = (sz.toNat + 4095) / 4096 := hhi
  have hend : v = hi → Q (true, k) ⟨hc ∪ h, some (N - k), t⟩ := by
    rintro rfl
    exact ok C hc k t hC hd (.refl K _ _ v C) (by rw [Nat.sub_self]; rfl) (.refl _ k)
  induction fuel generalizing C hc k t v i Q with
  | zero => exact hend (by omega)
  | succ fuel ih =>
    rw [copyLoop]
    by_cases hlt : i < sz
    · have hlt' := UInt32.lt_iff_toNat_lt.1 hlt
      have hvlt : v < hi := by omega
      have hpage : i.toNat / 4096 = v := by omega
      have hnext := toNat_add_page hi' (by unfold USERPAGES at hu; omega)
      obtain ⟨n, hn⟩ : ∃ n, hi - v = n + 1 := ⟨hi - v - 1, by omega⟩
      have hsub : h.Sub (hc ∪ h) := sub_union_right hd
      rw [if_pos hlt, wp_force_bind, wp_force_quiet (quiet_walkpgdir _ _)]
      refine wp_walkRead hR hsub ?_ fun hT => ?_
      swap
      · rw [PDX_eq, hpage] at hT
        exact absurd hT (tab_ne_none_of_present hR (hp v hvlt))
      intro T hT
      simp only [wp_force_bind]
      rw [wp_force_quiet (quiet_read _ _)]
      refine wp_entryRead hR hsub hT ?_
      rw [hpage, if_pos (hp v hvlt), wp_force_bind]
      refine wp_force_kalloc ?_ ?_
      · intro hk
        have hlen := length_allocPlan (hi - v) C.has v
        refine fail C hc (k + 1) _ t hC rfl hd ?_ fun hc' => hc' k (le_refl k) (by omega) hk
        rw [hn, allocPlan]
        split
        · exact spared_of_short hk _
        · exact spared_of_short hk _
      intro hk mem f hm hfree
      obtain ⟨hcm, hhm⟩ := Option.or_eq_none_iff.1 hfree
      have huser : S.page (.user v) = some (ptePage (S.pte v)) :=
        Space.page_user.2 ⟨by omega, hp v hvlt, rfl⟩
      have hsrc := hR.user_mem huser
      have hne : ptePage (S.pte v) ≠ mem := by
        intro heq
        rw [heq, hhm] at hsrc
        cases hsrc
      refine wp_get ((put_of_ne _ _ hne).trans (hsub _ _ hsrc)) ?_
      rw [wp_force_bind, wp_force_quiet (quiet_write _ _)]
      refine wp_write (put_self _ _ _) ?_
      rw [wp_force_bind]
      simp only [put_put, ← put_union]
      refine wp.frame (hd.put _ hhm) (wp_force_mapUser hC hi' (by omega) hcm hm
        (by rw [toNat_PTE_FLAGS]; omega) ?_ ?_ ?_)
      · rw [hnp v (le_refl v) hvlt]
        exact not_present_zero
      · -- the page is lost
        intro hT' hk' _
        rw [if_neg (by simp), ← union_single _ hcm, union_assoc]
        refine lost C hc mem _ _ _ _ hC rfl (disjoint_union_right.2 ⟨?_, hd⟩) hhm ?_
        · exact disjoint_single.2 hcm
        · rw [hn, allocPlan, if_neg (by simp [Space.has, hT'])]
          exact not_spared_second hk hk' _
      · intro C₁ hc₁ k₁ t₁ hW hC₁ hd₁
        obtain ⟨pre, hplan, hk₁, hclear⟩ := hW.plan hk n
        rw [← hn, show n = hi - (v + 1) by omega] at hplan
        rw [if_pos rfl, ← hW.dir,
          ← C₁.dir_setPte v (pa mem ||| PTE_FLAGS (S.pte v) ||| PTE_P) (S.mem v)]
        have hok : ∀ C' hc' k' t', Rep K C' hc' → hc'.Disjoint h → Copied K S (v + 1) hi
            (C₁.setPte v (pa mem ||| PTE_FLAGS (S.pte v) ||| PTE_P) (S.mem v)) C' →
            k' = k₁ + (allocPlan (hi - (v + 1)) C₁.has (v + 1)).length →
            Clear (Short fails N) k₁ k' → Q (true, k') ⟨hc' ∪ h, some (N - k'), t'⟩ := by
          intro C' hc' k' t' hC' hd' hS' hk' hc''
          refine ok C' hc' k' t' hC' hd' (.cons hW hm (by omega) hS') ?_ (hclear.trans (hk₁ ▸ hc''))
          rw [hplan, List.length_append]
          omega
        refine ih hnext (by omega) (by omega) hC₁ hd₁ ?_ hok ?_ ?_ ?_
        · intro u h1 h2
          rw [C₁.pte_setPte_of_ne _ _ (by omega), hW.pte]
          exact hnp u (by omega) h2
        · intro C' hc' k' c' t' hC' hdir hd' hsp hnc
          rw [Space.has_setPte] at hsp hnc
          refine fail C' hc' k' c' t' hC' (hdir.trans hW.dir) hd' ?_ ?_
          · rwa [hplan, spared_append hclear, ← hk₁]
          · intro hall
            refine hnc (hall.mono (by omega) ?_)
            rw [hplan, List.length_append]
            omega
        · intro C' hc' mem' g k' c' t' hC' hdir hd' hmem hnot
          refine lost C' hc' mem' g k' c' t' hC' (hdir.trans hW.dir) hd' hmem ?_
          rwa [hplan, spared_append hclear, ← hk₁]
        · rintro rfl
          refine hok _ hc₁ k₁ t₁ hC₁ hd₁ (.refl K _ _ _ _) ?_ (.refl _ _)
          rw [Nat.sub_self]
          rfl
    · rw [if_neg hlt]
      rw [UInt32.lt_iff_toNat_lt] at hlt
      exact hend (by omega)

/-! ## `copyuvm` -/

theorem allocPlan_congr {has has' : Nat → Bool} {n : Nat}
    (hh : ∀ u, v ≤ u → u < v + n → has (u / 1024) = has' (u / 1024)) :
    allocPlan n has v = allocPlan n has' v := by
  induction n generalizing v has has' with
  | zero => rfl
  | succ n ih =>
    have hrest : allocPlan n (fun i => i == v / 1024 || has i) (v + 1) =
        allocPlan n (fun i => i == v / 1024 || has' i) (v + 1) := by
      refine ih fun u h1 h2 => ?_
      rw [hh u (by omega) (by omega)]
    rw [allocPlan, allocPlan, hh v (le_refl v) (by omega), hrest,
      ih fun u h1 h2 => hh u (by omega) (by omega)]

/-- The calls of `kalloc` in `copyuvm`. -/
def copyPlan (sz : UInt32) : List Need := setupPlan ++ allocPlan (pages sz) (fun _ => false) 0

theorem length_setupPlan : setupPlan.length = 65 := rfl

/-- A page table of the kernel's part was refused. -/
theorem not_spared_setup {short : Nat → Prop} {l : Nat} (hkl : k < l) (hl : l < k + 65)
    (hc : Clear short k l) (hs : short l) (plan : List Need) :
    ¬ Spared short k (setupPlan ++ plan) := by
  intro h
  have htable : (setupPlan ++ plan)[l - k]? = some .table := by
    rw [List.getElem?_append_left (by rw [length_setupPlan]; omega), setupPlan,
      show l - k = (l - k - 1) + 1 by omega, List.getElem?_cons_succ,
      List.getElem?_replicate_of_lt (by omega)]
  obtain ⟨j, h1, h2, h3⟩ := h (l - k) htable (by rwa [show k + (l - k) = l by omega])
  exact hc j h1 (by omega) h3

/-- **`copyuvm`** returns a copy; or what it has taken it has given back; or it has not. -/
theorem wp_force_copyuvm {Q : Post (Option Nat × Nat)}
    (hsz : sz < KERNBASE) (hR : Rep K S h) (hp : ∀ u, u < pages sz → Present (S.pte u))
    (fail : ∀ k' c' t', Spared (Short fails N) k (copyPlan sz) →
      ¬ Clear (Short fails N) k (k + (copyPlan sz).length) → Q (none, k') ⟨h, c', t'⟩)
    (lost : ∀ g k' c' t', (∃ p f, g p = some f) → g.Disjoint h →
      ¬ Spared (Short fails N) k (copyPlan sz) → Q (none, k') ⟨g ∪ h, c', t'⟩)
    (ok : ∀ C₀ C hc k' t', Rep K C hc → hc.Disjoint h → KernelSpace C₀ →
      (∀ e ∈ kmap K, e.Holds C₀) → Copied K S 0 (pages sz) C₀ C →
      k' = k + (copyPlan sz).length → Clear (Short fails N) k k' →
      Q (some C.dir, k') ⟨hc ∪ h, some (N - k'), t'⟩) :
    wp (ctx K stop) F (force fails k (copyuvm K S.dir sz)) Q ⟨h, some (N - k), t⟩ := by
  have hu := pages_le hsz
  rw [copyuvm, wp_force_bind, ← empty_union h]
  refine wp.frame (empty_disjoint h) (wp_force_setupkvm ?_ ?_ ?_)
  · intro hk _
    rw [empty_union]
    refine fail (k + 1) _ t (spared_of_short hk _) fun hc => hc k (le_refl k) ?_ hk
    rw [copyPlan, List.length_append, length_setupPlan]
    omega
  · intro C h' l c' t' hC _ hkl hl hc hs hd
    obtain ⟨f, hf⟩ := hC.own (a := .dir) rfl
    exact lost h' (l + 1) c' t' ⟨_, f, hf⟩ hd (not_spared_setup hkl hl hc hs _)
  intro C₀ hc₀ t₀ hC₀ hK₀ hmap hclear hd₀
  have hplan : copyPlan sz = setupPlan ++ allocPlan (pages sz - 0) C₀.has 0 := by
    have hnone : ∀ u, 0 ≤ u → u < 0 + pages sz → false = C₀.has (u / 1024) := by
      intro u _ hlt
      unfold USERPAGES at hu
      simp [Space.has, hK₀.low (i := u / 1024) (by omega)]
    rw [copyPlan, Nat.sub_zero, allocPlan_congr hnone]
  have hlen : k + (copyPlan sz).length = k + 65 + (allocPlan (pages sz - 0) C₀.has 0).length := by
    rw [hplan, List.length_append, length_setupPlan, add_assoc]
  have hsp : Spared (Short fails N) k (copyPlan sz) ↔
      Spared (Short fails N) (k + 65) (allocPlan (pages sz - 0) C₀.has 0) := by
    rw [hplan, spared_append (by rwa [length_setupPlan]), length_setupPlan]
  simp only [wp_force_bind]
  refine wp_force_copyLoop rfl hu hR hp _ rfl (zero_le _)
    (by unfold NPDENTRIES NPTENTRIES; unfold USERPAGES at hu; omega) hC₀ hd₀
    (fun u _ hlt => hK₀.user (by omega)) ?_ ?_ ?_
  · intro C hc k' t' hC hd hS hk' hc'
    rw [if_pos rfl, ← hS.dir]
    exact ok C₀ C hc k' t' hC hd hK₀ hmap hS (by rw [hlen, hk']) (hclear.trans hc')
  · intro C hc k' c' t' hC hdir hd hsp' hnc
    rw [if_neg (by simp), wp_force_bind, ← hdir, wp_force_quiet (quiet_freevm K _)]
    refine wp.frame hd (wp_freevm_all hC fun c'' _ => ?_)
    rw [wp_force_pure, empty_union]
    exact fail k' c'' t' (hsp.2 hsp') fun hall => hnc (hlen ▸ hall.mono (by omega) (by omega))
  · intro C hc mem g k' c' t' hC hdir hd hmem hnot
    rw [if_neg (by simp), wp_force_bind, ← hdir, wp_force_quiet (quiet_freevm K _)]
    refine wp.frame hd (wp_freevm_all hC fun c'' _ => ?_)
    rw [wp_force_pure, empty_union]
    exact lost _ k' c'' t' ⟨mem, g, single_self mem g⟩ (disjoint_single.2 hmem).symm
      fun h => hnot (hsp.1 h)

/-! ### In memory -/

theorem flags_or_P {w : UInt32} (hw : Present w) : PTE_FLAGS w ||| PTE_P = PTE_FLAGS w := by
  rw [present_iff] at hw
  have h1 : PTE_P.toNat = 1 := rfl
  have hflags := toNat_PTE_FLAGS w
  have hbit := two_pow_add_eq_or_of_lt (i := 1) (b := 1) (by norm_num) ((PTE_FLAGS w).toNat / 2)
  rw [show 2 ^ 1 * ((PTE_FLAGS w).toNat / 2) + 1 = (PTE_FLAGS w).toNat by omega] at hbit
  rw [← UInt32.toNat_inj, UInt32.toNat_or, h1]
  calc (PTE_FLAGS w).toNat ||| 1 = (2 ^ 1 * ((PTE_FLAGS w).toNat / 2) ||| 1) ||| 1 := by rw [← hbit]
    _ = 2 ^ 1 * ((PTE_FLAGS w).toNat / 2) ||| 1 := by rw [Nat.or_assoc, Nat.or_self]
    _ = (PTE_FLAGS w).toNat := hbit.symm

theorem flags_mapped {p : Nat} {w : UInt32} (hp : p < 2 ^ 20) (hw : Present w) :
    PTE_FLAGS (pa p ||| PTE_FLAGS w ||| PTE_P) = PTE_FLAGS w := by
  have hpa := toNat_pa hp
  have hflags := toNat_PTE_FLAGS w
  rw [UInt32.or_assoc, flags_or_P hw, ← UInt32.toNat_inj, toNat_PTE_FLAGS,
    toNat_or_of_lt (by omega) (by omega)]
  omega

/-- **The directory `d` is a private copy** of `pgdir` up to the size `sz`.  The pages `O` are
those of `pgdir`: the directory, its page tables, and its user pages. -/
structure PrivateCopy (K : Layout) (m m' : Vm) (O : Finset Nat) (pgdir d : Nat) (sz : UInt32) :
    Prop where
  /-- Every page is mapped to one with the same bytes and the same flags. -/
  copied : ∀ v, v < pages sz → ∃ p q, userOf m pgdir v = some p ∧ userOf m' d v = some q ∧
    m'.page q = m.page p ∧ PTE_FLAGS (pteOf m' d v) = PTE_FLAGS (pteOf m pgdir v)
  above : ∀ v, pages sz ≤ v → v < USERPAGES → ¬ Present (pteOf m' d v)
  distinct : ∀ v w p, userOf m' d v = some p → userOf m' d w = some p → v = w
  apart : ∀ v p, userOf m' d v = some p → p ∉ O
  kernel : ∀ e ∈ kmap K, ∀ j, 4096 * j < (e.phys_end - e.phys_start).toNat →
    pteOf m' d (e.virt.toNat / 4096 + j) = mapped e.phys_start e.perm j
  unchanged : ∀ p ∈ O, m'.page p = m.page p

/-- The kernel's part is above the user's. -/
theorem kmap_virt {e : Kmap} (he : e ∈ kmap K) : USERPAGES ≤ e.virt.toNat / 4096 := by
  have hdata := toNat_P2V (p := K.data) (by
    have := K.data_le
    have := K.first_le
    unfold USERPAGES
    omega)
  unfold kmap at he
  simp only [List.mem_cons, List.not_mem_nil, or_false] at he
  have h1 : USERPAGES ≤ (KERNBASE + EXTMEM).toNat / 4096 := by decide
  rcases he with rfl | rfl | rfl | rfl
  · decide
  · exact h1
  · simp only [hdata]
    omega
  · decide

theorem privateCopy_of_copied {m m' : Vm} {O O' E E' : Finset Nat} {C₀ : Space}
    (hm : Resident K m S O E) (hm' : Resident K m' C O' E')
    (hsame : ∀ p ∈ O, p ∉ O' ∧ m'.page p = m.page p) (hsz : sz < KERNBASE)
    (hp : ∀ v, v < pages sz → Present (S.pte v)) (hK : KernelSpace C₀)
    (hmap : ∀ e ∈ kmap K, e.Holds C₀) (hC : Copied K S 0 (pages sz) C₀ C) :
    PrivateCopy K m m' O S.dir C.dir sz := by
  have hu := pages_le hsz
  refine ⟨?_, ?_, ?_, ?_, ?_, fun p hpO => (hsame p hpO).2⟩
  · intro v hv
    obtain ⟨hmem, p, hpm, hpte⟩ := hC.inside (zero_le v) hv
    have hsrc : S.page (.user v) = some (ptePage (S.pte v)) :=
      Space.page_user.2 ⟨by omega, hp v hv, rfl⟩
    have hdst : C.page (.user v) = some (ptePage (C.pte v)) :=
      Space.page_user.2 ⟨by omega, hC.present (zero_le v) hv, rfl⟩
    refine ⟨_, _, (hm.userOf_eq v).trans hsrc, (hm'.userOf_eq v).trans hdst, ?_, ?_⟩
    · rw [hm'.page_eq hdst, hmem, hm.page_eq hsrc]
    · rw [hm'.pteOf_eq, hm.pteOf_eq, hpte]
      exact flags_mapped (by have := hpm.lt; omega) (hp v hv)
  · intro v h1 h2
    rw [hm'.pteOf_eq, (hC.outside (.inr h1)).1, hK.user h2]
    exact not_present_zero
  · intro v w p hv hw
    rw [hm'.userOf_eq] at hv hw
    simpa using hm'.rep.inj hv hw
  · intro v p hv hpO
    rw [hm'.userOf_eq] at hv
    exact (hsame p hpO).1 (hm'.page_mem hv)
  · intro e he j hj
    have := kmap_virt he
    rw [hm'.pteOf_eq, (hC.outside (.inr (by omega))).1]
    exact hmap e he j hj

theorem Resident.run_copyuvm {m : Vm} {O E : Finset Nat} (hm : Resident K m S O E)
    (hp : ∀ v, v < pages sz → Present (pteOf m S.dir v)) (fails : Nat → Bool) :
    ∃ r m' t, Cmd.run (memory K) (force fails 0 (copyuvm K S.dir sz)) m [] = ((.ok r, m'), t) ∧
      (Clear (Short fails E.card) 0 (copyPlan sz).length → r.1 ≠ none) ∧
      ∀ d, r.1 = some d → PrivateCopy K m m' O S.dir d sz := by
  have hsz := hm.size_lt fun v _ hv => hp v hv
  simp only [hm.pteOf_eq] at hp
  obtain ⟨r, m', t, O', E', L, hrun, hsplit, -, -, hQ⟩ := hm.run (Q := fun r L =>
      (r.1 = none ∧ ¬ Clear (Short fails E.card) 0 (copyPlan sz).length) ∨
      ∃ C₀ C hc, r.1 = some C.dir ∧ Rep K C hc ∧ hc.Disjoint (restrict (memory K) m O) ∧
        KernelSpace C₀ ∧ (∀ e ∈ kmap K, e.Holds C₀) ∧ Copied K S 0 (pages sz) C₀ C ∧
        L.heap = hc ∪ restrict (memory K) m O) (c := force fails 0 (copyuvm K S.dir sz))
    (wp_force_copyuvm (N := E.card) hsz hm.rep hp
      (fun k' c' t' _ hnc => .inl ⟨rfl, by simpa using hnc⟩)
      (fun g k' c' t' _ _ hnot => .inl ⟨rfl, by simpa using not_clear_of_not_spared hnot⟩)
      fun C₀ C hc k' t' hC hd hK hmap hS _ _ => .inr ⟨C₀, C, hc, rfl, hC, hd, hK, hmap, hS, rfl⟩)
  refine ⟨r, m', t, hrun, ?_, ?_⟩
  · intro hc
    rcases hQ with ⟨-, hnc⟩ | ⟨C₀, C, hc', hr, -⟩
    · exact absurd hc hnc
    · simp [hr]
  · intro d hd
    rcases hQ with ⟨hr, -⟩ | ⟨C₀, C, hc, hr, hC, hdis, hK, hmap, hS, hL⟩
    · rw [hr] at hd
      cases hd
    · obtain rfl : C.dir = d := Option.some.inj (hr.symm.trans hd)
      obtain ⟨O'', -, hm', hout⟩ := exists_resident_of_split hsplit hL hdis hC
      refine privateCopy_of_copied hm hm' (fun p hpO => ?_) hsz hp hK hmap hS
      have hsome : restrict (memory K) m O p = some (m.page p) := restrict_eq_some.2 ⟨hpO, rfl⟩
      obtain ⟨hO', hpage⟩ := hsplit.read (by
        rw [hL]
        exact sub_union_right hdis _ _ hsome)
      exact ⟨(hout p hO').2 (by simp [hsome]), hpage⟩

/-- **`copyuvm` makes an exact private copy.**  Whatever calls of `kalloc` fail, it returns,
and what it returns is a copy. -/
theorem copyuvm_private_copy (K : Layout) {m : Vm} {S : Space} {O E : Finset Nat}
    (hm : Resident K m S O E) (sz : UInt32)
    (hp : ∀ v, v < pages sz → Present (pteOf m S.dir v)) (fails : Nat → Bool) :
    ∃ r m' t, run (memory K) (force fails 0 (copyuvm K S.dir sz)) m [] = ((.ok r, m'), t) ∧
      ∀ d, r.1 = some d → PrivateCopy K m m' O S.dir d sz := by
  obtain ⟨r, m', t, hrun, -, hcopy⟩ := hm.run_copyuvm hp fails
  exact ⟨r, m', t, hrun, hcopy⟩

/-- A process of one page, with enough free pages, is copied. -/
theorem copyuvm_private_copy_onePage : ∃ m O, Resident someLayout m onePage O (Finset.Ico 303 400) ∧
      ∃ r m' t, run (memory someLayout) (force (fun _ => false) 0 (copyuvm someLayout 300 4096))
        m [] = ((.ok r, m'), t) ∧ ∃ d, r.1 = some d ∧
        PrivateCopy someLayout m m' O 300 d 4096 := by
  obtain ⟨m, O, hm⟩ := exists_resident_onePage (E := Finset.Ico 303 400) (by
    intro p hp
    rw [Finset.mem_Ico] at hp
    omega)
  have hp := present_onePage hm
  obtain ⟨r, m', t, hrun, hcopy⟩ := copyuvm_private_copy someLayout hm 4096 hp (fun _ => false)
  obtain ⟨r', m'', t'', hrun', hsome, -⟩ := hm.run_copyuvm hp (fun _ => false)
  refine ⟨m, O, hm, r, m', t, hrun, ?_⟩
  have hr : r = r' := by simpa using congrArg (fun x => x.1.1) (hrun.symm.trans hrun')
  have hne : r.1 ≠ none := by
    rw [hr]
    refine hsome fun j _ hj => ?_
    have hlen : (copyPlan 4096).length = 67 := by decide
    rintro (h | h)
    · cases h
    · rw [card_Ico] at h
      omega
  obtain ⟨d, hd⟩ := Option.ne_none_iff_exists'.1 hne
  exact ⟨d, hd, hcopy d hd⟩

end Xv6.Vm
