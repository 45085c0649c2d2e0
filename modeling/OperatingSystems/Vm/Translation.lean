import OperatingSystems.Vm.Mapping

/-!
# What `mappages` maps

The translation of addresses by a page directory, on memory as it is.  Nothing is
assumed of what the directory maps, only that its page tables are pages of their own.

* `PageDir.walk`, `PageDir.set` — a page table added on the way changes no translation,
  and an entry written changes that of one page.
* `PageDir.mapLoop` — the loop of `mappages`, whatever `kalloc` does.
* `mappages_exact` — **the pages of the range are mapped and no others**.
* `mappages_whole_page` — a range that ends inside a page still maps all of it.
-/

namespace Xv6.Vm

open Cmd

/-- The entry of a page directory for an address. -/
def pdeAt (m : Vm) (d : Nat) (va : UInt32) : UInt32 := entry (m.page d) (PDX va)

/-- The entry for an address in the page table that the directory has. -/
def pteAt (m : Vm) (d : Nat) (va : UInt32) : UInt32 :=
  entry (m.page (ptePage (m.pdeAt d va))) (PTX va)

/-- How an address is translated: the entries with their flags, if both are present. -/
def translation (m : Vm) (d : Nat) (va : UInt32) : Option (UInt32 × UInt32) :=
  if Present (m.pdeAt d va) ∧ Present (m.pteAt d va) then some (m.pdeAt d va, m.pteAt d va)
  else none

/-- A page directory: with `E` the free pages, it and its page tables are pages of their
own, as `kalloc` has given them. -/
structure PageDir (K : Layout) (m : Vm) (d : Nat) (E : Finset Nat) : Prop where
  free : FreePages K m E
  dir : d ∉ E
  tab : ∀ {va}, Present (m.pdeAt d va) → ptePage (m.pdeAt d va) ≠ d ∧ ptePage (m.pdeAt d va) ∉ E
  inj : ∀ {a b}, Present (m.pdeAt d a) → Present (m.pdeAt d b) →
    ptePage (m.pdeAt d a) = ptePage (m.pdeAt d b) → PDX a = PDX b

variable {K : Layout} {m m' : Vm} {d : Nat} {E : Finset Nat} {va a addr perm w : UInt32}
  {t : List Ev}

/-- A translation depends on the entries only. -/
theorem translation_congr (hd : m'.pdeAt d a = m.pdeAt d a)
    (hT : Present (m.pdeAt d a) → m'.pteAt d a = m.pteAt d a) :
    m'.translation d a = m.translation d a := by
  unfold translation
  by_cases hp : Present (m.pdeAt d a)
  · rw [hd, hT hp]
  · rw [if_neg (by simp [hd, hp]), if_neg (by simp [hp])]

theorem translation_eq_of_page (h : a.toNat / 4096 = va.toNat / 4096) :
    m.translation d a = m.translation d va := by
  simp only [translation, pteAt, pdeAt, PDX_eq, PTX_eq, h]

theorem run_walkpgdir {pde : UInt32} (h : m.translation d va = some (pde, w)) :
    run (memory K) (walkpgdir d va false) m t = ((.ok (some (ptePage pde, PTX va)), m), t) ∧
      entry (m.page (ptePage pde)) (PTX va) = w := by
  unfold translation at h
  split_ifs at h with hp
  cases h
  exact ⟨congrArg (run (memory K) · m t) (if_pos hp.1), rfl⟩

/-- **A new page table.**  Its entries are not present, so no translation changes. -/
theorem PageDir.add {p : Nat} (h : PageDir K m d E) (hva : ¬ Present (m.pdeAt d va)) (hp : p ∈ E)
    (hfree : FreePages K m' (E.erase p))
    (hdir : m'.page d = setEntry (m.page d) (PDX va) (pdeOf (some p))) (hnew : m'.page p = filled 0)
    (hsame : ∀ q, q ≠ d → q ∉ E → m'.page q = m.page q) :
    PageDir K m' d (E.erase p) ∧ m'.pdeAt d va = pdeOf (some p) ∧
      ∀ a, m'.translation d a = m.translation d a := by
  have hlt : p < 2 ^ 20 := by
    have := Managed.lt ((memory K).managed_of_free h.free hp)
    omega
  have hself : ∀ {a}, PDX a = PDX va → m'.pdeAt d a = pdeOf (some p) := by
    intro a ha
    rw [pdeAt, hdir, ha, entry_setEntry _ (PDX_lt va)]
  have hother : ∀ {a}, PDX a ≠ PDX va → m'.pdeAt d a = m.pdeAt d a := by
    intro a ha
    rw [pdeAt, hdir, entry_setEntry_of_ne _ ha, pdeAt]
  -- the new page table is at no other entry
  have hne : ∀ {a}, Present (m.pdeAt d a) → ptePage (m.pdeAt d a) ≠ p :=
    fun ha heq => (h.tab ha).2 (heq ▸ hp)
  refine ⟨⟨hfree, fun hd => h.dir (Finset.mem_of_mem_erase hd), ?_, ?_⟩, hself rfl, fun a => ?_⟩
  · intro a ha
    by_cases hi : PDX a = PDX va
    · rw [hself hi, ptePage_pdeOf hlt]
      exact ⟨fun heq => h.dir (heq ▸ hp), Finset.notMem_erase p E⟩
    · rw [hother hi] at ha ⊢
      exact ⟨(h.tab ha).1, fun hE => (h.tab ha).2 (Finset.mem_of_mem_erase hE)⟩
  · intro a b ha hb heq
    by_cases hi : PDX a = PDX va <;> by_cases hj : PDX b = PDX va
    · exact hi.trans hj.symm
    · rw [hother hj] at hb heq
      rw [hself hi, ptePage_pdeOf hlt] at heq
      exact absurd heq.symm (hne hb)
    · rw [hother hi] at ha heq
      rw [hself hj, ptePage_pdeOf hlt] at heq
      exact absurd heq (hne ha)
    · rw [hother hi] at ha heq
      rw [hother hj] at hb heq
      exact h.inj ha hb heq
  · by_cases hi : PDX a = PDX va
    · have hpte : m'.pteAt d a = 0 := by
        rw [pteAt, hself hi, ptePage_pdeOf hlt, hnew, entry_filled_zero]
      have hold : m.pdeAt d a = m.pdeAt d va := by rw [pdeAt, hi, pdeAt]
      unfold translation
      rw [if_neg (by simp [hpte, not_present_zero]), if_neg (by simp [hold, hva])]
    · refine translation_congr (hother hi) fun ha => ?_
      rw [pteAt, hother hi, hsame _ (h.tab ha).1 (h.tab ha).2, pteAt]

/-- **`walkpgdir` fails, or there is a page table and translations are as before.** -/
theorem PageDir.walk (h : PageDir K m d E) (va : UInt32) (t : List Ev) :
    run (memory K) (walkpgdir d va true) m t = ((.ok none, m), t) ∨
      ∃ m' E' t', run (memory K) (walkpgdir d va true) m t =
          ((.ok (some (ptePage (m'.pdeAt d va), PTX va)), m'), t') ∧
        PageDir K m' d E' ∧ Present (m'.pdeAt d va) ∧
        ∀ a, m'.translation d a = m.translation d a := by
  by_cases hva : Present (m.pdeAt d va)
  · exact .inr ⟨m, E, t, congrArg (run (memory K) · m t) (if_pos hva), h, hva, fun _ => rfl⟩
  have hread : run (memory K) (read d (PDX va)) m t = ((.ok (m.pdeAt d va), m), t) := rfl
  have halloc : run (memory K) kalloc m t = ((.ok m.takeFree.1, m.takeFree.2), t) := rfl
  rw [walkpgdir, run_bind, hread]
  simp only [if_neg hva, Bool.true_eq_false, if_false, run_bind, halloc]
  rcases E.eq_empty_or_nonempty with rfl | hne
  · rw [h.free.takeFree_empty]
    exact .inl rfl
  obtain ⟨p, hp, m₁, htake, hfree, hsame⟩ := h.free.takeFree_nonempty hne
  rw [htake]
  have hlt := Managed.lt ((memory K).managed_of_free h.free hp)
  have hpd : d ≠ p := fun heq => h.dir (heq ▸ hp)
  have hfree' : FreePages K ((m₁.update p fun _ => filled 0).update d
      fun f => setEntry f (PDX va) (pdeOf (some p))) (E.erase p) :=
    (hfree.update _ (Finset.notMem_erase p E)).update _ fun hd => h.dir (Finset.mem_of_mem_erase hd)
  obtain ⟨h', hpde, htr⟩ := h.add hva hp hfree'
    (by rw [page_update, if_pos rfl, page_update, if_neg hpd, hsame d h.dir])
    (by rw [page_update, if_neg hpd.symm, page_update, if_pos rfl])
    (fun q hd hE => by
      have hq : q ≠ p := fun heq => hE (heq ▸ hp)
      rw [page_update, if_neg hd, page_update, if_neg hq, hsame q hE])
  refine .inr ⟨_, _, .table d (PDX va) :: t, ?_, h', ?_, htr⟩
  · rw [hpde, ptePage_pdeOf (by omega)]
    rfl
  · rw [hpde]
    exact present_pdeOf (by omega)

/-- **An entry is written.**  Only its page is translated differently. -/
theorem PageDir.set (h : PageDir K m d E) (hva : Present (m.pdeAt d va)) (hw : Present w)
    (hm : m' = m.update (ptePage (m.pdeAt d va)) fun f => setEntry f (PTX va) w) :
    PageDir K m' d E ∧ m'.translation d va = some (m.pdeAt d va, w) ∧
      ∀ a, a.toNat / 4096 ≠ va.toNat / 4096 → m'.translation d a = m.translation d a := by
  subst hm
  obtain ⟨hTd, hTE⟩ := h.tab hva
  have hpde : ∀ a, (m.update (ptePage (m.pdeAt d va)) fun f => setEntry f (PTX va) w).pdeAt d a =
      m.pdeAt d a := by
    intro a
    rw [pdeAt, page_update, if_neg hTd.symm, pdeAt]
  refine ⟨⟨h.free.update _ hTE, h.dir, ?_, ?_⟩, ?_,
    fun a ha => translation_congr (hpde a) fun hpa => ?_⟩
  · intro a
    rw [hpde]
    exact h.tab
  · intro a b
    rw [hpde, hpde]
    exact h.inj
  · have hpte :
        (m.update (ptePage (m.pdeAt d va)) fun f => setEntry f (PTX va) w).pteAt d va = w := by
      rw [pteAt, hpde, page_update, if_pos rfl, entry_setEntry _ (PTX_lt va)]
    unfold translation
    rw [hpde, hpte, if_pos ⟨hva, hw⟩]
  · rw [pteAt, hpde, page_update, pteAt]
    split_ifs with hT
    · have hPDX := h.inj hpa hva hT
      rw [← hT, entry_setEntry_of_ne]
      rw [PDX_eq, PDX_eq] at hPDX
      rw [PTX_eq, PTX_eq]
      omega
    · rfl

theorem PageDir.mapPage (h : PageDir K m d E) (hva : m.translation d va = none) (hw : Present w)
    (t : List Ev) :
    ∃ b m' E' t', run (memory K) (mapPage d va w) m t = ((.ok b, m'), t') ∧ PageDir K m' d E' ∧
      (b = true → ∃ pde, m'.translation d va = some (pde, w)) ∧
      ∀ a, a.toNat / 4096 ≠ va.toNat / 4096 → m'.translation d a = m.translation d a := by
  rw [Vm.mapPage, run_bind]
  rcases h.walk va t with hrun | ⟨m₁, E₁, t₁, hrun, h₁, hpde, hsame⟩
  · rw [hrun]
    exact ⟨false, m, E, t, rfl, h, by simp, fun _ _ => rfl⟩
  · rw [hrun]
    have hnp : ¬ Present (m₁.pteAt d va) := by
      intro hp
      have hsome := hsame va
      rw [hva, translation, if_pos ⟨hpde, hp⟩] at hsome
      cases hsome
    obtain ⟨h₂, hmap, hout⟩ := h₁.set hpde hw rfl
    refine ⟨true, _, E₁, t₁, congrArg (run (memory K) · m₁ t₁) (if_neg hnp), h₂,
      fun _ => ⟨_, hmap⟩, fun a ha => (hout a ha).trans (hsame a)⟩

/-- **The loop of `mappages`** maps its pages, or fails, and leaves all others. -/
theorem PageDir.mapLoop (n : Nat) {v : Nat} (h : PageDir K m d E) (ha : a.toNat = 4096 * v)
    (hvn : v + n < 2 ^ 20)
    (hnp : ∀ x : UInt32, v ≤ x.toNat / 4096 → x.toNat / 4096 ≤ v + n → m.translation d x = none)
    (t : List Ev) :
    ∃ b m' t', run (memory K) (mapLoop d perm n a addr) m t = ((.ok b, m'), t') ∧
      (b = true → ∀ j ≤ n, ∀ x : UInt32, x.toNat / 4096 = v + j →
        ∃ pde, m'.translation d x = some (pde, mapped addr perm j)) ∧
      ∀ x : UInt32, x.toNat / 4096 < v ∨ v + n < x.toNat / 4096 →
        m'.translation d x = m.translation d x := by
  induction n generalizing m E v a addr t with
  | zero =>
    obtain ⟨b, m', -, t', hrun, -, hin, hout⟩ :=
      h.mapPage (hnp a (by omega) (by omega)) (present_or_P (addr ||| perm)) t
    refine ⟨b, m', t', hrun, fun hb j hj x hx => ?_, fun x hx => hout x (by omega)⟩
    obtain rfl : j = 0 := by omega
    rw [translation_eq_of_page (show x.toNat / 4096 = a.toNat / 4096 by omega), mapped_zero]
    exact hin hb
  | succ n ih =>
    obtain ⟨b, m₁, E₁, t₁, hrun, h₁, hin, hout⟩ :=
      h.mapPage (hnp a (by omega) (by omega)) (present_or_P (addr ||| perm)) t
    rw [Vm.mapLoop, run_bind, hrun]
    cases b with
    | false => exact ⟨false, m₁, t₁, rfl, by simp, fun x hx => hout x (by omega)⟩
    | true =>
      obtain ⟨b, m', t', hrun', hin', hout'⟩ := ih h₁ (toNat_add_page ha (by omega)) (by omega)
        (fun x h1 h2 => (hout x (by omega)).trans (hnp x (by omega) (by omega))) t₁
      refine ⟨b, m', t', hrun', fun hb j hj x hx => ?_, fun x hx => ?_⟩
      · cases j with
        | zero =>
          have hxa : x.toNat / 4096 = a.toNat / 4096 := by omega
          rw [hout' x (by omega), translation_eq_of_page hxa, mapped_zero]
          exact hin rfl
        | succ j =>
          rw [mapped_succ]
          exact hin' hb j (by omega) x (by omega)
      · rw [hout' x (by omega)]
        exact hout x (by omega)

/-- The address is on a page of the range of `size` bytes at `va`. -/
def OnRange (va size x : UInt32) : Prop :=
  va.toNat / 4096 ≤ x.toNat / 4096 ∧ x.toNat / 4096 ≤ (va.toNat + size.toNat - 1) / 4096

/-- **`mappages` is exact.**  With no page of the range present it does not panic.  If it
returns 0, `walkpgdir` finds the entry for every page of the range; in any case the
addresses on other pages are translated as before. -/
theorem mappages_exact (h : PageDir K m d E) {size : UInt32} (hva : va.toNat % 4096 = 0)
    (hsize : 0 < size.toNat) (hend : va.toNat + size.toNat - 1 < 2 ^ 32)
    (hnp : ∀ x, OnRange va size x → m.translation d x = none) (addr perm : UInt32) (t : List Ev) :
    ∃ b m' t', run (memory K) (mappages d va size addr perm) m t = ((.ok b, m'), t') ∧
      (b = true → ∀ k, 4096 * k < size.toNat → ∃ T i,
        run (memory K) (walkpgdir d (va + UInt32.ofNat (4096 * k)) false) m' t' =
          ((.ok (some (T, i)), m'), t') ∧
        entry (m'.page T) i = (addr + UInt32.ofNat (4096 * k)) ||| perm ||| PTE_P) ∧
      ∀ x, ¬ OnRange va size x → m'.translation d x = m.translation d x := by
  unfold OnRange at hnp ⊢
  rw [mappages_eq_of_lt (n := (size.toNat - 1) / 4096) hva (by omega) (by omega) (by omega)]
  obtain ⟨b, m', t', hrun, hin, hout⟩ := h.mapLoop ((size.toNat - 1) / 4096)
    (a := va) (by omega) (by omega)
    (fun x h1 h2 => hnp x ⟨h1, by omega⟩) t
  refine ⟨b, m', t', hrun, fun hb k hk => ?_, fun x hx => hout x (by omega)⟩
  have hadd : (va + UInt32.ofNat (4096 * k)).toNat = va.toNat + 4096 * k := by
    rw [UInt32.toNat_add, UInt32.toNat_ofNat']
    omega
  obtain ⟨pde, htr⟩ := hin hb k (by omega) (va + UInt32.ofNat (4096 * k)) (by omega)
  exact ⟨_, _, run_walkpgdir htr⟩

/-- Memory with one free page, and zero everywhere. -/
def oneFree : Vm := ⟨fun _ => filled 0, P2V 1024⟩

theorem not_present_oneFree (va : UInt32) : ¬ Present (oneFree.pdeAt 300 va) := by
  rw [pdeAt, oneFree, entry_filled_zero]
  exact not_present_zero

theorem translation_oneFree (va : UInt32) : oneFree.translation 300 va = none :=
  if_neg fun h => not_present_oneFree va h.1

theorem pageDir_oneFree : PageDir K oneFree 300 {1024} where
  free := by
    refine ⟨[1024], by simp, rfl, ⟨rfl, entry_filled_zero 0⟩, fun p hp => ?_⟩
    rw [List.mem_singleton.1 hp]
    exact ⟨K.first_le, by decide⟩
  dir := by simp
  tab h := absurd h (not_present_oneFree _)
  inj h := absurd h (not_present_oneFree _)

/-- The first page is mapped, and the one after it is not. -/
theorem mappages_exact_page :
    ∃ K m' t', run (memory K) (mappages 300 0 4096 0x5000 PTE_W) oneFree [] = ((.ok true, m'), t') ∧
      (∃ T i, run (memory K) (walkpgdir 300 0 false) m' t' = ((.ok (some (T, i)), m'), t') ∧
        entry (m'.page T) i = 0x5000 ||| PTE_W ||| PTE_P) ∧
      m'.translation 300 0x1000 = none := by
  obtain ⟨K, hb⟩ : ∃ K, (run (memory K) (mappages 300 0 4096 0x5000 PTE_W) oneFree []).1.1 =
      .ok true := ⟨⟨257, 257, by decide, by decide, by decide⟩, rfl⟩
  obtain ⟨b, m', t', hrun, hin, hout⟩ := mappages_exact (K := K) pageDir_oneFree
    (show (0 : UInt32).toNat % 4096 = 0 by decide) (show 0 < (4096 : UInt32).toNat by decide)
    (by decide) (fun x _ => translation_oneFree x) 0x5000 PTE_W []
  rw [hrun] at hb
  cases hb
  exact ⟨K, m', t', hrun, hin rfl 0 (by decide),
    (hout 0x1000 (by unfold OnRange; decide)).trans (translation_oneFree _)⟩

/-- A range of one byte: the address after it is mapped too. -/
theorem mappages_whole_page :
    ∃ K m' t', PageDir K oneFree 300 {1024} ∧ (∀ x, oneFree.translation 300 x = none) ∧
      run (memory K) (mappages 300 0 1 0 0) oneFree [] = ((.ok true, m'), t') ∧
      m'.translation 300 1 ≠ oneFree.translation 300 1 := by
  refine ⟨⟨257, 257, by decide, by decide, by decide⟩, _, _, pageDir_oneFree,
    translation_oneFree, rfl, ?_⟩
  decide

end Xv6.Vm
