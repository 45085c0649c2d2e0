import OperatingSystems.Vm.Resident

/-!
# What `deallocuvm` takes away

The loop of `deallocuvm` goes from page to page, and where there is no page table it goes
on by as many pages as a page table has.  If it does so from the middle of a page table's
range it lands in the middle of the next, and what lies before that is not looked at.

The loop clears the pages it comes to (`wp_deallocLoop_swept`).

* `visits_of_present`, `not_visits` — when that is every page that is there.
* `deallocuvm_clears_iff` — **`deallocuvm` clears its whole range exactly if the first
  page table after a missing one has nothing in front of the place where the loop lands**.
-/

namespace Xv6.Vm

open Cmd

variable {K : Layout} {stop : List Ev → Prop} {F : String → List Ev → Prop}
  {S S' S₁ : Space} {h : Heap Nat Frame} {c : Option Nat} {t : List Ev} {hi v u : Nat}
  {tab : Nat → Option Nat}

/-! ## The pages the loop comes to -/

/-- From a page that has a page table, or from the first page of a page table's range, the
loop comes to every page that has one. -/
theorem visits_of_le (hv : tab (v / 1024) ≠ none ∨ v % 1024 = 0) (hvu : v ≤ u) (hu : u < hi)
    (ht : tab (u / 1024) ≠ none) : Visits tab hi v u := by
  obtain ⟨n, hn⟩ : ∃ n, n = u - v := ⟨_, rfl⟩
  induction n using Nat.strong_induction_on generalizing v with
  | _ n ih =>
    by_cases htv : tab (v / 1024) = none
    · -- the page is in a later range, whose start is that of a range again
      have hmod := hv.resolve_left (not_not_intro htv)
      have hne : u / 1024 ≠ v / 1024 := by
        intro heq
        rw [heq] at ht
        exact ht htv
      exact .skip (by omega) htv (ih _ (by omega) (.inr (by omega)) (by omega) rfl)
    · by_cases huv : u = v
      · rw [huv]
        exact .here (by omega) htv
      · refine .next (by omega) htv (ih _ (by omega) ?_ (by omega) rfl)
        by_cases hsame : (v + 1) / 1024 = v / 1024
        · rw [hsame]
          exact .inl htv
        · exact .inr (by omega)

/-- The loop goes over missing page tables by whole ranges. -/
theorem Visits.over {i : Nat} (h : Visits tab hi v u) (hv : v / 1024 ≤ i)
    (hnone : ∀ j, v / 1024 ≤ j → j < i → tab j = none) : 1024 * i + v % 1024 ≤ u := by
  induction h with
  | here hlt ht =>
    have : ¬ _ / 1024 < i := fun hlt' => ht (hnone _ (Nat.le_refl _) hlt')
    omega
  | @next v u hlt ht h ih =>
    have hge : ¬ v / 1024 < i := fun hlt' => ht (hnone _ (Nat.le_refl _) hlt')
    have := h.bounds
    omega
  | @skip v u hlt ht h ih =>
    have := h.bounds
    by_cases hvi : v / 1024 = i
    · omega
    · have := ih (by omega) fun j h1 h2 => hnone j (by omega) h2
      omega

/-! ## The loop -/

/-- More turns would make no difference: the loop has come to its end. -/
theorem deallocLoop_fuel {pgdir : Nat} {oldsz a : UInt32} (hold : oldsz.toNat ≤ 2 ^ 31)
    {fuel fuel' : Nat} (h₁ : oldsz.toNat ≤ a.toNat + 4096 * fuel)
    (h₂ : oldsz.toNat ≤ a.toNat + 4096 * fuel') :
    deallocLoop K pgdir oldsz fuel a = deallocLoop K pgdir oldsz fuel' a := by
  have hdone : ∀ {a : UInt32} (n : Nat), ¬ a < oldsz →
      deallocLoop K pgdir oldsz n a = return () := by
    intro a n hge
    cases n with
    | zero => rfl
    | succ n => rw [deallocLoop, if_neg hge]
  induction fuel generalizing fuel' a with
  | zero =>
    have hge : ¬ a < oldsz := by
      rw [UInt32.lt_iff_toNat_lt]
      omega
    rw [hdone _ hge, hdone _ hge]
  | succ fuel ih =>
    by_cases hlt : a < oldsz
    · have hlt' := UInt32.lt_iff_toNat_lt.1 hlt
      obtain ⟨n, rfl⟩ : ∃ n, fuel' = n + 1 := ⟨fuel' - 1, by omega⟩
      have hnext := toNat_nextPage hold hlt
      have hskip := toNat_nextTable hold hlt
      have hpage : deallocLoop K pgdir oldsz fuel (a + 4096) =
          deallocLoop K pgdir oldsz n (a + 4096) := ih (by omega) (by omega)
      have htable : deallocLoop K pgdir oldsz fuel (a + (1024 - 1) * 4096 + 4096) =
          deallocLoop K pgdir oldsz n (a + (1024 - 1) * 4096 + 4096) := ih (by omega) (by omega)
      rw [deallocLoop, deallocLoop, if_pos hlt, if_pos hlt, hpage, htable]
    · rw [hdone _ hlt, hdone _ hlt]

/-! ## The whole range -/

variable {m : Vm} {O E : Finset Nat} {lo : Nat} {oldsz newsz : UInt32}

/-- Where the loop lands behind missing page tables, it has passed no page that is there:
if the page table for page `lo` is missing, the first one after it has nothing in front of
the entry with the index of `lo`. -/
def SkipsNothing (m : Vm) (d lo hi : Nat) : Prop :=
  tableOf m d (lo / 1024) ≠ none ∨
    ∀ i u, lo / 1024 < i → (∀ j, lo / 1024 < j → j < i → tableOf m d j = none) →
      1024 * i ≤ u → u < 1024 * i + lo % 1024 → u < hi → ¬ Present (pteOf m d u)

/-- The pages mapped for the pages from `lo` to `hi` of the address space. -/
def mappedPages (m : Vm) (d lo hi : Nat) : Finset Nat :=
  ((Finset.Ico lo hi).filter fun v => Present (pteOf m d v)).image fun v => ptePage (pteOf m d v)

/-- **`deallocuvm` clears its whole range**, when the pages `E` are free. -/
structure Clears (K : Layout) (m : Vm) (E : Finset Nat) (d : Nat) (oldsz newsz : UInt32) :
    Prop where
  /-- It returns; no page of the range is there any more, and no other entry has changed;
  free are the pages that were free and, each once, those that were mapped. -/
  cleared : ∃ m' t, run (memory K) (deallocuvm K d oldsz newsz) m [] = ((.ok newsz, m'), t) ∧
    (∀ v, pages newsz ≤ v → v < pages oldsz → ¬ Present (pteOf m' d v)) ∧
    (∀ v, v < pages newsz ∨ pages oldsz ≤ v → pteOf m' d v = pteOf m d v) ∧
    FreePages K m' (E ∪ mappedPages m d (pages newsz) (pages oldsz))
  /-- The loop has come to its end: more turns make no difference. -/
  ends : ∀ n, deallocLoop K d oldsz (NPDENTRIES * NPTENTRIES + n) (PGROUNDUP newsz) =
    deallocLoop K d oldsz (NPDENTRIES * NPTENTRIES) (PGROUNDUP newsz)
  /-- No address it goes on to has wrapped. -/
  nowrap : ∀ a, a < oldsz → a < a + 4096 ∧ a < a + (1024 - 1) * 4096 + 4096

/-- The loop comes to every page that is there. -/
theorem visits_of_present (hm : Resident K m S O E) (hs : SkipsNothing m S.dir lo hi)
    (hlo : lo ≤ u) (hu : u < hi) (hp : Present (S.pte u)) : Visits S.tab hi lo u := by
  have htab := tab_ne_none_of_present hm.rep hp
  simp only [SkipsNothing, hm.tableOf_eq, hm.pteOf_eq] at hs
  rcases hs with hlow | hs
  · exact visits_of_le (.inl hlow) hlo hu htab
  -- from the landing place in the range of any page table up to that of the page
  have hgo : ∀ n v, v = lo + 1024 * n → v / 1024 ≤ u / 1024 →
      (∀ j, lo / 1024 < j → j < v / 1024 → S.tab j = none) → (n = 0 → v ≤ u) →
      Visits S.tab hi v u := by
    intro n v hv hvu hnone h0
    obtain ⟨k, hk⟩ : ∃ k, k = u / 1024 - v / 1024 := ⟨_, rfl⟩
    induction k generalizing n v with
    | zero =>
      by_cases hn : n = 0
      · exact visits_of_le (.inl (by rwa [show v / 1024 = u / 1024 by omega])) (h0 hn) hu htab
      · have hle : v ≤ u := by
          by_contra hlt
          exact hs (u / 1024) u (by omega) (fun j h1 h2 => hnone j h1 (by omega)) (by omega)
            (by omega) hu hp
        exact visits_of_le (.inl (by rwa [show v / 1024 = u / 1024 by omega])) hle hu htab
    | succ k ih =>
      by_cases hT : S.tab (v / 1024) = none
      · refine .skip (by omega) hT (ih (n + 1) (v + 1024) (by omega) (by omega) ?_ (by omega)
          (by omega))
        intro j h1 h2
        by_cases hj : j = v / 1024
        · rw [hj]
          exact hT
        · exact hnone j h1 (by omega)
      · exact visits_of_le (.inl hT) (by omega) hu htab
  exact hgo 0 lo (by omega) (by omega) (fun j h1 h2 => by omega) fun _ => hlo

/-- A page in front of the landing place is not looked at. -/
theorem not_visits_of_skipped {i : Nat} (hlow : tab (lo / 1024) = none) (hi' : lo / 1024 < i)
    (hnone : ∀ j, lo / 1024 < j → j < i → tab j = none) (hu : u < 1024 * i + lo % 1024) :
    ¬ Visits tab hi lo u := by
  intro h
  have := h.over (i := i) (by omega) fun j h1 h2 => by
    by_cases hj : j = lo / 1024
    · rw [hj]
      exact hlow
    · exact hnone j (by omega) h2
  omega

theorem Resident.run_deallocuvm (hm : Resident K m S O E)
    (hlt : newsz < oldsz) (hold : oldsz ≤ KERNBASE) :
    ∃ m' t S' O' E', Cmd.run (memory K) (deallocuvm K S.dir oldsz newsz) m [] =
        ((.ok newsz, m'), t) ∧ Resident K m' S' O' E' ∧ O' ∪ E' = O ∪ E ∧
      Swept (pages oldsz) (pages newsz) S S' := by
  have hbase := toNat_KERNBASE
  have hold' := UInt32.le_iff_toNat_le.1 hold
  obtain ⟨r, m', t, O', E', L, hrun, hs, hB, -, hr, S', hR', hS'⟩ := hm.run
    (Q := fun r L => r = newsz ∧ ∃ S', Rep K S' L.heap ∧ Swept (pages oldsz) (pages newsz) S S')
    (wp_deallocuvm_swept (by omega) hlt hm.rep fun S' h' c' hR' hS' => ⟨rfl, S', hR', hS'⟩)
  rw [hr] at hrun
  exact ⟨m', t, S', O', E', hrun, resident_of_split hs hR', hB, hS'⟩

theorem Swept.page_iff (hS : Swept hi lo S S') {a : Place} {p : Nat} :
    S'.page a = some p ↔ S.page a = some p ∧ ∀ v, a = .user v → ¬ Visits S.tab hi lo v := by
  cases a with
  | dir => simp [Space.page, hS.dir]
  | tab i => simp [Space.page, hS.tab]
  | user v =>
    simp only [Space.page_user, Place.user.injEq, forall_eq']
    by_cases hvis : Visits S.tab hi lo v
    · simp [hS.gone hvis, hvis, not_present_zero]
    · simp [hS.kept hvis, hvis]

theorem Swept.free {m' : Vm} {O' E' : Finset Nat} (hS : Swept hi lo S S')
    (hm : Resident K m S O E) (hm' : Resident K m' S' O' E') (hB : O' ∪ E' = O ∪ E)
    (hhi : hi ≤ USERPAGES) (hall : ∀ v, lo ≤ v → v < hi → Present (S.pte v) → Visits S.tab hi lo v) :
    E' = E ∪ mappedPages m S.dir lo hi := by
  have hmapped : ∀ p, p ∈ mappedPages m S.dir lo hi ↔
      ∃ v, Visits S.tab hi lo v ∧ S.page (.user v) = some p := by
    intro p
    simp only [mappedPages, Finset.mem_image, Finset.mem_filter, Finset.mem_Ico, hm.pteOf_eq,
      Space.page_user]
    constructor
    · rintro ⟨v, ⟨⟨h1, h2⟩, hp⟩, rfl⟩
      exact ⟨v, hall v h1 h2 hp, by omega, hp, rfl⟩
    · rintro ⟨v, hv, -, hp, rfl⟩
      have := hv.bounds
      exact ⟨v, ⟨⟨this.1, this.2.1⟩, hp⟩, rfl⟩
  ext p
  rw [Finset.mem_union, hmapped]
  have hin : p ∈ O' ∪ E' ↔ p ∈ O ∪ E := by rw [hB]
  rw [Finset.mem_union, Finset.mem_union] at hin
  constructor
  · intro hp
    rcases hin.1 (.inr hp) with hO | hE
    · -- the page was of the space, and is not any more
      obtain ⟨a, ha⟩ := hm.mem_iff.1 hO
      by_contra hno
      refine Finset.disjoint_left.1 hm'.apart (hm'.page_mem (hS.page_iff.2 ⟨ha, ?_⟩)) hp
      rintro v rfl hvis
      exact hno (.inr ⟨v, hvis, ha⟩)
    · exact .inl hE
  · rintro (hE | ⟨v, hvis, hv⟩)
    · refine (hin.2 (.inr hE)).resolve_left fun hO' => ?_
      obtain ⟨a, ha⟩ := hm'.mem_iff.1 hO'
      exact Finset.disjoint_left.1 hm.apart (hm.page_mem (hS.page_iff.1 ha).1) hE
    · refine (hin.2 (.inl (hm.page_mem hv))).resolve_left fun hO' => ?_
      obtain ⟨a, ha⟩ := hm'.mem_iff.1 hO'
      obtain ⟨ha, hleft⟩ := hS.page_iff.1 ha
      exact hleft v (hm.rep.inj ha hv) hvis

theorem clears_of_skipsNothing (hm : Resident K m S O E)
    (hlt : newsz < oldsz) (hold : oldsz ≤ KERNBASE)
    (hs : SkipsNothing m S.dir (pages newsz) (pages oldsz)) :
    Clears K m E S.dir oldsz newsz := by
  have hbase := toNat_KERNBASE
  have hold' := UInt32.le_iff_toNat_le.1 hold
  have hhi : pages oldsz ≤ USERPAGES := by
    unfold pages USERPAGES
    omega
  have hall : ∀ v, pages newsz ≤ v → v < pages oldsz → Present (S.pte v) →
      Visits S.tab (pages oldsz) (pages newsz) v :=
    fun v h1 h2 => visits_of_present hm hs h1 h2
  obtain ⟨m', t, S', O', E', hrun, hm', hB, hS⟩ := hm.run_deallocuvm hlt hold
  refine ⟨⟨m', t, hrun, ?_, ?_, ?_⟩, ?_, ?_⟩
  · intro v h1 h2
    rw [← hS.dir, hm'.pteOf_eq]
    by_cases hp : Present (S.pte v)
    · rw [hS.gone (hall v h1 h2 hp)]
      exact not_present_zero
    · by_cases hvis : Visits S.tab (pages oldsz) (pages newsz) v
      · rw [hS.gone hvis]
        exact not_present_zero
      · rwa [hS.kept hvis]
  · intro v hv
    rw [← hS.dir, hm'.pteOf_eq, hS.dir, hm.pteOf_eq]
    refine hS.kept fun hvis => ?_
    have := hvis.bounds
    omega
  · rw [← hS.free hm hm' hB hhi hall]
    exact hm'.free
  · intro n
    unfold NPDENTRIES NPTENTRIES
    exact deallocLoop_fuel (by omega) (by omega) (by omega)
  · intro a ha
    have h1 := toNat_nextPage (by omega) ha
    have h2 := toNat_nextTable (by omega) ha
    simp only [UInt32.lt_iff_toNat_lt]
    exact ⟨by omega, by rw [h2]; omega⟩

theorem not_clears_of_skipped (hm : Resident K m S O E)
    (hlt : newsz < oldsz) (hold : oldsz ≤ KERNBASE)
    (hs : ¬ SkipsNothing m S.dir (pages newsz) (pages oldsz)) :
    ¬ Clears K m E S.dir oldsz newsz := by
  intro hc
  simp only [SkipsNothing, hm.tableOf_eq, hm.pteOf_eq] at hs
  push Not at hs
  obtain ⟨hlow, i, u, hi', hnone, h1, h2, hu, hp⟩ := hs
  obtain ⟨m', t, S', O', E', hrun, hm', -, hS⟩ := hm.run_deallocuvm hlt hold
  obtain ⟨m'', t', hrun', hgone, -⟩ := hc.cleared
  rw [hrun] at hrun'
  cases hrun'
  refine hgone u (by omega) hu ?_
  rw [← hS.dir, hm'.pteOf_eq, hS.kept (not_visits_of_skipped hlow hi' hnone h2)]
  exact hp

/-- **`deallocuvm` clears its whole range exactly if it skips nothing.** -/
theorem deallocuvm_clears_iff (K : Layout) {m : Vm} {S : Space} {O E : Finset Nat}
    (hm : Resident K m S O E) {oldsz newsz : UInt32} (hlt : newsz < oldsz)
    (hold : oldsz ≤ KERNBASE) :
    Clears K m E S.dir oldsz newsz ↔ SkipsNothing m S.dir (pages newsz) (pages oldsz) := by
  constructor
  · intro hc
    by_contra hs
    exact not_clears_of_skipped hm hlt hold hs hc
  · exact clears_of_skipsNothing hm hlt hold

/-! ## A page that is left -/

/-- A space without the first page table, and with one page, the first of the second page
table. -/
def sparse : Space :=
  ((Space.new 300).addTab 1 301).setPte 1024 (pa 302 ||| (PTE_W ||| PTE_U) ||| PTE_P) (filled 0)

theorem exists_rep_sparse : ∃ h, Rep someLayout sparse h := by
  have hm : ∀ p, 271 ≤ p → p < 57344 → Managed someLayout p := fun p h1 h2 => ⟨h1, h2⟩
  have h1 := (Rep.new (hm 300 (by omega) (by omega))).addTab (i := 1) (by omega) rfl
    (hm 301 (by omega) (by omega)) rfl rfl
  obtain ⟨f, hf⟩ := h1.own (a := .tab 1) rfl
  exact ⟨_, h1.mapUser (by decide) rfl hf not_present_zero (by rfl)
    (hm 302 (by omega) (by omega)) (present_or_P _) (ptePage_mapped (by omega) (by decide))⟩

/-- Shrinking a process from 4 megabytes and a page to a page leaves the last page: the
loop starts in the middle of the range of the missing first page table. -/
theorem deallocuvm_leaves_page : ∃ m O, Resident someLayout m sparse O ∅ ∧
    ¬ Clears someLayout m ∅ sparse.dir 0x401000 0x1000 := by
  obtain ⟨h, hR⟩ := exists_rep_sparse
  obtain ⟨m, O, hm, -⟩ := exists_resident (E := ∅) hR (by simp)
  refine ⟨m, O, hm, not_clears_of_skipped hm (by decide) (by decide) ?_⟩
  rw [SkipsNothing, not_or]
  have hp : Present (sparse.pte 1024) := present_or_P _
  have hone : pages 0x1000 = 1 := by decide
  rw [hone]
  refine ⟨fun hne => hne ((hm.tableOf_eq 0).trans rfl), fun hs => ?_⟩
  refine hs 1 1024 (by decide) (fun j h1 h2 => by omega) (by decide) (by decide) (by decide) ?_
  rw [hm.pteOf_eq]
  exact hp

/-- Giving back all of that space leaves nothing. -/
theorem deallocuvm_clears_iff_sparse : ∃ m O, Resident someLayout m sparse O ∅ ∧
    (Clears someLayout m ∅ sparse.dir 0x401000 0 ↔
      SkipsNothing m sparse.dir (pages 0) (pages 0x401000)) := by
  obtain ⟨h, hR⟩ := exists_rep_sparse
  obtain ⟨m, O, hm, -⟩ := exists_resident (E := ∅) hR (by simp)
  exact ⟨m, O, hm, deallocuvm_clears_iff someLayout hm (by decide) (by decide)⟩

end Xv6.Vm
