import OperatingSystems.Vm.Mapping

/-!
# User memory

The programs of `vm.c` that give pages to the user part of an address space, take them
away and copy them.  Pages that a program loses track of are left over beside the
space; they are nobody's.

* `wp_allocuvm` — what `allocuvm` maps, and what it records.
* `Visits`, `wp_deallocLoop_swept` — the pages the loop of `deallocuvm` comes to and clears.
* `wp_deallocuvm`, `wp_freevm` — no page is freed that is not the space's own.
* `wp_clearpteu`, `wp_copyuvm`.
-/

namespace Xv6.Vm

open Cmd Heap UInt32 Nat

variable {K : Layout} {stop : List Ev → Prop} {F : String → List Ev → Prop}
  {S S' : Space} {h : Heap Nat Frame} {c : Option Nat} {t : List Ev} {va : UInt32} {a : UInt32}
  {Q : Post Unit} {oldsz newsz : UInt32}

theorem ptePage_mapped {p : Nat} {perm : UInt32} (hp : p < 2 ^ 20) (hperm : perm.toNat < 4096) :
    ptePage (pa p ||| perm ||| PTE_P) = p := by
  have hpa := toNat_pa hp
  have hflags : (perm ||| PTE_P).toNat < 4096 := by
    rw [UInt32.toNat_or]
    exact or_lt_two_pow (n := 12) hperm (by decide)
  rw [ptePage_eq, UInt32.or_assoc, toNat_or_of_lt (by omega) hflags, hpa]
  omega

theorem wp_mapUser {v mem : Nat} {perm : UInt32} {g : Frame}
    {Q : Post Bool} (hR : Rep K S h) (hva : va.toNat = 4096 * v)
    (hv : v < USERPAGES) (hfree : h mem = none) (hm : Managed K mem) (hperm : perm.toNat < 4096)
    (hF : Present (S.pte v) → ∀ t', PagingSince t t' → F "remap" t')
    (fail : S.tab (v / 1024) = none → c = none ∨ c = some 0 → Q false ⟨h.put mem g, c, t⟩)
    (ok : ∀ T S₁ h' c' t', Walked (v / 1024) T S c t S₁ c' t' → ¬ Present (S.pte v) →
      Rep K (S₁.setPte v (pa mem ||| perm ||| PTE_P) g) h' → Q true ⟨h', c', t'⟩) :
    wp (ctx K stop) F (mappages S.dir va 4096 (pa mem) perm) Q ⟨h.put mem g, c, t⟩ := by
  unfold USERPAGES at hv
  have hi : PDX va = v / 1024 := by rw [PDX_eq]; omega
  have hj : PTX va = v % 1024 := by rw [PTX_eq]; omega
  have h4 : toNat 4096 = 4096 * (0 + 1) := rfl
  rw [mappages_eq (by omega) h4 (by omega), mapLoop, mapPage, wp_bind, ← union_single g hfree]
  refine wp.frame (disjoint_single.2 hfree) (wp_walkAlloc hR ?_ ?_)
  · intro hT hc _
    rw [union_single g hfree]
    exact fail (hi ▸ hT) hc
  · intro T S₁ h₁ c₁ t₁ hR₁ hW hd
    rw [hi] at hW
    have hfree₁ := disjoint_single.1 hd
    obtain ⟨f, hf⟩ := hR₁.own (a := .tab (v / 1024)) hW.tab
    have hf' : (h₁ ∪ single mem g) T = some f := union_left hf
    simp only [wp_bind]
    refine wp_read hf' ?_
    rw [hj, hR₁.tab_entry hW.tab hf (by omega), hW.pte, div_add_mod]
    by_cases hpr : Present (S.pte v)
    · rw [if_pos hpr]
      exact hF hpr t₁ (hW.grown v).trace
    · rw [if_neg hpr, wp_bind]
      refine wp_write hf' (ok T S₁ _ c₁ t₁ hW hpr ?_)
      rw [union_single g hfree₁]
      refine hR₁.mapUser hv hW.tab hf ?_ hfree₁ hm (present_or_P _)
        (ptePage_mapped (by have := hm.lt; omega) hperm)
      rw [hW.pte]
      exact hpr

/-- Two spaces have the same directory and the same kernel part. -/
structure SameKernel (S S' : Space) : Prop where
  dir : S'.dir = S.dir
  pte : ∀ {v : Nat}, USERPAGES ≤ v → S'.pte v = S.pte v

theorem SameKernel.refl (S : Space) : SameKernel S S := ⟨rfl, fun _ => rfl⟩

theorem SameKernel.trans {S₁ S₂ S₃ : Space} (h₁ : SameKernel S₁ S₂) (h₂ : SameKernel S₂ S₃) :
    SameKernel S₁ S₃ :=
  ⟨h₂.dir.trans h₁.dir, fun hv => (h₂.pte hv).trans (h₁.pte hv)⟩

/-- Page `u` is one that `allocuvm` has mapped. -/
def Allocated (K : Layout) (S : Space) (t : List Ev) (u : Nat) : Prop :=
  ∃ p, Managed K p ∧ S.pte u = pa p ||| (PTE_W ||| PTE_U) ||| PTE_P ∧
    .uvm S.dir (ofNat (4096 * u)) p ∈ t

theorem Allocated.present {u : Nat} (hA : Allocated K S t u) : Present (S.pte u) := by
  obtain ⟨p, -, hpte, -⟩ := hA
  rw [hpte]
  exact present_or_P _

/-- What allocating the pages from `lo` to `hi` has done; `b` says whether the end was
reached. -/
structure Alloced (K : Layout) (lo hi : Nat) (b : Bool) (S : Space) (c : Option Nat)
    (t : List Ev) (S' : Space) (c' : Option Nat) (t' : List Ev) : Prop where
  grown : Grown lo hi S c t S' c' t'
  outside : ∀ {u : Nat}, u < lo ∨ hi ≤ u → S'.pte u = S.pte u ∧ S'.mem u = S.mem u
  /-- A page is mapped, or there was no page table for it. -/
  inside : ∀ {u : Nat}, lo ≤ u → u < hi → Allocated K S' t' u ∨ S'.pte u = S.pte u
  /-- With nobody else at work, a missing page table is missing for want of pages. -/
  holes : b = true → c ≠ none → ∀ {u : Nat}, lo ≤ u → u < hi →
    Allocated K S' t' u ∨ (S'.tab (u / 1024) = none ∧ c' = some 0)
  fail : b = false → c' = none ∨ c' = some 0
  only : ∀ {i : Nat}, S.tab i = none → S'.tab i ≠ none → lo / 1024 ≤ i ∧ 1024 * i < hi
  stuck : c = some 0 → S' = S ∧ (b = true → lo = hi)

theorem Grown.widen {lo mid hi : Nat} {c' : Option Nat} {t' : List Ev}
    (hG : Grown lo mid S c t S' c' t') (hle : mid ≤ hi) : Grown lo hi S c t S' c' t' := by
  refine ⟨hG.le.trans hle, hG.dir, hG.tab, hG.unknown, ?_, hG.trace, hG.tables, ?_⟩
  · intro n hn
    obtain ⟨n', hn', h1, h2⟩ := hG.credit hn
    exact ⟨n', hn', h1, by omega⟩
  · intro d va p hu
    exact (hG.uvm hu).imp id fun ⟨hd, h1, h2⟩ => ⟨hd, h1, by omega⟩

/-- `kalloc` has taken a page for page `v`. -/
theorem Grown.takePage {v p : Nat} (ha : a.toNat = 4096 * v) (hc : c ≠ some 0) :
    Grown v (v + 1) S c t S (c.map (· - 1)) (.uvm S.dir a p :: t) where
  le := by omega
  dir := rfl
  tab h := h
  unknown h := by rw [h]; rfl
  credit := by
    intro n hn
    have hpos : n ≠ 0 := fun h => hc (by rw [hn, h])
    exact ⟨n - 1, by rw [hn]; rfl, by omega, by omega⟩
  trace := .cons trivial
  tables := by
    intro i
    simp only [List.mem_cons, reduceCtorEq, false_or, ne_eq, iff_self_or]
    exact fun h => absurd h.1 h.2
  uvm := by
    intro d va q hu
    rcases List.mem_cons.1 hu with hu | hu
    · cases hu
      exact .inr ⟨rfl, by omega, by omega⟩
    · exact .inl hu

theorem Alloced.nothing {lo hi : Nat} {b : Bool} (hle : lo ≤ hi) (hb : b = true → lo = hi)
    (hf : b = false → c = none ∨ c = some 0) : Alloced K lo hi b S c t S c t where
  grown := (Grown.refl lo).widen hle
  outside _ := ⟨rfl, rfl⟩
  inside _ _ := .inr rfl
  holes htrue _ := by
    have := hb htrue
    omega
  fail := hf
  only h1 h2 := absurd h1 h2
  stuck _ := ⟨rfl, hb⟩

theorem Alloced.skip {v hi mem : Nat} {b : Bool} {c' : Option Nat} {t' : List Ev}
    (hA : Alloced K (v + 1) hi b S (c.map (· - 1)) (.uvm S.dir a mem :: t) S' c' t')
    (ha : a.toNat = 4096 * v) (hc : c ≠ some 0) (hT : S.tab (v / 1024) = none)
    (hc₁ : c.map (· - 1) = none ∨ c.map (· - 1) = some 0) :
    Alloced K v hi b S c t S' c' t' where
  grown := (Grown.takePage ha hc).trans hA.grown
  outside hu := hA.outside (by have := hA.grown.le; omega)
  inside := by
    intro u h1 h2
    by_cases hu : u = v
    · exact .inr (hA.outside (.inl (by omega))).1
    · exact hA.inside (by omega) h2
  holes := by
    intro hb hne u h1 h2
    have hne₁ : c.map (· - 1) ≠ none := by simpa using hne
    have h0 := hc₁.resolve_left hne₁
    by_cases hu : u = v
    · obtain ⟨n', hn', hle, -⟩ := hA.grown.credit h0
      rw [(hA.stuck h0).1, hu]
      exact .inr ⟨hT, by rw [hn', le_zero.1 hle]⟩
    · exact hA.holes hb hne₁ (by omega) h2
  fail := hA.fail
  only h1 h2 := by
    have := hA.only h1 h2
    omega
  stuck h := absurd h hc

theorem Alloced.page {v hi mem T : Nat} {b : Bool} {S₁ : Space}
    {c₁ c' : Option Nat} {t₁ t' : List Ev}
    (hA : Alloced K (v + 1) hi b
      (S₁.setPte v (pa mem ||| (PTE_W ||| PTE_U) ||| PTE_P) (filled 0)) c₁ t₁ S' c' t')
    (hW : Walked (v / 1024) T S (c.map (· - 1)) (.uvm S.dir a mem :: t) S₁ c₁ t₁)
    (ha : a.toNat = 4096 * v) (hc : c ≠ some 0) (hm : Managed K mem) :
    Alloced K v hi b S c t S' c' t' := by
  have hG : Grown v (v + 1) S c t
      (S₁.setPte v (pa mem ||| (PTE_W ||| PTE_U) ||| PTE_P) (filled 0)) c₁ t₁ :=
    ((Grown.takePage ha hc).trans (hW.grown (v + 1))).trans (.of_tab_eq (v + 1) rfl rfl)
  have hle := hA.grown.le
  have hv : Allocated K S' t' v := by
    refine ⟨mem, hm, ?_, ?_⟩
    · rw [(hA.outside (.inl (by omega))).1, S₁.pte_setPte_self]
    · have ha' : UInt32.ofNat (4096 * v) = a := by rw [← ha, UInt32.ofNat_toNat]
      rw [(hG.trans hA.grown).dir, ha']
      exact ((hW.grown v).trace.trans hA.grown.trace).mem List.mem_cons_self
  refine ⟨hG.trans hA.grown, ?_, ?_, ?_, hA.fail, ?_, fun h => absurd h hc⟩
  · intro u hu
    obtain ⟨h1, h2⟩ := hA.outside (u := u) (by omega)
    rw [h1, h2, S₁.pte_setPte_of_ne _ _ (by omega), S₁.mem_setPte_of_ne _ _ (by omega), hW.pte,
      hW.mem]
    exact ⟨rfl, rfl⟩
  · intro u h1 h2
    by_cases hu : u = v
    · exact .inl (hu ▸ hv)
    · rcases hA.inside (by omega) h2 with h | h
      · exact .inl h
      · rw [h, S₁.pte_setPte_of_ne _ _ hu, hW.pte]
        exact .inr rfl
  · intro hb hne u h1 h2
    by_cases hu : u = v
    · exact .inl (hu ▸ hv)
    · refine hA.holes hb ?_ (by omega) h2
      obtain ⟨n, hn⟩ := Option.ne_none_iff_exists'.1 hne
      obtain ⟨n', hn', -⟩ := hG.credit hn
      rw [hn']
      simp
  · intro i h1 h2
    by_cases h3 : S₁.tab i = none
    · have := hA.only h3 h2
      omega
    · have := hW.only h1 h3
      omega

theorem wp_allocLoop {newsz : UInt32} {Q : Post Bool} {hi : Nat}
    (hhi : hi = (newsz.toNat + 4095) / 4096) (hu : hi ≤ USERPAGES) (fuel : Nat) {v : Nat}
    (hR : Rep K S h) (ha : a.toNat = 4096 * v) (hv : v ≤ hi) (hfuel : hi ≤ v + fuel)
    (hF : (∃ u, v ≤ u ∧ u < hi ∧ Present (S.pte u)) → ∀ t', PagingSince t t' → F "remap" t')
    (ok : ∀ b S' h' g c' t', Rep K S' h' → h'.Disjoint g → Alloced K v hi b S c t S' c' t' →
      Q b ⟨h' ∪ g, c', t'⟩) :
    wp (ctx K stop) F (allocLoop S.dir newsz fuel a) Q ⟨h, c, t⟩ := by
  induction fuel generalizing S h c t v a Q with
  | zero =>
    rw [← union_empty h]
    exact ok true S h _ c t hR (disjoint_empty h) (.nothing hv (fun _ => by omega) (by simp))
  | succ fuel ih =>
    rw [allocLoop]
    by_cases hlt : a < newsz
    · have hvlt : v < hi := by
        rw [lt_iff_toNat_lt] at hlt
        omega
      have hnext := toNat_add_page ha (by unfold USERPAGES at hu; omega)
      rw [if_pos hlt, wp_bind]
      refine wp_kalloc ?_ ?_
      · intro hc
        rw [← union_empty h]
        exact ok false S h _ c t hR (disjoint_empty h) (.nothing hv (by simp) fun _ => hc)
      intro hc mem f hm hfree
      have huvm : PagingSince t (.uvm S.dir a mem :: t) := .cons trivial
      simp only [wp_bind]
      refine wp_write (put_self _ _ _) (wp_record ?_)
      simp only [put_put]
      refine wp_mapUser hR ha (by omega) hfree hm (by decide) ?_ ?_ ?_
      · intro hp t' ht'
        exact hF ⟨v, le_refl v, hvlt, hp⟩ t' (huvm.trans ht')
      · -- the page is lost
        intro hT hc₁
        rw [← union_single (filled 0) hfree]
        refine wp.frame (disjoint_single.2 hfree) (ih hR hnext (by omega) (by omega) ?_ ?_)
        · rintro ⟨u, h1, h2, h3⟩ t' ht'
          exact hF ⟨u, by omega, h2, h3⟩ t' (huvm.trans ht')
        · intro b S' h' g c' t' hR' hd' hA hd
          rw [union_assoc]
          exact ok b S' h' _ c' t' hR' (disjoint_union_right.2 ⟨hd', (disjoint_union_left.1 hd).1⟩)
            (hA.skip ha hc hT hc₁)
      · intro T S₁ h' c₁ t₁ hW hnp hR'
        rw [← (hW.grown v).dir,
          ← S₁.dir_setPte v (pa mem ||| (PTE_W ||| PTE_U) ||| PTE_P) (filled 0)]
        refine ih hR' hnext (by omega) (by omega) ?_ ?_
        · rintro ⟨u, h1, h2, h3⟩ t' ht'
          rw [S₁.pte_setPte_of_ne _ _ (by omega), hW.pte] at h3
          exact hF ⟨u, by omega, h2, h3⟩ t' ((huvm.trans (hW.grown v).trace).trans ht')
        · intro b S' h'' g c' t' hR'' hd hA
          exact ok b S' h'' g c' t' hR'' hd (hA.page hW ha hc hm)
    · rw [if_neg hlt, ← union_empty h]
      rw [lt_iff_toNat_lt] at hlt
      exact ok true S h _ c t hR (disjoint_empty h) (.nothing hv (fun _ => by omega) (by simp))

/-! ## Taking pages away -/

/-- Pages below a size. -/
def pages (sz : UInt32) : Nat := (sz.toNat + 4095) / 4096

section Dealloc

variable {S₁ : Space} {hi v u : Nat} {tab : Nat → Option Nat}

/-- From page `v` on, the loop comes to page `u`, which has a page table. -/
inductive Visits (tab : Nat → Option Nat) (hi : Nat) : Nat → Nat → Prop
  | here {v : Nat} (hlt : v < hi) (ht : tab (v / 1024) ≠ none) : Visits tab hi v v
  | next {v u : Nat} (hlt : v < hi) (ht : tab (v / 1024) ≠ none)
      (h : Visits tab hi (v + 1) u) : Visits tab hi v u
  | skip {v u : Nat} (hlt : v < hi) (ht : tab (v / 1024) = none)
      (h : Visits tab hi (v + 1024) u) : Visits tab hi v u

theorem Visits.bounds (h : Visits tab hi v u) : v ≤ u ∧ u < hi ∧ tab (u / 1024) ≠ none := by
  induction h with
  | here hlt ht => exact ⟨le_refl _, hlt, ht⟩
  | next _ _ _ ih | skip _ _ _ ih => exact ⟨by omega, ih.2⟩

theorem not_visits_of_le (hle : hi ≤ v) : ¬ Visits tab hi v u := by
  intro h
  have := h.bounds
  omega

/-- The pages the loop comes to from page `v` on were cleared. -/
structure Swept (hi v : Nat) (S S' : Space) : Prop where
  dir : S'.dir = S.dir
  tab : S'.tab = S.tab
  mem : S'.mem = S.mem
  gone : ∀ {u : Nat}, Visits S.tab hi v u → S'.pte u = 0
  kept : ∀ {u : Nat}, ¬ Visits S.tab hi v u → S'.pte u = S.pte u

theorem Swept.refl (hle : hi ≤ v) : Swept hi v S S :=
  ⟨rfl, rfl, rfl, fun h => absurd h (not_visits_of_le hle), fun _ => rfl⟩

/-- A page was cleared, or was not there, and then the rest. -/
theorem Swept.next (h : Swept hi (v + 1) S₁ S') (hd : S₁.dir = S.dir) (hT : S₁.tab = S.tab)
    (hm : S₁.mem = S.mem) (h0 : S₁.pte v = 0) (hother : ∀ {u : Nat}, u ≠ v → S₁.pte u = S.pte u)
    (hlt : v < hi) (ht : S.tab (v / 1024) ≠ none) : Swept hi v S S' where
  dir := h.dir.trans hd
  tab := h.tab.trans hT
  mem := h.mem.trans hm
  gone hu := by
    cases hu with
    | here _ _ =>
      rw [h.kept fun hv => by have := hv.bounds; omega]
      exact h0
    | next _ _ hu => exact h.gone (hT ▸ hu)
    | skip _ hnone _ => exact absurd hnone ht
  kept {u} hu := by
    have huv : u ≠ v := by
      rintro rfl
      exact hu (.here hlt ht)
    rw [h.kept fun h' => hu (.next hlt ht (hT ▸ h')), hother huv]

theorem Swept.skip (h : Swept hi (v + 1024) S S') (hlt : v < hi) (ht : S.tab (v / 1024) = none) :
    Swept hi v S S' where
  dir := h.dir
  tab := h.tab
  mem := h.mem
  gone hu := by
    cases hu with
    | here _ hne | next _ hne _ => exact absurd ht hne
    | skip _ _ hu => exact h.gone hu
  kept hu := h.kept fun h' => hu (.skip hlt ht h')

theorem toNat_nextPage {a oldsz : UInt32} (hold : oldsz.toNat ≤ 2 ^ 31) (hlt : a < oldsz) :
    (a + 4096).toNat = a.toNat + 4096 := by
  have h4 : UInt32.toNat 4096 = 4096 := rfl
  have := lt_iff_toNat_lt.1 hlt
  rw [UInt32.toNat_add, h4]
  omega

theorem toNat_nextTable {a oldsz : UInt32} (hold : oldsz.toNat ≤ 2 ^ 31) (hlt : a < oldsz) :
    (a + (1024 - 1) * 4096 + 4096).toNat = a.toNat + 4194304 := by
  have h4 : UInt32.toNat 4096 = 4096 := rfl
  have h5 : ((1024 - 1) * 4096 : UInt32).toNat = 4190208 := rfl
  have := lt_iff_toNat_lt.1 hlt
  rw [UInt32.toNat_add, UInt32.toNat_add, h4, h5]
  omega

/-- **The loop of `deallocuvm`** clears the pages it comes to. -/
theorem wp_deallocLoop_swept {oldsz : UInt32}
    (hold : oldsz.toNat ≤ 2 ^ 31) (hhi : hi = pages oldsz) (fuel : Nat)
    (ha : a.toNat = 4096 * v) (hfuel : hi ≤ v + fuel) (hR : Rep K S h)
    (ok : ∀ S' h' c', Rep K S' h' → Swept hi v S S' → Q () ⟨h', c', t⟩) :
    wp (ctx K stop) F (deallocLoop K S.dir oldsz fuel a) Q ⟨h, c, t⟩ := by
  have hhi' : hi = (oldsz.toNat + 4095) / 4096 := hhi
  induction fuel generalizing S h c a v with
  | zero => exact ok S h c hR (.refl (by omega))
  | succ fuel ih =>
    rw [deallocLoop]
    by_cases hlt : a < oldsz
    · have hnext := toNat_nextPage hold hlt
      have hskip := toNat_nextTable hold hlt
      have hpage : a.toNat / 4096 = v := by omega
      rw [if_pos hlt, wp_bind]
      rw [lt_iff_toNat_lt] at hlt
      have hv : v < hi := by omega
      refine wp_walkpgdir hR ?_ ?_ (fun _ h => by cases h)
      · intro T hT
        have hT' : S.tab (v / 1024) = some T := by rw [← hpage, ← PDX_eq]; exact hT
        have htab : S.tab (v / 1024) ≠ none := by simp [hT']
        obtain ⟨f, hf⟩ := hR.own (a := .tab (PDX a)) hT
        simp only [wp_bind]
        refine wp_entryRead hR (Heap.Sub.refl h) hT ?_
        rw [hpage]
        by_cases hp : Present (S.pte v)
        · have huser : S.page (.user v) = some (ptePage (S.pte v)) :=
            Space.page_user.2 ⟨by unfold USERPAGES; omega, hp, rfl⟩
          have hm := hR.managed huser
          have hne : PTE_ADDR (S.pte v) ≠ 0 := by
            intro h0
            refine hm.ne_zero ?_
            rw [ptePage, h0]
            rfl
          have hTp : T ≠ ptePage (S.pte v) :=
            hR.ne_of_place (a := .tab (PDX a)) hT huser (by simp)
          obtain ⟨g, hg⟩ := hR.own huser
          rw [if_pos hp, if_neg hne, wp_bind]
          refine wp_kfree hm hg ?_
          rw [wp_bind]
          refine wp_write (f := f) ?_ ?_
          · simp only
            rw [erase_of_ne _ hTp]
            exact hf
          · rw [PTX_eq, hpage, ← S.dir_setPte v 0 (S.mem v)]
            refine ih (v := v + 1) (by omega) (by omega) (hR.unmapUser huser hT' hf)
              fun S' h' c' hR' hS' => ok S' h' c' hR' ?_
            exact hS'.next rfl rfl (mem_setPte_same _ _ _) (S.pte_setPte_self _ _ _)
              (S.pte_setPte_of_ne _ _) hv htab
        · rw [if_neg hp]
          exact ih (by omega) (by omega) hR fun S' h' c' hR' hS' =>
            ok S' h' c' hR' (hS'.next rfl rfl rfl (hR.absent hp) (fun _ => rfl) hv htab)
      · intro hT _
        rw [PDX_eq, hpage] at hT
        exact ih (hskip.trans (by omega)) (by omega) hR
          fun S' h' c' hR' hS' => ok S' h' c' hR' (hS'.skip hv hT)
    · rw [if_neg hlt]
      rw [lt_iff_toNat_lt] at hlt
      exact ok S h c hR (.refl (by omega))

/-- **`deallocuvm`**, of a smaller size. -/
theorem wp_deallocuvm_swept {Q : Post UInt32}
    (hold : oldsz.toNat ≤ 2 ^ 31) (hlt : newsz < oldsz) (hR : Rep K S h)
    (ok : ∀ S' h' c', Rep K S' h' → Swept (pages oldsz) (pages newsz) S S' → Q newsz ⟨h', c', t⟩) :
    wp (ctx K stop) F (deallocuvm K S.dir oldsz newsz) Q ⟨h, c, t⟩ := by
  have hlt' := lt_iff_toNat_lt.1 hlt
  have hstart : (PGROUNDUP newsz).toNat = 4096 * pages newsz := by
    rw [toNat_PGROUNDUP (by omega), pages, mul_comm]
  have hfuel : pages oldsz ≤ pages newsz + NPDENTRIES * NPTENTRIES := by
    unfold pages NPDENTRIES NPTENTRIES
    omega
  rw [deallocuvm, if_neg (UInt32.not_le.2 hlt), wp_bind]
  exact wp_deallocLoop_swept hold rfl _ hstart hfuel hR ok

/-- Some user pages from `lo` on were taken away. -/
structure Freed (lo : Nat) (S S' : Space) : Prop where
  dir : S'.dir = S.dir
  tab : S'.tab = S.tab
  mem : S'.mem = S.mem
  pte : ∀ u, S'.pte u = S.pte u ∨ (lo ≤ u ∧ u < USERPAGES ∧ S'.pte u = 0)

theorem Freed.refl (lo : Nat) (S : Space) : Freed lo S S := ⟨rfl, rfl, rfl, fun _ => .inl rfl⟩

theorem Freed.sameKernel {lo : Nat} (hF : Freed lo S S') : SameKernel S S' := by
  refine ⟨hF.dir, fun {v} hv => ?_⟩
  rcases hF.pte v with h | ⟨-, h, -⟩
  · exact h
  · omega

theorem Swept.freed (h : Swept hi v S S') (hhi : hi ≤ USERPAGES) : Freed v S S' where
  dir := h.dir
  tab := h.tab
  mem := h.mem
  pte u := by
    by_cases hu : Visits S.tab hi v u
    · exact .inr ⟨hu.bounds.1, hu.bounds.2.1.trans_le hhi, h.gone hu⟩
    · exact .inl (h.kept hu)

/-- **`deallocuvm`** takes away user pages of the space, and nothing else. -/
theorem wp_deallocuvm {Q : Post UInt32} (hold : oldsz.toNat ≤ 2 ^ 31) (hR : Rep K S h)
    (keep : newsz ≥ oldsz → Q oldsz ⟨h, c, t⟩)
    (ok : ∀ S' h' c', newsz < oldsz → Rep K S' h' →
      Freed ((newsz.toNat + 4095) / 4096) S S' → Q newsz ⟨h', c', t⟩) :
    wp (ctx K stop) F (deallocuvm K S.dir oldsz newsz) Q ⟨h, c, t⟩ := by
  by_cases hge : newsz ≥ oldsz
  · rw [deallocuvm, if_pos hge]
    exact keep hge
  · have hlt : newsz < oldsz := UInt32.not_le.1 hge
    refine wp_deallocuvm_swept hold hlt hR fun S' h' c' hR' hS => ok S' h' c' hlt hR' (hS.freed ?_)
    unfold pages USERPAGES
    omega

end Dealloc

theorem wp_freeTables {h₀ : Heap Nat Frame} {f : Frame}
    (hR : Rep K S h₀) (n : Nat) {i : Nat} (hi : i + n = 1024) (hdir : h₀ S.dir = some f)
    (hd : h S.dir = some f)
    (hT : ∀ j T, i ≤ j → S.tab j = some T → ∃ g, h T = some g)
    (ok : ∀ h' c', h' S.dir = some f →
      (∀ p g, h' p = some g → h p = some g ∧ ∀ j, i ≤ j → S.tab j ≠ some p) → Q () ⟨h', c', t⟩) :
    wp (ctx K stop) F (freeTables K S.dir i n) Q ⟨h, c, t⟩ := by
  induction n generalizing h c i with
  | zero =>
    refine ok h c hd fun p g hp => ⟨hp, fun j hj hT => ?_⟩
    have := hR.tab_lt hT
    omega
  | succ n ih =>
    rw [freeTables, wp_bind]
    refine wp_read hd ?_
    rw [hR.dir_entry hdir (by omega)]
    cases hTi : S.tab i with
    | none =>
      rw [if_neg (show ¬ Present (pdeOf none) from not_present_zero)]
      refine ih (by omega) hd (fun j T hj => hT j T (by omega)) fun h' c' hd' hleft => ?_
      refine ok h' c' hd' fun p g hp => ⟨(hleft p g hp).1, fun j hj hTj => ?_⟩
      rcases eq_or_lt_of_le hj with rfl | hlt
      · rw [hTi] at hTj
        cases hTj
      · exact (hleft p g hp).2 j hlt hTj
    | some T =>
      have hm := hR.managed (a := .tab i) hTi
      have hlt := hm.lt
      obtain ⟨g, hg⟩ := hT i T (le_refl i) hTi
      rw [if_pos (present_pdeOf (by omega)), ptePage_pdeOf (by omega), wp_bind]
      refine wp_kfree hm hg (ih (by omega) ?_ ?_ ?_)
      · rw [erase_of_ne _ (hR.ne_of_place (a := .dir) rfl (b := .tab i) hTi (by simp))]
        exact hd
      · intro j U hj hU
        have hne : U ≠ T := hR.ne_of_place (a := .tab j) hU (b := .tab i) hTi (by simp; omega)
        rw [erase_of_ne _ hne]
        exact hT j U (by omega) hU
      · intro h' c' hd' hleft
        refine ok h' c' hd' fun p g hp => ?_
        obtain ⟨hp', hnot⟩ := hleft p g hp
        have hne : p ≠ T := by
          rintro rfl
          rw [erase_self] at hp'
          cases hp'
        rw [erase_of_ne _ hne] at hp'
        refine ⟨hp', fun j hj hTj => ?_⟩
        rcases eq_or_lt_of_le hj with rfl | hlt
        · exact hne (Option.some.inj (hTj.symm.trans hTi))
        · exact hnot j hlt hTj

/-- **`freevm`** frees pages of the space, and nothing else. -/
theorem wp_freevm (hR : Rep K S h) (ok : ∀ g c', Q () ⟨g, c', t⟩) :
    wp (ctx K stop) F (freevm K S.dir) Q ⟨h, c, t⟩ := by
  rw [freevm, wp_bind]
  refine wp_deallocuvm (by decide) hR (fun hge => absurd hge (by decide)) ?_
  intro S' h' c' _ hR' hF
  obtain ⟨f, hf⟩ := hR'.own (a := .dir) rfl
  rw [wp_bind, ← hF.dir]
  refine wp_freeTables hR' NPDENTRIES (by rfl) hf hf (fun j T _ hT => hR'.own (a := .tab j) hT) ?_
  intro g c'' hd _
  exact wp_kfree (hR'.managed (a := .dir) rfl) hd (ok _ _)

/-- **`allocuvm`.** -/
theorem wp_allocuvm {Q : Post UInt32} (hR : Rep K S h)
    (hF : newsz < KERNBASE → (∃ u, (oldsz.toNat + 4095) / 4096 ≤ u ∧
      u < (newsz.toNat + 4095) / 4096 ∧ Present (S.pte u)) →
      ∀ t', PagingSince t t' → F "remap" t')
    (refuse : newsz ≥ KERNBASE → Q 0 ⟨h, c, t⟩)
    (keep : newsz < KERNBASE → newsz < oldsz → Q oldsz ⟨h, c, t⟩)
    (fail : ∀ S₁ S' h' g c₁ c' t', newsz < KERNBASE → Alloced K ((oldsz.toNat + 4095) / 4096)
      ((newsz.toNat + 4095) / 4096) false S c t S₁ c₁ t' →
      Freed ((oldsz.toNat + 4095) / 4096) S₁ S' → Rep K S' h' → h'.Disjoint g →
      Q 0 ⟨h' ∪ g, c', t'⟩)
    (ok : ∀ S' h' g c' t', newsz < KERNBASE → oldsz ≤ newsz → Alloced K
      ((oldsz.toNat + 4095) / 4096) ((newsz.toNat + 4095) / 4096) true S c t S' c' t' →
      Rep K S' h' → h'.Disjoint g → Q newsz ⟨h' ∪ g, c', t'⟩) :
    wp (ctx K stop) F (allocuvm K S.dir oldsz newsz) Q ⟨h, c, t⟩ := by
  rw [allocuvm]
  by_cases hbig : newsz ≥ KERNBASE
  · rw [if_pos hbig]
    exact refuse hbig
  have hsmall : newsz < KERNBASE := UInt32.not_le.1 hbig
  by_cases hlt : newsz < oldsz
  · rw [if_neg hbig, if_pos hlt]
    exact keep hsmall hlt
  have hle : oldsz ≤ newsz := UInt32.not_lt.1 hlt
  have hbase := toNat_KERNBASE
  have h1 := lt_iff_toNat_lt.1 hsmall
  have h2 := le_iff_toNat_le.1 hle
  rw [if_neg hbig, if_neg hlt, wp_bind]
  refine wp_allocLoop rfl (by unfold USERPAGES; omega) _ hR ?_ (by omega)
    (by unfold NPDENTRIES NPTENTRIES; omega) (hF hsmall) ?_
  · rw [toNat_PGROUNDUP (by omega), mul_comm]
  intro b S₁ h₁ g c₁ t₁ hR₁ hd hA
  cases b with
  | true =>
    rw [if_pos rfl]
    exact ok S₁ h₁ g c₁ t₁ hsmall hle hA hR₁ hd
  | false =>
    rw [if_neg (by simp), wp_bind, ← hA.grown.dir]
    refine wp.frame hd (wp_deallocuvm (by omega) hR₁ ?_ ?_)
    · intro _ hd'
      exact fail S₁ S₁ h₁ g c₁ c₁ t₁ hsmall hA (.refl _ _) hR₁ hd'
    · intro S' h' c' _ hR' hFr hd'
      exact fail S₁ S' h' g c₁ c' t₁ hsmall hA hFr hR' hd'

/-! ## The guard page -/

theorem present_clear (w : UInt32) : Present (w &&& 0xFFFFFFFB) ↔ Present w := by
  unfold Present
  rw [UInt32.and_assoc, show (0xFFFFFFFB &&& PTE_P : UInt32) = PTE_P from rfl]

theorem ptePage_clear (w : UInt32) : ptePage (w &&& 0xFFFFFFFB) = ptePage w := by
  unfold ptePage PTE_ADDR
  rw [UInt32.and_assoc, show (0xFFFFFFFB &&& 0xFFFFF000 : UInt32) = 0xFFFFF000 from rfl]

theorem wp_clearpteu {v : Nat} (hR : Rep K S h)
    (hva : va.toNat / 4096 = v) (hF : S.tab (v / 1024) = none → F "clearpteu" t)
    (ok : ∀ h', S.tab (v / 1024) ≠ none →
      Rep K (S.setPte v (S.pte v &&& 0xFFFFFFFB) (S.mem v)) h' → Q () ⟨h', c, t⟩) :
    wp (ctx K stop) F (clearpteu S.dir va) Q ⟨h, c, t⟩ := by
  have hi : PDX va = v / 1024 := by rw [PDX_eq, hva]
  have hj : PTX va = v % 1024 := by rw [PTX_eq, hva]
  rw [clearpteu, wp_bind]
  refine wp_walkpgdir hR ?_ (fun hT _ => hF (hi ▸ hT)) (fun _ h => by cases h)
  intro T hT
  rw [hi] at hT
  obtain ⟨f, hf⟩ := hR.own (a := .tab (v / 1024)) hT
  refine wp_write hf (ok _ (by simp [hT]) ?_)
  rw [hj, hR.tab_entry hT hf (by omega), div_add_mod]
  refine hR.reflag hT hf (present_clear _) ?_ (ptePage_clear _)
  intro hnp
  rw [present_clear] at hnp
  rw [hR.absent hnp]
  rfl

/-! ## Copying -/

theorem wp_copyLoop {C : Space} {hc : Heap Nat Frame} {sz : UInt32}
    {Q : Post Bool} (hsz : sz.toNat ≤ 2 ^ 31) (hR : Rep K S h)
    (hF : ∀ msg t', F msg t') (fuel : Nat) {i : UInt32} (hi : i.toNat % 4096 = 0)
    (hC : Rep K C hc) (hd : hc.Disjoint h)
    (ok : ∀ b C' hc' g c' t', Rep K C' hc' → SameKernel C C' → hc'.Disjoint (g ∪ h) →
      g.Disjoint h → Q b ⟨hc' ∪ (g ∪ h), c', t'⟩) :
    wp (ctx K stop) F (copyLoop S.dir C.dir sz fuel i) Q ⟨hc ∪ h, c, t⟩ := by
  have hend : ∀ b, Q b ⟨hc ∪ h, c, t⟩ := by
    intro b
    rw [← empty_union h]
    exact ok b C hc _ c t hC (.refl C) (by rwa [empty_union]) (empty_disjoint h)
  induction fuel generalizing C hc c t i Q with
  | zero => exact hend true
  | succ fuel ih =>
    rw [copyLoop]
    by_cases hlt : i < sz
    · have hlt' := lt_iff_toNat_lt.1 hlt
      have hv : i.toNat / 4096 < USERPAGES := by
        unfold USERPAGES
        omega
      have hsub : h.Sub (hc ∪ h) := sub_union_right hd
      rw [if_pos hlt, wp_bind]
      refine wp_walkRead hR hsub ?_ fun _ => hF _ _
      intro T hT
      simp only [wp_bind]
      refine wp_entryRead hR hsub hT ?_
      by_cases hp : Present (S.pte (i.toNat / 4096))
      · rw [if_pos hp, wp_bind]
        refine wp_kalloc (fun _ => hend false) ?_
        intro _ mem f hm hfree
        obtain ⟨hcm, hhm⟩ := Option.or_eq_none_iff.1 hfree
        have huser : S.page (.user (i.toNat / 4096)) = some (ptePage (S.pte (i.toNat / 4096))) :=
          Space.page_user.2 ⟨hv, hp, rfl⟩
        have hsrc := hR.user_mem huser
        have hne : ptePage (S.pte (i.toNat / 4096)) ≠ mem := by
          intro heq
          rw [heq, hhm] at hsrc
          cases hsrc
        refine wp_get ((put_of_ne _ _ hne).trans (hsub _ _ hsrc)) ?_
        rw [wp_bind]
        refine wp_write (put_self _ _ _) ?_
        rw [wp_bind]
        simp only [put_put, ← put_union]
        refine wp.frame (hd.put _ hhm) (wp_mapUser hC (by omega) hv hcm hm
          (by rw [toNat_PTE_FLAGS]; omega) (fun _ _ _ => hF _ _) ?_ ?_)
        · -- the page is lost
          intro _ _ hd'
          rw [if_neg (by simp), ← union_single _ hcm, union_assoc]
          refine ok false C hc _ _ _ hC (.refl C) (disjoint_union_right.2 ⟨?_, hd⟩) ?_
          · exact disjoint_single.2 hcm
          · exact (disjoint_single.2 hhm).symm
        · intro T' S₁ h' c' t' hW _ hR' hd'
          rw [if_pos rfl, ← (hW.grown 0).dir, ← S₁.dir_setPte (i.toNat / 4096)
            (pa mem ||| PTE_FLAGS (S.pte (i.toNat / 4096)) ||| PTE_P)
            (S.mem (i.toNat / 4096))]
          have hK : SameKernel C (S₁.setPte (i.toNat / 4096)
              (pa mem ||| PTE_FLAGS (S.pte (i.toNat / 4096)) ||| PTE_P)
              (S.mem (i.toNat / 4096))) := by
            refine ⟨(hW.grown 0).dir, fun {u} hu => ?_⟩
            rw [S₁.pte_setPte_of_ne _ _ (by omega), hW.pte]
          have hnext : (i + 4096).toNat % 4096 = 0 := by
            have h4 : toNat 4096 = 4096 := rfl
            rw [UInt32.toNat_add, h4]
            omega
          have ok' : ∀ b C' hc' g c' t', Rep K C' hc' → SameKernel _ C' →
              hc'.Disjoint (g ∪ h) → g.Disjoint h → Q b ⟨hc' ∪ (g ∪ h), c', t'⟩ :=
            fun b C' hc' g c' t' hR'' hK' => ok b C' hc' g c' t' hR'' (hK.trans hK')
          refine ih hnext hR' hd' ok' fun b => ?_
          rw [← empty_union h]
          exact ok' b _ h' _ c' t' hR' (.refl _) (by rwa [empty_union]) (empty_disjoint h)
      · rw [if_neg hp]
        exact hF _ _
    · rw [if_neg hlt]
      exact hend true

/-- **`copyuvm`**: the space that is copied stays as it is, and the new one has pages of
its own. -/
theorem wp_copyuvm {sz : UInt32} {Q : Post (Option Nat)}
    (hsz : sz.toNat ≤ 2 ^ 31) (hR : Rep K S h) (hF : ∀ msg t', F msg t')
    (fail : ∀ g c' t', g.Disjoint h → Q none ⟨g ∪ h, c', t'⟩)
    (ok : ∀ C C₀ hc g c' t', Rep K C hc → KernelSpace C₀ → SameKernel C₀ C →
      hc.Disjoint (g ∪ h) → g.Disjoint h → Q (some C.dir) ⟨hc ∪ (g ∪ h), c', t'⟩) :
    wp (ctx K stop) F (copyuvm K S.dir sz) Q ⟨h, c, t⟩ := by
  rw [copyuvm, wp_bind, ← empty_union h]
  refine wp.frame (empty_disjoint h) (wp_setupkvm ?_ ?_)
  · intro h' c' t' _ _ hd
    exact fail h' c' t' hd
  intro C₀ hc₀ c₀ t₀ hC₀ hK₀ _ _ hd₀
  simp only [wp_bind]
  refine wp_copyLoop hsz hR hF _ rfl hC₀ hd₀ ?_
  intro b C hc g c' t' hC hK hd hg
  cases b with
  | true =>
    rw [if_pos rfl, ← hK.dir]
    exact ok C C₀ hc g c' t' hC hK₀ hK hd hg
  | false =>
    rw [if_neg (by simp), wp_bind, ← hK.dir]
    refine wp.frame hd (wp_freevm hC fun k c'' hd' => ?_)
    rw [wp_pure, ← union_assoc]
    exact fail _ c'' t' (disjoint_union_left.2 ⟨(disjoint_union_right.1 hd').2, hg⟩)

end Xv6.Vm
