import OperatingSystems.Lib.Failing
import OperatingSystems.Vm.Dealloc

/-!
# When an allocation fails

Which call of `kalloc` fails decides what becomes of the pages that were allocated before.
`mappages` needs a page table now and then, and its result is not always looked at.  The
calls of `kalloc` are numbered; a call fails if it is made to, or if there is no free page
left (`Short`).  A plan is what the calls are for, in order, as long as none fails.

* `Spared` — **a page table is refused only after something else was**.
* `allocPlan` — the plan of `allocuvm`.
* `wp_force_allocLoop` — the loop of `allocuvm`: it fills the range; or a page is refused,
  and then there is nothing but pages of the space; or a page table is refused.
* `wp_force_setupkvm` — `setupkvm`, which takes a page and 64 page tables.
-/

namespace Xv6.Vm

open Cmd Heap Nat

variable {K : Layout} {stop : List Ev → Prop} {F : String → List Ev → Prop}
  {S S' S₁ : Space} {h : Heap Nat Frame} {c : Option Nat} {t : List Ev} {va : UInt32}
  {fails : Nat → Bool} {N k lo hi v u : Nat} {Q : Post (Bool × Nat)}

/-! ## Plans -/

/-- What `kalloc` is called for. -/
inductive Need
  /-- A page of its own: for the user, a directory, a kernel stack. -/
  | page
  /-- A page table, in `walkpgdir`. -/
  | table
  deriving DecidableEq, Repr

/-- Call `k` of `kalloc` fails, with `n` free pages at the start. -/
def Short (fails : Nat → Bool) (n k : Nat) : Prop := fails k = true ∨ n ≤ k

/-- No call from `k` to `l` fails. -/
def Clear (short : Nat → Prop) (k l : Nat) : Prop := ∀ j, k ≤ j → j < l → ¬ short j

/-- A call for a page table fails only after another call has failed. -/
def Spared (short : Nat → Prop) (k : Nat) (plan : List Need) : Prop :=
  ∀ i, plan[i]? = some .table → short (k + i) → ∃ j, k ≤ j ∧ j < k + i ∧ short j

section Plans

variable {short : Nat → Prop} {l : Nat} {pre plan : List Need}

theorem Clear.refl (short : Nat → Prop) (k : Nat) : Clear short k k :=
  fun j h1 h2 => by omega

theorem Clear.trans (h₁ : Clear short k l) {l' : Nat} (h₂ : Clear short l l') :
    Clear short k l' := by
  intro j h1 h2
  rcases lt_or_ge j l with h | h
  · exact h₁ j h1 h
  · exact h₂ j h h2

theorem Clear.mono (h : Clear short k l) {k' l' : Nat} (h1 : k ≤ k') (h2 : l' ≤ l) :
    Clear short k' l' := fun j h3 h4 => h j (by omega) (by omega)

theorem clear_one (h : ¬ short k) : Clear short k (k + 1) := by
  intro j h1 h2
  rwa [show j = k by omega]

theorem clear_two (h : ¬ short k) (h' : ¬ short (k + 1)) : Clear short k (k + 2) :=
  (clear_one h).trans (clear_one h')

/-- What was granted does not matter. -/
theorem spared_append (hc : Clear short k (k + pre.length)) :
    Spared short k (pre ++ plan) ↔ Spared short (k + pre.length) plan := by
  constructor
  · intro h i hi hs
    obtain ⟨j, h1, h2, h3⟩ := h (pre.length + i) (by
      rw [List.getElem?_append_right (by omega)]
      simpa using hi) (by rwa [← add_assoc])
    refine ⟨j, ?_, by omega, h3⟩
    by_contra hlt
    exact hc j h1 (by omega) h3
  · intro h i hi hs
    rcases lt_or_ge i pre.length with hlt | hge
    · exact absurd hs (hc (k + i) (by omega) (by omega))
    · rw [List.getElem?_append_right hge] at hi
      obtain ⟨j, h1, h2, h3⟩ := h (i - pre.length) hi (by
        rwa [show k + pre.length + (i - pre.length) = k + i by omega])
      exact ⟨j, by omega, by omega, h3⟩

/-- If a page is refused, so may be anything. -/
theorem spared_of_short (hs : short k) (plan : List Need) : Spared short k (.page :: plan) := by
  intro i hi _
  cases i with
  | zero => simp at hi
  | succ i => exact ⟨k, le_refl k, by omega, hs⟩

theorem spared_cons {x : Need} (hk : ¬ short k) :
    Spared short k (x :: plan) ↔ Spared short (k + 1) plan :=
  (spared_append (clear_one hk) : Spared short k ([x] ++ plan) ↔ _)

/-- A page was granted, and its page table was not. -/
theorem not_spared_second (hk : ¬ short k) (hk' : short (k + 1)) (plan : List Need) :
    ¬ Spared short k (.page :: .table :: plan) := by
  rw [spared_cons hk]
  intro h
  obtain ⟨j, h1, h2, -⟩ := h 0 rfl hk'
  omega

theorem not_clear_of_not_spared (h : ¬ Spared short k plan) :
    ¬ Clear short k (k + plan.length) := by
  intro hc
  refine h fun i hi hs => absurd hs (hc _ (by omega) ?_)
  have := (List.getElem?_eq_some_iff.1 hi).1
  omega

/-- With `n` free pages and no other failure, it is the call after the last page that
matters. -/
theorem spared_never_iff {n : Nat} :
    Spared (Short (fun _ => false) n) 0 plan ↔ plan[n]? ≠ some .table := by
  simp only [Spared, Short, Bool.false_eq_true, false_or, zero_add, zero_le, true_and]
  constructor
  · intro h hn
    obtain ⟨j, h1, h2⟩ := h n hn (le_refl n)
    omega
  · intro h i hi hle
    refine ⟨n, ?_, le_refl n⟩
    by_contra hge
    exact h (by rwa [show n = i by omega])

end Plans

/-- The page tables a space has. -/
def Space.has (S : Space) (i : Nat) : Bool := (S.tab i).isSome

@[simp] theorem Space.has_setPte (S : Space) (v : Nat) (w : UInt32) (g : Frame) :
    (S.setPte v w g).has = S.has := rfl

theorem Space.has_addTab (S : Space) (i T : Nat) :
    (S.addTab i T).has = fun j => j == i || S.has j := by
  funext j
  by_cases hj : j = i
  · simp [Space.has, hj]
  · simp [Space.has, S.tab_addTab_of_ne T hj, hj]

/-- The calls of `kalloc` for `n` pages from page `v` on, where there are the page tables
`has`. -/
def allocPlan : Nat → (Nat → Bool) → Nat → List Need
  | 0, _, _ => []
  | n + 1, has, v =>
    if has (v / 1024) then .page :: allocPlan n has (v + 1)
    else .page :: .table :: allocPlan n (fun i => i == v / 1024 || has i) (v + 1)

theorem length_allocPlan (n : Nat) (has : Nat → Bool) (v : Nat) :
    n ≤ (allocPlan n has v).length := by
  induction n generalizing has v with
  | zero => exact zero_le _
  | succ n ih =>
    rw [allocPlan]
    split
    · exact succ_le_succ (ih _ _)
    · exact (succ_le_succ (ih _ _)).trans (le_succ _)

/-! ## Programs that allocate nothing -/

theorem quiet_read (p i : Nat) : (read p i).Quiet := fun _ => trivial

theorem quiet_write (p : Nat) (f : Frame → Frame) : (write p f).Quiet := trivial

theorem quiet_record (e : Ev) : (record e).Quiet := trivial

theorem quiet_kfree (K : Layout) (p : Nat) : (kfree K p).Quiet := by
  rw [kfree]
  split <;> trivial

theorem quiet_walkpgdir (pgdir : Nat) (va : UInt32) : (walkpgdir pgdir va false).Quiet := by
  rw [walkpgdir]
  refine (quiet_read _ _).bind fun pde => ?_
  split
  · trivial
  · trivial

theorem quiet_deallocLoop (K : Layout) (pgdir : Nat) (oldsz : UInt32) (fuel : Nat) (a : UInt32) :
    (deallocLoop K pgdir oldsz fuel a).Quiet := by
  induction fuel generalizing a with
  | zero => trivial
  | succ fuel ih =>
    rw [deallocLoop]
    split
    · refine (quiet_walkpgdir _ _).bind fun r => ?_
      split
      · exact ih _
      · refine (quiet_read _ _).bind fun pte => ?_
        split
        · split
          · trivial
          · exact (quiet_kfree K _).bind fun _ => (quiet_write _ _).bind fun _ => ih _
        · exact ih _
    · trivial

theorem quiet_deallocuvm (K : Layout) (pgdir : Nat) (oldsz newsz : UInt32) :
    (deallocuvm K pgdir oldsz newsz).Quiet := by
  rw [deallocuvm]
  split
  · trivial
  · exact (quiet_deallocLoop K _ _ _ _).bind fun _ => trivial

theorem quiet_freeTables (K : Layout) (pgdir i n : Nat) : (freeTables K pgdir i n).Quiet := by
  induction n generalizing i with
  | zero => trivial
  | succ n ih =>
    rw [freeTables]
    refine (quiet_read _ _).bind fun pde => ?_
    split
    · exact (quiet_kfree K _).bind fun _ => ih _
    · exact ih _

theorem quiet_freevm (K : Layout) (pgdir : Nat) : (freevm K pgdir).Quiet := by
  rw [freevm]
  exact (quiet_deallocuvm K _ _ _).bind fun _ => (quiet_freeTables K _ _ _).bind fun _ =>
    quiet_kfree K _

/-! ## Walking and mapping -/

section Wp

variable {i : Nat} {perm : UInt32} {g : Frame}

theorem wp_force_kalloc {Q : Post (Option Nat × Nat)}
    (fail : Short fails N k → Q (none, k + 1) ⟨h, some (N - k), t⟩)
    (ok : ¬ Short fails N k → ∀ p f, Managed K p → h p = none →
      Q (some p, k + 1) ⟨h.put p f, some (N - (k + 1)), t⟩) :
    wp (ctx K stop) F (force fails k kalloc) Q ⟨h, some (N - k), t⟩ := by
  refine wp_force_alloc fail fun hk hlt => ok ?_
  rintro (h | h)
  · rw [hk] at h
    cases h
  · omega

/-- `walkpgdir` has found page table `i`, or added it. -/
inductive Walks (short : Nat → Prop) (i k : Nat) (S : Space) : Nat → Space → Prop
  | found (ht : S.tab i ≠ none) : Walks short i k S k S
  | added (ht : S.tab i = none) (hk : ¬ short k) (T : Nat) :
      Walks short i k S (k + 1) (S.addTab i T)

namespace Walks

variable {short : Nat → Prop} {k' : Nat}

section

variable (hW : Walks short i k S k' S₁)

include hW

theorem dir : S₁.dir = S.dir := by cases hW <;> rfl

theorem pte : S₁.pte = S.pte := by cases hW <;> rfl

theorem mem : S₁.mem = S.mem := by cases hW <;> rfl

theorem tab_of_some {j T : Nat} (hj : S.tab j = some T) : S₁.tab j = some T := by
  cases hW with
  | found _ => exact hj
  | added ht _ U =>
    rw [S.tab_addTab_of_ne, hj]
    rintro rfl
    rw [ht] at hj
    cases hj

/-- Every call was for a page table that was missing. -/
theorem count (hi : i < 1024) : k' + S₁.absentTabs = k + S.absentTabs := by
  cases hW with
  | found _ => rfl
  | added ht _ T =>
    have := S.absentTabs_addTab (T := T) hi ht
    omega

theorem clear : k ≤ k' ∧ Clear short k k' := by
  cases hW with
  | found _ => exact ⟨le_refl k, .refl short k⟩
  | added _ hk _ => exact ⟨by omega, clear_one hk⟩

end

theorem plan (hW : Walks short (v / 1024) (k + 1) S k' S₁) (hk : ¬ short k) (n : Nat) :
    ∃ pre, allocPlan (n + 1) S.has v = pre ++ allocPlan n S₁.has (v + 1) ∧
      k' = k + pre.length ∧ Clear short k (k + pre.length) := by
  cases hW with
  | found ht =>
    refine ⟨[.page], ?_, rfl, clear_one hk⟩
    rw [allocPlan, if_pos (by simpa [Space.has, Option.isSome_iff_ne_none] using ht)]
    rfl
  | added ht hk' T =>
    refine ⟨[.page, .table], ?_, rfl, clear_two hk hk'⟩
    rw [allocPlan, if_neg (by simp [Space.has, ht]), Space.has_addTab]
    rfl

theorem walked (hW : Walks short i k S k' S₁) (hi : i < 1024) (t : List Ev) :
    ∃ T t', Walked i T S none t S₁ none t' := by
  cases hW with
  | found ht =>
    obtain ⟨T, hT⟩ := Option.ne_none_iff_exists'.1 ht
    exact ⟨T, t, .refl, rfl, rfl, hT, fun h1 h2 => absurd h1 h2⟩
  | added ht _ T =>
    refine ⟨T, _, fun v => .addTab v hi ht (by simp), rfl, rfl, S.tab_addTab_self _ _, ?_⟩
    intro j h1 h2
    by_contra hj
    rw [S.tab_addTab_of_ne T hj] at h2
    exact h2 h1

end Walks

theorem wp_force_walk {Q : Post (Option (Nat × Nat) × Nat)} (hR : Rep K S h)
    (fail : S.tab (PDX va) = none → Short fails N k → Q (none, k + 1) ⟨h, some (N - k), t⟩)
    (ok : ∀ T S₁ h' k' t', Rep K S₁ h' → S₁.tab (PDX va) = some T →
      Walks (Short fails N) (PDX va) k S k' S₁ →
      Q (some (T, PTX va), k') ⟨h', some (N - k'), t'⟩) :
    wp (ctx K stop) F (force fails k (walkpgdir S.dir va true)) Q ⟨h, some (N - k), t⟩ := by
  obtain ⟨f, hf⟩ := hR.own (a := .dir) rfl
  rw [walkpgdir, wp_force_bind, wp_force_quiet (quiet_read _ _)]
  refine wp_read hf ?_
  rw [hR.dir_entry hf (PDX_lt va)]
  cases hT : S.tab (PDX va) with
  | some T =>
    have hlt := (hR.managed (a := .tab (PDX va)) hT).lt
    rw [if_pos (present_pdeOf (by omega)), ptePage_pdeOf (by omega)]
    exact ok T S h k t hR hT (.found (by simp [hT]))
  | none =>
    rw [if_neg (show ¬ Present (pdeOf none) from not_present_zero), if_neg (by simp), wp_force_bind]
    refine wp_force_kalloc (fail hT) fun hk T g hm hfree => ?_
    have hne : S.dir ≠ T := by
      rintro heq
      rw [heq] at hf
      rw [show h T = none from hfree] at hf
      cases hf
    rw [wp_force_bind, wp_force_quiet (quiet_write _ _)]
    refine wp_write (put_self _ _ _) ?_
    rw [wp_force_bind, wp_force_quiet (quiet_write _ _)]
    refine wp_write (f := f) ?_ ?_
    · simp only
      rw [put_of_ne _ _ hne, put_of_ne _ _ hne]
      exact hf
    rw [wp_force_bind, wp_force_quiet (quiet_record _)]
    refine wp_record (ok T _ _ (k + 1) _ ?_ (S.tab_addTab_self _ _) (.added hT hk T))
    simp only [put_put]
    exact hR.addTab (PDX_lt va) hT hm hfree hf

theorem wp_force_mapUser {mem : Nat}
    (hR : Rep K S h) (hva : va.toNat = 4096 * v) (hv : v < USERPAGES) (hfree : h mem = none)
    (hm : Managed K mem) (hperm : perm.toNat < 4096) (hnp : ¬ Present (S.pte v))
    (fail : S.tab (v / 1024) = none → Short fails N k →
      Q (false, k + 1) ⟨h.put mem g, some (N - k), t⟩)
    (ok : ∀ S₁ h' k' t', Walks (Short fails N) (v / 1024) k S k' S₁ →
      Rep K (S₁.setPte v (pa mem ||| perm ||| PTE_P) g) h' →
      Q (true, k') ⟨h', some (N - k'), t'⟩) :
    wp (ctx K stop) F (force fails k (mappages S.dir va 4096 (pa mem) perm)) Q
      ⟨h.put mem g, some (N - k), t⟩ := by
  unfold USERPAGES at hv
  have hi : PDX va = v / 1024 := by rw [PDX_eq]; omega
  have hj : PTX va = v % 1024 := by rw [PTX_eq]; omega
  have h4 : UInt32.toNat 4096 = 4096 * (0 + 1) := rfl
  rw [mappages_eq (by omega) h4 (by omega), mapLoop, mapPage, wp_force_bind, ← union_single g hfree]
  refine wp.frame (disjoint_single.2 hfree) (wp_force_walk hR ?_ ?_)
  · intro hT hk _
    rw [union_single g hfree]
    exact fail (hi ▸ hT) hk
  · intro T S₁ h₁ k₁ t₁ hR₁ hT hW hd
    rw [hi] at hW hT
    have hfree₁ := disjoint_single.1 hd
    obtain ⟨f, hf⟩ := hR₁.own (a := .tab (v / 1024)) hT
    have hf' : (h₁ ∪ single mem g) T = some f := union_left hf
    rw [wp_force_bind, wp_force_quiet (quiet_read _ _)]
    refine wp_read hf' ?_
    rw [hj, hR₁.tab_entry hT hf (by omega), hW.pte, div_add_mod, if_neg hnp, wp_force_bind,
      wp_force_quiet (quiet_write _ _)]
    refine wp_write hf' (ok S₁ _ k₁ t₁ hW ?_)
    rw [union_single g hfree₁]
    refine hR₁.mapUser hv hT hf ?_ hfree₁ hm (present_or_P _)
      (ptePage_mapped (by have := hm.lt; omega) hperm)
    rwa [hW.pte]

end Wp

/-! ## `allocuvm` -/

/-- The pages from `lo` to `hi` were mapped, each to a page of its own with the contents `g`
and the permissions `perm`. -/
structure Populated (K : Layout) (g : Nat → Frame) (perm : Nat → UInt32) (lo hi : Nat)
    (S S' : Space) : Prop where
  dir : S'.dir = S.dir
  tab : ∀ {i T : Nat}, S.tab i = some T → S'.tab i = some T
  outside : ∀ {u : Nat}, u < lo ∨ hi ≤ u → S'.pte u = S.pte u ∧ S'.mem u = S.mem u
  inside : ∀ {u : Nat}, lo ≤ u → u < hi → S'.mem u = g u ∧
    ∃ p, Managed K p ∧ S'.pte u = pa p ||| perm u ||| PTE_P

namespace Populated

variable {g : Nat → Frame} {perm : Nat → UInt32}

theorem refl (K : Layout) (g : Nat → Frame) (perm : Nat → UInt32) (v : Nat) (S : Space) :
    Populated K g perm v v S S :=
  ⟨rfl, fun h => h, fun _ => ⟨rfl, rfl⟩, fun h1 h2 => by omega⟩

theorem present (hS : Populated K g perm lo hi S S') (h1 : lo ≤ u) (h2 : u < hi) :
    Present (S'.pte u) := by
  obtain ⟨-, p, -, hp⟩ := hS.inside h1 h2
  rw [hp]
  exact present_or_P _

/-- The first page was mapped, and then the others. -/
theorem cons {mem k' : Nat} {short : Nat → Prop}
    (hW : Walks short (v / 1024) k S k' S₁) (hm : Managed K mem) (hle : v + 1 ≤ hi)
    (hS : Populated K g perm (v + 1) hi (S₁.setPte v (pa mem ||| perm v ||| PTE_P) (g v)) S') :
    Populated K g perm v hi S S' where
  dir := hS.dir.trans hW.dir
  tab hT := hS.tab (hW.tab_of_some hT)
  outside := by
    intro u hu
    obtain ⟨h1, h2⟩ := hS.outside (u := u) (by omega)
    rw [h1, h2, S₁.pte_setPte_of_ne _ _ (by omega), S₁.mem_setPte_of_ne _ _ (by omega), hW.pte,
      hW.mem]
    exact ⟨rfl, rfl⟩
  inside := by
    intro u h1 h2
    by_cases hu : u = v
    · obtain ⟨h3, h4⟩ := hS.outside (u := v) (by omega)
      rw [hu, h3, h4, S₁.pte_setPte_self, S₁.mem_setPte_self]
      exact ⟨rfl, mem, hm, rfl⟩
    · exact hS.inside (by omega) h2

end Populated

/-- The pages from `lo` to `hi` were mapped for the user, each to a page of zeros. -/
abbrev Filled (K : Layout) (lo hi : Nat) : Space → Space → Prop :=
  Populated K (fun _ => filled 0) (fun _ => PTE_W ||| PTE_U) lo hi

/-- A page was allocated for page `u`, and then call `l` for its page table was refused:
the page `mem` is nobody's. -/
structure Lost (K : Layout) (fails : Nat → Bool) (N hi v k : Nat) (S : Space) (u l mem : Nat)
    (S₁ : Space) (h₁ : Heap Nat Frame) : Prop where
  ge : v ≤ u
  lt : u < hi
  rep : Rep K S₁ h₁
  filled : Filled K v u S S₁
  tab : S₁.tab (u / 1024) = none
  free : h₁ mem = none
  managed : Managed K mem
  short : Short fails N l
  clear : Clear (Short fails N) k l
  notSpared : ¬ Spared (Short fails N) k (allocPlan (hi - v) S.has v)
  last : u + 1 = hi ↔ l + 1 = k + (allocPlan (hi - v) S.has v).length

/-- It was so with a later page. -/
theorem Lost.cons {mem k' l mem' : Nat} {S₂ : Space} {h₁ : Heap Nat Frame} (hv : v < hi)
    (hk : ¬ Short fails N k) (hW : Walks (Short fails N) (v / 1024) (k + 1) S k' S₁)
    (hm : Managed K mem) (hL : Lost K fails N hi (v + 1) k'
      (S₁.setPte v (pa mem ||| (PTE_W ||| PTE_U) ||| PTE_P) (Vm.filled 0)) u l mem' S₂ h₁) :
    Lost K fails N hi v k S u l mem' S₂ h₁ := by
  obtain ⟨pre, hplan, hk', hc⟩ := hW.plan hk (hi - (v + 1))
  have hnot := hL.notSpared
  have hlast := hL.last
  have hge := hL.ge
  rw [Space.has_setPte, hk'] at hnot hlast
  rw [show hi - (v + 1) + 1 = hi - v by omega] at hplan
  exact ⟨by omega, hL.lt, hL.rep, .cons hW hm (by omega) hL.filled, hL.tab, hL.free, hL.managed,
    hL.short, hc.trans (hk' ▸ hL.clear), by rwa [hplan, spared_append hc],
    by rw [hlast, hplan, List.length_append, add_assoc]⟩

/-- **The loop of `allocuvm`.** -/
theorem wp_force_allocLoop {newsz : UInt32}
    (hhi : hi = pages newsz) (hu : hi ≤ USERPAGES) (fuel : Nat) {a : UInt32} (hR : Rep K S h)
    (ha : a.toNat = 4096 * v) (hv : v ≤ hi) (hfuel : hi ≤ v + fuel)
    (hnp : ∀ u, v ≤ u → u < hi → ¬ Present (S.pte u))
    (ok : ∀ S' h' k' t', Rep K S' h' → Filled K v hi S S' →
      k' = k + (allocPlan (hi - v) S.has v).length → Clear (Short fails N) k k' →
      Q (true, k') ⟨h', some (N - k'), t'⟩)
    (fail : ∀ S' h' u k' c' t', v ≤ u → u < hi → Rep K S' h' → Filled K v u S S' →
      Spared (Short fails N) k (allocPlan (hi - v) S.has v) →
      ¬ Clear (Short fails N) k (k + (allocPlan (hi - v) S.has v).length) →
      Q (false, k') ⟨h', c', t'⟩)
    (lost : ∀ S₁ h₁ u l mem t₁ fuel' a', Lost K fails N hi v k S u l mem S₁ h₁ →
      a'.toNat = 4096 * (u + 1) → hi ≤ u + 1 + fuel' →
      wp (ctx K stop) F (force fails (l + 1) (allocLoop S.dir newsz fuel' a')) Q
        ⟨h₁.put mem (filled 0), some (N - l), t₁⟩) :
    wp (ctx K stop) F (force fails k (allocLoop S.dir newsz fuel a)) Q ⟨h, some (N - k), t⟩ := by
  have hhi' : hi = (newsz.toNat + 4095) / 4096 := hhi
  have hend : v = hi → Q (true, k) ⟨h, some (N - k), t⟩ := by
    rintro rfl
    exact ok S h k t hR (.refl K _ _ v S) (by rw [Nat.sub_self]; rfl) (.refl _ k)
  induction fuel generalizing S h k t v a Q with
  | zero => exact hend (by omega)
  | succ fuel ih =>
    rw [allocLoop]
    by_cases hlt : a < newsz
    · have hvlt : v < hi := by
        rw [UInt32.lt_iff_toNat_lt] at hlt
        omega
      have hnext := toNat_add_page ha (by unfold USERPAGES at hu; omega)
      obtain ⟨n, hn⟩ : ∃ n, hi - v = n + 1 := ⟨hi - v - 1, by omega⟩
      rw [if_pos hlt, wp_force_bind]
      refine wp_force_kalloc ?_ ?_
      · intro hk
        have hlen := length_allocPlan (hi - v) S.has v
        refine fail S h v (k + 1) _ t (le_refl v) hvlt hR (.refl K _ _ v S) ?_ ?_
        · rw [hn, allocPlan]
          split
          · exact spared_of_short hk _
          · exact spared_of_short hk _
        · exact fun hc => hc k (le_refl k) (by omega) hk
      intro hk mem f hm hfree
      rw [wp_force_bind, wp_force_quiet (quiet_write _ _)]
      refine wp_write (put_self _ _ _) ?_
      rw [wp_force_bind, wp_force_quiet (quiet_record _)]
      refine wp_record ?_
      rw [wp_force_bind]
      simp only [put_put]
      refine wp_force_mapUser hR ha (by omega) hfree hm (by decide) (hnp v (le_refl v) hvlt) ?_ ?_
      · -- the page is lost
        intro hT hk'
        have hplan : allocPlan (hi - v) S.has v =
            .page :: .table :: allocPlan n (fun i => i == v / 1024 || S.has i) (v + 1) := by
          rw [hn, allocPlan, if_neg (by simp [Space.has, hT])]
        have hlen := length_allocPlan n (fun i => i == v / 1024 || S.has i) (v + 1)
        refine lost S h v (k + 1) mem _ fuel (a + 4096) ⟨le_refl v, hvlt, hR,
          .refl K _ _ v S, hT, hfree, hm, hk', clear_one hk, ?_, ?_⟩ hnext (by omega)
        · rw [hplan]
          exact not_spared_second hk hk' _
        · rw [hplan]
          simp only [List.length_cons]
          constructor
          · intro heq
            obtain rfl : n = 0 := by omega
            rfl
          · intro heq
            omega
      · intro S₁ h₁ k₁ t₁ hW hR₁
        obtain ⟨pre, hplan, hk₁, hc⟩ := hW.plan hk n
        rw [← hn, show n = hi - (v + 1) by omega] at hplan
        rw [← hW.dir, ← S₁.dir_setPte v (pa mem ||| (PTE_W ||| PTE_U) ||| PTE_P) (filled 0)]
        have hok : ∀ S' h' k' t', Rep K S' h' → Filled K (v + 1) hi (S₁.setPte v
            (pa mem ||| (PTE_W ||| PTE_U) ||| PTE_P) (filled 0)) S' →
            k' = k₁ + (allocPlan (hi - (v + 1)) S₁.has (v + 1)).length →
            Clear (Short fails N) k₁ k' → Q (true, k') ⟨h', some (N - k'), t'⟩ := by
          intro S' h' k' t' hR' hS' hk' hc'
          refine ok S' h' k' t' hR' (.cons hW hm (by omega) hS') ?_ (hc.trans (hk₁ ▸ hc'))
          rw [hplan, List.length_append]
          omega
        refine ih hR₁ hnext (by omega) (by omega) ?_ hok ?_ ?_ ?_
        · intro u h1 h2
          rw [S₁.pte_setPte_of_ne _ _ (by omega), hW.pte]
          exact hnp u (by omega) h2
        · intro S' h' u k' c' t' h1 h2 hR' hS' hsp hnc
          rw [Space.has_setPte] at hsp hnc
          refine fail S' h' u k' c' t' (by omega) h2 hR' (.cons hW hm (by omega) hS') ?_ ?_
          · rwa [hplan, spared_append hc, ← hk₁]
          · intro hc'
            refine hnc (hc'.mono (by omega) ?_)
            rw [hplan, List.length_append]
            omega
        · intro S₂ h₂ u l mem' t₂ fuel' a' hL ha' hf'
          rw [Space.dir_setPte, hW.dir]
          exact lost S₂ h₂ u l mem' t₂ fuel' a' (hL.cons hvlt hk hW hm) ha' hf'
        · rintro rfl
          refine hok _ h₁ k₁ t₁ hR₁ (.refl K _ _ _ _) ?_ (.refl _ _)
          rw [Nat.sub_self]
          rfl
    · rw [if_neg hlt]
      rw [UInt32.lt_iff_toNat_lt] at hlt
      exact hend (by omega)

/-! ## `setupkvm` -/

section Kernel

variable {short : Nat → Prop} {k' n : Nat} {addr perm : UInt32} {b : Bool}

/-- What mapping the pages from `v` to `v + n` has done, and taken, up to call `k'`. -/
structure Took (short : Nat → Prop) (v n : Nat) (addr perm : UInt32) (b : Bool) (k : Nat)
    (S : Space) (k' : Nat) (S' : Space) : Prop where
  mapped : ∀ t, ∃ t', Mapped v n addr perm b S none t S' none t'
  count : k' + S'.absentTabs = k + S.absentTabs
  clear : k ≤ k' ∧ Clear short k k'

theorem Took.nothing : Took short v n addr perm false k S k S :=
  ⟨fun t => ⟨t, .nothing (.inl rfl)⟩, rfl, le_refl k, .refl short k⟩

theorem Took.last (hv : v < 2 ^ 20) (hW : Walks short (v / 1024) k S k' S₁) :
    Took short v 0 addr perm true k S k' (S₁.setPte v (addr ||| perm ||| PTE_P) (S₁.mem v)) := by
  refine ⟨fun t => ?_, hW.count (by omega), hW.clear⟩
  obtain ⟨T, t', hW'⟩ := hW.walked (by omega) t
  exact ⟨t', .last hW'⟩

theorem Took.cons {l : Nat} (hv : v < 2 ^ 20) (hW : Walks short (v / 1024) k S k' S₁)
    (hT : Took short (v + 1) n (addr + 4096) perm b k'
      (S₁.setPte v (addr ||| perm ||| PTE_P) (S₁.mem v)) l S') :
    Took short v (n + 1) addr perm b k S l S' := by
  refine ⟨fun t => ?_, hT.count.trans (hW.count (by omega)), hW.clear.1.trans hT.clear.1,
    hW.clear.2.trans hT.clear.2⟩
  obtain ⟨T, t₁, hW'⟩ := hW.walked (by omega) t
  obtain ⟨t₂, hM⟩ := hT.mapped t₁
  exact ⟨t₂, .cons hW' hM⟩

/-- A page of the kernel's part is mapped. -/
theorem wp_force_mapPage {w : UInt32}
    (hR : Rep K S h) (hva : va.toNat = 4096 * v) (hv : USERPAGES ≤ v) (hw : Present w)
    (hnp : ¬ Present (S.pte v))
    (fail : S.tab (v / 1024) = none → Short fails N k → Q (false, k + 1) ⟨h, some (N - k), t⟩)
    (ok : ∀ S₁ h' k' t', Walks (Short fails N) (v / 1024) k S k' S₁ →
      Rep K (S₁.setPte v w (S₁.mem v)) h' → Q (true, k') ⟨h', some (N - k'), t'⟩) :
    wp (ctx K stop) F (force fails k (mapPage S.dir va w)) Q ⟨h, some (N - k), t⟩ := by
  have hi : PDX va = v / 1024 := by rw [PDX_eq]; omega
  have hj : PTX va = v % 1024 := by rw [PTX_eq]; omega
  rw [mapPage, wp_force_bind]
  refine wp_force_walk hR (fun hT => fail (hi ▸ hT)) fun T S₁ h₁ k₁ t₁ hR₁ hT hW => ?_
  rw [hi] at hT hW
  obtain ⟨f, hf⟩ := hR₁.own (a := .tab (v / 1024)) hT
  rw [wp_force_bind, wp_force_quiet (quiet_read _ _)]
  refine wp_read hf ?_
  rw [hj, hR₁.tab_entry hT hf (by omega), hW.pte, div_add_mod, if_neg hnp, wp_force_bind,
    wp_force_quiet (quiet_write _ _)]
  exact wp_write hf (ok S₁ _ k₁ t₁ hW (hR₁.setKernel hv hT hf fun h => absurd hw h))

theorem wp_force_mapLoop (n : Nat)
    {a addr : UInt32} (hR : Rep K S h) (hv : USERPAGES ≤ v) (hvn : v + n < 2 ^ 20)
    (ha : a.toNat = 4096 * v) (hnp : ∀ u, v ≤ u → u ≤ v + n → ¬ Present (S.pte u))
    (fail : ∀ i S' h' l c' t', Rep K S' h' → Took (Short fails N) v n addr perm false k S l S' →
      S'.tab i = none → v / 1024 ≤ i → i ≤ (v + n) / 1024 → Short fails N l →
      Q (false, l + 1) ⟨h', c', t'⟩)
    (ok : ∀ S' h' k' t', Rep K S' h' → Took (Short fails N) v n addr perm true k S k' S' →
      Q (true, k') ⟨h', some (N - k'), t'⟩) :
    wp (ctx K stop) F (force fails k (mapLoop S.dir perm n a addr)) Q ⟨h, some (N - k), t⟩ := by
  induction n generalizing S h k t v a addr with
  | zero =>
    rw [mapLoop]
    refine wp_force_mapPage hR ha hv (present_or_P _) (hnp v (by omega) (by omega)) ?_ ?_
    · intro hT hk
      exact fail (v / 1024) S h k _ t hR .nothing hT (le_refl _) (le_refl _) hk
    · intro S₁ h' k' t' hW hR'
      exact ok _ h' k' t' hR' (.last (by omega) hW)
  | succ n ih =>
    rw [mapLoop, wp_force_bind]
    refine wp_force_mapPage hR ha hv (present_or_P _) (hnp v (by omega) (by omega)) ?_ ?_
    · intro hT hk
      rw [if_neg (by simp)]
      exact fail (v / 1024) S h k _ t hR .nothing hT (le_refl _) (by omega) hk
    · intro S₁ h₁ k₁ t₁ hW hR₁
      have hnext := toNat_add_page ha (by omega)
      rw [if_pos rfl, ← hW.dir, ← S₁.dir_setPte v (addr ||| perm ||| PTE_P) (S₁.mem v)]
      refine ih hR₁ (by omega) (by omega) hnext ?_ ?_ ?_
      · intro u h1 h2
        rw [S₁.pte_setPte_of_ne _ _ (by omega), hW.pte]
        exact hnp u (by omega) (by omega)
      · intro i S' h' l c' t' hR' hT hi h1 h2 hl
        exact fail i S' h' l c' t' hR' (.cons (by omega) hW hT) hi (by omega) (by omega) hl
      · intro S' h' k' t' hR' hT
        exact ok S' h' k' t' hR' (.cons (by omega) hW hT)

/-- If a page table of the kernel's part is missing, not all 64 are there. -/
theorem KernelTabs.lt_absentTabs (hS : KernelTabs S) {i : Nat} (hi : S.tab i = none)
    (hr : 512 ≤ i ∧ i < 568 ∨ 1016 ≤ i ∧ i < 1024) : 960 < S.absentTabs := by
  have hadd := S.absentTabs_addTab (T := 0) (by omega) hi
  have hS' : KernelTabs (S.addTab i 0) := by
    intro j hj
    by_cases hji : j = i
    · rw [hji]
      exact hr
    · rw [S.tab_addTab_of_ne _ hji] at hj
      exact hS j hj
  have := hS'.le_absentTabs
  omega

/-- The pages of an entry of `kmap` are mapped as it says. -/
def Kmap.Holds (e : Kmap) (S : Space) : Prop :=
  ∀ j, 4096 * j < (e.phys_end - e.phys_start).toNat →
    S.pte (e.virt.toNat / 4096 + j) = mapped e.phys_start e.perm j

/-- The next entry is mapped, and those before stay as they are. -/
theorem Kmap.Holds.map {e e' : Kmap} {x : Nat} {t' : List Ev} (he : e.Holds S)
    (hturn : Turn e' x n S)
    (hM : Mapped x n e'.phys_start e'.perm true S c t S' c t') : e.Holds S' := by
  intro j hj
  have hpte := he j hj
  rw [hM.outside, hpte]
  -- a page that is mapped is not one of those that are free
  by_contra hin
  rw [hturn.free _ (by omega) (by omega)] at hpte
  have hp := present_or_P ((e.phys_start + UInt32.ofNat (4096 * j)) ||| e.perm)
  rw [← mapped, ← hpte] at hp
  exact not_present_zero hp

theorem Turn.holds {e : Kmap} {x : Nat} {t' : List Ev} (hturn : Turn e x n S)
    (hM : Mapped x n e.phys_start e.perm true S c t S' c t') : e.Holds S' := by
  intro j hj
  rw [hturn.size] at hj
  rw [hturn.virt, Nat.mul_div_cancel_left _ (by norm_num)]
  exact hM.inside rfl j (by omega)

theorem wp_force_mapKernel {ks : List Kmap} (hR : Rep K S h) (hT : KernelTabs S) (hS : Stage K ks S)
    (fail : ∀ S' h' l c' t', Rep K S' h' → k ≤ l → l + 960 < k + S.absentTabs →
      Clear (Short fails N) k l → Short fails N l → Q (false, l + 1) ⟨h', c', t'⟩)
    (ok : ∀ S' h' k' t', Rep K S' h' → KernelTabs S' → KernelSpace S' → S'.dir = S.dir →
      (∀ e, e ∈ ks ∨ e.Holds S → e.Holds S') → k' + S'.absentTabs = k + S.absentTabs →
      Clear (Short fails N) k k' → Q (true, k') ⟨h', some (N - k'), t'⟩) :
    wp (ctx K stop) F (force fails k (mapKernel S.dir ks)) Q ⟨h, some (N - k), t⟩ := by
  induction ks generalizing S h k t with
  | nil => exact ok S h k t hR hT hS.done rfl (fun e he => by simpa using he) rfl (.refl _ k)
  | cons e ks ih =>
    obtain ⟨x, n, hturn, hnext⟩ := hS.next
    have hvirt := hturn.virt
    have hsize := hturn.size
    have hbound := hturn.bound
    have hrange := hturn.range
    rw [mapKernel, wp_force_bind, mappages_eq (by omega) hsize (by omega)]
    refine wp_force_mapLoop n hR hturn.kernel hbound hvirt ?_ ?_ ?_
    · intro u hu hun
      rw [hturn.free u hu hun]
      exact not_present_zero
    · intro i S' h' l c' t' hR' hTook hi h1 h2 hl
      rw [if_neg (by simp)]
      obtain ⟨_, hM⟩ := hTook.mapped t
      have habs := (hM.kernelTabs hT hrange).lt_absentTabs hi (by
        unfold USERPAGES at hrange
        omega)
      have hcount := hTook.count
      exact fail S' h' l c' t' hR' hTook.clear.1 (by omega) hTook.clear.2 hl
    · intro S₁ h₁ k₁ t₁ hR₁ hTook
      obtain ⟨_, hM⟩ := hTook.mapped t
      have hcount := hTook.count
      obtain ⟨hle, hclear⟩ := hTook.clear
      rw [if_pos rfl, ← hM.grown.dir]
      refine ih hR₁ (hM.kernelTabs hT hrange) (hnext hM) ?_ ?_
      · intro S' h' l c' t' hR' h1 h2 hc hl
        exact fail S' h' l c' t' hR' (by omega) (by omega) (hclear.trans hc) hl
      · intro S' h' k' t' hR' hT' hS' hd hall hc' hclear'
        refine ok S' h' k' t' hR' hT' hS' (hd.trans hM.grown.dir) (fun e' he => hall e' ?_)
          (by omega) (hclear.trans hclear')
        rcases he with he | he
        · rcases List.mem_cons.1 he with rfl | he
          · exact .inr (hturn.holds hM)
          · exact .inl he
        · exact .inr (he.map hturn hM)

/-- `setupkvm` takes a directory and 64 page tables. -/
def setupPlan : List Need := .page :: List.replicate 64 .table

theorem KernelSpace.absentTabs_eq (hS : KernelSpace S) (hR : Rep K S h) (hT : KernelTabs S) :
    S.absentTabs = 960 := by
  refine le_antisymm ?_ hT.le_absentTabs
  have hmem : ∀ i, 512 ≤ i ∧ i < 568 ∨ 1016 ≤ i ∧ i < 1024 → S.tab i ≠ none := by
    rintro i (⟨h1, h2⟩ | ⟨h1, h2⟩)
    · have := tab_ne_none_of_present hR (hS.page (q := 1024 * (i - 512)) (by omega)).1
      rwa [show (USERPAGES + 1024 * (i - 512)) / 1024 = i by unfold USERPAGES; omega] at this
    · have := tab_ne_none_of_present hR (hS.dev (v := 1024 * i) (by omega) (by omega))
      rwa [Nat.mul_div_cancel_left _ (by norm_num)] at this
  have hsub : Finset.Ico 512 568 ∪ Finset.Ico 1016 1024 ⊆
      (Finset.range 1024).filter (¬ S.tab · = none) := by
    intro i hi
    simp only [Finset.mem_union, Finset.mem_Ico] at hi
    exact Finset.mem_filter.2 ⟨Finset.mem_range.2 (by omega), hmem i hi⟩
  have hdisj : Disjoint (Finset.Ico 512 568) (Finset.Ico 1016 1024) := by
    rw [Finset.disjoint_left]
    intro i h1 h2
    rw [Finset.mem_Ico] at h1 h2
    omega
  have hcard := Finset.card_le_card hsub
  rw [Finset.card_union_of_disjoint hdisj] at hcard
  have hall := Finset.card_filter_add_card_filter_not (s := Finset.range 1024) (S.tab · = none)
  simp only [card_Ico, Finset.card_range] at hcard hall
  unfold Space.absentTabs
  omega

/-- **`setupkvm`**: a new space; or no directory, and nothing was taken; or a page table was
refused, and what was taken is nobody's. -/
theorem wp_force_setupkvm {Q : Post (Option Nat × Nat)}
    (fail : Short fails N k → Q (none, k + 1) ⟨empty, some (N - k), t⟩)
    (lost : ∀ S h' l c' t', Rep K S h' → ¬ Short fails N k → k < l → l < k + 65 →
      Clear (Short fails N) k l → Short fails N l → Q (none, l + 1) ⟨h', c', t'⟩)
    (ok : ∀ S h' t', Rep K S h' → KernelSpace S → (∀ e ∈ kmap K, e.Holds S) →
      Clear (Short fails N) k (k + 65) →
      Q (some S.dir, k + 65) ⟨h', some (N - (k + 65)), t'⟩) :
    wp (ctx K stop) F (force fails k (setupkvm K)) Q ⟨empty, some (N - k), t⟩ := by
  rw [setupkvm, wp_force_bind]
  refine wp_force_kalloc fail fun hk d f hm _ => ?_
  rw [wp_force_bind, wp_force_quiet (quiet_write _ _)]
  refine wp_write (put_self _ _ _) ?_
  rw [if_neg (by decide), wp_force_bind]
  simp only [put_put]
  rw [show (put empty d (filled 0) : Heap Nat Frame) = single d (filled 0) from rfl,
    show d = (Space.new d).dir from rfl]
  have habs : (Space.new d).absentTabs = 1024 := by
    simp [Space.absentTabs, Space.new]
  refine wp_force_mapKernel (.new hm) (fun _ h => absurd rfl h) (.inl ⟨rfl, .new d⟩) ?_ ?_
  · intro S' h' l c' t' hR' h1 h2 hc hl
    rw [if_neg (by simp)]
    exact lost S' h' l c' t' hR' hk (by omega) (by omega) ((clear_one hk).trans hc) hl
  · intro S' h' k' t' hR' hT hS hd hall hcount hc
    have := hS.absentTabs_eq hR' hT
    obtain rfl : k' = k + 65 := by omega
    rw [if_pos rfl, ← hd]
    exact ok S' h' t' hR' hS (fun e he => hall e (.inl he)) ((clear_one hk).trans hc)

end Kernel

end Xv6.Vm
