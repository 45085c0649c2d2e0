import Mathlib.Data.Finset.Filter
import Mathlib.Data.Finset.Range
import Mathlib.Order.Interval.Finset.Nat
import OperatingSystems.Vm.Space

/-!
# Walking and mapping

The programs of `vm.c` that walk and extend a page directory, specified by what they do
to its address space.  An allocation may fail at any time; if the number of free pages
is known, it fails when there are none.

* `wp_walkpgdir`, `wp_walkAlloc` — `walkpgdir`.
* `Grown` — a space has got page tables and pages, and the record of it is complete.
* `wp_mapLoop`, `mappages_eq` — `mappages` on the kernel's part.
* `wp_setupkvm` — **a new space, with the kernel's entries and nothing for the user**.
-/

namespace Xv6.Vm

open Cmd Heap Nat

/-! ## Single steps -/

variable {addr perm : UInt32}

section Wp

variable {K : Layout} {stop : List Ev → Prop} {F : String → List Ev → Prop}
  {L : Local Nat Frame Ev} {p i : Nat} {f : Frame} {X : Ctx Nat Ev}

/-- What the specifications take for granted. -/
abbrev ctx (K : Layout) (stop : List Ev → Prop) : Ctx Nat Ev := ⟨Managed K, stop⟩

/-- What a specification says of the result and of the pages a program then has. -/
abbrev Post (α : Type) : Type := α → Local Nat Frame Ev → Prop

theorem wp_read {Q : Post UInt32}
    (hp : L.heap p = some f) (hQ : Q (entry f i) L) : wp X F (read p i) Q L :=
  wp_get hp hQ

theorem wp_write {Q : Post Unit} {g : Frame → Frame} (hp : L.heap p = some f)
    (hQ : Q () { L with heap := L.heap.put p (g f) }) : wp X F (write p g) Q L :=
  wp_update hp hQ

theorem wp_record {Q : Post Unit} {e : Ev}
    (hQ : Q () { L with trace := e :: L.trace }) : wp (ctx K stop) F (record e) Q L :=
  .inr hQ

theorem wp_kalloc {Q : Post (Option Nat)} (fail : L.MayFail → Q none L)
    (ok : L.credit ≠ some 0 → ∀ p f, Managed K p → L.heap p = none →
      Q (some p) { L with heap := L.heap.put p f, credit := L.credit.map (· - 1) }) :
    wp (ctx K stop) F kalloc Q L :=
  ⟨fail, ok⟩

theorem wp_kfree {Q : Post Unit} (hm : Managed K p) (hp : L.heap p = some f)
    (hQ : Q () { L with heap := L.heap.erase p, credit := L.credit.map (· + 1) }) :
    wp (ctx K stop) F (kfree K p) Q L := by
  have hok : ¬ (p < K.first ∨ pageAt PHYSTOP ≤ p) := by
    have h1 := hm.1
    have h2 := hm.2
    omega
  rw [kfree, if_neg hok]
  exact ⟨hm, by simp [hp], hQ⟩

/-- `freerange`. -/
theorem wp_freerange {Q : Post Unit} (n : Nat) {p : Nat}
    {h : Heap Nat Frame} {c : Option Nat} {t : List Ev}
    (hown : ∀ q, p ≤ q → q < p + n → Managed K q ∧ ∃ f, h q = some f)
    (ok : ∀ h', (∀ q, q < p ∨ p + n ≤ q → h' q = h q) →
      (∀ q, p ≤ q → q < p + n → h' q = none) → Q () ⟨h', c.map (· + n), t⟩) :
    wp (ctx K stop) F (freerange K p n) Q ⟨h, c, t⟩ := by
  induction n generalizing p h c with
  | zero =>
    have hc : c.map (· + 0) = c := by simp
    rw [← hc]
    exact ok h (fun _ _ => rfl) fun q h1 h2 => by omega
  | succ n ih =>
    obtain ⟨hm, f, hf⟩ := hown p (le_refl p) (by omega)
    rw [freerange, wp_bind]
    refine wp_kfree hm hf (ih ?_ ?_)
    · intro q h1 h2
      rw [erase_of_ne _ (by omega)]
      exact hown q (by omega) (by omega)
    · intro h' hout hin
      have hc : (c.map (· + 1)).map (· + n) = c.map (· + (n + 1)) := by
        cases c with
        | none => rfl
        | some k => simp only [Option.map_some]; congr 1; omega
      rw [hc]
      refine ok h' (fun q hq => ?_) fun q h1 h2 => ?_
      · rw [hout q (by omega), erase_of_ne _ (by omega)]
      · by_cases hq : q = p
        · rw [hq, hout p (by omega), erase_self]
        · exact hin q (by omega) (by omega)

/-! ## Walking -/

variable {S : Space} {h : Heap Nat Frame} {c : Option Nat} {t : List Ev} {va : UInt32}
  {Q : Post (Option (Nat × Nat))} {t' : List Ev} {c' : Option Nat}

theorem PDX_lt (va : UInt32) : PDX va < 1024 := by
  have := va.toNat_lt
  rw [PDX_eq]
  omega

theorem PTX_lt (va : UInt32) : PTX va < 1024 := by
  rw [PTX_eq]
  omega

/-- `walkpgdir` finds the page table, or adds it if it is asked to and there is a page,
or fails. -/
theorem wp_walkpgdir {alloc : Bool} (hR : Rep K S h)
    (found : ∀ T, S.tab (PDX va) = some T → Q (some (T, PTX va)) ⟨h, c, t⟩)
    (fail : S.tab (PDX va) = none → (alloc = true → c = none ∨ c = some 0) → Q none ⟨h, c, t⟩)
    (add : S.tab (PDX va) = none → alloc = true → c ≠ some 0 → ∀ T h',
      Rep K (S.addTab (PDX va) T) h' →
      Q (some (T, PTX va)) ⟨h', c.map (· - 1), .table S.dir (PDX va) :: t⟩) :
    wp (ctx K stop) F (walkpgdir S.dir va alloc) Q ⟨h, c, t⟩ := by
  obtain ⟨f, hf⟩ := hR.own (a := .dir) rfl
  rw [walkpgdir, wp_bind]
  refine wp_read hf ?_
  rw [hR.dir_entry hf (PDX_lt va)]
  cases hT : S.tab (PDX va) with
  | some T =>
    have hlt := (hR.managed (a := .tab (PDX va)) hT).lt
    rw [if_pos (present_pdeOf (by omega)), ptePage_pdeOf (by omega)]
    exact found T hT
  | none =>
    rw [if_neg (show ¬ Present (pdeOf none) from not_present_zero)]
    cases alloc with
    | false =>
      rw [if_pos rfl]
      exact fail hT (by simp)
    | true =>
      rw [if_neg (by simp), wp_bind]
      refine wp_kalloc (fun hf => fail hT fun _ => hf) fun hc T g hm hfree => ?_
      have hne : S.dir ≠ T := by
        rintro heq
        rw [heq] at hf
        rw [show h T = none from hfree] at hf
        cases hf
      simp only [wp_bind]
      refine wp_write (put_self _ _ _) (wp_write (f := f) ?_ (wp_record ?_))
      · simp only
        rw [put_of_ne _ _ hne, put_of_ne _ _ hne]
        exact hf
      · refine add hT rfl hc T _ ?_
        simp only [put_put]
        exact hR.addTab (PDX_lt va) hT hm hfree hf

theorem wp_walkRead (hR : Rep K S h)
    (hs : h.Sub L.heap) (found : ∀ T, S.tab (PDX va) = some T → Q (some (T, PTX va)) L)
    (fail : S.tab (PDX va) = none → Q none L) : wp X F (walkpgdir S.dir va false) Q L := by
  obtain ⟨f, hf⟩ := hR.own (a := .dir) rfl
  rw [walkpgdir, wp_bind]
  refine wp_read (hs _ _ hf) ?_
  rw [hR.dir_entry hf (PDX_lt va)]
  cases hT : S.tab (PDX va) with
  | some T =>
    have hlt := (hR.managed (a := .tab (PDX va)) hT).lt
    rw [if_pos (present_pdeOf (by omega)), ptePage_pdeOf (by omega)]
    exact found T hT
  | none =>
    rw [if_neg (show ¬ Present (pdeOf none) from not_present_zero), if_pos rfl]
    exact fail hT

theorem wp_entryRead {Q : Post UInt32} {T : Nat}
    (hR : Rep K S h) (hs : h.Sub L.heap) (hT : S.tab (PDX va) = some T)
    (hQ : Q (S.pte (va.toNat / 4096)) L) : wp X F (read T (PTX va)) Q L := by
  obtain ⟨f, hf⟩ := hR.own (a := .tab (PDX va)) hT
  refine wp_read (hs _ _ hf) ?_
  rw [hR.tab_entry hT hf (PTX_lt va), show 1024 * PDX va + PTX va = va.toNat / 4096 by
    rw [PDX_eq, PTX_eq]; omega]
  exact hQ

/-! ## Mapping -/

/-- An event of `vm.c`. -/
def Ev.Paging : Ev → Prop
  | .table _ _ => True
  | .uvm _ _ _ => True
  | _ => False

/-- Since the trace `t`, there were events of `vm.c` only. -/
def PagingSince (t t' : List Ev) : Prop := ∃ new, t' = new ++ t ∧ ∀ e ∈ new, e.Paging

theorem PagingSince.refl (t : List Ev) : PagingSince t t := ⟨[], rfl, by simp⟩

theorem PagingSince.cons {e : Ev} (he : e.Paging) : PagingSince t (e :: t) :=
  ⟨[e], rfl, by simpa using he⟩

theorem PagingSince.trans {t₁ t₂ t₃ : List Ev} (h₁ : PagingSince t₁ t₂)
    (h₂ : PagingSince t₂ t₃) : PagingSince t₁ t₃ := by
  obtain ⟨new₁, rfl, hp₁⟩ := h₁
  obtain ⟨new₂, rfl, hp₂⟩ := h₂
  refine ⟨new₂ ++ new₁, by simp, fun e he => ?_⟩
  rcases List.mem_append.1 he with he | he
  · exact hp₂ e he
  · exact hp₁ e he

theorem PagingSince.mem (h : PagingSince t t') {e : Ev} (he : e ∈ t) : e ∈ t' := by
  obtain ⟨new, rfl, -⟩ := h
  exact List.mem_append_right new he

/-- How many page tables a space has not got. -/
def Space.absentTabs (S : Space) : Nat := ((Finset.range 1024).filter (S.tab · = none)).card

theorem Space.absentTabs_addTab {i T : Nat} (hi : i < 1024) (hnone : S.tab i = none) :
    (S.addTab i T).absentTabs + 1 = S.absentTabs := by
  have hset : (Finset.range 1024).filter ((S.addTab i T).tab · = none) =
      ((Finset.range 1024).filter (S.tab · = none)).erase i := by
    ext j
    by_cases hj : j = i
    · simp [hj]
    · simp [S.tab_addTab_of_ne T hj, hj]
  unfold Space.absentTabs
  rw [hset, Finset.card_erase_add_one]
  simp [hi, hnone]

theorem Space.absentTabs_le (S : Space) : S.absentTabs ≤ 1024 :=
  (Finset.card_filter_le _ _).trans (by simp)

/-- A space has got more page tables, and a page each for some of the pages from `lo` to
`hi`. -/
structure Grown (lo hi : Nat) (S : Space) (c : Option Nat) (t : List Ev)
    (S' : Space) (c' : Option Nat) (t' : List Ev) : Prop where
  le : lo ≤ hi
  dir : S'.dir = S.dir
  tab : ∀ {i T : Nat}, S.tab i = some T → S'.tab i = some T
  unknown : c = none → c' = none
  /-- Pages were used for these only. -/
  credit : ∀ {n : Nat}, c = some n → ∃ n', c' = some n' ∧ n' ≤ n ∧
    n + S'.absentTabs ≤ n' + S.absentTabs + (hi - lo)
  trace : PagingSince t t'
  tables : ∀ i, .table S.dir i ∈ t' ↔ .table S.dir i ∈ t ∨ (S.tab i = none ∧ S'.tab i ≠ none)
  uvm : ∀ {d : Nat} {va : UInt32} {p : Nat}, .uvm d va p ∈ t' → .uvm d va p ∈ t ∨
    (d = S.dir ∧ lo ≤ va.toNat / 4096 ∧ va.toNat / 4096 < hi)

namespace Grown

variable {lo mid hi : Nat} {S₁ S₂ S₃ : Space} {c₁ c₂ c₃ : Option Nat} {t₁ t₂ t₃ : List Ev}

theorem refl (v : Nat) : Grown v v S c t S c t where
  le := le_refl v
  dir := rfl
  tab h := h
  unknown h := h
  credit h := ⟨_, h, by omega, by omega⟩
  trace := .refl t
  tables i := by simp only [ne_eq, iff_self_or]; exact fun h => absurd h.1 h.2
  uvm h := .inl h

theorem trans (h₁ : Grown lo mid S₁ c₁ t₁ S₂ c₂ t₂) (h₂ : Grown mid hi S₂ c₂ t₂ S₃ c₃ t₃) :
    Grown lo hi S₁ c₁ t₁ S₃ c₃ t₃ where
  le := h₁.le.trans h₂.le
  dir := h₂.dir.trans h₁.dir
  tab h := h₂.tab (h₁.tab h)
  unknown h := h₂.unknown (h₁.unknown h)
  credit := by
    intro n hn
    obtain ⟨n₂, hn₂, hle₂, hc₂⟩ := h₁.credit hn
    obtain ⟨n₃, hn₃, hle₃, hc₃⟩ := h₂.credit hn₂
    have := h₁.le
    have := h₂.le
    exact ⟨n₃, hn₃, by omega, by omega⟩
  trace := h₁.trace.trans h₂.trace
  tables := by
    intro i
    have e₂ := h₂.tables i
    rw [h₁.dir] at e₂
    rw [e₂, h₁.tables i]
    cases h1 : S₁.tab i with
    | some T => simp [h₁.tab h1]
    | none =>
      cases h2 : S₂.tab i with
      | some T => simp [h₂.tab h2]
      | none => simp
  uvm := by
    intro d va p h
    have := h₁.le
    have := h₂.le
    rcases h₂.uvm h with h | ⟨hd, hlo, hhi⟩
    · exact (h₁.uvm h).imp id fun ⟨hd, hlo, hhi⟩ => ⟨hd, hlo, by omega⟩
    · exact .inr ⟨hd.trans h₁.dir, by omega, hhi⟩

theorem shift (h : Grown mid mid S₁ c₁ t₁ S₂ c₂ t₂) (v : Nat) : Grown v v S₁ c₁ t₁ S₂ c₂ t₂ where
  le := le_refl v
  dir := h.dir
  tab := h.tab
  unknown := h.unknown
  credit hn := by
    obtain ⟨n', hn', hle, hc⟩ := h.credit hn
    exact ⟨n', hn', hle, by omega⟩
  trace := h.trace
  tables := h.tables
  uvm hu := .inl ((h.uvm hu).resolve_right fun ⟨_, h1, h2⟩ => by omega)

/-- No page table is added, and entries may be set. -/
theorem of_tab_eq (v : Nat) {S' : Space} (hd : S'.dir = S.dir) (ht : S'.tab = S.tab) :
    Grown v v S c t S' c t where
  le := le_refl v
  dir := hd
  tab h := by rw [ht]; exact h
  unknown h := h
  credit h := ⟨_, h, by omega, by simp [Space.absentTabs, ht]⟩
  trace := .refl t
  tables i := by rw [ht]; simp only [ne_eq, iff_self_or]; exact fun h => absurd h.1 h.2
  uvm h := .inl h

theorem addTab (v : Nat) {i T : Nat} (hi : i < 1024) (hnone : S.tab i = none) (hc : c ≠ some 0) :
    Grown v v S c t (S.addTab i T) (c.map (· - 1)) (.table S.dir i :: t) where
  le := le_refl v
  dir := rfl
  tab := by
    intro j U hj
    rw [S.tab_addTab_of_ne]
    · exact hj
    · rintro rfl
      rw [hnone] at hj
      cases hj
  unknown h := by rw [h]; rfl
  credit := by
    intro n hn
    have hadd := S.absentTabs_addTab (T := T) hi hnone
    have hpos : n ≠ 0 := fun h => hc (by rw [hn, h])
    exact ⟨n - 1, by rw [hn]; rfl, by omega, by omega⟩
  trace := .cons trivial
  tables := by
    intro j
    by_cases hj : j = i
    · simp [hj, hnone]
    · simp only [List.mem_cons, Ev.table.injEq, hj, and_false, false_or,
        S.tab_addTab_of_ne T hj, ne_eq, iff_self_or]
      exact fun h => absurd h.1 h.2
  uvm := by
    intro d va p h
    exact .inl (by simpa using h)

end Grown

/-- The entry `mappages` makes for the `j`th page of a range. -/
def mapped (addr perm : UInt32) (j : Nat) : UInt32 :=
  (addr + UInt32.ofNat (4096 * j)) ||| perm ||| PTE_P

theorem mapped_zero (addr perm : UInt32) : mapped addr perm 0 = addr ||| perm ||| PTE_P := by
  rw [mapped, show UInt32.ofNat (4096 * 0) = 0 from rfl, UInt32.add_zero]

theorem mapped_succ (addr perm : UInt32) (j : Nat) :
    mapped addr perm (j + 1) = mapped (addr + 4096) perm j := by
  rw [mapped, mapped, Nat.mul_succ, Nat.add_comm, UInt32.ofNat_add, UInt32.add_assoc]
  rfl

/-- What mapping the pages from `v` to `v + n` has done; `b` says whether all of it. -/
structure Mapped (v n : Nat) (addr perm : UInt32) (b : Bool) (S : Space) (c : Option Nat)
    (t : List Ev) (S' : Space) (c' : Option Nat) (t' : List Ev) : Prop where
  grown : Grown v v S c t S' c' t'
  mem : S'.mem = S.mem
  outside : ∀ {u : Nat}, u < v ∨ v + n < u → S'.pte u = S.pte u
  inside : b = true → ∀ j, j ≤ n → S'.pte (v + j) = mapped addr perm j
  fail : b = false → c' = none ∨ c' = some 0
  only : ∀ {i : Nat}, S.tab i = none → S'.tab i ≠ none → v / 1024 ≤ i ∧ i ≤ (v + n) / 1024

theorem mem_setPte_same (S : Space) (v : Nat) (w : UInt32) :
    (S.setPte v w (S.mem v)).mem = S.mem := by
  funext u
  by_cases hu : u = v
  · rw [hu, S.mem_setPte_self]
  · rw [S.mem_setPte_of_ne w _ hu]

theorem toNat_entry (ha : addr.toNat % 4096 = 0) (hp : perm.toNat < 4096)
    (hodd : perm.toNat % 2 = 0) :
    (addr ||| perm ||| PTE_P).toNat = addr.toNat + perm.toNat + 1 := by
  have h1 : PTE_P.toNat = 1 := rfl
  have hpp : (perm ||| PTE_P).toNat = perm.toNat + 1 := by
    rw [UInt32.toNat_or, h1]
    have h := two_pow_add_eq_or_of_lt (i := 1) (b := 1) (by norm_num) (perm.toNat / 2)
    rw [show 2 ^ 1 * (perm.toNat / 2) = perm.toNat by omega] at h
    exact h.symm
  rw [UInt32.or_assoc, toNat_or_of_lt ha (by omega), hpp]
  omega

theorem present_or_P (w : UInt32) : Present (w ||| PTE_P) := by
  rw [present_iff, UInt32.toNat_or]
  have h1 : PTE_P.toNat = 1 := rfl
  rw [h1, or_mod_two_eq_one]
  exact .inr rfl

/-- What `walkpgdir` has done when it was to find or add page table `i`. -/
structure Walked (i T : Nat) (S : Space) (c : Option Nat) (t : List Ev)
    (S' : Space) (c' : Option Nat) (t' : List Ev) : Prop where
  grown : ∀ v, Grown v v S c t S' c' t'
  pte : S'.pte = S.pte
  mem : S'.mem = S.mem
  tab : S'.tab i = some T
  only : ∀ {j : Nat}, S.tab j = none → S'.tab j ≠ none → j = i

/-- `walkpgdir`, when it may add a page table. -/
theorem wp_walkAlloc (hR : Rep K S h)
    (fail : S.tab (PDX va) = none → c = none ∨ c = some 0 → Q none ⟨h, c, t⟩)
    (ok : ∀ T S' h' c' t', Rep K S' h' → Walked (PDX va) T S c t S' c' t' →
      Q (some (T, PTX va)) ⟨h', c', t'⟩) :
    wp (ctx K stop) F (walkpgdir S.dir va true) Q ⟨h, c, t⟩ := by
  refine wp_walkpgdir hR ?_ (fun hT hc => fail hT (hc rfl)) ?_
  · intro T hT
    exact ok T S h c t hR ⟨.refl, rfl, rfl, hT, fun h1 h2 => absurd h1 h2⟩
  · intro hT _ hc T h' hR'
    refine ok T _ h' _ _ hR'
      ⟨fun v => .addTab v (PDX_lt va) hT hc, rfl, rfl, S.tab_addTab_self _ _, ?_⟩
    intro j h1 h2
    by_contra hj
    rw [S.tab_addTab_of_ne T hj] at h2
    exact h2 h1

theorem wp_mapPage {w : UInt32} {Q : Post Bool} (hR : Rep K S h)
    (hv : USERPAGES ≤ va.toNat / 4096) (hw : Present w)
    (hnp : ¬ Present (S.pte (va.toNat / 4096)))
    (fail : c = none ∨ c = some 0 → Q false ⟨h, c, t⟩)
    (ok : ∀ T S₁ h' c' t', Walked (PDX va) T S c t S₁ c' t' →
      Rep K (S₁.setPte (va.toNat / 4096) w (S₁.mem (va.toNat / 4096))) h' →
      Q true ⟨h', c', t'⟩) :
    wp (ctx K stop) F (mapPage S.dir va w) Q ⟨h, c, t⟩ := by
  have hi := PDX_eq va
  have hj := PTX_eq va
  rw [mapPage, wp_bind]
  refine wp_walkAlloc hR (fun _ hc => fail hc) fun T S₁ h₁ c₁ t₁ hR₁ hW => ?_
  obtain ⟨f, hf⟩ := hR₁.own (a := .tab (PDX va)) hW.tab
  simp only [wp_bind]
  refine wp_read hf ?_
  rw [hR₁.tab_entry hW.tab hf (PTX_lt va), hW.pte,
    show 1024 * PDX va + PTX va = va.toNat / 4096 by omega, if_neg hnp, wp_bind]
  refine wp_write hf (ok T S₁ _ c₁ t₁ hW ?_)
  rw [hj]
  exact hR₁.setKernel hv (hi ▸ hW.tab) hf fun h => absurd hw h

theorem Mapped.nothing {v n : Nat} (hf : c = none ∨ c = some 0) :
    Mapped v n addr perm false S c t S c t :=
  ⟨.refl v, rfl, fun _ => rfl, by simp, fun _ => hf, fun h1 h2 => absurd h1 h2⟩

theorem Mapped.last {v T : Nat} {S₁ : Space} (hW : Walked (v / 1024) T S c t S₁ c' t') :
    Mapped v 0 addr perm true S c t (S₁.setPte v (addr ||| perm ||| PTE_P) (S₁.mem v)) c' t' where
  grown := (hW.grown v).trans (.of_tab_eq v rfl rfl)
  mem := by rw [mem_setPte_same, hW.mem]
  outside := by
    intro u hu
    rw [S₁.pte_setPte_of_ne _ _ (by omega), hW.pte]
  inside := by
    intro _ j hj
    obtain rfl : j = 0 := by omega
    rw [add_zero, S₁.pte_setPte_self, mapped_zero]
  fail hb := by cases hb
  only := by
    intro i h1 h2
    have := hW.only h1 h2
    omega

theorem Mapped.cons {v n T : Nat} {b : Bool} {S₁ S' : Space}
    {c₁ c' : Option Nat} {t₁ t' : List Ev} (hW : Walked (v / 1024) T S c t S₁ c₁ t₁)
    (hM : Mapped (v + 1) n (addr + 4096) perm b
      (S₁.setPte v (addr ||| perm ||| PTE_P) (S₁.mem v)) c₁ t₁ S' c' t') :
    Mapped v (n + 1) addr perm b S c t S' c' t' where
  grown := by
    have hset : Grown v v S₁ c₁ t₁ (S₁.setPte v (addr ||| perm ||| PTE_P) (S₁.mem v)) c₁ t₁ :=
      .of_tab_eq v rfl rfl
    exact ((hW.grown v).trans hset).trans (hM.grown.shift v)
  mem := by rw [hM.mem, mem_setPte_same, hW.mem]
  outside := by
    intro u hu
    rw [hM.outside (by omega), S₁.pte_setPte_of_ne _ _ (by omega), hW.pte]
  inside := by
    intro hb j hj
    cases j with
    | zero => rw [add_zero, hM.outside (by omega), S₁.pte_setPte_self, mapped_zero]
    | succ j =>
      rw [show v + (j + 1) = v + 1 + j by omega, hM.inside hb j (by omega), mapped_succ]
  fail := hM.fail
  only := by
    intro i h1 h2
    by_cases h3 : S₁.tab i = none
    · have := hM.only h3 h2
      omega
    · have := hW.only h1 h3
      omega

theorem wp_mapLoop {perm : UInt32} {Q : Post Bool} (n : Nat) {v : Nat}
    {a addr : UInt32} (hR : Rep K S h) (hv : USERPAGES ≤ v) (hvn : v + n < 2 ^ 20)
    (ha : a.toNat = 4096 * v)
    (hnp : ∀ u, v ≤ u → u ≤ v + n → ¬ Present (S.pte u))
    (ok : ∀ b S' h' c' t', Rep K S' h' → Mapped v n addr perm b S c t S' c' t' → Q b ⟨h', c', t'⟩) :
    wp (ctx K stop) F (mapLoop S.dir perm n a addr) Q ⟨h, c, t⟩ := by
  have hpage : a.toNat / 4096 = v := by omega
  have hpdx : PDX a = v / 1024 := by rw [PDX_eq, hpage]
  induction n generalizing S h c t v a addr with
  | zero =>
    rw [mapLoop]
    refine wp_mapPage hR (by omega) (present_or_P _) (hpage ▸ hnp v (by omega) (by omega))
      (fun hc => ok false S h c t hR (.nothing hc)) ?_
    intro T S₁ h' c' t' hW hR'
    rw [hpage] at hR'
    rw [hpdx] at hW
    exact ok true _ h' c' t' hR' (.last hW)
  | succ n ih =>
    rw [mapLoop, wp_bind]
    refine wp_mapPage hR (by omega) (present_or_P _) (hpage ▸ hnp v (by omega) (by omega)) ?_ ?_
    · intro hc
      rw [if_neg (by simp)]
      exact ok false S h c t hR (.nothing hc)
    · intro T S₁ h' c' t' hW hR'
      rw [hpage] at hR'
      rw [hpdx] at hW
      have hnext := toNat_add_page ha (by omega)
      rw [if_pos rfl, ← (hW.grown v).dir, ← S₁.dir_setPte v (addr ||| perm ||| PTE_P) (S₁.mem v)]
      refine ih hR' (by omega) (by omega) hnext ?_
        (fun b S' h'' c'' t'' hR'' hM => ok b S' h'' c'' t'' hR'' (.cons hW hM)) (by omega)
        (by rw [PDX_eq]; omega)
      intro u h1 h2
      rw [S₁.pte_setPte_of_ne _ _ (by omega), hW.pte]
      exact hnp u (by omega) (by omega)

theorem mappages_eq_of_lt {pgdir n : Nat} {size addr perm : UInt32} (hva : va.toNat % 4096 = 0)
    (hlo : 4096 * n < size.toNat) (hhi : size.toNat ≤ 4096 * (n + 1))
    (hend : va.toNat + size.toNat ≤ 2 ^ 32) :
    mappages pgdir va size addr perm = mapLoop pgdir perm n va addr := by
  have h1 : UInt32.toNat 1 = 1 := rfl
  have hlast : (PGROUNDDOWN (va + size - 1)).toNat = va.toNat + 4096 * n := by
    rw [toNat_PGROUNDDOWN, UInt32.toNat_sub, UInt32.toNat_add, h1]
    omega
  have hn : (PGROUNDDOWN (va + size - 1) - va).toNat / PGSIZE = n := by
    rw [UInt32.toNat_sub, hlast, PGSIZE]
    omega
  simp only [mappages, PGROUNDDOWN_eq_self hva, hn]

theorem mappages_eq {pgdir n : Nat} {size addr perm : UInt32} (hva : va.toNat % 4096 = 0)
    (hsize : size.toNat = 4096 * (n + 1)) (hend : va.toNat + size.toNat ≤ 2 ^ 32) :
    mappages pgdir va size addr perm = mapLoop pgdir perm n va addr :=
  mappages_eq_of_lt hva (by omega) (by omega) hend

/-! ## The kernel's part -/

theorem user_iff (w : UInt32) : w &&& PTE_U = 0 ↔ w.toNat / 4 % 2 = 0 := by
  have h4 : PTE_U.toNat = 2 ^ 2 := rfl
  have h0 : UInt32.toNat 0 = 0 := rfl
  rw [← UInt32.toNat_inj, UInt32.toNat_and, h4, h0, and_two_pow]
  have hbit := testBit_eq_decide_div_mod_eq (x := w.toNat) (i := 2)
  rw [hbit]
  by_cases h : w.toNat / 2 ^ 2 % 2 = 1
  · simp only [h, decide_true, Bool.toNat_true]
    omega
  · simp only [h, decide_false, Bool.toNat_false]
    omega

/-- A space in which only the kernel's pages up to `x` are mapped. -/
structure KernelUpTo (x : Nat) (S : Space) : Prop where
  pte : ∀ {v : Nat}, v < USERPAGES ∨ x ≤ v → S.pte v = 0
  /-- No page is for the user. -/
  flag : ∀ v, S.pte v &&& PTE_U = 0
  tab : ∀ {i : Nat}, S.tab i ≠ none → 512 ≤ i ∧ 1024 * i < x
  /-- Memory is mapped in order. -/
  page : ∀ {q : Nat}, USERPAGES + q < x → Present (S.pte (USERPAGES + q)) ∧
    ptePage (S.pte (USERPAGES + q)) = q

theorem KernelUpTo.new (p : Nat) : KernelUpTo USERPAGES (Space.new p) where
  pte _ := rfl
  flag _ := by simp [Space.new]
  tab h := absurd rfl h
  page h := by omega

theorem toNat_mapped {a j : Nat} (haddr : addr.toNat = 4096 * a)
    (hj : a + j < 2 ^ 20) (hperm : perm = 0 ∨ perm = PTE_W) :
    (mapped addr perm j).toNat = 4096 * (a + j) + perm.toNat + 1 ∧ perm.toNat ≤ 2 := by
  have hperm' : perm.toNat = 0 ∨ perm.toNat = 2 := by
    rcases hperm with rfl | rfl
    · exact .inl rfl
    · exact .inr rfl
  have hsum : (addr + UInt32.ofNat (4096 * j)).toNat = 4096 * (a + j) := by
    rw [UInt32.toNat_add, UInt32.toNat_ofNat', haddr]
    omega
  rw [mapped, toNat_entry (by omega) (by omega) (by omega), hsum]
  exact ⟨rfl, by omega⟩

/-- The next pages of memory are mapped. -/
theorem KernelUpTo.map {a n : Nat} {S' : Space}
    (hK : KernelUpTo (USERPAGES + a) S) (haddr : addr.toNat = 4096 * a)
    (hend : a + n < 2 ^ 20) (hperm : perm = 0 ∨ perm = PTE_W)
    (hM : Mapped (USERPAGES + a) n addr perm true S c t S' c' t') :
    KernelUpTo (USERPAGES + (a + n + 1)) S' where
  pte := by
    intro v hv
    rw [hM.outside (by omega)]
    exact hK.pte (by omega)
  flag := by
    intro v
    by_cases hv : v < USERPAGES + a ∨ USERPAGES + a + n < v
    · rw [hM.outside hv]
      exact hK.flag v
    · obtain ⟨j, rfl⟩ : ∃ j, v = USERPAGES + a + j := ⟨v - (USERPAGES + a), by omega⟩
      have hval := toNat_mapped (j := j) haddr (by omega) hperm
      rw [hM.inside rfl j (by omega), user_iff]
      omega
  tab := by
    intro i hi
    unfold USERPAGES at *
    by_cases h : S.tab i = none
    · have := hM.only h hi
      omega
    · have := hK.tab h
      omega
  page := by
    intro q hq
    by_cases hqa : q < a
    · rw [hM.outside (by omega)]
      exact hK.page (by omega)
    · obtain ⟨j, rfl⟩ : ∃ j, q = a + j := ⟨q - a, by omega⟩
      have hval := toNat_mapped (j := j) haddr (by omega) hperm
      rw [← add_assoc, hM.inside rfl j (by omega), ptePage_eq]
      exact ⟨present_or_P _, by omega⟩

/-- Page tables are there for memory and for the devices only. -/
def KernelTabs (S : Space) : Prop := ∀ i, S.tab i ≠ none → 512 ≤ i ∧ i < 568 ∨ 1016 ≤ i ∧ i < 1024

theorem KernelTabs.le_absentTabs (hS : KernelTabs S) : 960 ≤ S.absentTabs := by
  have hsub : (Finset.range 1024).filter (¬ S.tab · = none) ⊆
      Finset.Ico 512 568 ∪ Finset.Ico 1016 1024 := by
    intro i hi
    simp only [Finset.mem_union, Finset.mem_Ico]
    exact hS i (Finset.mem_filter.1 hi).2
  have hcard := (Finset.card_le_card hsub).trans (Finset.card_union_le _ _)
  have hall := Finset.card_filter_add_card_filter_not (s := Finset.range 1024) (S.tab · = none)
  simp only [card_Ico, Finset.card_range] at hcard hall
  unfold Space.absentTabs
  omega

/-- Mapping a range of memory, or the devices, adds such page tables only. -/
theorem Mapped.kernelTabs {x n : Nat} {b : Bool} {S' : Space}
    (hM : Mapped x n addr perm b S c t S' c' t')
    (hS : KernelTabs S)
    (hx : USERPAGES ≤ x ∧ x + n < USERPAGES + 57344 ∨ 0xFE000 ≤ x ∧ x + n < 2 ^ 20) :
    KernelTabs S' := by
  intro i hi
  unfold USERPAGES at hx
  by_cases h : S.tab i = none
  · have := hM.only h hi
    omega
  · exact hS i h

/-- A space as `setupkvm` makes it. -/
structure KernelSpace (S : Space) : Prop where
  user : ∀ {v : Nat}, v < USERPAGES → S.pte v = 0
  /-- No page is for the user. -/
  flag : ∀ v, S.pte v &&& PTE_U = 0
  low : ∀ {i : Nat}, i < 512 → S.tab i = none
  /-- Nothing is mapped between the end of memory and the devices. -/
  gap : ∀ {i : Nat}, 568 ≤ i → i < 1016 → S.tab i = none
  page : ∀ {q : Nat}, q < 57344 → Present (S.pte (USERPAGES + q)) ∧
    ptePage (S.pte (USERPAGES + q)) = q
  dev : ∀ {v : Nat}, 0xFE000 ≤ v → v < 2 ^ 20 → Present (S.pte v)

/-- The last entry of `kmap`, of the devices. -/
theorem KernelUpTo.kernelSpace {S' : Space} (hK : KernelUpTo (USERPAGES + 57344) S)
    (hM : Mapped 0xFE000 8191 DEVSPACE PTE_W true S c t S' c' t') : KernelSpace S' := by
  unfold USERPAGES at hK
  have htab : ∀ i, S'.tab i ≠ none → 512 ≤ i ∧ i < 568 ∨ 1016 ≤ i := by
    intro i hi
    by_cases h : S.tab i = none
    · have := hM.only h hi
      omega
    · have := hK.tab h
      omega
  refine ⟨?_, ?_, ?_, ?_, ?_, ?_⟩
  · intro v hv
    unfold USERPAGES at hv
    rw [hM.outside (by omega)]
    exact hK.pte (.inl hv)
  · intro v
    by_cases hv : v < 0xFE000 ∨ 0xFE000 + 8191 < v
    · rw [hM.outside hv]
      exact hK.flag v
    · obtain ⟨j, rfl⟩ : ∃ j, v = 0xFE000 + j := ⟨v - 0xFE000, by omega⟩
      have hval := toNat_mapped (j := j) (show DEVSPACE.toNat = 4096 * 0xFE000 from rfl) (by omega)
        (.inr rfl)
      rw [hM.inside rfl j (by omega), user_iff]
      omega
  · intro i hi
    by_contra h
    have := htab i h
    omega
  · intro i h1 h2
    by_contra h
    have := htab i h
    omega
  · intro q hq
    unfold USERPAGES
    rw [hM.outside (by omega)]
    exact hK.page (by unfold USERPAGES; omega)
  · intro v h1 h2
    obtain ⟨j, rfl⟩ : ∃ j, v = 0xFE000 + j := ⟨v - 0xFE000, by omega⟩
    rw [hM.inside rfl j (by omega)]
    exact present_or_P _

theorem toNat_size {a b : Nat} (hab : a ≤ b) (hb : b < 2 ^ 20) :
    (pa b - pa a).toNat = 4096 * (b - a) := by
  have ha := toNat_pa (p := a) (by omega)
  have hb' := toNat_pa hb
  rw [UInt32.toNat_sub, ha, hb']
  omega

theorem toNat_P2V {p : Nat} (hp : p < USERPAGES) : (P2V p).toNat = 4096 * (USERPAGES + p) := by
  unfold USERPAGES at *
  have hpa := toNat_pa (p := p) (by omega)
  have hbase := toNat_KERNBASE
  rw [P2V, UInt32.toNat_add, hpa, hbase]
  omega

/-! ### `kmap`, entry by entry -/

/-- The loop of `setupkvm` comes to the entry `k`, which maps the pages from `x` to
`x + n` of the space. -/
structure Turn (k : Kmap) (x n : Nat) (S : Space) : Prop where
  free : ∀ u, x ≤ u → u ≤ x + n → S.pte u = 0
  kernel : USERPAGES ≤ x
  bound : x + n < 2 ^ 20
  virt : k.virt.toNat = 4096 * x
  size : (k.phys_end - k.phys_start).toNat = 4096 * (n + 1)
  range : USERPAGES ≤ x ∧ x + n < USERPAGES + 57344 ∨ 0xFE000 ≤ x ∧ x + n < 2 ^ 20

/-- The entries of `kmap` up to those that are left are mapped. -/
def Stage (K : Layout) (ks : List Kmap) (S : Space) : Prop :=
  (ks = kmap K ∧ KernelUpTo (USERPAGES + 0) S) ∨
  (ks = (kmap K).drop 1 ∧ KernelUpTo (USERPAGES + 256) S) ∨
  (ks = (kmap K).drop 2 ∧ KernelUpTo (USERPAGES + K.data) S) ∨
  (ks = (kmap K).drop 3 ∧ KernelUpTo (USERPAGES + 57344) S) ∨
  (ks = [] ∧ KernelSpace S)

theorem Stage.done (hS : Stage K [] S) : KernelSpace S := by
  rcases hS with ⟨h, -⟩ | ⟨h, -⟩ | ⟨h, -⟩ | ⟨h, -⟩ | ⟨-, hS⟩
  · cases h
  · cases h
  · cases h
  · cases h
  · exact hS

/-- Each entry maps a range of its own, and then the next is to come. -/
theorem Stage.next {k : Kmap} {ks : List Kmap} (hS : Stage K (k :: ks) S) :
    ∃ x n, Turn k x n S ∧ ∀ {c t S' c' t'},
      Mapped x n k.phys_start k.perm true S c t S' c' t' → Stage K ks S' := by
  have hdata := K.text_lt
  have hdata' := K.data_le
  have hfirst := K.first_le
  rcases hS with ⟨h, hK⟩ | ⟨h, hK⟩ | ⟨h, hK⟩ | ⟨h, hK⟩ | ⟨h, -⟩
  · obtain ⟨rfl, rfl⟩ := List.cons.inj h
    refine ⟨USERPAGES + 0, 255, ⟨fun u hu _ => hK.pte (.inr hu), le_refl _, by decide,
      by decide, by decide, .inl (by decide)⟩, fun hM => .inr (.inl ⟨rfl, ?_⟩)⟩
    exact hK.map rfl (by decide) (.inr rfl) hM
  · obtain ⟨rfl, rfl⟩ := List.cons.inj h
    refine ⟨USERPAGES + 256, K.data - 257, ⟨fun u hu _ => hK.pte (.inr hu), by omega,
      by unfold USERPAGES; omega, by unfold USERPAGES; rfl, ?_, .inl (by omega)⟩,
      fun hM => .inr (.inr (.inl ⟨rfl, ?_⟩))⟩
    · have := toNat_size (a := 256) (b := K.data) (by omega) (by omega)
      rw [show EXTMEM = pa 256 from rfl, this]
      omega
    · have := hK.map (show EXTMEM.toNat = _ from rfl) (by omega) (.inl rfl) hM
      rwa [show 256 + (K.data - 257) + 1 = K.data by omega] at this
  · obtain ⟨rfl, rfl⟩ := List.cons.inj h
    have hpa := toNat_pa (p := K.data) (by omega)
    refine ⟨USERPAGES + K.data, 57343 - K.data, ⟨fun u hu _ => hK.pte (.inr hu), by omega,
      by unfold USERPAGES; omega, toNat_P2V (by unfold USERPAGES; omega), ?_, .inl (by omega)⟩,
      fun hM => .inr (.inr (.inr (.inl ⟨rfl, ?_⟩)))⟩
    · have := toNat_size (a := K.data) (b := 57344) (by omega) (by omega)
      rw [show PHYSTOP = pa 57344 from rfl, this]
      omega
    · have := hK.map (by rw [hpa, mul_comm]) (by omega) (.inr rfl) hM
      rwa [show K.data + (57343 - K.data) + 1 = 57344 by omega] at this
  · obtain ⟨rfl, rfl⟩ := List.cons.inj h
    exact ⟨0xFE000, 8191, ⟨fun u hu _ => hK.pte (.inr (by unfold USERPAGES; omega)), by decide,
      by decide, by decide, by decide, .inr (by decide)⟩,
      fun hM => .inr (.inr (.inr (.inr ⟨rfl, hK.kernelSpace hM⟩)))⟩
  · cases h

theorem wp_mapKernel {ks : List Kmap} {Q : Post Bool} (hR : Rep K S h)
    (hT : KernelTabs S) (hS : Stage K ks S)
    (fail : ∀ S' h' c' t', KernelTabs S' → Grown 0 0 S c t S' c' t' → c' = none ∨ c' = some 0 →
      Q false ⟨h', c', t'⟩)
    (ok : ∀ S' h' c' t', Rep K S' h' → KernelSpace S' → Grown 0 0 S c t S' c' t' →
      Q true ⟨h', c', t'⟩) :
    wp (ctx K stop) F (mapKernel S.dir ks) Q ⟨h, c, t⟩ := by
  induction ks generalizing S h c t with
  | nil => exact ok S h c t hR hS.done (.refl 0)
  | cons k ks ih =>
    obtain ⟨x, n, hturn, hnext⟩ := hS.next
    have hvirt := hturn.virt
    have hsize := hturn.size
    have hbound := hturn.bound
    rw [mapKernel, wp_bind, mappages_eq (by omega) hsize (by omega)]
    refine wp_mapLoop n hR hturn.kernel hbound hvirt ?_ ?_
    · intro u hu hun
      rw [hturn.free u hu hun]
      exact not_present_zero
    · intro b S' h' c' t' hR' hM
      have hT' := hM.kernelTabs hT hturn.range
      have hG := hM.grown.shift 0
      cases b with
      | false =>
        rw [if_neg (by simp)]
        exact fail S' h' c' t' hT' hG (hM.fail rfl)
      | true =>
        rw [if_pos rfl, ← hM.grown.dir]
        exact ih hR' hT' (hnext hM)
          (fun S'' h'' c'' t'' hT'' hG'' => fail S'' h'' c'' t'' hT'' (hG.trans hG''))
          fun S'' h'' c'' t'' hR'' hS'' hG'' => ok S'' h'' c'' t'' hR'' hS'' (hG.trans hG'')

/-- **`setupkvm`**: a new space, with the kernel's entries and nothing for the user.
It fails for want of pages only. -/
theorem wp_setupkvm {Q : Post (Option Nat)}
    (fail : ∀ h' c' t', (∀ n, c = some n → n ≤ 65) → PagingSince t t' → Q none ⟨h', c', t'⟩)
    (ok : ∀ S h' c' t', Rep K S h' → KernelSpace S → c ≠ some 0 →
      Grown 0 0 (Space.new S.dir) (c.map (· - 1)) t S c' t' → Q (some S.dir) ⟨h', c', t'⟩) :
    wp (ctx K stop) F (setupkvm K) Q ⟨empty, c, t⟩ := by
  rw [setupkvm, wp_bind]
  refine wp_kalloc (fun hc => fail _ c t ?_ (.refl t)) fun hc d f hm _ => ?_
  · intro n hn
    rw [Local.MayFail, hn] at hc
    simp at hc
    omega
  simp only [wp_bind]
  refine wp_write (put_self _ _ _) ?_
  rw [if_neg (by decide), wp_bind]
  simp only [put_put]
  rw [show (put empty d (filled 0) : Heap Nat Frame) = single d (filled 0) from rfl,
    show d = (Space.new d).dir from rfl]
  refine wp_mapKernel (.new hm) (fun _ h => absurd rfl h) (.inl ⟨rfl, .new d⟩) ?_ ?_
  · -- all free pages have become page tables
    intro S' h' c' t' hT hG hc'
    rw [if_neg (by simp)]
    refine fail _ _ _ (fun n hn => ?_) hG.trace
    obtain ⟨n', hn', -, hle⟩ := hG.credit (n := n - 1) (by rw [hn]; rfl)
    have habs := (Space.new d).absentTabs_le
    have habs' := hT.le_absentTabs
    rw [hn'] at hc'
    simp at hc'
    omega
  · intro S' h' c' t' hR hS hG
    rw [if_pos rfl, ← hG.dir]
    refine ok S' h' c' t' hR hS hc ?_
    rw [hG.dir]
    exact hG

end Wp

end Xv6.Vm
