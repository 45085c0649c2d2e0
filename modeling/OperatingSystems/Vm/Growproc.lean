import OperatingSystems.Vm.Growing

/-!
# Growing and shrinking a process

`growproc` takes what `allocuvm` and `deallocuvm` return for the new size, where zero is an
error, and computes the size that it asks for modulo `2 ^ 32`.  A smaller size than the
present one is all right with `allocuvm`, and a larger one with `deallocuvm`.

* `wp_allocuvm_ends` — `allocuvm`, by a process that runs alone.
* `growproc_exact_iff` — **`growproc` is exact and atomic exactly if it is not to take away
  all that there is or more, and if the last page it takes is not lost**.
-/

namespace Xv6.Vm

open Cmd UInt32

variable {K : Layout} {stop : List Ev → Prop} {F : String → List Ev → Prop}
  {S S' : Space} {h : Heap Nat Frame} {t : List Ev} {oldsz newsz : UInt32} {m m' : Vm}
  {O O' E E' : Finset Nat}

/-! ## `growproc` -/

/-- `growproc`, with what it returns. -/
def Sys.growprocReturn (K : Layout) (s : Sys) (i : Nat) (n : Int32) : Option (Int × Sys) := do
  let (sz, s) ← s.perform K (growPages K (s.proc i).pgdir (s.proc i).sz n)
  if n ≠ 0 ∧ sz = 0 then some (-1, s)
  else some (0, s.setProc i { s.proc i with sz := sz })

/-- The pages of a process are mapped exactly up to its size. -/
def MappedTo (m : Vm) (d : Nat) (sz : UInt32) : Prop :=
  ∀ v, v < USERPAGES → (Present (pteOf m d v) ↔ v < pages sz)

/-- **`growproc` is exact and atomic**: it returns, `0` only with the size that was asked for
and the pages up to it, and `-1` with everything as it was. -/
def GrowsExactly (K : Layout) (s : Sys) (i : Nat) (n : Int32) : Prop :=
  ∃ r s', s.growprocReturn K i n = some (r, s') ∧
    (r = 0 → ((s'.proc i).sz.toNat : Int) = (s.proc i).sz.toNat + n.toInt ∧
      MappedTo s'.mem (s.proc i).pgdir (s'.proc i).sz) ∧
    (r = -1 → (s'.proc i).sz = (s.proc i).sz ∧ ∀ v, v < USERPAGES →
      pteOf s'.mem (s.proc i).pgdir v = pteOf s.mem (s.proc i).pgdir v ∧
      ∀ p, userOf s.mem (s.proc i).pgdir v = some p → s'.mem.page p = s.mem.page p)

/-- The last page needs a page table, for which there is no page. -/
def LastTable (m : Vm) (E : Finset Nat) (d : Nat) (oldsz newsz : UInt32) : Prop :=
  (allocuvmPlan m d oldsz newsz)[E.card]? = some .table ∧
    (allocuvmPlan m d oldsz newsz).length = E.card + 1

/-- The process is not to lose all its memory or more, and if it is to get some, it is not
just the page table for the last page for which there is no page. -/
def GrowFits (m : Vm) (E : Finset Nat) (d : Nat) (sz : UInt32) (n : Int32) : Prop :=
  (n < 0 → sz = 0 ∨ -n.toInt < sz.toNat) ∧
  (0 < n → sz.toNat + n.toInt < KERNBASE.toNat → ¬ LastTable m E d sz (sz + n.toUInt32))

/-- The sum of `growproc` wraps. -/
theorem toNat_add_int32 (sz : UInt32) (n : Int32) :
    ((sz + n.toUInt32).toNat : Int) = (sz.toNat + n.toInt) % 2 ^ 32 := by
  have hn : n.toInt = if 2 * n.toUInt32.toNat < 2 ^ 32 then (n.toUInt32.toNat : Int)
      else n.toUInt32.toNat - (2 ^ 32 : Nat) := BitVec.toInt_eq_toNat_cond n.toBitVec
  rw [UInt32.toNat_add, hn]
  split <;> omega

/-- What memory maps for a directory is as it was. -/
def SameUser (m m' : Vm) (d : Nat) : Prop := ∀ v, v < USERPAGES →
  pteOf m' d v = pteOf m d v ∧ ∀ p, userOf m d v = some p → m'.page p = m.page p

/-- What is left of the space after `allocuvm`. -/
def GrowEnds (K : Layout) (last : Prop) (oldsz newsz : UInt32) (S : Space) (r : UInt32)
    (S' : Space) : Prop :=
  (r = newsz ∧ ¬ last ∧ Filled K (pages oldsz) (pages newsz) S S') ∨
  (r = 0 ∧ ¬ last ∧ Undone (pages oldsz) (pages newsz) S S') ∨
  (r = newsz ∧ last ∧ ∃ u, pages oldsz ≤ u ∧ u < pages newsz ∧ S'.pte u = 0)

/-- **`allocuvm`, by a process that runs alone.** -/
theorem wp_allocuvm_ends {n : Nat} (hR : Rep K S h) (hsmall : newsz < KERNBASE)
    (hle : oldsz ≤ newsz) (hfree : ∀ u, pages oldsz ≤ u → u < pages newsz → S.pte u = 0)
    {last : Prop} (hlast : last ↔ (allocPlan (pages newsz - pages oldsz) S.has
      (pages oldsz))[n]? = some .table ∧
      (allocPlan (pages newsz - pages oldsz) S.has (pages oldsz)).length = n + 1) :
    wp (ctx K stop) F (allocuvm K S.dir oldsz newsz)
      (fun r L => ∃ S' h' g, L.heap = h' ∪ g ∧ h'.Disjoint g ∧ Rep K S' h' ∧ S'.dir = S.dir ∧
        GrowEnds K last oldsz newsz S r S') ⟨h, some n, t⟩ := by
  have hgo : wp (ctx K stop) F (force (fun _ => false) 0 (allocuvm K S.dir oldsz newsz))
      (fun x L => ∃ S' h' g, L.heap = h' ∪ g ∧ h'.Disjoint g ∧ Rep K S' h' ∧ S'.dir = S.dir ∧
        GrowEnds K last oldsz newsz S x.1 S') ⟨h, some (n - 0), t⟩ := by
    refine wp_force_allocuvm hR hsmall hle hfree ?_ ?_ ?_
    · intro S' h' k' t' hR' hF hk' hc
      refine ⟨S', h', .empty, (Heap.union_empty h').symm, Heap.disjoint_empty h', hR', hF.dir,
        .inl ⟨rfl, fun hl => ?_, hF⟩⟩
      have := (hlast.1 hl).2
      exact hc n (Nat.zero_le n) (by omega) (.inr (Nat.le_refl n))
    · intro S' h' k' c' t' hR' hU _ hsp _
      refine ⟨S', h', .empty, (Heap.union_empty h').symm, Heap.disjoint_empty h', hR', hU.dir,
        .inr (.inl ⟨rfl, fun hl => ?_, hU⟩)⟩
      exact spared_never_iff.1 hsp (hlast.1 hl).1
    intro S₁ h₁ u l mem t₁ fuel a hL ha hf
    -- the call that failed is the first for which there is no page
    obtain rfl : l = n := by
      have h1 : n ≤ l := hL.short.resolve_left (by simp)
      by_contra hne
      exact hL.clear n (Nat.zero_le n) (by omega) (.inr (Nat.le_refl n))
    have htable := not_not.1 (mt spared_never_iff.2 hL.notSpared)
    have hdisj : h₁.Disjoint (Heap.single mem (filled 0)) := Heap.disjoint_single.2 hL.free
    have hlt := lt_iff_toNat_lt.1 hsmall
    rw [← Heap.union_single _ hL.free]
    by_cases hend : u + 1 = pages newsz
    · have hl : last := hlast.2 ⟨htable, by have := hL.last.1 hend; omega⟩
      have hge : ¬ a < newsz := by
        rw [lt_iff_toNat_lt, ha, hend, pages]
        omega
      have hdone : allocLoop S.dir newsz fuel a = pure true := by
        cases fuel with
        | zero => rfl
        | succ fuel => rw [allocLoop, if_neg hge]
      rw [hdone, wp_force_pure]
      refine ⟨S₁, h₁, _, rfl, hdisj, hL.rep, hL.filled.dir, .inr (.inr ⟨rfl, hl, u, hL.ge, hL.lt, ?_⟩)⟩
      rw [(hL.filled.outside (.inr (Nat.le_refl u))).1]
      exact hfree u hL.ge hL.lt
    · have hnl : ¬ last := fun hl => hend (hL.last.2 (by have := (hlast.1 hl).2; omega))
      have hult := hL.lt
      obtain ⟨fuel, rfl⟩ : ∃ n, fuel = n + 1 := ⟨fuel - 1, by omega⟩
      have hlt : a < newsz := by
        rw [lt_iff_toNat_lt, ha]
        unfold pages at *
        omega
      rw [allocLoop, if_pos hlt, wp_force_bind, show l - l = l - (l + 1) by omega]
      refine wp_force_kalloc (fun _ => ?_) fun hk => absurd (.inr (by omega)) hk
      rw [wp_force_pure]
      refine wp.frame hdisj (wp_allocEnd_undo hsmall hL.filled hL.lt hL.ge hL.rep hfree ?_)
      intro S' h' c' hR' hU hd
      exact ⟨S', h', _, rfl, hd, hR', hU.dir, .inr (.inl ⟨rfl, hnl, hU⟩)⟩
  exact wp_force_never.1 hgo

section

variable (hmap : MappedTo m S.dir oldsz) (hm : Resident K m S O E) (hm' : Resident K m' S' O' E')

include hmap hm hm'

theorem mappedTo_of_filled (hF : Filled K (pages oldsz) (pages newsz) S S')
    (hle : pages oldsz ≤ pages newsz) : MappedTo m' S.dir newsz := by
  intro v hv
  rw [← hF.dir, hm'.pteOf_eq]
  by_cases hin : pages oldsz ≤ v ∧ v < pages newsz
  · exact iff_of_true (hF.present hin.1 hin.2) hin.2
  · rw [(hF.outside (by omega)).1, ← hm.pteOf_eq, hmap v hv]
    omega

theorem sameUser_of_undone (hU : Undone (pages oldsz) (pages newsz) S S') :
    SameUser m m' S.dir := by
  intro v hv
  have hpte : pteOf m' S.dir v = pteOf m S.dir v := by
    rw [← hU.dir, hm'.pteOf_eq, hU.dir, hm.pteOf_eq, hU.pte]
  refine ⟨hpte, fun p hp => ?_⟩
  rw [hm.userOf_eq] at hp
  have hpage := Space.page_user.1 hp
  have hlt : v < pages oldsz := (hmap v hv).1 (by rw [hm.pteOf_eq]; exact hpage.2.1)
  rw [hm.page_eq hp, hm'.page_eq (Space.page_user.2 (by rwa [hU.pte])), hU.mem (.inl hlt)]

theorem mappedTo_of_swept (hS : Swept (pages oldsz) (pages newsz) S S')
    (hold : pages oldsz ≤ USERPAGES) (hle : pages newsz ≤ pages oldsz) :
    MappedTo m' S.dir newsz := by
  have hp : ∀ v, v < pages oldsz → Present (S.pte v) := by
    intro v hv
    rw [← hm.pteOf_eq]
    exact (hmap v (by omega)).2 hv
  intro v hv
  rw [← hS.dir, hm'.pteOf_eq]
  by_cases hin : pages newsz ≤ v ∧ v < pages oldsz
  · have htab : ∀ x, x < pages oldsz → S.tab (x / 1024) ≠ none :=
      fun x hx => tab_ne_none_of_present hm.rep (hp x hx)
    have hvis : Visits S.tab (pages oldsz) (pages newsz) v :=
      visits_of_le (.inl (htab _ (by omega))) hin.1 hin.2 (htab v hin.2)
    rw [hS.gone hvis]
    exact iff_of_false not_present_zero (by omega)
  · rw [hS.kept fun hvis => hin ⟨hvis.bounds.1, hvis.bounds.2.1⟩, ← hm.pteOf_eq, hmap v hv]
    omega

end

section Grow

variable {s : Sys} {i : Nat} {n : Int32} {r : UInt32}

theorem growsExactly_iff_of_run
    (hrun : Cmd.run (memory K) (growPages K (s.proc i).pgdir (s.proc i).sz n) s.mem [] =
      ((.ok r, m'), t)) :
    GrowsExactly K s i n ↔ if n ≠ 0 ∧ r = 0 then SameUser s.mem m' (s.proc i).pgdir
      else (r.toNat : Int) = (s.proc i).sz.toNat + n.toInt ∧ MappedTo m' (s.proc i).pgdir r := by
  rw [GrowsExactly, Sys.growprocReturn, Sys.perform_eq hrun]
  simp only [Option.bind_eq_bind, Option.bind_some]
  by_cases hc : n ≠ 0 ∧ r = 0
  · rw [if_pos hc, if_pos hc]
    constructor
    · rintro ⟨_, _, h, -, hm1⟩
      cases h
      exact (hm1 rfl).2
    · intro h
      exact ⟨-1, _, rfl, fun h0 => absurd h0 (by decide), fun _ => ⟨rfl, h⟩⟩
  · rw [if_neg hc, if_neg hc]
    have hsz : ((({ s with mem := m' } : Sys).setProc i { s.proc i with sz := r }).proc i).sz = r := by
      simp [Sys.setProc]
    constructor
    · rintro ⟨_, _, h, h0, -⟩
      cases h
      have := h0 rfl
      rwa [hsz] at this
    · intro h
      exact ⟨0, _, rfl, fun _ => (by rw [hsz]; exact h), fun hm1 => absurd hm1 (by decide)⟩

theorem toInt_pos_of_pos (hn : 0 < n) : 0 < n.toInt := Int32.lt_iff_toInt_lt.1 hn

theorem toInt_neg_of_neg (hn : n < 0) : n.toInt < 0 := Int32.lt_iff_toInt_lt.1 hn

section

variable (hm : Resident K s.mem S O E) (hd : S.dir = (s.proc i).pgdir)
  (hmap : MappedTo s.mem (s.proc i).pgdir (s.proc i).sz)

include hm hd hmap

theorem growsExactly_iff_of_pos (hn : 0 < n) : GrowsExactly K s i n ↔
      GrowFits s.mem E (s.proc i).pgdir (s.proc i).sz n := by
  have hbase := toNat_KERNBASE
  have hpos := toInt_pos_of_pos hn
  have hmax : n.toInt < 2 ^ 31 := n.toInt_lt
  have hneg : ¬ n < 0 := fun h => by have := toInt_neg_of_neg h; omega
  have hne : n ≠ 0 := by
    rintro rfl
    exact absurd hpos (by decide)
  have hsz := lt_iff_toNat_lt.1 (hm.size_lt fun v hv => (hd ▸ hmap v hv).2)
  rw [← hd] at hmap ⊢
  have hsum := toNat_add_int32 (s.proc i).sz n
  have hpages : growPages K (s.proc i).pgdir (s.proc i).sz n =
      allocuvm K S.dir (s.proc i).sz ((s.proc i).sz + n.toUInt32) := by
    rw [growPages, if_pos hn, hd]
  simp only [GrowFits, hneg, hn, false_imp_iff, true_imp_iff, true_and]
  generalize hnew : (s.proc i).sz + n.toUInt32 = newsz at *
  by_cases hbig : newsz ≥ KERNBASE
  · -- refused at once
    have hrun : Cmd.run (memory K) (growPages K (s.proc i).pgdir (s.proc i).sz n) s.mem [] =
        ((.ok 0, s.mem), []) := by
      rw [hpages, allocuvm, if_pos hbig]
      rfl
    have hbig' := le_iff_toNat_le.1 hbig
    rw [growsExactly_iff_of_run hrun, if_pos ⟨hne, rfl⟩]
    exact iff_of_true (fun v _ => ⟨rfl, fun _ _ => rfl⟩) fun h => by omega
  have hsmall : newsz < KERNBASE := UInt32.not_le.1 hbig
  have hsmall' := lt_iff_toNat_lt.1 hsmall
  have hle : (s.proc i).sz ≤ newsz := by
    rw [le_iff_toNat_le]
    omega
  have hr0 : newsz ≠ 0 := by
    rintro rfl
    have : toNat 0 = 0 := rfl
    omega
  have hple : pages (s.proc i).sz ≤ pages newsz := by
    unfold pages
    omega
  obtain ⟨r, m', t, O', E', L, hrun, hs, -, -, S', h', g, hL, hdg, hR', hdir, hends⟩ := hm.run
    (wp_allocuvm_ends hm.rep hsmall hle (hm.free_above hmap hsmall) Iff.rfl)
  rw [← hpages] at hrun
  obtain ⟨O'', -, hm', -⟩ := exists_resident_of_split hs hL hdg hR'
  rw [← hm.allocuvmPlan_eq] at hends
  rw [growsExactly_iff_of_run hrun, ← hd]
  rcases hends with ⟨rfl, hlast, hF⟩ | ⟨rfl, hlast, hU⟩ | ⟨rfl, hlast, u, h1, h2, hu⟩
  · rw [if_neg fun h => hr0 h.2]
    exact iff_of_true ⟨by omega, mappedTo_of_filled hmap hm hm' hF hple⟩ fun _ => hlast
  · rw [if_pos ⟨hne, rfl⟩]
    exact iff_of_true (sameUser_of_undone hmap hm hm' hU) fun _ => hlast
  · rw [if_neg fun h => hr0 h.2]
    refine iff_of_false (fun h => ?_) fun h => h (by omega) hlast
    have hp := (h.2 u (h2.trans_le (pages_le hsmall))).2 h2
    rw [← hdir, hm'.pteOf_eq, hu] at hp
    exact not_present_zero hp

theorem growsExactly_iff_of_neg (hn : n < 0) : GrowsExactly K s i n ↔
      GrowFits s.mem E (s.proc i).pgdir (s.proc i).sz n := by
  have hbase := toNat_KERNBASE
  have hneg := toInt_neg_of_neg hn
  have hmin : -2 ^ 31 ≤ n.toInt := n.le_toInt
  have hpos : ¬ 0 < n := fun h => by have := toInt_pos_of_pos h; omega
  have hne : n ≠ 0 := by
    rintro rfl
    exact absurd hneg (by decide)
  have hkern := hm.size_lt fun v hv => (hd ▸ hmap v hv).2
  have hsz := lt_iff_toNat_lt.1 hkern
  rw [← hd] at hmap
  have hsum := toNat_add_int32 (s.proc i).sz n
  have hpages : growPages K (s.proc i).pgdir (s.proc i).sz n =
      deallocuvm K S.dir (s.proc i).sz ((s.proc i).sz + n.toUInt32) := by
    rw [growPages, if_neg hpos, if_pos hn, hd]
  simp only [GrowFits, hpos, hn, false_imp_iff, true_imp_iff, and_true]
  generalize hnew : (s.proc i).sz + n.toUInt32 = newsz at *
  by_cases hge : newsz ≥ (s.proc i).sz
  · -- nothing is taken away, and the size stays what it is
    have hrun : Cmd.run (memory K) (growPages K (s.proc i).pgdir (s.proc i).sz n) s.mem [] =
        ((.ok (s.proc i).sz, s.mem), []) := by
      rw [hpages, deallocuvm, if_pos hge]
      rfl
    have hge' := le_iff_toNat_le.1 hge
    rw [growsExactly_iff_of_run hrun]
    by_cases h0 : (s.proc i).sz = 0
    · rw [if_pos ⟨hne, h0⟩]
      exact iff_of_true (fun v _ => ⟨rfl, fun _ _ => rfl⟩) (.inl h0)
    · rw [if_neg fun h => h0 h.2]
      exact iff_of_false (fun h => by omega) fun h => by
        have := h.resolve_left h0
        omega
  have hlt : newsz < (s.proc i).sz := UInt32.not_le.1 hge
  have hlt' := lt_iff_toNat_lt.1 hlt
  have hple : pages newsz ≤ pages (s.proc i).sz := by
    unfold pages
    omega
  obtain ⟨m', t, S', O', E', hrun, hm', -, hS⟩ := hm.run_deallocuvm hlt (UInt32.le_of_lt hkern)
  rw [← hpages] at hrun
  have hmap' := mappedTo_of_swept hmap hm hm' hS (pages_le hkern) hple
  rw [growsExactly_iff_of_run hrun, ← hd]
  by_cases h0 : newsz = 0
  · -- all of it is taken away, and that is reported as a failure
    have hzero : newsz.toNat = 0 := by
      rw [h0]
      rfl
    have hfirst : 0 < pages (s.proc i).sz := by
      unfold pages
      omega
    rw [if_pos ⟨hne, h0⟩]
    refine iff_of_false (fun h => ?_) fun h => ?_
    · have hp : ¬ Present (pteOf m' S.dir 0) := by
        rw [hmap' 0 (by decide), h0]
        decide
      rw [(h 0 (by decide)).1] at hp
      exact hp ((hmap 0 (by decide)).2 hfirst)
    · rcases h with h | h
      · rw [h] at hlt'
        exact absurd hlt' (by simp)
      · omega
  · have hpos' : newsz.toNat ≠ 0 := fun h => h0 (UInt32.toNat_inj.1 h)
    rw [if_neg fun h => h0 h.2]
    exact iff_of_true ⟨by omega, hmap'⟩ (.inr (by omega))

end

end Grow

/-- **`growproc` is exact and atomic exactly if the process is not to lose all its memory or
more, and if it is not just the page table for the last page that cannot be had.** -/
theorem growproc_exact_iff (K : Layout) {s : Sys} {S : Space} {O E : Finset Nat} (i : Nat)
    (n : Int32) (hm : Resident K s.mem S O E) (hd : S.dir = (s.proc i).pgdir)
    (hmap : MappedTo s.mem (s.proc i).pgdir (s.proc i).sz) :
    GrowsExactly K s i n ↔ GrowFits s.mem E (s.proc i).pgdir (s.proc i).sz n := by
  by_cases hpos : 0 < n
  · exact growsExactly_iff_of_pos hm hd hmap hpos
  by_cases hneg : n < 0
  · exact growsExactly_iff_of_neg hm hd hmap hneg
  have hzero : n = 0 := Int32.toInt_inj.1 (by
    rw [Int32.lt_iff_toInt_lt] at hpos hneg
    omega)
  have hrun : Cmd.run (memory K) (growPages K (s.proc i).pgdir (s.proc i).sz n) s.mem [] =
      ((.ok (s.proc i).sz, s.mem), []) := by
    rw [growPages, if_neg hpos, if_neg hneg]
    rfl
  rw [growsExactly_iff_of_run hrun, if_neg fun h => h.1 hzero]
  refine iff_of_true ⟨?_, hmap⟩ ⟨fun h => absurd h hneg, fun h => absurd h hpos⟩
  rw [hzero]
  simp

/-! ### A process of one page -/

theorem mappedTo_onePage (hm : Resident K m onePage O E) : MappedTo m onePage.dir 4096 := by
  intro v _
  have hone : pages 4096 = 1 := by decide
  rw [hm.pteOf_eq, hone]
  by_cases hv : v = 0
  · subst hv
    exact iff_of_true (present_or_P _) (by omega)
  · have hpte : onePage.pte v = 0 := Space.pte_setPte_of_ne _ _ _ hv
    rw [hpte]
    exact iff_of_false not_present_zero (by omega)

/-- A process of one page in this memory. -/
def onePageSys (m : Vm) : Sys where
  mem := m
  proc _ := { state := .RUNNABLE, pgdir := 300, sz := 4096 }
  file _ := {}
  kpgdir := 0
  cpuStack := []

/-- A process that gives back all its memory is told that it could not, and has none. -/
theorem growproc_loses_all : ∃ m O, Resident someLayout (onePageSys m).mem onePage O ∅ ∧
    MappedTo m 300 4096 ∧ ¬ GrowsExactly someLayout (onePageSys m) 0 (-4096) := by
  obtain ⟨m, O, hm⟩ := exists_resident_onePage (E := ∅) (by simp)
  refine ⟨m, O, hm, mappedTo_onePage hm, ?_⟩
  rw [growsExactly_iff_of_neg (s := onePageSys m) hm rfl (mappedTo_onePage hm) (by decide)]
  rintro ⟨hneg, -⟩
  have hlt : (4096 : UInt32) = 0 ∨ -(-4096 : Int32).toInt < ((4096 : UInt32).toNat : Int) :=
    hneg (by decide)
  exact absurd hlt (by decide)

/-- It may get a page. -/
theorem growproc_exact_iff_onePage : ∃ m O,
    Resident someLayout (onePageSys m).mem onePage O {303} ∧ MappedTo m 300 4096 ∧
      (GrowsExactly someLayout (onePageSys m) 0 4096 ↔ GrowFits m {303} 300 4096 4096) := by
  obtain ⟨m, O, hm⟩ := exists_resident_onePage (E := {303}) (by simp)
  exact ⟨m, O, hm, mappedTo_onePage hm,
    growproc_exact_iff someLayout 0 4096 hm rfl (mappedTo_onePage hm)⟩

end Xv6.Vm
