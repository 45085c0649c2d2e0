import Mathlib.Data.Finset.Card
import OperatingSystems.Vm.Loading
import OperatingSystems.Vm.System

/-!
# Address spaces in memory

`Resident` says that some pages of physical memory are an address space, and which pages
are free.  What a directory maps is read off memory alone (`tableOf`, `pteOf`), and is
what the space says.

* `Resident.run` — **what a program does to a space, it does to memory**.
* `exists_resident` — every space is that of some memory, with any free pages.
-/

namespace Xv6.Vm

open Cmd Heap

variable {K : Layout} {m m' : Vm} {S S' : Space} {O E : Finset Nat}

/-- The entry of a directory for page `v` of the address space; `0` without a page
table. -/
def pteOf (m : Vm) (d v : Nat) : UInt32 :=
  match tableOf m d (v / 1024) with
  | none => 0
  | some T => entry (m.page T) (v % 1024)

/-- The pages `O` of memory are the address space `S`, and the pages `E` are free. -/
structure Resident (K : Layout) (m : Vm) (S : Space) (O E : Finset Nat) : Prop where
  free : FreePages K m E
  apart : Disjoint O E
  rep : Rep K S (restrict (memory K) m O)

theorem restrict_eq_some {p : Nat} {f : Frame} :
    restrict (memory K) m O p = some f ↔ p ∈ O ∧ m.page p = f := by
  unfold restrict
  by_cases hp : p ∈ O
  · rw [if_pos hp]
    simp only [hp, true_and, Option.some.injEq]
    rfl
  · simp [hp]

namespace Resident

section

variable (hm : Resident K m S O E)

include hm

theorem mem_iff {p : Nat} : p ∈ O ↔ ∃ a, S.page a = some p := by
  constructor
  · intro hp
    exact hm.rep.only (restrict_eq_some.2 ⟨hp, rfl⟩)
  · rintro ⟨a, ha⟩
    obtain ⟨f, hf⟩ := hm.rep.own ha
    exact (restrict_eq_some.1 hf).1

theorem page_mem {a : Place} {p : Nat} (ha : S.page a = some p) : p ∈ O := hm.mem_iff.2 ⟨a, ha⟩

theorem managed {p : Nat} (hp : p ∈ O) : Managed K p := by
  obtain ⟨a, ha⟩ := hm.mem_iff.1 hp
  exact hm.rep.managed ha

/-- The page tables are those of the space. -/
theorem tableOf_eq (i : Nat) : tableOf m S.dir i = S.tab i := by
  unfold tableOf
  by_cases hi : i < 1024
  · have hdir := hm.rep.dir_entry (restrict_eq_some.2 ⟨hm.page_mem (a := .dir) rfl, rfl⟩) hi
    rw [hdir]
    cases hT : S.tab i with
    | none => exact if_neg fun h => not_present_zero h.2
    | some T =>
      have hlt := (hm.rep.managed (a := .tab i) hT).lt
      rw [if_pos ⟨hi, present_pdeOf (by omega)⟩, ptePage_pdeOf (by omega)]
  · rw [if_neg fun h => hi h.1]
    cases hT : S.tab i with
    | none => rfl
    | some T => exact absurd (hm.rep.tab_lt hT) hi

theorem pteOf_eq (v : Nat) : pteOf m S.dir v = S.pte v := by
  unfold pteOf
  rw [hm.tableOf_eq]
  cases hT : S.tab (v / 1024) with
  | none => exact (hm.rep.pte_none hT).symm
  | some T =>
    have hmem := hm.page_mem (a := .tab (v / 1024)) hT
    have hentry := hm.rep.tab_entry hT (restrict_eq_some.2 ⟨hmem, rfl⟩) (Nat.mod_lt v (by norm_num))
    rwa [Nat.div_add_mod] at hentry

theorem userOf_eq (v : Nat) : userOf m S.dir v = S.page (.user v) := by
  have hpte := hm.pteOf_eq v
  unfold pteOf at hpte
  unfold userOf Space.page
  cases hT : tableOf m S.dir (v / 1024) with
  | none =>
    rw [hT] at hpte
    simp [← hpte, not_present_zero]
  | some T =>
    rw [hT] at hpte
    simp [hpte]

theorem page_eq {v p : Nat} (hp : S.page (.user v) = some p) :
    m.page p = S.mem v := (restrict_eq_some.1 (hm.rep.user_mem hp)).2

/-- There is not enough memory to fill the user part. -/
theorem size_lt {sz : UInt32}
    (hp : ∀ v, v < USERPAGES → v < pages sz → Present (pteOf m S.dir v)) : sz < KERNBASE := by
  by_contra hbig
  have hbase := toNat_KERNBASE
  have hbig' := UInt32.le_iff_toNat_le.1 (UInt32.not_lt.1 hbig)
  have huser : ∀ v, v < USERPAGES → S.page (.user v) = some (ptePage (S.pte v)) := by
    intro v hv
    refine Space.page_user.2 ⟨hv, ?_, rfl⟩
    rw [← hm.pteOf_eq]
    refine hp v hv ?_
    unfold pages
    unfold USERPAGES at hv
    omega
  have hcard : (Finset.range USERPAGES).card ≤ (Finset.range 57344).card := by
    refine Finset.card_le_card_of_injOn (fun v => ptePage (S.pte v)) ?_ ?_
    · intro v hv
      have := (hm.rep.managed (huser v (Finset.mem_range.1 hv))).lt
      simpa using this
    · intro v hv w hw heq
      have hw' := huser w (by simpa using hw)
      rw [← show ptePage (S.pte v) = ptePage (S.pte w) from heq] at hw'
      simpa using hm.rep.inj (huser v (by simpa using hv)) hw'
  rw [Finset.card_range, Finset.card_range] at hcard
  unfold USERPAGES at hcard
  omega

/-- **A program that meets its specification on the pages of the space** returns, and does
to memory what the specification says. -/
theorem run {α : Type} {c : M α} {Q : Post α} (hw : wp (ctx K fun _ => False) (fun _ _ => False) c Q
      ⟨restrict (memory K) m O, some E.card, []⟩) :
    ∃ a m' t O' E' L, Cmd.run (memory K) c m [] = ((.ok a, m'), t) ∧
      Split (memory K) m' O' E' L ∧ O' ∪ E' = O ∪ E ∧
      SameOutside (memory K) (O ∪ E) m m' ∧ Q a L := by
  have hsplit : Split (memory K) m O E
      (⟨restrict (memory K) m O, some E.card, []⟩ : Local Nat Frame Ev) :=
    ⟨hm.free, hm.apart, fun p hp => hm.managed hp, rfl, fun n hn => Option.some.inj hn⟩
  rcases run_sound (fun _ h => h) hsplit hw with ⟨t, hf, -⟩ | hran
  · exact hf.elim
  rcases hr : Cmd.run (memory K) c m [] with ⟨⟨msg | a, m'⟩, t⟩
  · rw [hr] at hran
    exact hran.elim
  · rw [hr] at hran
    obtain ⟨O', E', L, hs, -, hB, hsame, hQ⟩ := hran
    exact ⟨a, m', t, O', E', L, rfl, hs, hB, hsame, hQ⟩

end

end Resident

theorem Sys.perform_eq {α : Type} {s : Sys} {c : M α} {a : α} {m' : Vm} {t : List Ev}
    (hrun : Cmd.run (memory K) c s.mem [] = ((.ok a, m'), t)) :
    s.perform K c = some (a, { s with mem := m' }) := by
  rw [Sys.perform, hrun]

theorem Linked.unique {w : UInt32} {l l' : List Nat} (h : m.Linked w l) (h' : m.Linked w l')
    (hm : ∀ p ∈ l, Managed K p) (hm' : ∀ p ∈ l', Managed K p) : l = l' := by
  have hne : ∀ {p}, Managed K p → P2V p ≠ 0 := fun hp => P2V_ne_zero (by have := hp.lt; omega)
  induction l generalizing w l' with
  | nil =>
    cases l' with
    | nil => rfl
    | cons p l' => exact absurd (h'.1.symm.trans h) (hne (hm' p (by simp)))
  | cons p l ih =>
    have hp := (hm p (by simp)).lt
    cases l' with
    | nil => exact absurd (h.1.symm.trans h') (hne (hm p (by simp)))
    | cons q l' =>
      have hq := (hm' q (by simp)).lt
      obtain rfl : p = q := by
        rw [← pageOf_P2V (p := p) (by omega), ← pageOf_P2V (p := q) (by omega), ← h.1, ← h'.1]
      rw [ih h.2 h'.2 (fun r hr => hm r (by simp [hr])) fun r hr => hm' r (by simp [hr])]

theorem FreePages.unique {E' : Finset Nat} (h : FreePages K m E) (h' : FreePages K m E') :
    E = E' := by
  obtain ⟨l, -, rfl, hl, hm⟩ := h
  obtain ⟨l', -, rfl, hl', hm'⟩ := h'
  rw [hl.unique hl' hm hm']

theorem resident_of_split {L : Local Nat Frame Ev} (hs : Split (memory K) m O E L)
    (hR : Rep K S L.heap) : Resident K m S O E :=
  ⟨hs.free, hs.apart, hs.heap ▸ hR⟩

theorem exists_resident_of_split {L : Local Nat Frame Ev} {h g : Heap Nat Frame}
    (hs : Split (memory K) m O E L) (hL : L.heap = h ∪ g) (hd : h.Disjoint g)
    (hR : Rep K S h) : ∃ O' ⊆ O, Resident K m S O' E ∧ ∀ p ∈ O, p ∉ O' ↔ (g p).isSome := by
  classical
  have hval : ∀ {p f}, h p = some f → p ∈ O ∧ m.page p = f := fun hp =>
    hs.read (by rw [hL]; exact union_left hp)
  let O' := O.filter fun p => (h p).isSome
  have hO' : restrict (memory K) m O' = h := by
    funext p
    cases hp : h p with
    | none => exact if_neg fun hmem => by simp [O', hp] at hmem
    | some f =>
      obtain ⟨hO, rfl⟩ := hval hp
      exact if_pos (by simp [O', hp, hO])
  refine ⟨O', Finset.filter_subset _ _, ⟨hs.free, hs.apart.mono_left (Finset.filter_subset _ _),
    by rw [hO']; exact hR⟩, ?_⟩
  intro p hp
  have hsome : L.heap p = some (m.page p) := by
    rw [hs.heap]
    exact restrict_eq_some.2 ⟨hp, rfl⟩
  rw [hL, union_apply] at hsome
  cases hhp : h p with
  | none =>
    rw [hhp, Option.none_or] at hsome
    simp [O', hp, hhp, hsome]
  | some f => simp [O', hp, hhp, hd.right_none hhp]

/-! ## Some memory -/

theorem exists_freePages {E : Finset Nat} (hE : ∀ p ∈ E, Managed K p) (f : Nat → Frame) :
    ∃ m : Vm, FreePages K m E ∧ ∀ p, p ∉ E → m.page p = f p := by
  induction E using Finset.induction_on with
  | empty => exact ⟨⟨f, 0⟩, ⟨[], by simp, rfl, rfl, by simp⟩, fun _ _ => rfl⟩
  | insert p E hp ih =>
    obtain ⟨m, hm, hpage⟩ := ih fun q hq => hE q (Finset.mem_insert_of_mem hq)
    refine ⟨m.putFree p, hm.putFree hp (hE p (Finset.mem_insert_self p E)), fun q hq => ?_⟩
    rw [Finset.mem_insert, not_or] at hq
    rw [page_putFree_of_ne hq.1, hpage q hq.2]

/-- Every space is that of some memory, in which any other pages are free. -/
theorem exists_resident {h : Heap Nat Frame} (hR : Rep K S h) {E : Finset Nat}
    (hE : ∀ p ∈ E, Managed K p ∧ h p = none) :
    ∃ m O, Resident K m S O E ∧ restrict (memory K) m O = h := by
  classical
  obtain ⟨m, hm, hpage⟩ := exists_freePages (fun p hp => (hE p hp).1) fun q => (h q).getD (filled 0)
  let O := (Finset.range 57344).filter fun p => (h p).isSome
  have hO : ∀ p, p ∈ O ↔ (h p).isSome := by
    intro p
    simp only [O, Finset.mem_filter, Finset.mem_range, and_iff_right_iff_imp]
    intro hp
    obtain ⟨f, hf⟩ := Option.isSome_iff_exists.1 hp
    obtain ⟨a, ha⟩ := hR.only hf
    exact (hR.managed ha).lt
  have hres : restrict (memory K) m O = h := by
    funext p
    cases hp : h p with
    | none => exact if_neg fun hmem => by simp [hO, hp] at hmem
    | some f =>
      have hpE : p ∉ E := fun hmem => by simp [(hE p hmem).2] at hp
      refine (if_pos ((hO p).2 (by simp [hp]))).trans ?_
      have := hpage p hpE
      rw [hp] at this
      exact congrArg some this
  refine ⟨m, O, ⟨hm, ?_, by rw [hres]; exact hR⟩, hres⟩
  refine Finset.disjoint_left.2 fun p hp hpE => ?_
  have := (hO p).1 hp
  rw [(hE p hpE).2] at this
  cases this

/-- A space with one page. -/
def onePage : Space :=
  ((Space.new 300).addTab 0 301).setPte 0 (pa 302 ||| (PTE_W ||| PTE_U) ||| PTE_P) (filled 0)

theorem exists_rep_onePage : ∃ h, Rep someLayout onePage h ∧
    ∀ p, p ≠ 300 → p ≠ 301 → p ≠ 302 → h p = none := by
  have hm : ∀ p, 271 ≤ p → p < 57344 → Managed someLayout p := fun p h1 h2 => ⟨h1, h2⟩
  have h1 := (Rep.new (hm 300 (by omega) (by omega))).addTab (i := 0) (by omega) rfl
    (hm 301 (by omega) (by omega)) rfl rfl
  obtain ⟨f, hf⟩ := h1.own (a := .tab 0) rfl
  refine ⟨_, h1.mapUser (by decide) rfl hf not_present_zero (by rfl)
    (hm 302 (by omega) (by omega)) (present_or_P _) (ptePage_mapped (by omega) (by decide)), ?_⟩
  intro p h300 h301 h302
  rw [put_of_ne _ _ h301, put_of_ne _ _ h302]
  exact (put_of_ne _ _ h300).trans ((put_of_ne _ _ h301).trans (single_of_ne _ h300))

/-- It may have any pages from 303 on for the free pages. -/
theorem exists_resident_onePage {E : Finset Nat} (hE : ∀ p ∈ E, 303 ≤ p ∧ p < 57344) :
    ∃ m O, Resident someLayout m onePage O E := by
  obtain ⟨h, hR, hnone⟩ := exists_rep_onePage
  obtain ⟨m, O, hm, -⟩ := exists_resident hR (by
    intro p hp
    have := hE p hp
    exact ⟨⟨show 271 ≤ p by omega, this.2⟩, hnone p (by omega) (by omega) (by omega)⟩)
  exact ⟨m, O, hm⟩

theorem present_onePage (hm : Resident K m onePage O E) (v : Nat) (hv : v < pages 4096) :
    Present (pteOf m onePage.dir v) := by
  have hone : pages 4096 = 1 := by decide
  rw [hm.pteOf_eq, show v = 0 by omega]
  exact present_or_P _

end Xv6.Vm
