import Mathlib.Order.Interval.Finset.Nat
import OperatingSystems.Vm.Exec
import OperatingSystems.Vm.UserMemory

/-!
# What `exec` writes when it loads a file

`exec` computes the new size of the image as `vaddr + memsz`, which may wrap, and
`allocuvm` takes a smaller size than the present one for a success.  `loaduvm` then goes
by `vaddr` and `filesz` alone, in a page table that has the kernel's pages too.

* `Within` — a page was allocated by `allocuvm` for an address below the size of the
  image.
* `FileFits` — the pages of a segment that are read from the file lie below the size of
  the image, as long as they have a page table.
* `exec_loads_within_iff` — **every page that is written is within the image exactly if
  every segment fits**.
* `exec_writes_kernel_page` — a file of 84 bytes for which the kernel's own memory is
  written.

The free pages are those of the moment: `exec` runs alone here.
-/

namespace Xv6.Vm

open Cmd Heap UInt32

/-! ## Traces -/

/-- At each event of a trace, newest first, `P` holds of what came before and the event. -/
def AtEach (P : List Ev → Ev → Prop) (t : List Ev) : Prop :=
  ∀ post e pre, t = post ++ e :: pre → P pre e

theorem atEach_nil (P : List Ev → Ev → Prop) : AtEach P [] := by
  intro post e pre h
  simp at h

theorem atEach_cons {P : List Ev → Ev → Prop} {e : Ev} {t : List Ev} :
    AtEach P (e :: t) ↔ P t e ∧ AtEach P t := by
  constructor
  · intro h
    exact ⟨h [] e t rfl, fun post e' pre ht => h (e :: post) e' pre (by rw [ht]; rfl)⟩
  · rintro ⟨he, ht⟩ post e' pre heq
    cases post with
    | nil =>
      obtain ⟨rfl, rfl⟩ := List.cons.inj heq
      exact he
    | cons x post =>
      obtain ⟨-, rfl⟩ := List.cons.inj heq
      exact ht post e' pre rfl

theorem AtEach.suffix {P : List Ev → Ev → Prop} {t t' : List Ev} (h : AtEach P t')
    (hs : t <:+ t') : AtEach P t := by
  obtain ⟨u, rfl⟩ := hs
  intro post e pre ht
  exact h (u ++ post) e pre (by rw [ht, List.append_assoc])

/-- The size of the image, by the last segment. -/
def imageSize : List Ev → Option UInt32
  | [] => none
  | .segment _ _ sz :: _ => some sz
  | _ :: t => imageSize t

/-- Page `p` was allocated by `allocuvm` for the address `va`, in the user part of the
image. -/
def Within (t : List Ev) (pgdir : Nat) (va : UInt32) (p : Nat) : Prop :=
  .uvm pgdir va p ∈ t ∧ ∃ sz, imageSize t = some sz ∧ va < sz ∧ sz < KERNBASE

/-- Every page that `loaduvm` writes is within the image. -/
def LoadsWithin : List Ev → Prop :=
  AtEach fun pre e => ∀ pgdir va p, e = .load pgdir va p → Within pre pgdir va p

/-- The `i`th page of a segment. -/
def ProgHdr.page (ph : ProgHdr) (i : Nat) : UInt32 := ph.vaddr + ofNat (4096 * i)

/-- Every page of a segment that is read from the file is below the size `sz` of the
image, as long as the pages up to it have page tables. -/
def FileFits (im : Image) (t : List Ev) (pgdir : Nat) (ph : ProgHdr) (sz : UInt32) : Prop :=
  ph.vaddr.toNat % PGSIZE = 0 → ∀ i, 4096 * i < ph.filesz.toNat →
    ph.off.toNat + 4096 * i < im.size →
    (∀ j, j ≤ i → .table pgdir (PDX (ph.page j)) ∈ t) → ph.page i < sz

/-- Every segment that is loaded fits. -/
def SegmentsFit (im : Image) : List Ev → Prop :=
  AtEach fun pre e => ∀ pgdir ph sz, e = .segment pgdir ph sz → FileFits im pre pgdir ph sz

/-- All is well so far. -/
def Good (im : Image) (t : List Ev) : Prop := LoadsWithin t ∧ SegmentsFit im t

/-- Something was written outside, and a segment does not fit. -/
def Bad (im : Image) (t : List Ev) : Prop := ¬ LoadsWithin t ∧ ¬ SegmentsFit im t

variable {im : Image} {t t' : List Ev}

theorem Good.nil : Good im [] := ⟨atEach_nil _, atEach_nil _⟩

theorem Good.paging (hg : Good im t) (hs : PagingSince t t') : Good im t' := by
  obtain ⟨new, rfl, hp⟩ := hs
  induction new with
  | nil => exact hg
  | cons e new ih =>
    have hrest := ih fun e' he' => hp e' (List.mem_cons_of_mem e he')
    have he := hp e List.mem_cons_self
    refine ⟨atEach_cons.2 ⟨?_, hrest.1⟩, atEach_cons.2 ⟨?_, hrest.2⟩⟩
    · rintro pgdir va p rfl
      exact he.elim
    · rintro pgdir ph sz rfl
      exact he.elim

/-! ## A segment -/

variable {K : Layout} {S S' : Space} {h : Heap Nat Frame} {c c' : Option Nat}
  {ph : ProgHdr} {sz : UInt32} {k : Nat}

/-- The image has the size `sz`: its pages are there, except that a page table may be
missing if there are no more free pages. -/
structure Loading (K : Layout) (S : Space) (sz : UInt32) (c : Option Nat) (t : List Ev) :
    Prop where
  known : c ≠ none
  size : sz < KERNBASE
  tables : ∀ i, .table S.dir i ∈ t ↔ S.tab i ≠ none
  filled : ∀ {u : Nat}, u < pages sz → Allocated K S t u ∨ (S.tab (u / 1024) = none ∧ c = some 0)
  above : ∀ {u : Nat}, pages sz ≤ u → u < USERPAGES → S.pte u = 0

theorem Loading.setMem (hL : Loading K S sz c t) (v : Nat) (g : Frame) :
    Loading K (S.setMem v g) sz c t := ⟨hL.known, hL.size, hL.tables, hL.filled, hL.above⟩

/-- Two spaces have the same page tables with the same entries. -/
structure SameEntries (S S' : Space) : Prop where
  dir : S'.dir = S.dir
  tab : S'.tab = S.tab
  pte : S'.pte = S.pte

theorem SameEntries.refl (S : Space) : SameEntries S S := ⟨rfl, rfl, rfl⟩

theorem SameEntries.trans {S₁ S₂ S₃ : Space} (h₁ : SameEntries S₁ S₂) (h₂ : SameEntries S₂ S₃) :
    SameEntries S₁ S₃ :=
  ⟨h₂.dir.trans h₁.dir, h₂.tab.trans h₁.tab, h₂.pte.trans h₁.pte⟩

/-- The segment `ph` is being loaded, and its pages below the `k`th are. -/
structure AtPage (im : Image) (ph : ProgHdr) (sz : UInt32) (t₁ : List Ev) (k : Nat) (S : Space)
    (t : List Ev) : Prop where
  aligned : ph.vaddr.toNat % 4096 = 0
  since : ∃ ls, t = ls ++ .segment S.dir ph sz :: t₁ ∧ ∀ e ∈ ls, ∃ va p, e = .load S.dir va p
  good : Good im t₁
  within : LoadsWithin t
  below : ∀ {j : Nat}, j < k → ph.page j < sz
  tabs : ∀ {j : Nat}, j < k → S.tab (PDX (ph.page j)) ≠ none
  file : k = 0 ∨ ph.off.toNat + 4096 * k ≤ im.size

theorem imageSize_loads {ls : List Ev} {d : Nat} {t₁ : List Ev}
    (hls : ∀ e ∈ ls, ∃ va p, e = .load d va p) :
    imageSize (ls ++ .segment d ph sz :: t₁) = some sz := by
  induction ls with
  | nil => rfl
  | cons e ls ih =>
    obtain ⟨va, p, rfl⟩ := hls _ List.mem_cons_self
    exact ih fun e he => hls e (List.mem_cons_of_mem _ he)

theorem segmentsFit_loads {ls : List Ev} {d : Nat} {t₁ : List Ev}
    (hls : ∀ e ∈ ls, ∃ va p, e = .load d va p) :
    SegmentsFit im (ls ++ .segment d ph sz :: t₁) ↔ FileFits im t₁ d ph sz ∧ SegmentsFit im t₁ := by
  induction ls with
  | nil =>
    simp only [List.nil_append, SegmentsFit, atEach_cons]
    refine and_congr_left fun _ => ⟨fun h => h d ph sz rfl, fun h pgdir ph' sz' heq => ?_⟩
    cases heq
    exact h
  | cons e ls ih =>
    obtain ⟨va, p, rfl⟩ := hls _ List.mem_cons_self
    rw [← ih fun e he => hls e (List.mem_cons_of_mem _ he)]
    simp only [List.cons_append, SegmentsFit, atEach_cons]
    exact ⟨fun h => h.2, fun h => ⟨fun pgdir ph' sz' heq => (by cases heq), h⟩⟩

namespace AtPage

variable {t₁ : List Ev}

theorem begin (ha : ph.vaddr.toNat % 4096 = 0) (hg : Good im t₁) :
    AtPage im ph sz t₁ 0 S (.segment S.dir ph sz :: t₁) where
  aligned := ha
  since := ⟨[], rfl, by simp⟩
  good := hg
  within := atEach_cons.2 ⟨fun _ _ _ h => (by cases h), hg.1⟩
  below h := absurd h (Nat.not_lt_zero _)
  tabs h := absurd h (Nat.not_lt_zero _)
  file := .inl rfl

section

variable (hA : AtPage im ph sz t₁ k S t)

include hA

/-- The loop ends, and no later page would have been read. -/
theorem finish (htab : ∀ i, .table S.dir i ∈ t₁ ↔ S.tab i ≠ none)
    (hend : ∀ i, k ≤ i → 4096 * i < ph.filesz.toNat → ph.off.toNat + 4096 * i < im.size →
      S.tab (PDX (ph.page k)) ≠ none → ph.page i < sz) : Good im t := by
  obtain ⟨ls, rfl, hls⟩ := hA.since
  refine ⟨hA.within, (segmentsFit_loads hls).2 ⟨?_, hA.good.2⟩⟩
  intro _ i hi hoff hj
  by_cases hik : i < k
  · exact hA.below hik
  · exact hend i (by omega) hi hoff ((htab _).1 (hj k (by omega)))

theorem bad (htab : ∀ i, .table S.dir i ∈ t₁ ↔ S.tab i ≠ none) (hk : 4096 * k < ph.filesz.toNat)
    (hoff : ph.off.toNat + 4096 * k < im.size) (hT : S.tab (PDX (ph.page k)) ≠ none)
    (hpast : ¬ ph.page k < sz) (p : Nat) : Bad im (.load S.dir (ph.page k) p :: t) := by
  obtain ⟨ls, rfl, hls⟩ := hA.since
  constructor
  · intro h
    obtain ⟨-, sz', hsz', hlt, -⟩ := (atEach_cons.1 h).1 _ _ _ rfl
    rw [imageSize_loads hls] at hsz'
    cases hsz'
    exact hpast hlt
  · intro h
    have hfit := ((segmentsFit_loads hls).1 (atEach_cons.1 h).2).1
    refine hpast (hfit hA.aligned k hk hoff fun j hj => (htab _).2 ?_)
    rcases Nat.lt_or_ge j k with hjk | hjk
    · exact hA.tabs hjk
    · rwa [show j = k by omega]

theorem load {p : Nat} (huvm : .uvm S.dir (ph.page k) p ∈ t₁)
    (hsz : sz < KERNBASE) (hin : ph.page k < sz) (g : Frame) (v : Nat) :
    AtPage im ph sz t₁ k (S.setMem v g) (.load S.dir (ph.page k) p :: t) where
  aligned := hA.aligned
  since := by
    obtain ⟨ls, rfl, hls⟩ := hA.since
    refine ⟨.load S.dir (ph.page k) p :: ls, rfl, fun e he => ?_⟩
    rcases List.mem_cons.1 he with rfl | he
    · exact ⟨_, _, rfl⟩
    · exact hls e he
  good := hA.good
  within := by
    refine atEach_cons.2 ⟨?_, hA.within⟩
    rintro pgdir va q ⟨rfl, rfl, rfl⟩
    obtain ⟨ls, rfl, hls⟩ := hA.since
    exact ⟨List.mem_append_right _ (List.mem_cons_of_mem _ huvm), sz, imageSize_loads hls, hin, hsz⟩
  below := hA.below
  tabs := hA.tabs
  file := hA.file

theorem next (hin : ph.page k < sz) (hT : S.tab (PDX (ph.page k)) ≠ none)
    (hfile : ph.off.toNat + 4096 * (k + 1) ≤ im.size) : AtPage im ph sz t₁ (k + 1) S t where
  aligned := hA.aligned
  since := hA.since
  good := hA.good
  within := hA.within
  below hj := by
    rcases Nat.lt_succ_iff_lt_or_eq.1 hj with hj | rfl
    · exact hA.below hj
    · exact hin
  tabs hj := by
    rcases Nat.lt_succ_iff_lt_or_eq.1 hj with hj | rfl
    · exact hA.tabs hj
    · exact hT
  file := .inr hfile

end

end AtPage

theorem readi_cases (im : Image) (o : UInt32) {n : UInt32} (hn : n.toNat ≤ 4096) :
    (im.size < o.toNat ∧ im.readi o n = none) ∨ (o.toNat ≤ im.size ∧ ∃ b, im.readi o n = some b ∧
        b.toNat = min n.toNat (im.size - o.toNat)) := by
  have hsize : im.size ≤ 71680 := im.size_le
  unfold Image.readi
  by_cases hbig : o.toNat > im.size
  · exact .inl ⟨hbig, if_pos (.inl hbig)⟩
  have hadd : (o + n).toNat = o.toNat + n.toNat := by
    rw [UInt32.toNat_add]
    omega
  have hno : ¬ (o.toNat > im.size ∨ o + n < o) := by
    rw [lt_iff_toNat_lt]
    omega
  refine .inr ⟨by omega, ?_⟩
  rw [if_neg hno]
  by_cases hover : (o + n).toNat > im.size
  · refine ⟨_, if_pos hover, ?_⟩
    rw [UInt32.toNat_sub, UInt32.toNat_ofNat']
    omega
  · exact ⟨n, if_neg hover, by omega⟩

theorem page_toNat_mod (ha : ph.vaddr.toNat % 4096 = 0) (k : Nat) :
    (ph.page k).toNat % 4096 = 0 := by
  unfold ProgHdr.page
  rw [UInt32.toNat_add, UInt32.toNat_ofNat']
  omega

theorem Loading.entry {va : UInt32} (hL : Loading K S sz c t) (hva : va.toNat % 4096 = 0)
    (hlt : va < sz) (hT : S.tab (PDX va) ≠ none) :
    ∃ p, Managed K p ∧ S.page (.user (va.toNat / 4096)) = some p ∧ .uvm S.dir va p ∈ t := by
  have hlt' := lt_iff_toNat_lt.1 hlt
  have hsz := lt_iff_toNat_lt.1 hL.size
  have hbase := toNat_KERNBASE
  have hu : va.toNat / 4096 < pages sz := by
    unfold pages
    omega
  rcases hL.filled hu with hA | ⟨hnone, -⟩
  · obtain ⟨p, hm, hpte, huvm⟩ := id hA
    have hlt2 := hm.lt
    rw [show 4096 * (va.toNat / 4096) = va.toNat by omega, UInt32.ofNat_toNat] at huvm
    refine ⟨p, hm, Space.page_user.2 ⟨by unfold USERPAGES; omega, hA.present, ?_⟩, huvm⟩
    rw [hpte]
    exact ptePage_mapped (by omega) (by decide)
  · rw [← PDX_eq] at hnone
    exact absurd hnone hT

section Wp

variable {stop : List Ev → Prop} {F : String → List Ev → Prop} {t₁ : List Ev}

theorem wp_kernelPage_of_managed {X : Ctx Nat Ev} {L : Local Nat Frame Ev} {cur p : Nat}
    {Q : Post Nat} (hm : Managed K p) (hQ : Q p L) : wp X F (kernelPage K cur p) Q L := by
  have h1 := hm.1
  have h2 := K.data_le
  rw [kernelPage, if_neg (by omega), if_pos hm.2]
  exact hQ

theorem wp_loadPage {cur : Nat} {n : UInt32} {Q : Post Bool}
    (hR : Rep K S h) (hL : Loading K S sz c t₁) (hA : AtPage im ph sz t₁ k S t)
    (hk : 4096 * k < ph.filesz.toNat) (hn : n.toNat = min 4096 (ph.filesz.toNat - 4096 * k))
    (hout : ¬ ph.page k < sz → ∀ t', Bad im t' → stop t')
    (hF : Good im t → F "loaduvm: address should exist" t)
    (hend : ∀ h' S' t', Rep K S' h' → SameEntries S S' → Good im t' → Q false ⟨h', c, t'⟩)
    (ok : ∀ S' h' t', Rep K S' h' → SameEntries S S' → Loading K S' sz c t₁ →
      AtPage im ph sz t₁ k S' t' → ph.page k < sz → S'.tab (PDX (ph.page k)) ≠ none →
      ph.off.toNat + 4096 * k + n.toNat ≤ im.size → Q true ⟨h', c, t'⟩) :
    wp (ctx K stop) F (loadPage K im cur S.dir (ph.page k)
      (ph.off + ofNat (4096 * k)) n) Q ⟨h, c, t⟩ := by
  have hsize : im.size ≤ 71680 := im.size_le
  rw [loadPage, wp_bind]
  refine wp_walkpgdir hR ?_ ?_ (fun _ h => by cases h)
  · intro T hT
    have hTne : S.tab (PDX (ph.page k)) ≠ none := by simp [hT]
    obtain ⟨f, hf⟩ := hR.own (a := .tab (PDX (ph.page k))) hT
    have hoff : (ph.off + ofNat (4096 * k)).toNat = ph.off.toNat + 4096 * k := by
      have hlt := ph.off.toNat_lt
      have hfile := hA.file
      rw [UInt32.toNat_add, UInt32.toNat_ofNat']
      omega
    simp only [wp_bind]
    refine wp_read hf ?_
    rcases readi_cases im (ph.off + ofNat (4096 * k)) (n := n) (by omega) with
      ⟨hbig, hr⟩ | ⟨hle, b, hr, hb⟩
    · rw [hr]
      refine hend h S t hR (.refl S) (hA.finish hL.tables fun i _ _ hi => ?_)
      omega
    rw [hr]
    by_cases hb0 : b = 0
    · -- nothing is left of the file
      have hbz : b.toNat = 0 := by rw [hb0]; rfl
      have hne : b ≠ n := by
        rintro rfl
        omega
      simp only [hb0, if_pos]
      rw [hb0] at hne
      rw [decide_eq_false hne]
      refine hend h S t hR (.refl S) (hA.finish hL.tables fun i _ _ hi => ?_)
      omega
    have hbpos : b.toNat ≠ 0 := fun h0 => hb0 (UInt32.toNat_inj.1 h0)
    have hinfile : ph.off.toNat + 4096 * k < im.size := by omega
    simp only [if_neg hb0, wp_bind]
    rw [hR.tab_entry hT hf (PTX_lt _), show 1024 * PDX (ph.page k) + PTX (ph.page k) =
      (ph.page k).toNat / 4096 by rw [PDX_eq, PTX_eq]; omega]
    by_cases hin : ph.page k < sz
    · obtain ⟨p, hm, huser, huvm⟩ := hL.entry (page_toNat_mod hA.aligned k) hin hTne
      rw [(Space.page_user.1 huser).2.2]
      refine wp_record (wp_kernelPage_of_managed hm (wp_write (hR.user_mem huser) ?_))
      have hR' := hR.setMem (g := splice (S.mem ((ph.page k).toNat / 4096)) 0 b.toNat fun j =>
        im.byte ((ph.off + ofNat (4096 * k)).toNat + j)) huser
      have hA' := hA.load huvm hL.size hin (splice (S.mem ((ph.page k).toNat / 4096)) 0 b.toNat
        fun j => im.byte ((ph.off + ofNat (4096 * k)).toNat + j)) ((ph.page k).toNat / 4096)
      by_cases hbn : b = n
      · rw [wp_pure, decide_eq_true hbn]
        refine ok _ _ _ hR' ⟨rfl, rfl, rfl⟩ (hL.setMem _ _) hA' hin hTne ?_
        rw [← hbn]
        omega
      · rw [wp_pure, decide_eq_false hbn]
        have hbn' : b.toNat ≠ n.toNat := fun h => hbn (UInt32.toNat_inj.1 h)
        refine hend _ _ _ hR' ⟨rfl, rfl, rfl⟩ (hA'.finish (hL.setMem _ _).tables fun i hi hfi hoi _ => ?_)
        -- the file ends in this page, or the segment does
        have hik : i = k := by omega
        rw [hik]
        exact hin
    · exact .inl (hout hin _ (hA.bad hL.tables hk hinfile hTne hin _))
  · intro hT _
    exact hF (hA.finish hL.tables fun i _ _ _ h => absurd hT h)

theorem Loading.after (hL : Loading K S sz c t₁) (hA : AtPage im ph sz t₁ k S t) :
    Loading K S sz c t := by
  obtain ⟨ls, rfl, hls⟩ := hA.since
  have hmem : ∀ {e : Ev}, e ∈ t₁ → e ∈ ls ++ .segment S.dir ph sz :: t₁ :=
    fun he => List.mem_append_right _ (List.mem_cons_of_mem _ he)
  refine ⟨hL.known, hL.size, fun i => ?_, fun {u} hu => ?_, hL.above⟩
  · rw [← hL.tables i]
    refine ⟨fun he => ?_, hmem⟩
    rcases List.mem_append.1 he with he | he
    · obtain ⟨va, p, heq⟩ := hls _ he
      cases heq
    · simpa using he
  · rcases hL.filled hu with ⟨p, hm, hpte, huvm⟩ | hhole
    · exact .inl ⟨p, hm, hpte, hmem huvm⟩
    · exact .inr hhole

theorem wp_loadLoop {cur : Nat} {Q : Post Bool} (fuel : Nat)
    (hR : Rep K S h) (hL : Loading K S sz c t₁) (hA : AtPage im ph sz t₁ k S t)
    (hfuel : fuel + k = 2 ^ 20)
    (hout : ∀ j, 4096 * j < ph.filesz.toNat → ¬ ph.page j < sz → ∀ t', Bad im t' → stop t')
    (hF : ∀ t', Good im t' → F "loaduvm: address should exist" t')
    (ok : ∀ b S' h' t', Rep K S' h' → SameEntries S S' → Good im t' →
      (b = true → Loading K S' sz c t') → Q b ⟨h', c, t'⟩) :
    wp (ctx K stop) F (loadLoop K im cur S.dir ph.vaddr ph.off ph.filesz fuel
      (ofNat (4096 * k))) Q ⟨h, c, t⟩ := by
  have hsize : im.size ≤ 71680 := im.size_le
  have hfs := ph.filesz.toNat_lt
  induction fuel generalizing S h t k with
  | zero =>
    have := hA.file
    omega
  | succ fuel ih =>
    have hi : (ofNat (4096 * k)).toNat = 4096 * k := by
      rw [toNat_ofNat']
      omega
    rw [loadLoop]
    by_cases hlt : ofNat (4096 * k) < ph.filesz
    · have hk : 4096 * k < ph.filesz.toNat := by
        rw [lt_iff_toNat_lt, hi] at hlt
        exact hlt
      have hsub : (ph.filesz - ofNat (4096 * k)).toNat = ph.filesz.toNat - 4096 * k := by
        rw [UInt32.toNat_sub, hi]
        omega
      have h4 : toNat 4096 = 4096 := rfl
      have hn : (if ph.filesz - ofNat (4096 * k) < 4096 then
          ph.filesz - ofNat (4096 * k) else 4096).toNat =
            min 4096 (ph.filesz.toNat - 4096 * k) := by
        split <;> rename_i hc <;> rw [lt_iff_toNat_lt, hsub, h4] at hc <;> omega
      rw [if_pos hlt]
      simp only [wp_bind]
      refine wp_loadPage hR hL hA hk hn (hout k hk) (hF t) ?_ ?_
      · intro h' S' t' hR' hS' hg
        rw [if_neg (by simp)]
        exact ok false S' h' t' hR' hS' hg (by simp)
      · intro S' h' t' hR' hS' hL' hA' hin hT hfile
        rw [if_pos rfl, show ofNat (4096 * k) + 4096 = ofNat (4096 * (k + 1)) by
          rw [Nat.mul_succ, ofNat_add]; rfl, ← hS'.dir]
        by_cases hlast : 4096 * (k + 1) < ph.filesz.toNat
        · refine ih hR' hL' (hA'.next hin hT (by omega)) (by omega) fun b S'' h'' t'' hR'' hS'' =>
            ok b S'' h'' t'' hR'' (hS'.trans hS'')
        · -- the last page: the loop ends at once
          cases fuel with
          | zero =>
            omega
          | succ fuel =>
            have hover : ¬ ofNat (4096 * (k + 1)) < ph.filesz := by
              rw [lt_iff_toNat_lt, toNat_ofNat']
              omega
            rw [loadLoop, if_neg hover]
            refine ok true S' h' t' hR' hS' (hA'.finish hL'.tables fun i hik hfi _ _ => ?_)
              fun _ => hL'.after hA'
            rw [show i = k by omega]
            exact hin
    · rw [if_neg hlt]
      rw [lt_iff_toNat_lt, hi] at hlt
      refine ok true S h t hR (.refl S) (hA.finish hL.tables fun i hik hfi => ?_)
        fun _ => hL.after hA
      omega

theorem wp_segment {cur : Nat} {Q : Post Bool}
    (hR : Rep K S h) (hL : Loading K S sz c t) (hg : Good im t)
    (hout : ∀ j, 4096 * j < ph.filesz.toNat → ¬ ph.page j < sz → ∀ t', Bad im t' → stop t')
    (hF : ∀ msg t', Good im t' → F msg t')
    (ok : ∀ b S' h' t', Rep K S' h' → SameEntries S S' → Good im t' →
      (b = true → Loading K S' sz c t') → Q b ⟨h', c, t'⟩) :
    wp (ctx K stop) F (loaduvm K im cur S.dir ph.vaddr ph.off ph.filesz) Q
      ⟨h, c, .segment S.dir ph sz :: t⟩ := by
  rw [loaduvm]
  by_cases ha : ph.vaddr.toNat % PGSIZE = 0
  · rw [if_neg (by simpa using ha)]
    exact wp_loadLoop _ hR hL (.begin ha hg) rfl hout (hF _) ok
  · rw [if_pos ha]
    refine hF _ _ ⟨atEach_cons.2 ⟨fun _ _ _ h => (by cases h), hg.1⟩,
      atEach_cons.2 ⟨fun _ _ _ h => ?_, hg.2⟩⟩
    cases h
    exact fun h => absurd h ha

/-! ## All segments -/

/-- A segment has a page past the size that `allocuvm` was asked for. -/
def Overruns (ph : ProgHdr) (sz : UInt32) : Prop :=
  ph.type = ELF_PROG_LOAD ∧ ph.filesz ≤ ph.memsz ∧ ph.vaddr + ph.memsz ≤ sz ∧ sz < KERNBASE ∧
    ∃ j, 4096 * j < ph.filesz.toNat ∧ ¬ ph.page j < sz

theorem SameEntries.sameKernel (hS : SameEntries S S') : SameKernel S S' :=
  ⟨hS.dir, fun _ => by rw [hS.pte]⟩

theorem pages_le (hsz : sz < KERNBASE) : pages sz ≤ USERPAGES := by
  have hbase := toNat_KERNBASE
  have := lt_iff_toNat_lt.1 hsz
  unfold pages USERPAGES
  omega

theorem Alloced.sameKernel {newsz : UInt32} {lo : Nat} {b : Bool} (hsz : newsz < KERNBASE)
    (hA : Alloced K lo (pages newsz) b S c t S' c' t') : SameKernel S S' :=
  ⟨hA.grown.dir, fun hv => (hA.outside (.inr ((pages_le hsz).trans hv))).1⟩

/-- The size of the image after `n` segments, from the program header at `off` on. -/
def Image.top (im : Image) : Nat → UInt32 → UInt32 → UInt32
  | 0, _, sz => sz
  | n + 1, off, sz =>
    let ph := im.progHdr off
    if ph.type ≠ ELF_PROG_LOAD then im.top n (off + 32) sz
    else im.top n (off + 32) (if ph.vaddr + ph.memsz < sz then sz else ph.vaddr + ph.memsz)

/-- More of the image has been allocated. -/
theorem Loading.alloced {newsz : UInt32} (hL : Loading K S sz c t) (hsmall : newsz < KERNBASE)
    (hle : sz ≤ newsz) (hA : Alloced K (pages sz) (pages newsz) true S c t S' c' t') :
    Loading K S' newsz c' t' where
  known := by
    obtain ⟨n, hn⟩ := Option.ne_none_iff_exists'.1 hL.known
    obtain ⟨n', hn', -⟩ := hA.grown.credit hn
    rw [hn']
    simp
  size := hsmall
  tables := by
    intro i
    rw [hA.grown.dir, hA.grown.tables i, hL.tables i]
    cases h : S.tab i with
    | none => simp
    | some T => simp [hA.grown.tab h]
  filled := by
    intro u hu
    by_cases hlo : u < pages sz
    · rcases hL.filled hlo with ⟨p, hm, hpte, huvm⟩ | ⟨hT, hc⟩
      · refine .inl ⟨p, hm, ?_, ?_⟩
        · rw [(hA.outside (.inl hlo)).1]
          exact hpte
        · rw [hA.grown.dir]
          exact hA.grown.trace.mem huvm
      · obtain ⟨n', hn', h0, -⟩ := hA.grown.credit hc
        rw [(hA.stuck hc).1]
        exact .inr ⟨hT, by rw [hn', Nat.le_zero.1 h0]⟩
    · exact hA.holes rfl hL.known (by omega) hu
  above := by
    intro u hu hu'
    have hle' := le_iff_toNat_le.1 hle
    rw [(hA.outside (.inr hu)).1]
    refine hL.above ?_ hu'
    unfold pages at *
    omega

theorem wp_loadSegments {cur : Nat} {Q : Post (Option UInt32)} (n : Nat)
    {off : UInt32} (hR : Rep K S h) (hL : Loading K S sz c t) (hg : Good im t)
    (hout : ∀ i < n, Overruns (im.progHdr (off + ofNat (32 * i))) (im.top (i + 1) off sz) →
      ∀ t', Bad im t' → stop t')
    (hF : ∀ msg t', Good im t' → F msg t')
    (bad : ∀ S' h' g c' t', Rep K S' h' → h'.Disjoint g → SameKernel S S' → Good im t' →
      Q none ⟨h' ∪ g, c', t'⟩)
    (ok : ∀ sz' S' h' g c' t', Rep K S' h' → h'.Disjoint g → SameKernel S S' →
      Loading K S' sz' c' t' → sz' = im.top n off sz → Good im t' →
      Q (some sz') ⟨h' ∪ g, c', t'⟩) :
    wp (ctx K stop) F (loadSegments K im cur S.dir n off sz) Q ⟨h, c, t⟩ := by
  induction n generalizing S h c t off sz Q with
  | zero =>
    rw [← union_empty h]
    exact ok sz S h _ c t hR (disjoint_empty h) (.refl S) hL rfl hg
  | succ n ih =>
    have hbad : Q none ⟨h, c, t⟩ := by
      rw [← union_empty h]
      exact bad S h _ c t hR (disjoint_empty h) (.refl S) hg
    have hout' : ∀ {r : UInt32}, (∀ i, im.top (i + 1) off sz = im.top i (off + 32) r) → ∀ i < n,
        Overruns (im.progHdr (off + 32 + ofNat (32 * i))) (im.top (i + 1) (off + 32) r) →
        ∀ t', Bad im t' → stop t' := by
      intro r htop i hi hr
      refine hout (i + 1) (by omega) ?_
      rw [Nat.mul_succ, Nat.add_comm (32 * i), UInt32.ofNat_add, ← UInt32.add_assoc, htop]
      exact hr
    have hout0 : ∀ {r : UInt32}, (∀ i, im.top (i + 1) off sz = im.top i (off + 32) r) →
        Overruns (im.progHdr off) r → ∀ t', Bad im t' → stop t' := by
      intro r htop hr
      refine hout 0 (by omega) ?_
      rw [show UInt32.ofNat (32 * 0) = 0 from rfl, UInt32.add_zero, htop]
      exact hr
    rw [loadSegments]
    by_cases hread : im.readi off 32 ≠ some 32
    · rw [if_pos hread]
      exact hbad
    by_cases htype : (im.progHdr off).type ≠ ELF_PROG_LOAD
    · rw [if_neg hread, if_pos htype]
      have htop : ∀ i, im.top (i + 1) off sz = im.top i (off + 32) sz := fun i => if_pos htype
      refine ih hR hL hg (hout' htop) bad fun sz' S' h' g c' t' hR' hd' hS' hL' ht => ?_
      exact ok sz' S' h' g c' t' hR' hd' hS' hL' (ht.trans (htop n).symm)
    by_cases hmem : (im.progHdr off).memsz < (im.progHdr off).filesz
    · rw [if_neg hread, if_neg htype, if_pos hmem]
      exact hbad
    rw [if_neg hread, if_neg htype, if_neg hmem, wp_bind]
    -- once the image has the size `r`, the segment is loaded and the loop goes on
    have hgo : ∀ {r : UInt32} {S₁ : Space} {h₁ g₁ c₁ t₁}, Rep K S₁ h₁ → h₁.Disjoint g₁ →
        SameKernel S S₁ → Loading K S₁ r c₁ t₁ → Good im t₁ →
        (im.progHdr off).vaddr + (im.progHdr off).memsz ≤ r → r ≠ 0 →
        (if (im.progHdr off).vaddr + (im.progHdr off).memsz < sz then sz
          else (im.progHdr off).vaddr + (im.progHdr off).memsz) = r →
        wp (ctx K stop) F (if r = 0 then pure none else do
          record (.segment S.dir (im.progHdr off) r)
          if (← loaduvm K im cur S.dir (im.progHdr off).vaddr (im.progHdr off).off
              (im.progHdr off).filesz) then
            loadSegments K im cur S.dir n (off + 32) r
          else pure none) Q ⟨h₁ ∪ g₁, c₁, t₁⟩ := by
      intro r S₁ h₁ g₁ c₁ t₁ hR₁ hd hS hL₁ hg₁ hr hr0 hnext
      have htop : ∀ i, im.top (i + 1) off sz = im.top i (off + 32) r := fun i => by
        rw [Image.top, if_neg htype, hnext]
      rw [if_neg hr0, ← hS.dir]
      simp only [wp_bind]
      refine wp_record (wp.frame hd (wp_segment hR₁ hL₁ hg₁ ?_ hF ?_))
      · intro j hj hpast
        exact hout0 htop ⟨not_not.1 htype, UInt32.not_lt.1 hmem, hr, hL₁.size, j, hj, hpast⟩
      · intro b S₂ h₂ t₂ hR₂ hS₂ hg₂ hL₂ hd₂
        cases b with
        | false =>
          rw [if_neg (by simp)]
          exact bad S₂ h₂ g₁ c₁ t₂ hR₂ hd₂ (hS.trans hS₂.sameKernel) hg₂
        | true =>
          rw [if_pos rfl, ← hS₂.dir]
          refine wp.frame hd₂ (ih hR₂ (hL₂ rfl) hg₂ (hout' htop) ?_ ?_)
          · intro S' h' g c' t' hR' hd' hS' hg' hd''
            rw [union_assoc]
            refine bad S' h' _ c' t' hR'
              (disjoint_union_right.2 ⟨hd', (disjoint_union_left.1 hd'').1⟩)
              ((hS.trans hS₂.sameKernel).trans hS') hg'
          · intro sz' S' h' g c' t' hR' hd' hS' hL' ht hg' hd''
            rw [union_assoc]
            refine ok sz' S' h' _ c' t' hR'
              (disjoint_union_right.2 ⟨hd', (disjoint_union_left.1 hd'').1⟩)
              ((hS.trans hS₂.sameKernel).trans hS') hL' (ht.trans (htop n).symm) hg'
    refine wp_allocuvm hR ?_ ?_ ?_ ?_ ?_
    · rintro hsmall ⟨u, h1, h2, h3⟩
      rw [hL.above h1 (h2.trans_le (pages_le hsmall))] at h3
      exact absurd h3 not_present_zero
    · intro _
      rw [if_pos rfl]
      exact hbad
    · intro _ hlt
      have hsz0 : sz ≠ 0 := by
        rintro rfl
        exact absurd hlt (by simp [lt_iff_toNat_lt])
      rw [← union_empty h]
      exact hgo hR (disjoint_empty h) (.refl S) hL hg (UInt32.le_of_lt hlt) hsz0 (if_pos hlt)
    · intro S₁ S' h' g c₁ c' t' hsmall hA hFr hR' hd
      rw [if_pos rfl]
      exact bad S' h' g c' t' hR' hd ((hA.sameKernel hsmall).trans hFr.sameKernel)
        (hg.paging hA.grown.trace)
    · intro S' h' g c' t' hsmall hle hA hR' hd
      have hL' := hL.alloced hsmall hle hA
      by_cases h0 : (im.progHdr off).vaddr + (im.progHdr off).memsz = 0
      · rw [if_pos h0]
        exact bad S' h' g c' t' hR' hd (hA.sameKernel hsmall) (hg.paging hA.grown.trace)
      · exact hgo hR' hd (hA.sameKernel hsmall) hL' (hg.paging hA.grown.trace)
          (UInt32.le_refl _) h0 (if_neg (UInt32.not_lt.2 hle))

theorem KernelSpace.loading {n : Option Nat} (hS : KernelSpace S) (hn : n ≠ none)
    (hG : Grown 0 0 (Space.new S.dir) n [] S c t) : Loading K S 0 c t where
  known := by
    obtain ⟨k, hk⟩ := Option.ne_none_iff_exists'.1 hn
    obtain ⟨k', hk', -⟩ := hG.credit hk
    rw [hk']
    simp
  size := by decide
  tables i := by
    have h := hG.tables i
    simpa [Space.new] using h
  filled hu := by
    have hzero : pages 0 = 0 := by decide
    omega
  above _ hu := hS.user hu

/-- A segment has a page past the size of the image that it is loaded into. -/
def Image.Overruns (im : Image) : Prop :=
  ∃ i < im.phnum, Vm.Overruns (im.progHdr (im.phoff + ofNat (32 * i))) (im.top (i + 1) im.phoff 0)

/-- `loadImage`, by a process that runs alone: all is well at the end, or it is followed
only to the first page outside. -/
theorem wp_loadImage {im : Image} (cur n : Nat) (hout : im.Overruns → ∀ t, Bad im t → stop t) :
    wp (ctx K stop) (fun _ t => Good im t) (loadImage K im cur) (fun _ L => Good im L.trace)
      ⟨empty, some n, []⟩ := by
  rw [loadImage]
  split
  · exact .nil
  split
  · exact .nil
  rw [wp_bind]
  refine wp_setupkvm (fun h' c' t' _ hs => Good.nil.paging hs) ?_
  intro S h' c' t' hR hS _ hG
  simp only [wp_bind]
  exact wp_loadSegments _ hR (hS.loading (by simp) hG) (Good.nil.paging hG.trace)
    (fun i hi hr => hout ⟨i, hi, hr⟩) (fun _ _ hg => hg) (fun _ _ _ _ _ _ _ _ hg => hg)
    (fun _ _ _ _ _ _ _ _ _ _ _ hg => hg)

/-- **Every page that `exec` writes when it loads a file is one that `allocuvm` allocated
for the user part of the new image, exactly if every segment it loads fits.**  It does if by the
headers of the file no segment has a page past the size of the image. -/
theorem exec_loads_within_iff (K : Layout) (im : Image) (cur : Nat) {m : Vm} {E : Finset Nat}
    (hE : FreePages K m E) :
    (LoadsWithin (run (memory K) (loadImage K im cur) m []).2 ↔
      SegmentsFit im (run (memory K) (loadImage K im cur) m []).2) ∧
    (¬ im.Overruns → LoadsWithin (run (memory K) (loadImage K im cur) m []).2) := by
  have hsplit : Split (memory K) m ∅ E (⟨empty, some E.card, []⟩ : Local Nat Frame Ev) := by
    refine ⟨hE, Finset.disjoint_empty_left E, by simp, ?_, fun n hn => by cases hn; rfl⟩
    funext q
    simp [restrict]
  refine ⟨?_, fun hfit => ?_⟩
  · rcases run_trace rfl hsplit (wp_loadImage cur _ fun _ _ h => h) with ⟨t, hbad, hsuf⟩ | hgood
    · exact ⟨fun hw => absurd (hw.suffix hsuf) hbad.1, fun hf => absurd (hf.suffix hsuf) hbad.2⟩
    · exact ⟨fun _ => hgood.2, fun _ => hgood.1⟩
  · have hw : wp (ctx K fun _ => False) (fun _ t => Good im t) (loadImage K im cur)
        (fun _ L => Good im L.trace) ⟨empty, some E.card, []⟩ :=
      wp_loadImage cur _ fun h => absurd h hfit
    rcases run_trace rfl hsplit hw with ⟨t, hf, -⟩ | hgood
    · exact hf.elim
    · exact hgood.1

end Wp

/-! ## A file that overwrites the kernel -/

/-- Memory after `freerange` has gone over all of it. -/
def kinit (K : Layout) : Vm :=
  (run (memory K) (freerange K K.first (57344 - K.first)) ⟨fun _ => filled 0, 0⟩ []).1.2

theorem freePages_kinit (K : Layout) : FreePages K (kinit K) (Finset.Ico K.first 57344) := by
  let m : Vm := ⟨fun _ => filled 0, 0⟩
  let O := Finset.Ico K.first 57344
  have hsplit : Split (memory K) m O ∅
      (⟨restrict (memory K) m O, some 0, []⟩ : Local Nat Frame Ev) := by
    refine ⟨⟨[], by simp, rfl, rfl, by simp⟩, Finset.disjoint_empty_right O, ?_, rfl,
      fun n hn => by cases hn; rfl⟩
    intro p hp
    exact Finset.mem_Ico.1 hp
  have hw : wp (ctx K fun _ => False) (fun _ _ => False)
      (freerange K K.first (57344 - K.first)) (fun _ L => ∀ q ∈ O, L.heap q = none)
      (⟨restrict (memory K) m O, some 0, []⟩ : Local Nat Frame Ev) := by
    refine wp_freerange _ (fun q h1 h2 => ?_) fun h' _ hin q hq => ?_
    · have hq : q ∈ O := Finset.mem_Ico.2 ⟨h1, by omega⟩
      exact ⟨⟨h1, show q < 57344 by omega⟩, _, if_pos hq⟩
    · have := Finset.mem_Ico.1 hq
      exact hin q this.1 (by omega)
  rcases run_sound (fun _ h => h) hsplit hw with ⟨t, hf, -⟩ | hran
  · exact hf.elim
  · unfold kinit
    rcases hr : run (memory K) (freerange K K.first (57344 - K.first)) m [] with ⟨⟨msg | a, s'⟩, t⟩
    · rw [hr] at hran
      exact hran.elim
    · rw [hr] at hran
      obtain ⟨O', E', L, hs, -, hB, -, hq⟩ := hran
      have hO : O' = ∅ := by
        refine Finset.eq_empty_of_forall_notMem fun p hp => ?_
        have hpB : p ∈ O := by
          have := Finset.mem_union_left E' hp
          rw [hB, Finset.union_empty] at this
          exact this
        have hnone := hq p hpB
        rw [hs.heap, restrict, if_pos hp] at hnone
        cases hnone
      rw [hO, Finset.empty_union, Finset.union_empty] at hB
      have hfree : FreePages K s' E' := hs.free
      rw [hB] at hfree
      exact hfree

/-- A place for the kernel. -/
def someLayout : Layout := ⟨264, 271, by decide, by decide, by decide⟩

/-- An executable of 84 bytes.  Its one segment is at `0x8DFFF000`, in the kernel's
mapping of the last page of memory, with 16 bytes from the file; `memsz` is such that
`vaddr + memsz` wraps to `0x1000`. -/
def wrapImage : Image where
  size := 84
  byte
    | 0 => 0x7F | 1 => 0x45 | 2 => 0x4C | 3 => 0x46
    | 28 => 0x34 | 44 => 0x01
    | 52 => 0x01 | 61 => 0xF0 | 62 => 0xFF | 63 => 0x8D
    | 68 => 0x10 | 73 => 0x20 | 75 => 0x72
    | _ => 0
  size_le := by decide

theorem wrapImage_progHdr : wrapImage.progHdr 52 = ⟨1, 0, 0x8DFFF000, 16, 0x72002000⟩ := by decide

/-- The page was written, though it is not part of the image. -/
def Wrote (t : List Ev) : Prop :=
  ∃ d pre, t = .load d 0x8DFFF000 57343 :: pre ∧ imageSize pre = some 0x1000

theorem wp_loadImage_wrap {K : Layout} {n : Nat} (hn : 4000 ≤ n) :
    wp (ctx K Wrote) (fun _ _ => False) (loadImage K wrapImage 0) (fun _ _ => False)
      (⟨empty, some n, []⟩ : Local Nat Frame Ev) := by
  rw [loadImage, if_neg (by decide), if_neg (by decide), wp_bind]
  refine wp_setupkvm (fun h' c' t' hle _ => ?_) ?_
  · have := hle n rfl
    omega
  intro S h' c' t' hR hS _ hG
  obtain ⟨n₁, hn₁, -, hcr⟩ := hG.credit (n := n - 1) rfl
  have habs := (Space.new S.dir).absentTabs_le
  have hphnum : wrapImage.phnum = 0 + 1 := by decide
  have hphoff : wrapImage.phoff = 52 := by decide
  simp only [wp_bind]
  rw [hphnum, hphoff, loadSegments, if_neg (by decide), wrapImage_progHdr, if_neg (by decide),
    if_neg (by decide), wp_bind]
  refine wp_allocuvm hR ?_ ?_ ?_ ?_ ?_
  · rintro - ⟨u, -, h2, h3⟩
    rw [hS.user (h2.trans_le (by decide))] at h3
    exact absurd h3 not_present_zero
  · intro h
    exact absurd h (by decide)
  · intro _ h
    exact absurd h (by decide)
  · intro S₁ S' h' g c₁ c' t' _ hA _ _ _
    obtain ⟨n₂, hn₂, -, hcr₂⟩ := hA.grown.credit hn₁
    have h0 := hA.fail rfl
    have hpages : (((0x8DFFF000 + 0x72002000 : UInt32).toNat + 4095) / 4096) -
        ((toNat 0 + 4095) / 4096) = 1 := by decide
    rw [hn₂] at h0
    simp at h0
    simp only at hcr₂
    omega
  · intro S' h' g c' t' _ _ hA hR' hd
    have hkern : SameKernel S S' := hA.sameKernel (by decide)
    rw [if_neg (by decide), ← hkern.dir]
    simp only [wp_bind]
    refine wp_record ?_
    rw [loaduvm, if_neg (by decide), show NPDENTRIES * NPTENTRIES = 1048575 + 1 from rfl, loadLoop,
      if_pos (by decide)]
    simp only [wp_bind]
    rw [loadPage, wp_bind]
    have hpage := hS.page (q := 57343) (by norm_num)
    rw [← hkern.pte (by unfold USERPAGES; omega)] at hpage
    refine wp.frame hd (wp_walkpgdir hR' ?_ ?_ (fun _ h => by cases h))
    · intro T hT _
      obtain ⟨f, hf⟩ := hR'.own (a := .tab (PDX _)) hT
      simp only [wp_bind]
      refine wp_read (union_left hf) ?_
      rw [hR'.tab_entry hT hf (PTX_lt _), show wrapImage.readi (0 + 0)
        (if 16 - 0 < (4096 : UInt32) then 16 - 0 else 4096) = some 16 by decide]
      simp only [show 1024 * PDX (0x8DFFF000 + 0) + PTX (0x8DFFF000 + 0) =
        USERPAGES + 57343 by decide, hpage.2]
      rw [if_neg (by decide), wp_bind]
      exact .inl ⟨S'.dir, _, rfl, rfl⟩
    · intro hT _ _
      rw [hR'.pte_none hT] at hpage
      exact absurd hpage.1 not_present_zero

/-- **Executing a file of 84 bytes overwrites the last page of memory**, which is not a
page of the image: the image has one page, at address 0. -/
theorem exec_writes_kernel_page : FreePages someLayout (kinit someLayout) (Finset.Ico 271 57344) ∧
      (∃ d, .load d 0x8DFFF000 57343 ∈
        (run (memory someLayout) (loadImage someLayout wrapImage 0) (kinit someLayout) []).2) ∧
      ¬ LoadsWithin
        (run (memory someLayout) (loadImage someLayout wrapImage 0) (kinit someLayout) []).2 := by
  have hfree := freePages_kinit someLayout
  have hsplit : Split (memory someLayout) (kinit someLayout) ∅ (Finset.Ico 271 57344)
      (⟨empty, some 57073, []⟩ : Local Nat Frame Ev) := by
    refine ⟨hfree, Finset.disjoint_empty_left _, by simp, ?_, fun n hn => ?_⟩
    · funext q
      simp [restrict]
    · rw [Nat.card_Ico]
      exact Option.some.inj hn
  have hw := wp_loadImage_wrap (K := someLayout) (n := 57073) (by norm_num)
  obtain ⟨t, ⟨d, pre, rfl, hsz⟩, hsuf⟩ :=
    (run_trace rfl hsplit hw).resolve_right id
  refine ⟨hfree, ⟨d, hsuf.subset List.mem_cons_self⟩, fun hin => ?_⟩
  obtain ⟨-, sz, hsz', hlt, -⟩ := (atEach_cons.1 (hin.suffix hsuf)).1 _ _ _ rfl
  rw [hsz] at hsz'
  cases hsz'
  exact absurd hlt (by decide)

/-- An executable with one segment of 16 bytes at address 0. -/
def plainImage : Image where
  size := 84
  byte
    | 0 => 0x7F | 1 => 0x45 | 2 => 0x4C | 3 => 0x46
    | 28 => 0x34 | 44 => 0x01
    | 52 => 0x01 | 68 => 0x10 | 72 => 0x10
    | _ => 0
  size_le := by decide

/-- Loading that file, and a plain one, into memory as it is at the start. -/
theorem exec_loads_within_iff_start :
    FreePages someLayout (kinit someLayout) (Finset.Ico 271 57344) ∧ (LoadsWithin
          (run (memory someLayout) (loadImage someLayout wrapImage 0) (kinit someLayout) []).2 ↔
        SegmentsFit wrapImage
          (run (memory someLayout) (loadImage someLayout wrapImage 0) (kinit someLayout) []).2) ∧
      LoadsWithin
        (run (memory someLayout) (loadImage someLayout plainImage 0) (kinit someLayout) []).2 := by
  have hfree := freePages_kinit someLayout
  refine ⟨hfree, (exec_loads_within_iff someLayout wrapImage 0 hfree).1,
    (exec_loads_within_iff someLayout plainImage 0 hfree).2 ?_⟩
  rintro ⟨i, hi, -, -, -, -, j, hj, hpast⟩
  obtain rfl : i = 0 := Nat.lt_one_iff.1 hi
  have hph : plainImage.progHdr (plainImage.phoff + ofNat (32 * 0)) = ⟨1, 0, 0, 16, 16⟩ := by
    decide
  rw [hph] at hj hpast
  obtain rfl : j = 0 := by
    have h16 : toNat 16 = 16 := rfl
    simp only [h16] at hj
    omega
  exact hpast (by decide)

end Xv6.Vm
