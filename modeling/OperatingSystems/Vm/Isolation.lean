import OperatingSystems.Vm.Owners

/-!
# A page has one use

* `page_has_one_role` — **in every run whose calls to `exec` are safe, no page is used for
  two things**.
* `page_has_two_roles` — a run in which a page table entry of a process is overwritten by
  a string it passes to `exec`, so that its kernel stack is mapped for the user.
-/

namespace Xv6.Vm

open Cmd Heap Option

variable {K : Layout} {s : Sys} {H : Owner → Heap Nat Frame} {m : Vm} {p : Nat} {i : Option Nat}

/-! ## Roles and owners -/

section Roles

variable {S : Space} {h : Heap Nat Frame}

theorem Rep.page_tableOf (hR : Rep K S h) (hm : ∀ q v, h q = some v → m.page q = v) {e : Nat}
    (he : tableOf m S.dir e = some p) : S.page (.tab e) = some p := by
  obtain ⟨f, hf⟩ := hR.own (a := .dir) rfl
  unfold tableOf at he
  rw [hm _ _ hf] at he
  split at he
  · rename_i hlt
    rw [hR.dir_entry hf hlt.1] at he hlt
    cases hT : S.tab e with
    | none =>
      rw [hT] at hlt
      exact absurd hlt.2 not_present_zero
    | some T =>
      have hTlt := (hR.managed (a := .tab e) hT).lt
      rw [hT, ptePage_pdeOf (by omega)] at he
      exact hT.trans he
  · cases he

theorem Rep.page_userOf (hR : Rep K S h) (hm : ∀ q v, h q = some v → m.page q = v) {v : Nat}
    (hv : userOf m S.dir v = some p) : S.page (.user v) = some p := by
  obtain ⟨T, hT, hp⟩ := bind_eq_some_iff.1 hv
  have htab := hR.page_tableOf hm hT
  obtain ⟨f, hf⟩ := hR.own htab
  rw [hm _ _ hf, hR.tab_entry htab hf (by omega), Nat.div_add_mod] at hp
  split at hp
  · rename_i hlt
    exact Space.page_user.2 ⟨hlt.1, hlt.2, some.inj hp⟩
  · cases hp

theorem freeAt_eq {l : List Nat} (hl : ∀ q ∈ l, Managed K q) :
    ∀ {v : UInt32} (k : Nat), m.Linked v l → freeAt m k v = l[k]? := by
  induction l with
  | nil =>
    intro v k hv
    cases k <;> simp [freeAt, show v = 0 from hv]
  | cons q l ih =>
    intro v k hv
    have hlt := (hl q (by simp)).lt
    have hne : v ≠ 0 := by
      rw [hv.1]
      exact P2V_ne_zero (by omega)
    have hq : pageOf v = q := by rw [hv.1, pageOf_P2V (by omega)]
    cases k with
    | zero => simp [freeAt, hne, hq]
    | succ k =>
      rw [freeAt, if_neg hne, hq, List.getElem?_cons_succ]
      exact ih (fun q' hq' => hl q' (by simp [hq'])) k hv.2

end Roles

/-- Who has the page directory of a process, or of the kernel. -/
def dirOwner : Option Nat → Owner
  | none => .kernel
  | some i => .space i

/-- Who has a page with a role; nobody has a free page. -/
def Role.owner (p : Nat) : Role → Option Owner
  | .free _ => none
  | .cpuStack _ => some .cpu
  | .kstack i => some (.kstack i)
  | .dir i => some (dirOwner i)
  | .table i _ => some (dirOwner i)
  | .user i _ => some (.space i)
  | .pipe => some (.pipe p)

/-- The place of a page with a role in an address space. -/
def Role.place : Role → Option (Option Nat × Place)
  | .dir i => some (i, .dir)
  | .table i e => some (i, .tab e)
  | .user i v => some (some i, .user v)
  | _ => none

theorem Inv.dirSpace (hI : Inv K s H) {d : Nat} (h : s.HasDir d i) :
    ∃ S, Rep K S (H (dirOwner i)) ∧ S.dir = d := by
  cases i with
  | none =>
    obtain rfl := h
    exact hI.kernel
  | some i =>
    obtain ⟨hst, rfl⟩ := h
    obtain ⟨S, hR, -, hdir⟩ := (hI.proc i hst).space
    exact ⟨S, hR, hdir⟩

theorem Sys.HasDir.unique {d d' : Nat} (h : s.HasDir d i) (h' : s.HasDir d' i) : d = d' := by
  cases i with
  | none => exact h.trans h'.symm
  | some i => exact h.2.trans h'.2.symm

theorem Inv.page_place (hI : Inv K s H) {r : Role} {a : Place} {S : Space}
    (hr : s.HasRole p r) (hp : r.place = some (i, a)) (hR : Rep K S (H (dirOwner i)))
    (hdir : s.HasDir S.dir i) : S.page a = some p := by
  have hm : ∀ q v, H (dirOwner i) q = some v → s.mem.page q = v := fun q v hv => hI.holds.read hv
  cases r with
  | dir i' =>
    obtain ⟨rfl, rfl⟩ : i' = i ∧ Place.dir = a := by simpa [Role.place] using hp
    exact congrArg some (Sys.HasDir.unique hdir hr)
  | table i' e =>
    obtain ⟨rfl, rfl⟩ : i' = i ∧ Place.tab e = a := by simpa [Role.place] using hp
    obtain ⟨d, hd, ht⟩ := hr
    rw [← Sys.HasDir.unique hdir hd] at ht
    exact hR.page_tableOf hm ht
  | user i' v =>
    obtain ⟨rfl, rfl⟩ : some i' = i ∧ Place.user v = a := by simpa [Role.place] using hp
    obtain ⟨d, hd, hu⟩ := hr
    rw [← Sys.HasDir.unique hdir hd] at hu
    exact hR.page_userOf hm hu
  | free k | cpuStack k | kstack i' | pipe => cases hp

theorem Inv.hasDir (hI : Inv K s H) {r : Role} {a : Place}
    (hr : s.HasRole p r) (hp : r.place = some (i, a)) :
    ∃ S, Rep K S (H (dirOwner i)) ∧ s.HasDir S.dir i := by
  have key : ∃ d, s.HasDir d i := by
    cases r with
    | dir i' =>
      obtain ⟨rfl, -⟩ : i' = i ∧ Place.dir = a := by simpa [Role.place] using hp
      exact ⟨p, hr⟩
    | table i' e =>
      obtain ⟨rfl, -⟩ : i' = i ∧ Place.tab e = a := by simpa [Role.place] using hp
      obtain ⟨d, hd, -⟩ := hr
      exact ⟨d, hd⟩
    | user i' v =>
      obtain ⟨rfl, -⟩ : some i' = i ∧ Place.user v = a := by simpa [Role.place] using hp
      obtain ⟨d, hd, -⟩ := hr
      exact ⟨d, hd⟩
    | free k | cpuStack k | kstack i' | pipe => cases hp
  obtain ⟨d, hd⟩ := key
  obtain ⟨S, hR, rfl⟩ := hI.dirSpace hd
  exact ⟨S, hR, hd⟩

theorem Inv.owned (hI : Inv K s H) {r : Role} {l : Owner} (hr : s.HasRole p r)
    (hl : r.owner p = some l) : ∃ v, H l p = some v := by
  have hspace : ∀ {i a}, r.place = some (i, a) → l = dirOwner i → ∃ v, H l p = some v := by
    rintro i a hp rfl
    obtain ⟨S, hR, hdir⟩ := hI.hasDir hr hp
    exact hR.own (hI.page_place hr hp hR hdir)
  cases r with
  | free k => cases hl
  | cpuStack k =>
    cases hl
    exact hI.cpu p (List.mem_of_getElem? hr)
  | kstack i =>
    cases hl
    obtain ⟨hst, rfl⟩ := hr
    exact (hI.proc i hst).kstack
  | dir i | table i e => exact hspace rfl (by simpa [Role.owner] using hl.symm)
  | user i v => exact hspace rfl (by simpa [Role.owner, dirOwner] using hl.symm)
  | pipe =>
    cases hl
    obtain ⟨f, w, hf⟩ := hr
    obtain ⟨g, hg, -⟩ := hI.pipe f p w hf
    exact ⟨g, hg⟩

theorem Role.place_of_owner {r : Role} (h : r.owner p = some (dirOwner i)) :
    ∃ a, r.place = some (i, a) := by
  cases r with
  | dir j | table j e => cases i <;> cases j <;> simp_all [Role.owner, Role.place, dirOwner]
  | user j v => cases i <;> simp_all [Role.owner, Role.place, dirOwner]
  | free k => cases h
  | cpuStack k | kstack j | pipe => cases i <;> cases h

theorem Role.place_inj {r r' : Role} {a : Place} (h : r.place = some (i, a))
    (h' : r'.place = some (i, a)) : r = r' := by
  cases r <;> cases h <;> cases r' <;> cases h' <;> rfl

theorem Inv.owner_unique (hI : Inv K s H) {r r' : Role} (hr : s.HasRole p r)
    (hr' : s.HasRole p r') : r.owner p = r'.owner p := by
  obtain ⟨E, ⟨l, -, rfl, hlink, hman⟩, hE⟩ := hI.holds.free
  have hnot : ∀ {r r' o}, s.HasRole p r → r.owner p = none → s.HasRole p r' →
      r'.owner p ≠ some o := by
    intro r r' o hr hnone hr' ho
    obtain ⟨v, hv⟩ := hI.owned hr' ho
    cases r with
    | free k =>
      have hk : l[k]? = some p := (freeAt_eq hman k hlink).symm.trans hr
      exact hE o p v hv (List.mem_toFinset.2 (List.mem_of_getElem? hk))
    | _ => cases hnone
  cases ho : r.owner p with
  | none =>
    cases ho' : r'.owner p with
    | none => rfl
    | some o' => exact absurd ho' (hnot hr ho hr')
  | some o =>
    cases ho' : r'.owner p with
    | none => exact absurd ho (hnot hr' ho' hr)
    | some o' =>
      obtain ⟨v, hv⟩ := hI.owned hr ho
      obtain ⟨w, hw⟩ := hI.owned hr' ho'
      by_contra hne
      have hnone := (hI.holds.apart (fun h => hne (congrArg some h))).right_none hv
      rw [hw] at hnone
      cases hnone

theorem eq_of_getElem?_eq {l : List Nat} (hnd : l.Nodup) {k k' : Nat} (hk : l[k]? = some p)
    (hk' : l[k']? = some p) : k = k' := by
  obtain ⟨hlt, -⟩ := List.getElem?_eq_some_iff.1 hk
  exact (List.getElem?_inj hlt hnd).1 (hk.trans hk'.symm)

/-- **With the invariant, a page has one role.** -/
theorem Inv.role_unique (hI : Inv K s H) {r r' : Role} (hr : s.HasRole p r)
    (hr' : s.HasRole p r') : r = r' := by
  have ho := hI.owner_unique hr hr'
  -- in an address space, two roles would be two places of the page
  have hspace : ∀ {i a}, r.place = some (i, a) → r.owner p = some (dirOwner i) → r = r' := by
    intro i a hp hi
    obtain ⟨a', hp'⟩ := Role.place_of_owner (ho.symm.trans hi)
    obtain ⟨S, hR, hdir⟩ := hI.hasDir hr hp
    obtain rfl : a = a' := hR.inj (hI.page_place hr hp hR hdir) (hI.page_place hr' hp' hR hdir)
    exact Role.place_inj hp hp'
  cases r with
  | dir i | table i e | user i v => exact hspace rfl rfl
  | free k =>
    cases r' with
    | free k' =>
      obtain ⟨E, ⟨l, hnd, rfl, hlink, hman⟩, -⟩ := hI.holds.free
      exact congrArg Role.free (eq_of_getElem?_eq hnd ((freeAt_eq hman k hlink).symm.trans hr)
        ((freeAt_eq hman k' hlink).symm.trans hr'))
    | _ => cases ho
  | cpuStack k =>
    cases r' with
    | cpuStack k' => exact congrArg Role.cpuStack (eq_of_getElem?_eq hI.nodup hr hr')
    | dir i | table i e => cases i <;> cases ho
    | _ => cases ho
  | kstack i =>
    cases r' with
    | kstack j =>
      cases ho
      rfl
    | dir i | table i e => cases i <;> cases ho
    | _ => cases ho
  | pipe =>
    cases r' with
    | pipe => rfl
    | dir i | table i e => cases i <;> cases ho
    | _ => cases ho

/-! ## The start -/

section Boot

variable {S : Space} {h : Heap Nat Frame} {c : Option Nat} {t : List Ev}

theorem wp_inituvm {Q : Post Unit} {init : Nat → UInt8} {sz : UInt32} (hR : Rep K S h) (hM : Made S)
    (ok : ∀ S' h' g c' t', Rep K S' h' → h'.Disjoint g → Made S' → S'.dir = S.dir →
      Q () ⟨h' ∪ g, c', t'⟩) :
    wp (whole K) anyPanic (inituvm S.dir init sz) Q ⟨h, c, t⟩ := by
  rw [inituvm]
  split
  · trivial
  rw [wp_bind]
  refine wp_kalloc (fun _ => trivial) ?_
  intro _ mem f hm hfree
  have hfree' : h mem = none := hfree
  simp only [wp_bind]
  refine wp_write (put_self _ _ _) ?_
  simp only [put_put]
  refine wp_mapUser hR (v := 0) rfl (by decide) hfree' hm (by decide) (fun _ _ _ => trivial) ?_ ?_
  · intro _ _
    refine wp_write (put_self _ _ _) ?_
    simp only [put_put]
    rw [← union_single _ hfree']
    exact ok S h _ _ _ hR (disjoint_single.2 hfree') hM rfl
  · intro T S₁ h' c' t' hW _ hR'
    have huser : (S₁.setPte 0 (pa mem ||| (PTE_W ||| PTE_U) ||| PTE_P) (filled 0)).page (.user 0) =
        some mem := by
      refine Space.page_user.2 ⟨by decide, ?_, ?_⟩
      · rw [Space.pte_setPte_self]
        exact present_or_P _
      · rw [Space.pte_setPte_self]
        exact ptePage_mapped (by have := hm.lt; omega) (by decide)
    have hM₁ : Made (S₁.setPte 0 (pa mem ||| (PTE_W ||| PTE_U) ||| PTE_P) (filled 0)) := by
      refine hM.same ⟨(hW.grown 0).dir, fun {v} hv => ?_⟩
      have h0 : v ≠ 0 := by
        unfold USERPAGES at hv
        omega
      rw [S₁.pte_setPte_of_ne _ _ h0, hW.pte]
    refine wp_write (hR'.user_mem huser) ?_
    rw [← union_empty (h'.put mem _)]
    exact ok _ _ _ _ _ (hR'.setMem huser) (disjoint_empty _) (hM₁.same ⟨rfl, fun _ => rfl⟩)
      (hW.grown 0).dir

theorem wp_allocStacks {Q : Post (List Nat)} (n : Nat)
    (ok : ∀ l k c', l.Nodup → (∀ q ∈ l, ∃ f, k q = some f) → Q l ⟨k, c', t⟩) :
    wp (whole K) anyPanic (allocStacks n) Q ⟨empty, c, t⟩ := by
  induction n generalizing c Q with
  | zero => exact ok [] _ c List.nodup_nil (by simp)
  | succ n ih =>
    rw [allocStacks, wp_bind]
    refine wp_kalloc (fun _ => ih ok) ?_
    intro _ q f _ _
    rw [wp_bind, show (put empty q f : Heap Nat Frame) = single q f from rfl,
      ← empty_union (single q f)]
    refine wp.frame (empty_disjoint _) (ih fun l k c' hnd hl hd => ?_)
    have hk : k q = none := disjoint_single.1 hd
    refine ok _ _ _ (List.nodup_cons.2 ⟨fun hq => ?_, hnd⟩) fun q' hq' => ?_
    · obtain ⟨f', hf'⟩ := hl q hq
      rw [hk] at hf'
      cases hf'
    · rcases List.mem_cons.1 hq' with rfl | hq'
      · exact ⟨f, sub_union_right hd _ _ (single_self q' f)⟩
      · obtain ⟨f', hf'⟩ := hl q' hq'
        exact ⟨f', union_left hf'⟩

/-- The pages from `lo` to the end of memory. -/
def pagesFrom (page : Nat → Frame) (lo : Nat) : Heap Nat Frame := fun q =>
  if lo ≤ q ∧ q < 57344 then some (page q) else none

theorem pagesFrom_eq_none {page : Nat → Frame} {lo q : Nat} (hq : q < lo ∨ 57344 ≤ q) :
    pagesFrom page lo q = none := if_neg (by omega)

/-- What `main` leaves behind, with all pages to start with. -/
theorem wp_boot {page : Nat → Frame} {ncpu : Nat} {init : Nat → UInt8} {initsz : UInt32} :
    wp (whole K) anyPanic (boot K ncpu init initsz) (fun b L => ∃ Sk hk kc f S hs,
      Rep K Sk hk ∧ Sk.dir = b.kpgdir ∧ b.cpuStack.Nodup ∧ (∀ q ∈ b.cpuStack, ∃ f, kc q = some f) ∧
        L.heap b.kstack = some f ∧ Rep K S hs ∧ Made S ∧ S.dir = b.pgdir ∧
        hk.Sub L.heap ∧ kc.Sub L.heap ∧ hs.Sub L.heap ∧ kc.Disjoint hk ∧ hs.Disjoint kc ∧
        hs.Disjoint hk ∧ kc b.kstack = none ∧ hk b.kstack = none ∧ hs b.kstack = none)
      ⟨pagesFrom page K.first, c, t⟩ := by
  have hfirst := K.first_le
  simp only [boot, startKernel, userinit, wp_bind]
  refine wp_freerange _ (fun q h1 h2 => ⟨⟨h1, show q < 57344 by omega⟩, _, if_pos (by omega)⟩) ?_
  intro h₁ hout hin
  have hh₁ : h₁ = pagesFrom page 1024 := by
    funext q
    by_cases h1 : q < K.first
    · rw [hout q (by omega), pagesFrom_eq_none (.inl h1), pagesFrom_eq_none (by omega)]
    by_cases h2 : q < 1024
    · rw [hin q (by omega) (by omega), pagesFrom_eq_none (.inl h2)]
    · rw [hout q (by omega)]
      simp [pagesFrom, show K.first ≤ q by omega, show 1024 ≤ q by omega]
  rw [hh₁, ← empty_union (pagesFrom page 1024)]
  refine wp.frame (empty_disjoint _) (wp_setupkvm (fun _ _ _ _ _ _ => trivial) ?_)
  intro Sk hk c₂ t₂ hRk _ _ _ hd₂
  have hd₂' : hk.Disjoint (pagesFrom page 1024) := hd₂
  simp only [wp_bind]
  rw [← empty_union (hk ∪ pagesFrom page 1024)]
  refine wp.frame (empty_disjoint _) (wp_allocStacks ncpu ?_)
  intro l kc c₃ hnd hl hd₃
  obtain ⟨hkk, hkp⟩ := disjoint_union_right.1 hd₃
  have hrest : (kc ∪ hk).Disjoint (pagesFrom page 1024) :=
    disjoint_union_left.2 ⟨hkp, hd₂'⟩
  rw [← union_assoc, union_comm hrest]
  refine wp.frame hrest.symm (wp_freerange _ (fun q h1 h2 => ?_) ?_)
  · exact ⟨⟨by omega, show q < 57344 by omega⟩, _, if_pos (by omega)⟩
  intro h₄ hout₄ hin₄ _
  have hh₄ : h₄ = empty := by
    funext q
    by_cases hq : q < 1024 ∨ 57344 ≤ q
    · rw [hout₄ q (by omega), pagesFrom_eq_none hq, empty_apply]
    · exact hin₄ q (by omega) (by omega)
  simp only [hh₄, empty_union]
  refine wp_kalloc (fun _ => trivial) ?_
  intro _ ks f hm hfree
  obtain ⟨hkc, hkk'⟩ := or_eq_none_iff.1 hfree
  simp only [wp_bind]
  rw [← empty_union ((kc ∪ hk).put ks f)]
  refine wp.frame (empty_disjoint _) (wp_setupkvm (fun _ _ _ _ _ _ => trivial) ?_)
  intro S hs c₅ t₅ hRs hKs _ _ hd₅
  simp only [wp_bind]
  refine wp.frame hd₅ (wp_inituvm hRs ⟨S, hKs, .refl S⟩ ?_)
  intro S' hs' g c₆ t₆ hRs' hdg hM' hdir hd₆
  rw [wp_pure]
  obtain ⟨hd₇, -⟩ := disjoint_union_left.1 hd₆
  rw [← union_single f hfree] at hd₆ hd₇
  obtain ⟨hd₈, hd₉⟩ := disjoint_union_right.1 hd₇
  obtain ⟨h1, h2⟩ := disjoint_union_right.1 hd₈
  have hsub : (kc ∪ hk).put ks f = (kc ∪ hk) ∪ single ks f := (union_single f hfree).symm
  refine ⟨Sk, hk, kc, f, S', hs', hRk, rfl, hnd, hl, ?_, hRs', hM', hdir, ?_, ?_, ?_, hkk, h1, h2,
    hkc, hkk', disjoint_single.1 hd₉⟩
  all_goals simp only [hsub]
  · refine sub_union_right hd₆ _ _ (sub_union_right ?_ _ _ (single_self ks f))
    exact disjoint_single.2 hfree
  · intro q v hv
    exact sub_union_right hd₆ _ _ (union_left (sub_union_right hkk _ _ hv))
  · intro q v hv
    exact sub_union_right hd₆ _ _ (union_left (union_left hv))
  · intro q v hv
    exact union_left (union_left hv)

end Boot

/-- Nobody has anything. -/
def nobody : Owner → Heap Nat Frame := fun _ => empty

/-- All pages are the kernel's, and none is free yet. -/
theorem holds_start (K : Layout) (page : Nat → Frame) :
    Holds (memory K) ⟨page, 0⟩ (give nobody .kernel (pagesFrom page K.first)) := by
  have hall : ∀ {l q v}, give nobody .kernel (pagesFrom page K.first) l q = some v →
      l = .kernel ∧ Managed K q ∧ page q = v := by
    intro l q v hv
    by_cases hl : l = .kernel
    · subst hl
      rw [give_self, pagesFrom] at hv
      split at hv
      · exact ⟨rfl, ‹_›, some.inj hv⟩
      · cases hv
    · rw [give_of_ne _ _ hl] at hv
      cases hv
  refine ⟨⟨∅, ⟨[], List.nodup_nil, rfl, rfl, by simp⟩, by simp⟩, fun hv => (hall hv).2.1,
    fun hv => (hall hv).2.2, fun {l k} hlk q => ?_⟩
  by_contra! hboth
  obtain ⟨v, hv⟩ := ne_none_iff_exists'.1 hboth.1
  obtain ⟨w, hw⟩ := ne_none_iff_exists'.1 hboth.2
  exact hlk ((hall hv).1.trans (hall hw).1.symm)

theorem Inv.init (h : (paging K).init s) : ∃ H, Inv K s H := by
  obtain ⟨page, ncpu, init, initsz, m, b, t, hrun, rfl⟩ := h
  obtain ⟨L, ⟨Sk, hk, kc, f, S, hs, hRk, hkd, hnd, hcpu, hks, hRs, hM, hsd, hk', hc', hs', d1, d2,
      d3, n1, n2, n3⟩, -, hH⟩ :=
    (holds_start K page).run (D := (· = .kernel)) rfl
      (fun _ h => h) (finite_managed K) (fun q v hv => ⟨.kernel, rfl, hv⟩) (fun n => wp_boot) hrun
  have hstack : (single b.kstack f).Sub L.heap := by
    intro q v hv
    by_cases hq : q = b.kstack
    · subst hq
      rw [single_self] at hv
      rw [hks, hv]
    · rw [single_of_ne _ hq] at hv
      cases hv
  have d4 : kc.Disjoint (single b.kstack f) := disjoint_single.2 n1
  have d5 : hk.Disjoint (single b.kstack f) := disjoint_single.2 n2
  have d6 : hs.Disjoint (single b.kstack f) := disjoint_single.2 n3
  let H := give (give (give (give nobody .kernel hk) .cpu kc) (.kstack 0)
    (single b.kstack f)) (.space 0) hs
  have h1 : H .kernel = hk := by simp [H, give]
  have h2 : H .cpu = kc := by simp [H, give]
  have h3 : H (.kstack 0) = single b.kstack f := by simp [H, give]
  have h4 : H (.space 0) = hs := by simp [H]
  have hholds : Holds (memory K) m H := by
    refine hH (fun l => l = .kernel ∨ l = .cpu ∨ l = .kstack 0 ∨ l = .space 0) H
      (fun _ h => .inl h) ?_ ?_ ?_
    · intro l hl
      simp only [not_or] at hl
      simp [H, give, hl, nobody]
    · rintro l (rfl | rfl | rfl | rfl)
      · rwa [h1]
      · rwa [h2]
      · rwa [h3]
      · rwa [h4]
    · rintro l k (rfl | rfl | rfl | rfl) (rfl | rfl | rfl | rfl) hne <;>
        first
          | exact absurd rfl hne
          | (simp only [h1, h2, h3, h4]; first | assumption | exact Heap.Disjoint.symm (by assumption))
  refine ⟨H, hholds, ⟨Sk, h1 ▸ hRk, hkd⟩, h2 ▸ hcpu, hnd, ?_, ?_, ?_, fun _ _ => rfl⟩
  · intro i hi
    by_cases h0 : i = 0
    · subst h0
      rw [h3, h4]
      exact ⟨⟨f, single_self _ f⟩, ⟨S, hRs, hM, hsd⟩, show 4096 < KERNBASE by decide⟩
    · simp [Sys.start, h0] at hi
  · intro f' p w hf'
    cases hf'
  · intro f₁ f₂ x hf₁
    cases hf₁

/-! ## Every run -/

/-- A step whose `exec`, if it is one, is safe. -/
def SafeStep (_ : Sys) (a : Nat × Call) : Prop :=
  ∀ im argv, a.2 = .exec im argv → ExecSafe im argv

/-- The invariant holds in every run of safe steps. -/
theorem inv_of_reachable (hs : (paging K).ReachableBy SafeStep s) : ∃ H, Inv K s H := by
  refine hs.induct (fun _ h => Inv.init h) ?_
  rintro s ⟨i, a⟩ s' - ⟨H, hI⟩ hok hstep
  simp only [paging] at hstep
  split at hstep
  · rename_i hrun
    exact hI.call (by rw [hrun]; simp) hok hstep
  · cases hstep

/-- **A page has one use.**  In every run in which `exec` is called with safe arguments
only, no page is used for two things: it is once in the free list, or is one kernel stack,
one page directory, one page table, one pipe, or one page of the user part of one
process. -/
theorem page_has_one_role (K : Layout) {s : Sys} (hs : (paging K).ReachableBy SafeStep s)
    {p : Nat} {r r' : Role} (hr : s.HasRole p r) (hr' : s.HasRole p r') : r = r' := by
  obtain ⟨H, hI⟩ := inv_of_reachable hs
  exact hI.role_unique hr hr'

end Xv6.Vm
