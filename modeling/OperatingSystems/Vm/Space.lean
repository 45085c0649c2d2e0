import OperatingSystems.Vm.Paging

/-!
# Address spaces

What a page directory stands for.  A `Space` is an address space by page number: the
page tables there are, the entry for each page of the address space, and the contents
of the user pages.  `Rep` says that some pages of memory are exactly the directory, the
page tables and the user pages of a space, each in one place only.

* `Rep.addTab`, `Rep.setPte` — **a page table is added, an entry is set**: what has to
  be written for a space to change in that way.
* `Rep.setKernel`, `Rep.mapUser`, `Rep.unmapUser`, `Rep.reflag`, `Rep.setMem` — the ways
  the kernel sets entries.
-/

namespace Xv6.Vm

open Heap Option

/-! ## Spaces -/

/-- An address space. -/
structure Space where
  /-- The page of the directory. -/
  dir : Nat
  /-- The page tables. -/
  tab : Nat → Option Nat
  /-- The entry for each page of the address space. -/
  pte : Nat → UInt32
  /-- The contents of the user pages. -/
  mem : Nat → Frame

/-- What a page of an address space is. -/
inductive Place
  | dir
  | tab (i : Nat)
  | user (v : Nat)
  deriving DecidableEq, Repr

/-- Pages of the address space below `KERNBASE`. -/
def USERPAGES : Nat := 2 ^ 19

namespace Space

/-- The page at a place. -/
def page (S : Space) : Place → Option Nat
  | .dir => some S.dir
  | .tab i => S.tab i
  | .user v => if v < USERPAGES ∧ Present (S.pte v) then some (ptePage (S.pte v)) else none

/-- A page table is added. -/
def addTab (S : Space) (i T : Nat) : Space :=
  { S with tab := fun j => if j = i then some T else S.tab j }

/-- An entry is set, and the page it maps has these contents. -/
def setPte (S : Space) (v : Nat) (w : UInt32) (g : Frame) : Space :=
  { S with
    pte := fun u => if u = v then w else S.pte u
    mem := fun u => if u = v then g else S.mem u }

/-- The contents of a user page are set. -/
def setMem (S : Space) (v : Nat) (g : Frame) : Space :=
  { S with mem := fun u => if u = v then g else S.mem u }

/-- An address space with a directory only. -/
def new (dir : Nat) : Space := ⟨dir, fun _ => none, fun _ => 0, fun _ => filled 0⟩

section

variable (S : Space)

@[simp] theorem tab_addTab_self (i T : Nat) : (S.addTab i T).tab i = some T := if_pos rfl

theorem tab_addTab_of_ne {i j : Nat} (T : Nat) (hj : j ≠ i) :
    (S.addTab i T).tab j = S.tab j := if_neg hj

@[simp] theorem dir_setPte (v : Nat) (w : UInt32) (g : Frame) : (S.setPte v w g).dir = S.dir := rfl

@[simp] theorem tab_setPte (v : Nat) (w : UInt32) (g : Frame) : (S.setPte v w g).tab = S.tab := rfl

@[simp] theorem pte_setPte_self (v : Nat) (w : UInt32) (g : Frame) :
    (S.setPte v w g).pte v = w := if_pos rfl

theorem pte_setPte_of_ne {v u : Nat} (w : UInt32) (g : Frame) (hu : u ≠ v) :
    (S.setPte v w g).pte u = S.pte u := if_neg hu

@[simp] theorem mem_setPte_self (v : Nat) (w : UInt32) (g : Frame) :
    (S.setPte v w g).mem v = g := if_pos rfl

theorem mem_setPte_of_ne {v u : Nat} (w : UInt32) (g : Frame) (hu : u ≠ v) :
    (S.setPte v w g).mem u = S.mem u := if_neg hu

end

theorem page_user {S : Space} {v p : Nat} :
    S.page (.user v) = some p ↔ v < USERPAGES ∧ Present (S.pte v) ∧ ptePage (S.pte v) = p := by
  simp [page, and_assoc]

theorem page_setPte_of_ne {S : Space} {v : Nat} {w : UInt32} {g : Frame} {a : Place}
    (ha : a ≠ .user v) : (S.setPte v w g).page a = S.page a := by
  cases a with
  | dir => rfl
  | tab i => rfl
  | user u =>
    have hu : u ≠ v := fun h => ha (by rw [h])
    simp [page, pte_setPte_of_ne S w g hu]

theorem page_addTab_of_ne {S : Space} {i T : Nat} {a : Place} (ha : a ≠ .tab i) :
    (S.addTab i T).page a = S.page a := by
  cases a with
  | dir => rfl
  | user v => rfl
  | tab j => exact if_neg fun h => ha (by rw [h])

end Space

/-- The directory entry for a page table. -/
def pdeOf : Option Nat → UInt32
  | none => 0
  | some T => pa T ||| PTE_P ||| PTE_W ||| PTE_U

theorem toNat_pdeOf {T : Nat} (hT : T < 2 ^ 20) : (pdeOf (some T)).toNat = T * 4096 + 7 := by
  have hflags : (pa T ||| PTE_P ||| PTE_W ||| PTE_U) = pa T ||| 7 := by
    rw [UInt32.or_assoc, UInt32.or_assoc]
    rfl
  have hpa := toNat_pa hT
  have h7 : UInt32.toNat 7 = 7 := rfl
  rw [pdeOf, hflags, toNat_or_of_lt (by omega) (by omega), hpa, h7]

theorem present_pdeOf {T : Nat} (hT : T < 2 ^ 20) : Present (pdeOf (some T)) := by
  rw [present_iff, toNat_pdeOf hT]
  omega

theorem ptePage_pdeOf {T : Nat} (hT : T < 2 ^ 20) : ptePage (pdeOf (some T)) = T := by
  rw [ptePage_eq, toNat_pdeOf hT]
  omega

theorem not_present_zero : ¬ Present 0 := by decide

/-- The pages `h` are those of the space `S`, each in one place. -/
structure Rep (K : Layout) (S : Space) (h : Heap Nat Frame) : Prop where
  /-- A page is in one place. -/
  inj : ∀ {a b : Place} {p : Nat}, S.page a = some p → S.page b = some p → a = b
  /-- Every place's page is there. -/
  own : ∀ {a : Place} {p : Nat}, S.page a = some p → ∃ f, h p = some f
  /-- Every page there has a place. -/
  only : ∀ {p : Nat} {f : Frame}, h p = some f → ∃ a, S.page a = some p
  managed : ∀ {a : Place} {p : Nat}, S.page a = some p → Managed K p
  tab_lt : ∀ {i T : Nat}, S.tab i = some T → i < 1024
  /-- Without a page table there is no entry. -/
  pte_none : ∀ {v : Nat}, S.tab (v / 1024) = none → S.pte v = 0
  /-- An entry that is not present is zero. -/
  absent : ∀ {v : Nat}, ¬ Present (S.pte v) → S.pte v = 0
  dir_entry : ∀ {f : Frame} {i : Nat}, h S.dir = some f → i < 1024 → entry f i = pdeOf (S.tab i)
  tab_entry : ∀ {i T j : Nat} {f : Frame}, S.tab i = some T → h T = some f → j < 1024 →
    entry f j = S.pte (1024 * i + j)
  user_mem : ∀ {v p : Nat}, S.page (.user v) = some p → h p = some (S.mem v)

/-- A page that is there has a page table. -/
theorem tab_ne_none_of_present {K : Layout} {S : Space} {h : Heap Nat Frame} (hR : Rep K S h)
    {v : Nat} (hp : Present (S.pte v)) : S.tab (v / 1024) ≠ none := by
  intro hnone
  rw [hR.pte_none hnone] at hp
  exact not_present_zero hp

namespace Rep

variable {K : Layout} {S : Space} {h h' : Heap Nat Frame} {v w' i T p : Nat} {f g : Frame}
  {w : UInt32}

theorem ne_of_place (hR : Rep K S h) {a b : Place} {q : Nat} (ha : S.page a = some p)
    (hb : S.page b = some q) (hab : a ≠ b) : p ≠ q := by
  rintro rfl
  exact hab (hR.inj ha hb)

theorem new (hp : Managed K p) : Rep K (Space.new p) (single p (filled 0)) where
  inj := by
    rintro (_ | i | v) (_ | j | u) q ha hb <;> simp_all [Space.page, Space.new, not_present_zero]
  own := by
    rintro (_ | i | v) q ha
    · cases ha
      exact ⟨_, single_self p _⟩
    · cases ha
    · simp [Space.page, Space.new, not_present_zero] at ha
  only := by
    intro q f hf
    by_cases hq : q = p
    · exact ⟨.dir, by rw [hq]; rfl⟩
    · rw [single_of_ne _ hq] at hf
      cases hf
  managed := by
    rintro (_ | i | v) q ha
    · cases ha
      exact hp
    · cases ha
    · simp [Space.page, Space.new, not_present_zero] at ha
  tab_lt := by simp [Space.new]
  pte_none _ := rfl
  absent _ := rfl
  dir_entry := by
    intro f i hf _
    rw [show (Space.new p).dir = p from rfl, single_self] at hf
    cases hf
    simp [Space.new, pdeOf]
  tab_entry := by simp [Space.new]
  user_mem := by simp [Space.page, Space.new, not_present_zero]

section

variable (hR : Rep K S h)

include hR

theorem addTab (hi : i < 1024) (hnone : S.tab i = none) (hT : Managed K T)
    (hfree : h T = none) (hf : h S.dir = some f) :
    Rep K (S.addTab i T) ((h.put T (filled 0)).put S.dir (setEntry f i (pdeOf (some T)))) := by
  have hnot : ∀ a, S.page a ≠ some T := by
    intro a ha
    obtain ⟨f', hf'⟩ := hR.own ha
    rw [hfree] at hf'
    cases hf'
  have hdir : S.dir ≠ T := fun heq => hnot .dir (by rw [← heq]; rfl)
  have hold : ∀ {a q}, (S.addTab i T).page a = some q → a ≠ .tab i → S.page a = some q ∧ q ≠ T := by
    intro a q ha hne
    rw [Space.page_addTab_of_ne hne] at ha
    exact ⟨ha, fun heq => hnot a (heq ▸ ha)⟩
  have hnew : (S.addTab i T).page (.tab i) = some T := if_pos rfl
  have hother : ∀ {q}, q ≠ T → q ≠ S.dir →
      ((h.put T (filled 0)).put S.dir (setEntry f i (pdeOf (some T)))) q = h q := by
    intro q hqT hqd
    rw [put_of_ne _ _ hqd, put_of_ne _ _ hqT]
  constructor
  case inj =>
    intro a b q ha hb
    by_cases hat : a = .tab i <;> by_cases hbt : b = .tab i
    · rw [hat, hbt]
    · subst hat
      rw [hnew] at ha
      exact absurd (some.inj ha).symm (hold hb hbt).2
    · subst hbt
      rw [hnew] at hb
      exact absurd (some.inj hb).symm (hold ha hat).2
    · exact hR.inj (hold ha hat).1 (hold hb hbt).1
  case own =>
    intro a q ha
    by_cases hqd : q = S.dir
    · exact ⟨_, by rw [hqd, put_self]⟩
    · by_cases hat : a = .tab i
      · subst hat
        rw [hnew] at ha
        cases ha
        exact ⟨_, by rw [put_of_ne _ _ hqd, put_self]⟩
      · obtain ⟨ha', hqT⟩ := hold ha hat
        rw [hother hqT hqd]
        exact hR.own ha'
  case only =>
    intro q f' hf'
    by_cases hqT : q = T
    · exact ⟨.tab i, hqT ▸ hnew⟩
    · by_cases hqd : q = S.dir
      · exact ⟨.dir, by rw [hqd]; rfl⟩
      · rw [hother hqT hqd] at hf'
        obtain ⟨a, ha⟩ := hR.only hf'
        refine ⟨a, ?_⟩
        rwa [Space.page_addTab_of_ne]
        rintro rfl
        rw [show S.page (.tab i) = S.tab i from rfl, hnone] at ha
        cases ha
  case managed =>
    intro a q ha
    by_cases hat : a = .tab i
    · subst hat
      rw [hnew] at ha
      cases ha
      exact hT
    · exact hR.managed (hold ha hat).1
  case tab_lt =>
    intro j U hj
    by_cases hji : j = i
    · rw [hji]
      exact hi
    · exact hR.tab_lt (by rwa [S.tab_addTab_of_ne T hji] at hj)
  case pte_none =>
    intro u hu
    refine hR.pte_none ?_
    simp only [Space.addTab] at hu
    split at hu
    · cases hu
    · exact hu
  case absent => exact hR.absent
  case dir_entry =>
    intro f' j hf' hj
    rw [show (S.addTab i T).dir = S.dir from rfl, put_self] at hf'
    cases hf'
    by_cases hji : j = i
    · rw [hji, entry_setEntry _ hi, S.tab_addTab_self]
    · rw [entry_setEntry_of_ne _ hji, S.tab_addTab_of_ne T hji]
      exact hR.dir_entry hf hj
  case tab_entry =>
    intro j U k f' hj hf' hk
    by_cases hji : j = i
    · subst hji
      rw [S.tab_addTab_self] at hj
      cases hj
      rw [put_of_ne _ _ hdir.symm, put_self] at hf'
      cases hf'
      rw [entry_filled_zero]
      refine (hR.pte_none ?_).symm
      rw [Nat.mul_add_div (by norm_num), Nat.div_eq_of_lt hk, Nat.add_zero]
      exact hnone
    · have hold' := hold (a := .tab j) hj (by simpa using hji)
      have hUd : U ≠ S.dir := hR.ne_of_place hold'.1 (b := .dir) rfl (by simp)
      rw [hother hold'.2 hUd] at hf'
      exact hR.tab_entry hold'.1 hf' hk
  case user_mem =>
    intro u q hu
    obtain ⟨hu', hqT⟩ := hold hu (by simp)
    rw [hother hqT (hR.ne_of_place hu' (b := .dir) rfl (by simp))]
    exact hR.user_mem hu'

/-- An entry is set.  What it maps, if it is a user page, was not part of the space
before, except for the page that is already there. -/
theorem setPte (hT : S.tab (v / 1024) = some T) (hf : h T = some f) (hw : ¬ Present w → w = 0)
    (hnew : ∀ p, (S.setPte v w g).page (.user v) = some p →
      Managed K p ∧ ∀ a, S.page a = some p → a = .user v)
    (hT' : h' T = some (setEntry f (v % 1024) w))
    (hp : ∀ q, q ≠ T → h' q = if (S.setPte v w g).page (.user v) = some q then some g
      else if S.page (.user v) = some q then none else h q) :
    Rep K (S.setPte v w g) h' := by
  have hold : ∀ {a q}, (S.setPte v w g).page a = some q → a ≠ .user v → S.page a = some q := by
    intro a q ha hne
    rwa [Space.page_setPte_of_ne hne] at ha
  have hnotnew : ∀ {a q}, S.page a = some q → a ≠ .user v →
      (S.setPte v w g).page (.user v) ≠ some q :=
    fun ha hne hq => hne ((hnew _ hq).2 _ ha)
  have hkeep : ∀ {a q}, S.page a = some q → a ≠ .user v → q ≠ T → h' q = h q := by
    intro a q ha hne hqT
    rw [hp q hqT, if_neg (hnotnew ha hne), if_neg fun hu => hne (hR.inj ha hu)]
  have htab : S.page (.tab (v / 1024)) = some T := hT
  constructor
  case inj =>
    intro a b q ha hb
    by_cases hav : a = .user v <;> by_cases hbv : b = .user v
    · rw [hav, hbv]
    · exact absurd (hav ▸ ha) (hnotnew (hold hb hbv) hbv)
    · exact absurd (hbv ▸ hb) (hnotnew (hold ha hav) hav)
    · exact hR.inj (hold ha hav) (hold hb hbv)
  case own =>
    intro a q ha
    by_cases hqT : q = T
    · exact ⟨_, hqT ▸ hT'⟩
    · by_cases hav : a = .user v
      · exact ⟨g, by rw [hp q hqT, if_pos (hav ▸ ha)]⟩
      · rw [hkeep (hold ha hav) hav hqT]
        exact hR.own (hold ha hav)
  case only =>
    intro q f' hf'
    by_cases hqT : q = T
    · exact ⟨.tab (v / 1024), hqT ▸ hT⟩
    · rw [hp q hqT] at hf'
      split at hf'
      · exact ⟨.user v, ‹_›⟩
      · split at hf'
        · cases hf'
        · obtain ⟨a, ha⟩ := hR.only hf'
          refine ⟨a, ?_⟩
          rwa [Space.page_setPte_of_ne]
          rintro rfl
          contradiction
  case managed =>
    intro a q ha
    by_cases hav : a = .user v
    · exact (hnew q (hav ▸ ha)).1
    · exact hR.managed (hold ha hav)
  case tab_lt => exact hR.tab_lt
  case pte_none =>
    intro u hu
    have huv : u ≠ v := by
      rintro rfl
      exact absurd hu (by simp [hT])
    rw [S.pte_setPte_of_ne w g huv]
    exact hR.pte_none hu
  case absent =>
    intro u hu
    by_cases huv : u = v
    · subst huv
      rw [S.pte_setPte_self] at hu ⊢
      exact hw hu
    · rw [S.pte_setPte_of_ne w g huv] at hu ⊢
      exact hR.absent hu
  case dir_entry =>
    intro f' i hf' hi
    have hdT : S.dir ≠ T := hR.ne_of_place (a := .dir) rfl htab (by simp)
    rw [show (S.setPte v w g).dir = S.dir from rfl, hkeep (a := .dir) rfl (by simp) hdT] at hf'
    exact hR.dir_entry hf' hi
  case tab_entry =>
    intro i U j f' hi hf' hj
    by_cases hUT : U = T
    · subst hUT
      have hiv : i = v / 1024 := by simpa using hR.inj (a := .tab i) hi htab
      rw [hT'] at hf'
      cases hf'
      by_cases hjv : j = v % 1024
      · have huv : 1024 * i + j = v := by omega
        rw [hjv, entry_setEntry _ (by omega), ← hjv, huv, S.pte_setPte_self]
      · have huv : 1024 * i + j ≠ v := by omega
        rw [entry_setEntry_of_ne _ hjv, S.pte_setPte_of_ne w g huv]
        exact hR.tab_entry hi hf hj
    · rw [hkeep (a := .tab i) hi (by simp) hUT] at hf'
      have huv : 1024 * i + j ≠ v := by
        rintro rfl
        rw [Nat.mul_add_div (by norm_num), Nat.div_eq_of_lt hj, Nat.add_zero] at hT
        rw [show (S.setPte _ w g).tab i = S.tab i from rfl, hT] at hi
        exact hUT (some.inj hi).symm
      rw [S.pte_setPte_of_ne w g huv]
      exact hR.tab_entry hi hf' hj
  case user_mem =>
    intro u q hu
    have hqT : q ≠ T := by
      rintro rfl
      by_cases huv : u = v
      · subst huv
        exact absurd ((hnew q hu).2 _ htab) (by simp)
      · exact absurd (hR.inj (hold hu (by simpa using huv)) htab) (by simp)
    by_cases huv : u = v
    · subst huv
      rw [hp q hqT, if_pos hu, S.mem_setPte_self]
    · rw [hkeep (hold hu (by simpa using huv)) (by simpa using huv) hqT,
        S.mem_setPte_of_ne w g huv]
      exact hR.user_mem (hold hu (by simpa using huv))

theorem setKernel (hv : USERPAGES ≤ v) (hT : S.tab (v / 1024) = some T)
    (hf : h T = some f) (hw : ¬ Present w → w = 0) :
    Rep K (S.setPte v w (S.mem v)) (h.put T (setEntry f (v % 1024) w)) := by
  have hnone : ∀ (S' : Space) p, S'.page (.user v) ≠ some p := by
    intro S' p hp
    have := (Space.page_user.1 hp).1
    omega
  refine hR.setPte hT hf hw (fun p hp => absurd hp (hnone _ p)) (put_self _ _ _) ?_
  intro q hq
  rw [put_of_ne _ _ hq, if_neg (hnone _ q), if_neg (hnone _ q)]

theorem mapUser (hv : v < USERPAGES) (hT : S.tab (v / 1024) = some T)
    (hf : h T = some f) (hnp : ¬ Present (S.pte v)) (hfree : h p = none) (hm : Managed K p)
    (hw : Present w) (hp : ptePage w = p) :
    Rep K (S.setPte v w g) ((h.put p g).put T (setEntry f (v % 1024) w)) := by
  have hpage : ∀ q, (S.setPte v w g).page (.user v) = some q ↔ p = q := by
    intro q
    rw [Space.page_user, Space.pte_setPte_self, hp]
    exact ⟨fun h => h.2.2, fun h => ⟨hv, hw, h⟩⟩
  have hnone : ∀ a, S.page a ≠ some p := by
    intro a ha
    obtain ⟨f', hf'⟩ := hR.own ha
    rw [hfree] at hf'
    cases hf'
  refine hR.setPte hT hf (fun h => absurd hw h) ?_ (put_self _ _ _) ?_
  · intro q hq
    obtain rfl := (hpage q).1 hq
    exact ⟨hm, fun a ha => absurd ha (hnone a)⟩
  · intro q hq
    rw [put_of_ne _ _ hq]
    by_cases hqp : q = p
    · rw [if_pos ((hpage q).2 hqp.symm), hqp, put_self]
    · have hu : S.page (.user v) ≠ some q := fun hu => hnp (Space.page_user.1 hu).2.1
      rw [if_neg fun h => hqp ((hpage q).1 h).symm, if_neg hu, put_of_ne _ _ hqp]

theorem unmapUser (hp : S.page (.user v) = some p)
    (hT : S.tab (v / 1024) = some T) (hf : h T = some f) :
    Rep K (S.setPte v 0 (S.mem v)) ((h.erase p).put T (setEntry f (v % 1024) 0)) := by
  have hnone : ∀ q, (S.setPte v 0 (S.mem v)).page (.user v) ≠ some q := by
    intro q hq
    have h0 := (Space.page_user.1 hq).2.1
    rw [Space.pte_setPte_self] at h0
    exact not_present_zero h0
  refine hR.setPte hT hf (fun _ => rfl) (fun q hq => absurd hq (hnone q)) (put_self _ _ _) ?_
  intro q hq
  rw [put_of_ne _ _ hq, if_neg (hnone q)]
  by_cases hqp : q = p
  · rw [if_pos (hqp ▸ hp), hqp, erase_self]
  · rw [if_neg fun hu => hqp (some.inj (hu.symm.trans hp)), erase_of_ne _ hqp]

theorem reflag (hT : S.tab (v / 1024) = some T) (hf : h T = some f)
    (hw : Present w ↔ Present (S.pte v)) (hw0 : ¬ Present w → w = 0)
    (hp : ptePage w = ptePage (S.pte v)) :
    Rep K (S.setPte v w (S.mem v)) (h.put T (setEntry f (v % 1024) w)) := by
  have hsame : (S.setPte v w (S.mem v)).page (.user v) = S.page (.user v) := by
    simp [Space.page, hw, hp]
  refine hR.setPte hT hf hw0 ?_ (put_self _ _ _) ?_
  · intro q hq
    rw [hsame] at hq
    exact ⟨hR.managed hq, fun a ha => hR.inj ha hq⟩
  · intro q hq
    rw [put_of_ne _ _ hq, hsame]
    by_cases hu : S.page (.user v) = some q
    · rw [if_pos hu, hR.user_mem hu]
    · rw [if_neg hu, if_neg hu]

theorem setMem (hp : S.page (.user v) = some p) : Rep K (S.setMem v g) (h.put p g) := by
  have hpage : ∀ a, (S.setMem v g).page a = S.page a := by
    intro a
    cases a <;> rfl
  have hother : ∀ {a q}, S.page a = some q → a ≠ .user v → h.put p g q = h q :=
    fun ha hne => put_of_ne _ _ (hR.ne_of_place ha hp hne)
  constructor
  case inj =>
    intro a b q ha hb
    exact hR.inj ha hb
  case own =>
    intro a q ha
    by_cases hqp : q = p
    · exact ⟨g, by rw [hqp, put_self]⟩
    · rw [put_of_ne _ _ hqp]
      exact hR.own (hpage a ▸ ha)
  case only =>
    intro q f' hf'
    by_cases hqp : q = p
    · exact ⟨.user v, by rw [hpage, hqp]; exact hp⟩
    · rw [put_of_ne _ _ hqp] at hf'
      obtain ⟨a, ha⟩ := hR.only hf'
      exact ⟨a, by rw [hpage]; exact ha⟩
  case managed =>
    intro a q ha
    exact hR.managed (hpage a ▸ ha)
  case tab_lt => exact hR.tab_lt
  case pte_none => exact hR.pte_none
  case absent => exact hR.absent
  case dir_entry =>
    intro f' i hf' hi
    rw [show (S.setMem v g).dir = S.dir from rfl, hother (a := .dir) rfl (by simp)] at hf'
    exact hR.dir_entry hf' hi
  case tab_entry =>
    intro i U j f' hi hf' hj
    rw [hother (a := .tab i) hi (by simp)] at hf'
    exact hR.tab_entry hi hf' hj
  case user_mem =>
    intro u q hu
    rw [hpage] at hu
    by_cases huv : u = v
    · subst huv
      obtain rfl := some.inj (hu.symm.trans hp)
      simp [Space.setMem]
    · rw [hother hu (by simpa using huv), hR.user_mem hu]
      simp [Space.setMem, huv]

end

end Rep

end Xv6.Vm
