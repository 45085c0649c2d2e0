import OperatingSystems.Vm.Stack
import OperatingSystems.Vm.System

/-!
# Who owns a page

Every page in use is given to an owner: the kernel's page directory, the processors, the
kernel stack or the address space of a process, or a pipe.  What an owner has is exactly
what the tables say it has, so that a page with two uses would have two owners.

* `Inv` — the invariant.
* `Inv.perform` — **a program that works on what some owners have leaves the others alone**.
* `Inv.call` — every call keeps the invariant; `exec` needs that the new stack is written
  where it should be.
-/

namespace Xv6.Vm

open Cmd Heap Option

/-- Owners of pages. -/
inductive Owner
  | kernel
  | cpu
  | kstack (i : Nat)
  | space (i : Nat)
  | pipe (p : Nat)
  deriving DecidableEq, Repr

/-- A process has a kernel stack and an address space. -/
structure Process.Ok (K : Layout) (p : Process) (hk hs : Heap Nat Frame) : Prop where
  kstack : ∃ f, hk p.kstack = some f
  space : ∃ S, Rep K S hs ∧ Made S ∧ S.dir = p.pgdir
  sz : p.sz < KERNBASE

/-- **The invariant**: the pages `H` of each owner are those that the tables say. -/
structure Inv (K : Layout) (s : Sys) (H : Owner → Heap Nat Frame) : Prop where
  holds : Holds (memory K) s.mem H
  kernel : ∃ S, Rep K S (H .kernel) ∧ S.dir = s.kpgdir
  cpu : ∀ p ∈ s.cpuStack, ∃ f, H .cpu p = some f
  nodup : s.cpuStack.Nodup
  proc : ∀ i, (s.proc i).state ≠ .UNUSED → (s.proc i).Ok K (H (.kstack i)) (H (.space i))
  /-- A pipe is not freed as long as an end of it is open. -/
  pipe : ∀ f p writable, (s.file f).pipe = some (p, writable) →
    ∃ g, H (.pipe p) p = some g ∧ entry g (openWord writable) ≠ 0
  /-- An end of a pipe is one file. -/
  ends : ∀ {f f' x}, (s.file f).pipe = some x → (s.file f').pipe = some x → f = f'
  closed : ∀ f, (s.file f).ref = 0 → (s.file f).pipe = none

/-- An owner has these pages now. -/
def give (H : Owner → Heap Nat Frame) (l : Owner) (h : Heap Nat Frame) : Owner → Heap Nat Frame :=
  fun k => if k = l then h else H k

@[simp] theorem give_self (H : Owner → Heap Nat Frame) (l : Owner) (h : Heap Nat Frame) :
    give H l h l = h := if_pos rfl

theorem give_of_ne (H : Owner → Heap Nat Frame) {l k : Owner} (h : Heap Nat Frame) (hk : k ≠ l) :
    give H l h k = H k := if_neg hk

variable {K : Layout} {s s' : Sys} {H H' : Owner → Heap Nat Frame} {m : Vm} {i j f : Nat}

/-! ## Changes of the tables -/

/-- What the invariant reads of a process. -/
def Process.core (p : Process) : ProcState × Nat × Nat × UInt32 :=
  (p.state, p.kstack, p.pgdir, p.sz)

theorem Process.Ok.core {p q : Process} {hk hs : Heap Nat Frame} (hp : p.Ok K hk hs)
    (heq : q.core = p.core) : q.Ok K hk hs := by
  simp only [Process.core, Prod.mk.injEq] at heq
  obtain ⟨-, hks, hpg, hsz⟩ := heq
  exact ⟨hks ▸ hp.kstack, hpg ▸ hp.space, hsz ▸ hp.sz⟩

theorem Process.state_of_core {p q : Process} (heq : q.core = p.core) : q.state = p.state :=
  congrArg Prod.fst heq

/-- Only descriptors and reference counts have changed. -/
structure SameUse (s s' : Sys) : Prop where
  mem : s'.mem = s.mem
  kpgdir : s'.kpgdir = s.kpgdir
  cpuStack : s'.cpuStack = s.cpuStack
  proc : ∀ i, (s'.proc i).core = (s.proc i).core
  pipe : ∀ f, (s'.file f).pipe = (s.file f).pipe
  ref : ∀ f, (s'.file f).ref = 0 → (s.file f).ref = 0

theorem SameUse.refl (s : Sys) : SameUse s s :=
  ⟨rfl, rfl, rfl, fun _ => rfl, fun _ => rfl, fun _ h => h⟩

theorem SameUse.trans {s₁ s₂ s₃ : Sys} (h₁ : SameUse s₁ s₂) (h₂ : SameUse s₂ s₃) :
    SameUse s₁ s₃ where
  mem := h₂.mem.trans h₁.mem
  kpgdir := h₂.kpgdir.trans h₁.kpgdir
  cpuStack := h₂.cpuStack.trans h₁.cpuStack
  proc i := (h₂.proc i).trans (h₁.proc i)
  pipe f := (h₂.pipe f).trans (h₁.pipe f)
  ref f h := h₁.ref f (h₂.ref f h)

theorem SameUse.inv (hs : SameUse s s') (hI : Inv K s H) : Inv K s' H where
  holds := hs.mem ▸ hI.holds
  kernel := hs.kpgdir ▸ hI.kernel
  cpu := hs.cpuStack ▸ hI.cpu
  nodup := hs.cpuStack ▸ hI.nodup
  proc i hi := (hI.proc i (Process.state_of_core (hs.proc i) ▸ hi)).core (hs.proc i)
  pipe f := hs.pipe f ▸ hI.pipe f
  ends := by
    intro f f' x
    rw [hs.pipe, hs.pipe]
    exact hI.ends
  closed f hf := by
    rw [hs.pipe]
    exact hI.closed f (hs.ref f hf)

theorem sameUse_setOfile (s : Sys) (i fd : Nat) (x : Option Nat) :
    SameUse s (s.setOfile i fd x) := by
  refine ⟨rfl, rfl, rfl, fun k => ?_, fun _ => rfl, fun _ h => h⟩
  by_cases hk : k = i
  · simp [Sys.setOfile, Sys.setProc, Process.core, hk]
  · simp [Sys.setOfile, Sys.setProc, hk]

/-- The reference count of a file changes, and is not zero then. -/
theorem sameUse_setRef (s : Sys) (f : Nat) {r : Nat} (hr : r ≠ 0) :
    SameUse s (s.setFile f { s.file f with ref := r }) := by
  refine ⟨rfl, rfl, rfl, fun _ => rfl, fun g => ?_, fun g => ?_⟩
  · by_cases hg : g = f
    · simp [Sys.setFile, hg]
    · simp [Sys.setFile, hg]
  · by_cases hg : g = f
    · simp [Sys.setFile, hg, hr]
    · simp [Sys.setFile, hg]

theorem sameUse_filedup (h : s.filedup f = some s') : SameUse s s' := by
  unfold Sys.filedup at h
  split at h
  · cases h
  · cases h
    exact sameUse_setRef s f (by omega)

theorem sameUse_dupFiles (fds : List Nat) (h : Sys.dupFiles i j fds s = some s') :
    SameUse s s' := by
  induction fds generalizing s with
  | nil =>
    cases h
    exact .refl _
  | cons fd fds ih =>
    rw [Sys.dupFiles] at h
    split at h
    · exact ih h
    · obtain ⟨s₁, h₁, h₂⟩ := bind_eq_some_iff.1 h
      exact ((sameUse_filedup h₁).trans (sameUse_setOfile s₁ j fd _)).trans (ih h₂)

theorem Inv.setFile (hI : Inv K s H) (f : Nat) {x : File} (hx : x.pipe = none) :
    Inv K (s.setFile f x) H := by
  have hold : ∀ {g y}, ((s.setFile f x).file g).pipe = some y → (s.file g).pipe = some y := by
    intro g y hg
    by_cases hgf : g = f
    · simp [Sys.setFile, hgf, hx] at hg
    · simpa [Sys.setFile, hgf] using hg
  refine ⟨hI.holds, hI.kernel, hI.cpu, hI.nodup, hI.proc, fun g p w hg => hI.pipe g p w (hold hg),
    fun hg hg' => hI.ends (hold hg) (hold hg'), fun g hg => ?_⟩
  by_cases hgf : g = f
  · simpa [Sys.setFile, hgf] using hx
  · have hg' : (s.file g).ref = 0 := by simpa [Sys.setFile, hgf] using hg
    simpa [Sys.setFile, hgf] using hI.closed g hg'

theorem Inv.update {proc : Nat → Process} (hI : Inv K s H) (hH : Holds (memory K) m H')
    (kernel : H' .kernel = H .kernel) (cpu : H' .cpu = H .cpu)
    (pipe : ∀ p, H' (.pipe p) = H (.pipe p))
    (hproc : ∀ i, (proc i).state ≠ .UNUSED → (proc i).Ok K (H' (.kstack i)) (H' (.space i))) :
    Inv K { s with mem := m, proc := proc } H' where
  holds := hH
  kernel := kernel ▸ hI.kernel
  cpu := cpu ▸ hI.cpu
  nodup := hI.nodup
  proc := hproc
  pipe f p w h := by
    rw [pipe]
    exact hI.pipe f p w h
  ends := hI.ends
  closed := hI.closed

/-! ## Programs -/

theorem perform_eq_some {α : Type} {c : M α} {a : α} (h : s.perform K c = some (a, s')) :
    ∃ m t, run (memory K) c s.mem [] = ((.ok a, m), t) ∧ s' = { s with mem := m } := by
  unfold Sys.perform at h
  rcases hr : run (memory K) c s.mem [] with ⟨⟨e | b, m⟩, t⟩
  · simp [hr] at h
  · simp only [hr, some.injEq, Prod.mk.injEq] at h
    obtain ⟨rfl, rfl⟩ := h
    exact ⟨m, t, rfl, rfl⟩

theorem finite_managed (K : Layout) : {p | (memory K).managed p}.Finite :=
  (Set.finite_lt_nat 57344).subset fun _ hp => Managed.lt hp

/-- What specifications take for granted of a program that runs to its end. -/
abbrev whole (K : Layout) : Ctx Nat Ev := ctx K fun _ => False

/-- Panics end the run, and nothing is said of them. -/
abbrev anyPanic : String → List Ev → Prop := fun _ _ => True

/-- **A program that works on what some owners have.** -/
theorem Inv.perform {α : Type} {c : M α} {a : α} {Q : Post α} {D : Owner → Prop}
    {h : Heap Nat Frame} (hI : Inv K s H) (hp : s.perform K c = some (a, s'))
    (hsub : ∀ p v, h p = some v → ∃ l, D l ∧ H l p = some v)
    (hw : ∀ n, wp (whole K) anyPanic c Q ⟨h, some n, []⟩) :
    ∃ m L, s' = { s with mem := m } ∧ Q a L ∧ (∀ l, ¬ D l → (H l).Disjoint L.heap) ∧
      ∀ (D' : Owner → Prop) (H' : Owner → Heap Nat Frame), (∀ l, D l → D' l) →
        (∀ l, ¬ D' l → H' l = H l) → (∀ l, D' l → (H' l).Sub L.heap) →
        (∀ l k, D' l → D' k → l ≠ k → (H' l).Disjoint (H' k)) → Holds (memory K) m H' := by
  obtain ⟨m, t, hrun, hs⟩ := perform_eq_some hp
  obtain ⟨L, hQ, hd, hH⟩ := hI.holds.run rfl (fun _ h => h) (finite_managed K) hsub hw hrun
  exact ⟨m, L, hs, hQ, hd, hH⟩

theorem Inv.performOne {α : Type} {c : M α} {a : α} {Q : Post α} {l : Owner} (hI : Inv K s H)
    (hp : s.perform K c = some (a, s')) (hw : ∀ n, wp (whole K) anyPanic c Q ⟨H l, some n, []⟩) :
    ∃ m L, s' = { s with mem := m } ∧ Q a L ∧
      ∀ h', h'.Sub L.heap → Holds (memory K) m (give H l h') := by
  obtain ⟨m, L, hs, hQ, -, hH⟩ := hI.perform (D := (· = l)) hp (fun p v hv => ⟨l, rfl, hv⟩) hw
  refine ⟨m, L, hs, hQ, fun h' hh' => hH (· = l) _ (fun _ h => h) (fun k hk => give_of_ne H h' hk)
    ?_ ?_⟩
  · rintro k rfl
    rwa [give_self]
  · rintro k k' rfl rfl hne
    exact absurd rfl hne

/-- A program works on the address space of a process, which stays with the process. -/
theorem Inv.performSpace {α : Type} {c : M α} {a : α} {P : α → Space → Prop}
    (hI : Inv K s H) (hi : (s.proc i).state ≠ .UNUSED) (hp : s.perform K c = some (a, s'))
    (hw : ∀ S n, Rep K S (H (.space i)) → Made S → S.dir = (s.proc i).pgdir →
      wp (whole K) anyPanic c (fun a L => ∃ S' h', Rep K S' h' ∧ Made S' ∧ h'.Sub L.heap ∧ P a S')
        ⟨H (.space i), some n, []⟩) :
    ∃ m S' h', s' = { s with mem := m } ∧ Rep K S' h' ∧ Made S' ∧ P a S' ∧
      Holds (memory K) m (give H (.space i) h') := by
  obtain ⟨S, hR, hM, hdir⟩ := (hI.proc i hi).space
  obtain ⟨m, L, hs, ⟨S', h', hR', hM', hsub, hP⟩, hH⟩ :=
    hI.performOne hp fun n => hw S n hR hM hdir
  exact ⟨m, S', h', hs, hR', hM', hP, hH h' hsub⟩

theorem Inv.setSpace {S' : Space} {h' : Heap Nat Frame} {q : Process} (hI : Inv K s H)
    (hi : (s.proc i).state ≠ .UNUSED) (hH : Holds (memory K) m (give H (.space i) h'))
    (hR : Rep K S' h') (hM : Made S') (hdir : S'.dir = q.pgdir)
    (hks : q.kstack = (s.proc i).kstack) (hsz : q.sz < KERNBASE) :
    Inv K (Sys.setProc { s with mem := m } i q) (give H (.space i) h') := by
  refine hI.update hH rfl rfl (fun _ => rfl) fun k hk => ?_
  have hstack : give H (.space i) h' (.kstack k) = H (.kstack k) := give_of_ne H h' (by simp)
  rw [hstack]
  by_cases hki : k = i
  · subst hki
    simp only [if_true, give_self]
    exact ⟨hks ▸ (hI.proc k hi).kstack, ⟨S', hR, hM, hdir⟩, hsz⟩
  · simp only [hki, if_false] at hk ⊢
    rw [give_of_ne H h' (by simpa using hki)]
    exact hI.proc k hk

theorem setProc_self (s : Sys) (i : Nat) : s.setProc i (s.proc i) = s := by
  have hproc : (fun j => if j = i then s.proc i else s.proc j) = s.proc := by
    funext j
    by_cases hj : j = i <;> simp [hj]
  simp [Sys.setProc, hproc]

theorem Inv.keepSpace {S' : Space} {h' : Heap Nat Frame} (hI : Inv K s H)
    (hi : (s.proc i).state ≠ .UNUSED) (hH : Holds (memory K) m (give H (.space i) h'))
    (hR : Rep K S' h') (hM : Made S') (hdir : S'.dir = (s.proc i).pgdir) :
    Inv K { s with mem := m } (give H (.space i) h') := by
  have hset := hI.setSpace hi hH hR hM hdir rfl (hI.proc i hi).sz
  rwa [show s.proc i = ({ s with mem := m } : Sys).proc i from rfl, setProc_self] at hset

/-! ## What the programs do -/

section Wp

variable {S : Space} {h : Heap Nat Frame} {n : Nat} {sz : UInt32}

theorem wp_growPages (hR : Rep K S h) (hM : Made S) (hsz : sz < KERNBASE) (d : Int32) :
    wp (whole K) anyPanic (growPages K S.dir sz d) (fun r L => ∃ S' h', Rep K S' h' ∧ Made S' ∧
      h'.Sub L.heap ∧ S'.dir = S.dir ∧ r < KERNBASE) ⟨h, some n, []⟩ := by
  have hlt := UInt32.lt_iff_toNat_lt.1 hsz
  have hbase := toNat_KERNBASE
  have hsame : ∀ {r : UInt32} {t' : List Ev}, r < KERNBASE → ∃ S' h', Rep K S' h' ∧ Made S' ∧
      h'.Sub (⟨h, some n, t'⟩ : Local Nat Frame Ev).heap ∧ S'.dir = S.dir ∧ r < KERNBASE :=
    fun hr => ⟨S, h, hR, hM, .refl h, rfl, hr⟩
  have hnew : ∀ {r : UInt32} {S' : Space} {h' g : Heap Nat Frame}, Rep K S' h' →
      SameKernel S S' → r < KERNBASE → ∃ S' k, Rep K S' k ∧ Made S' ∧ k.Sub (h' ∪ g) ∧
        S'.dir = S.dir ∧ r < KERNBASE :=
    fun hR' hK hr => ⟨_, _, hR', hM.same hK, fun _ _ hv => union_left hv, hK.dir, hr⟩
  unfold growPages
  by_cases hpos : d > 0
  · rw [if_pos hpos]
    refine wp_allocuvm hR (fun _ _ _ _ => trivial) (fun _ => hsame (by decide))
      (fun _ _ => hsame hsz) ?_ ?_
    · intro S₁ S' h' g c₁ c' t' hsmall hA hFr hR' hd
      exact hnew hR' ((hA.sameKernel hsmall).trans hFr.sameKernel) (by decide)
    · intro S' h' g c' t' hsmall _ hA hR' hd
      exact hnew hR' (hA.sameKernel hsmall) hsmall
  by_cases hneg : d < 0
  · rw [if_neg hpos, if_pos hneg]
    refine wp_deallocuvm (by omega) hR (fun _ => hsame hsz) ?_
    intro S' h' c' hless hR' hFr
    exact ⟨S', h', hR', hM.same hFr.sameKernel, .refl h', hFr.dir, UInt32.lt_trans hless hsz⟩
  · rw [if_neg hpos, if_neg hneg]
    exact hsame hsz

theorem wp_userStore (hR : Rep K S h) (hM : Made S) (va : UInt32) (g : Frame) :
    wp (whole K) anyPanic (userStore S.dir va g) (fun _ L => ∃ S' h', Rep K S' h' ∧ Made S' ∧
      h'.Sub L.heap ∧ S'.dir = S.dir) ⟨h, some n, []⟩ := by
  have hsame : ∃ S' h', Rep K S' h' ∧ Made S' ∧
      h'.Sub (⟨h, some n, []⟩ : Local Nat Frame Ev).heap ∧ S'.dir = S.dir :=
    ⟨S, h, hR, hM, .refl h, rfl⟩
  rw [userStore, wp_bind]
  refine wp_walkRead hR (.refl h) ?_ fun _ => hsame
  intro T hT
  simp only [wp_bind]
  refine wp_entryRead hR (.refl h) hT ?_
  by_cases hp : Present (S.pte (va.toNat / 4096)) ∧ S.pte (va.toNat / 4096) &&& PTE_W ≠ 0 ∧
      S.pte (va.toNat / 4096) &&& PTE_U ≠ 0
  · rw [if_pos hp]
    have hv : va.toNat / 4096 < USERPAGES := by
      by_contra hv
      exact hp.2.2 (hM.flag (by omega))
    have huser : S.page (.user (va.toNat / 4096)) = some (ptePage (S.pte (va.toNat / 4096))) :=
      Space.page_user.2 ⟨hv, hp.1, rfl⟩
    refine wp_write (hR.user_mem huser) ?_
    exact ⟨_, _, hR.setMem huser, hM.same ⟨rfl, fun _ => rfl⟩, .refl _, rfl⟩
  · rw [if_neg hp]
    exact hsame

theorem wp_forkPages {old : Nat} (hR : Rep K S h) (hsz : sz < KERNBASE) :
    wp (whole K) anyPanic (forkPages K S.dir sz old) (fun r L => h.Sub L.heap ∧
      ∀ ks, r.1 = some ks → ∃ C hc f, Rep K C hc ∧ Made C ∧ C.dir = r.2 ∧ hc.Sub L.heap ∧
        hc.Disjoint h ∧ L.heap ks = some f ∧ hc ks = none ∧ h ks = none) ⟨h, some n, []⟩ := by
  have hlt := UInt32.lt_iff_toNat_lt.1 hsz
  have hbase := toNat_KERNBASE
  rw [forkPages, wp_bind]
  refine wp_kalloc (fun _ => ⟨.refl h, fun _ hr => (by cases hr)⟩) ?_
  intro _ ks f hm hfree
  rw [wp_bind, ← union_single f hfree]
  refine wp.frame (disjoint_single.2 hfree) (wp_copyuvm (by omega) hR (fun _ _ => trivial) ?_ ?_)
  · intro g c' t' hd hd'
    rw [wp_bind]
    refine wp_kfree hm (sub_union_right hd' _ _ (single_self ks f)) ?_
    refine ⟨fun p v hv => ?_, fun _ hr => (by cases hr)⟩
    have hne : p ≠ ks := by
      rintro rfl
      rw [show h p = none from hfree] at hv
      cases hv
    exact (erase_of_ne _ hne).trans (union_left (sub_union_right hd _ _ hv))
  · intro C C₀ hc g c' t' hC hC₀ hK hd hg hd'
    obtain ⟨h1, h2⟩ := disjoint_union_left.1 hd'
    refine ⟨fun p v hv => ?_, fun ks' hr => ?_⟩
    · exact union_left (sub_union_right hd _ _ (sub_union_right hg _ _ hv))
    · cases hr
      refine ⟨C, hc, f, hC, ⟨C₀, hC₀, hK⟩, rfl, fun p v hv => ?_,
        (disjoint_union_right.1 hd).2, ?_, disjoint_single.1 h1, hfree⟩
      · exact union_left (union_left hv)
      · exact sub_union_right hd' _ _ (single_self ks f)

theorem wp_reap {hk : Heap Nat Frame} {ks : Nat} {f : Frame} (hR : Rep K S h) (hm : Managed K ks)
    (hks : hk ks = some f) (hd : h.Disjoint hk) :
    wp (whole K) anyPanic (reap K ks S.dir) (fun _ _ => True) ⟨h ∪ hk, some n, []⟩ := by
  have hnone : h ks = none := hd.symm.right_none hks
  rw [reap, wp_bind]
  refine wp_kfree hm (sub_union_right hd _ _ hks) ?_
  have herase : (h ∪ hk).erase ks = h ∪ hk.erase ks := by
    rw [union_comm hd, ← erase_union hnone, union_comm (hd.symm.erase ks)]
  simp only [herase]
  exact wp.frame (hd.symm.erase ks).symm (wp_freevm hR fun _ _ _ => trivial)

theorem wp_pipePage : wp (whole K) anyPanic pipePage (fun r L => ∀ p, r = some p → ∃ f,
    L.heap p = some f ∧ ∀ w, entry f (openWord w) ≠ 0) ⟨empty, some n, []⟩ := by
  rw [pipePage, wp_bind]
  refine wp_kalloc (fun _ _ hr => by cases hr) ?_
  intro _ p f _ _
  rw [wp_bind]
  refine wp_write (put_self _ _ _) ?_
  intro q hq
  cases hq
  refine ⟨_, put_self _ _ _, fun w => ?_⟩
  rw [entry_setEntry_of_ne _ (by cases w <;> decide), entry_setEntry_of_ne _ (by cases w <;> decide)]
  cases w with
  | false =>
    rw [entry_setEntry_of_ne _ (by decide), openWord, if_neg (by simp),
      entry_setEntry _ (by decide)]
    decide
  | true =>
    rw [openWord, if_pos rfl, entry_setEntry _ (by decide)]
    decide

theorem openWord_not_ne (w : Bool) : openWord (!w) ≠ openWord w := by
  cases w <;> decide

theorem wp_pipeclose {p : Nat} {w : Bool} {g : Frame} (hp : h p = some g) (hm : Managed K p) :
    wp (whole K) anyPanic (pipeclose K p w) (fun _ L => entry g (openWord (!w)) ≠ 0 → ∃ g',
      L.heap p = some g' ∧ entry g' (openWord (!w)) ≠ 0) ⟨h, some n, []⟩ := by
  have hother : entry (setEntry g (openWord w) 0) (openWord (!w)) = entry g (openWord (!w)) :=
    entry_setEntry_of_ne _ (openWord_not_ne w) _
  rw [pipeclose]
  simp only [wp_bind]
  refine wp_write hp (wp_read (put_self _ _ _) (wp_read (put_self _ _ _) ?_))
  split
  · rename_i hboth
    refine wp_kfree hm (put_self _ _ _) fun hne => absurd ?_ hne
    rw [← hother]
    cases w with
    | false => exact hboth.2
    | true => exact hboth.1
  · intro hne
    exact ⟨_, put_self _ _ _, by rwa [hother]⟩

end Wp

/-! ## Calls on the memory of a process -/

theorem Inv.growproc {n : Int32} (hI : Inv K s H) (hi : (s.proc i).state ≠ .UNUSED)
    (h : s.growproc K i n = some s') : ∃ H', Inv K s' H' := by
  obtain ⟨⟨sz, s₁⟩, h₁, h₂⟩ := bind_eq_some_iff.1 h
  have hsz := (hI.proc i hi).sz
  obtain ⟨m, S', h', rfl, hR, hM, ⟨hdir, hlt⟩, hH⟩ :=
    hI.performSpace (P := fun r S' => S'.dir = (s.proc i).pgdir ∧ r < KERNBASE) hi h₁ <| by
      intro S k hR hM hdir
      rw [← hdir]
      exact wp_growPages hR hM hsz n
  refine ⟨give H (.space i) h', ?_⟩
  simp only at h₂
  split at h₂
  · cases h₂
    exact hI.keepSpace hi hH hR hM hdir
  · cases h₂
    exact hI.setSpace hi hH hR hM hdir rfl hlt

theorem Inv.store {va : UInt32} {g : Frame} (hI : Inv K s H) (hi : (s.proc i).state ≠ .UNUSED)
    (h : s.store K i va g = some s') : ∃ H', Inv K s' H' := by
  obtain ⟨⟨_, s₁⟩, h₁, rfl⟩ := map_eq_some_iff.1 h
  obtain ⟨m, S', h', rfl, hR, hM, hdir, hH⟩ :=
    hI.performSpace (P := fun _ S' => S'.dir = (s.proc i).pgdir) hi h₁ <| by
      intro S k hR hM hdir
      rw [← hdir]
      exact wp_userStore hR hM va g
  exact ⟨give H (.space i) h', hI.keepSpace hi hH hR hM hdir⟩

/-- What `exec` needs: the segments of the file lie below `KERNBASE`, the arguments are
shorter than the 32 MB of the devices, and the page of the stack is not the first one of
a page table. -/
structure ExecSafe (im : Image) (argv : List Str) : Prop where
  below : im.Below
  short : ∀ a ∈ argv, a.len < 2 ^ 25
  stack : (im.pages + 1) % 1024 ≠ 0

/-- `exec` keeps the invariant. -/
theorem Inv.exec {im : Image} {argv : List Str} (hI : Inv K s H)
    (hi : (s.proc i).state ≠ .UNUSED) (hsafe : ExecSafe im argv)
    (h : s.exec K i im argv = some s') : ∃ H', Inv K s' H' := by
  unfold Sys.exec at h
  split at h
  · rename_i hargs
    obtain ⟨⟨r, s₁⟩, h₁, h₂⟩ := bind_eq_some_iff.1 h
    obtain ⟨m, S', h', rfl, hR, hM, ⟨hnone, hsome⟩, hH⟩ :=
      hI.performSpace (P := fun r S' => (r = none → S'.dir = (s.proc i).pgdir) ∧
        ∀ l, r = some l → S'.dir = l.pgdir ∧ l.sz < KERNBASE) hi h₁ <| by
        intro S k hR hM hdir
        rw [← hdir]
        refine wp_exec hR hsafe.below hsafe.stack hargs.1 hsafe.short (fun _ _ => trivial) ?_ ?_
        · intro g c' t' hd
          exact ⟨S, _, hR, hM, sub_union_right hd, fun _ => rfl, fun l hl => (by cases hl)⟩
        · intro l S' h' g c' t' hR' hd hM' hdir' hsz'
          refine ⟨S', h', hR', hM', fun _ _ hv => union_left hv, fun hr => (by cases hr), ?_⟩
          intro l' hl'
          cases hl'
          exact ⟨hdir', hsz'⟩
    refine ⟨give H (.space i) h', ?_⟩
    cases r with
    | none =>
      cases h₂
      exact hI.keepSpace hi hH hR hM (hnone rfl)
    | some l =>
      cases h₂
      exact hI.setSpace hi hH hR hM (hsome l rfl).1 rfl (hsome l rfl).2
  · cases h
    exact ⟨H, hI⟩

theorem Inv.wait (hI : Inv K s H) (h : s.wait K i = some s') : ∃ H', Inv K s' H' := by
  unfold Sys.wait at h
  split at h
  · cases h
    exact ⟨H, hI⟩
  · rename_i j hj
    have hz : (s.proc j).state = .ZOMBIE := by
      have := List.find?_some hj
      simp at this
      exact this.2
    obtain ⟨⟨_, s₁⟩, h₁, h₂⟩ := bind_eq_some_iff.1 h
    obtain ⟨⟨f, hf⟩, ⟨S, hR, -, hdir⟩, -⟩ := hI.proc j (by rw [hz]; simp)
    have hd : (H (.space j)).Disjoint (H (.kstack j)) := hI.holds.apart (by simp)
    rw [← hdir] at h₁
    have hsub : ∀ p v, (H (.space j) ∪ H (.kstack j)) p = some v →
        ∃ l, (l = .space j ∨ l = .kstack j) ∧ H l p = some v := by
      intro p v hv
      rcases hd p with hp | hp
      · exact ⟨_, .inr rfl, by simpa [union_apply, hp] using hv⟩
      · exact ⟨_, .inl rfl, by simpa [union_apply, hp] using hv⟩
    obtain ⟨m, L, rfl, -, -, hH⟩ := hI.perform h₁ hsub fun n =>
      wp_reap hR (hI.holds.managed hf) hf hd
    -- nothing is left of the child
    let H' := give (give H (.space j) empty) (.kstack j) empty
    have hH' : Holds (memory K) m H' := by
      refine hH _ _ (fun _ h => h) ?_ ?_ ?_
      · intro l hl
        simp only [not_or] at hl
        simp [H', give, hl]
      · rintro l hl p v hv
        rcases hl with rfl | rfl <;> simp [H', give] at hv
      · rintro l k hl - - p
        rcases hl with rfl | rfl <;> simp [H', give]
    cases h₂
    refine ⟨H', hI.update hH' rfl rfl (fun _ => rfl) fun k hk => ?_⟩
    by_cases hkj : k = j
    · simp [hkj] at hk
    · simp only [hkj, if_false] at hk ⊢
      simpa [H', give, hkj] using hI.proc k hk

theorem Inv.fork (hI : Inv K s H) (hi : (s.proc i).state ≠ .UNUSED)
    (h : s.fork K i = some s') : ∃ H', Inv K s' H' := by
  unfold Sys.fork at h
  split at h
  · cases h
    exact ⟨H, hI⟩
  rename_i j hj
  have hj0 : (s.proc j).state = .UNUSED := by simpa using List.find?_some hj
  have hij : i ≠ j := by
    rintro rfl
    exact hi hj0
  obtain ⟨⟨⟨r, d⟩, s₁⟩, h₁, h₂⟩ := bind_eq_some_iff.1 h
  obtain ⟨-, ⟨S, hR, hM, hdir⟩, hsz⟩ := hI.proc i hi
  rw [← hdir] at h₁
  obtain ⟨m, L, rfl, ⟨hsub, hnew⟩, -, hH⟩ := hI.perform (D := (· = .space i)) h₁
    (fun p v hv => ⟨_, rfl, hv⟩) fun n => wp_forkPages hR hsz
  cases r with
  | none =>
    cases h₂
    refine ⟨H, hI.update ?_ rfl rfl (fun _ => rfl) fun k hk => ?_⟩
    · refine hH (· = .space i) _ (fun _ h => h) (fun _ _ => rfl) ?_ ?_
      · rintro l rfl
        exact hsub
      · rintro l k rfl rfl hne
        exact absurd rfl hne
    · -- the slot stays unused
      by_cases hkj : k = j
      · simp [hkj, hj0] at hk
      · simp only [hkj, if_false] at hk ⊢
        exact hI.proc k hk
  | some ks =>
    obtain ⟨C, hc, f, hC, hMC, rfl, hcsub, hd, hks, hcks, hhks⟩ := hnew ks rfl
    let H' := give (give H (.space j) hc) (.kstack j) (single ks f)
    have hj' : H' (.space j) = hc := by simp [H', give]
    have hk' : H' (.kstack j) = single ks f := by simp [H']
    have hi' : H' (.space i) = H (.space i) := by simp [H', give, hij]
    have hH' : Holds (memory K) m H' := by
      refine hH (fun l => l = .space i ∨ l = .space j ∨ l = .kstack j) _ (fun _ h => .inl h)
        ?_ ?_ ?_
      · intro l hl
        simp only [not_or] at hl
        simp [H', give, hl]
      · rintro l (rfl | rfl | rfl)
        · rw [hi']
          exact hsub
        · rw [hj']
          exact hcsub
        · rw [hk']
          intro p v hv
          by_cases hp : p = ks
          · subst hp
            rw [single_self] at hv
            rw [hks, hv]
          · rw [single_of_ne _ hp] at hv
            cases hv
      · have h12 := hd.symm
        have h13 : (H (.space i)).Disjoint (single ks f) := disjoint_single.2 hhks
        have h23 : hc.Disjoint (single ks f) := disjoint_single.2 hcks
        rintro l k (rfl | rfl | rfl) (rfl | rfl | rfl) hne
        · exact absurd rfl hne
        · rwa [hi', hj']
        · rwa [hi', hk']
        · rw [hi', hj']
          exact hd
        · exact absurd rfl hne
        · rwa [hj', hk']
        · rw [hi', hk']
          exact h13.symm
        · rw [hj', hk']
          exact h23.symm
        · exact absurd rfl hne
    obtain ⟨s₂, h₃, h₄⟩ := bind_eq_some_iff.1 h₂
    cases h₄
    have hD := sameUse_dupFiles _ h₃
    have hbase : Inv K (Sys.setProc { s with mem := m } j { s.proc j with
        kstack := ks, pgdir := C.dir, sz := (s.proc i).sz, parent := some i }) H' := by
      refine hI.update hH' rfl rfl (fun _ => rfl) fun k hk => ?_
      by_cases hkj : k = j
      · simp [hkj, hj0] at hk
      · simp only [hkj, if_false] at hk ⊢
        simpa [H', give, hkj] using hI.proc k hk
    have hI₂ := hD.inv hbase
    have hcore := hD.proc j
    simp only [Sys.setProc, if_true, Process.core, Prod.mk.injEq] at hcore
    refine ⟨H', hI₂.update hI₂.holds rfl rfl (fun _ => rfl) fun k hk => ?_⟩
    by_cases hkj : k = j
    · subst hkj
      simp only [if_true]
      rw [hj', hk']
      refine ⟨⟨f, ?_⟩, ⟨C, hC, hMC, ?_⟩, ?_⟩
      · simp only [hcore.2.1, single_self]
      · simp only [hcore.2.2.1]
      · simp only [hcore.2.2.2]
        exact hsz
    · simp only [hkj, if_false] at hk ⊢
      exact hI₂.proc k hk

/-! ## Calls on files -/

theorem Inv.fileclose (hI : Inv K s H) (h : s.fileclose K f = some s') :
    s'.proc = s.proc ∧ ∃ H', Inv K s' H' := by
  unfold Sys.fileclose at h
  split at h
  · cases h
  split at h
  · cases h
    exact ⟨rfl, H, (sameUse_setRef s f (by omega)).inv hI⟩
  split at h
  · cases h
    exact ⟨rfl, H, hI.setFile f rfl⟩
  rename_i p w hpipe
  obtain ⟨⟨_, s₁⟩, h₁, rfl⟩ := map_eq_some_iff.1 h
  obtain ⟨g, hg, -⟩ := hI.pipe f p w hpipe
  have hI₁ := hI.setFile f (x := {}) rfl
  obtain ⟨m, L, rfl, hkeep, hH⟩ := hI₁.performOne h₁ fun n =>
    wp_pipeclose hg (hI.holds.managed hg)
  refine ⟨rfl, ?_⟩
  -- a file that is the other end of the pipe keeps the page
  have hother : ∀ f' w', ((s.setFile f {}).file f').pipe = some (p, w') → w' = !w := by
    intro f' w' hf'
    by_cases hff : f' = f
    · simp [Sys.setFile, hff] at hf'
    · simp only [Sys.setFile, hff, if_false] at hf'
      by_contra hw
      have hww : w' = w := by
        cases w <;> cases w' <;> simp_all
      exact hff (hI.ends hf' (hww ▸ hpipe))
  let h' : Heap Nat Frame := if entry g (openWord (!w)) ≠ 0 then L.heap else empty
  have hsub : h'.Sub L.heap := by
    intro q v hv
    by_cases hne : entry g (openWord (!w)) ≠ 0
    · simpa only [h', if_pos hne] using hv
    · simp only [h', if_neg hne] at hv
      cases hv
  refine ⟨give H (.pipe p) h', hH h' hsub, ?_, ?_, hI.nodup, ?_, ?_, hI₁.ends, hI₁.closed⟩
  · exact hI.kernel
  · exact hI.cpu
  · intro k hk
    exact hI.proc k hk
  · intro f' p' w' hf'
    by_cases hpp : p' = p
    · subst hpp
      obtain rfl := hother f' w' hf'
      obtain ⟨g₁, hg₁, hne⟩ := hI₁.pipe f' p' _ hf'
      rw [hg] at hg₁
      cases hg₁
      obtain ⟨g', hg', hne'⟩ := hkeep hne
      refine ⟨g', ?_, hne'⟩
      rw [give_self]
      simpa [h', hne] using hg'
    · rw [give_of_ne H h' (by simpa using hpp)]
      exact hI₁.pipe f' p' w' hf'

theorem Inv.close {fd : Nat} (hI : Inv K s H) (h : s.close K i fd = some s') :
    ∃ H', Inv K s' H' := by
  unfold Sys.close at h
  split at h
  · cases h
    exact ⟨H, hI⟩
  · exact (((sameUse_setOfile s i fd none).inv hI).fileclose h).2

theorem Inv.dup {fd : Nat} (hI : Inv K s H) (h : s.dup i fd = some s') : ∃ H', Inv K s' H' := by
  unfold Sys.dup at h
  split at h
  · cases h
    exact ⟨H, hI⟩
  split at h
  · cases h
    exact ⟨H, hI⟩
  · exact ⟨H, ((sameUse_setOfile s i _ _).trans (sameUse_filedup h)).inv hI⟩

theorem Inv.closeFiles (fds : List Nat) (hI : Inv K s H) (h : Sys.closeFiles K i fds s = some s') :
    (∀ k, (s'.proc k).core = (s.proc k).core) ∧ ∃ H', Inv K s' H' := by
  induction fds generalizing s H with
  | nil =>
    cases h
    exact ⟨fun _ => rfl, H, hI⟩
  | cons fd fds ih =>
    rw [Sys.closeFiles] at h
    split at h
    · exact ih hI h
    · obtain ⟨s₁, h₁, h₂⟩ := bind_eq_some_iff.1 h
      obtain ⟨hproc, H₁, hI₁⟩ := hI.fileclose h₁
      have hset := sameUse_setOfile s₁ i fd none
      obtain ⟨hcore, hI'⟩ := ih (hset.inv hI₁) h₂
      exact ⟨fun k => by rw [hcore k, hset.proc k, hproc], hI'⟩

theorem Inv.exit (hI : Inv K s H) (hi : (s.proc i).state ≠ .UNUSED) (h : s.exit K i = some s') :
    ∃ H', Inv K s' H' := by
  unfold Sys.exit at h
  split at h
  · cases h
  obtain ⟨s₁, h₁, h₂⟩ := bind_eq_some_iff.1 h
  cases h₂
  obtain ⟨hcore, H₁, hI₁⟩ := hI.closeFiles _ h₁
  refine ⟨H₁, hI₁.update hI₁.holds rfl rfl (fun _ => rfl) fun k hk => ?_⟩
  have hparent : ∀ k, (if (s₁.proc k).parent = some i then { s₁.proc k with parent := some 0 }
      else s₁.proc k).core = (s₁.proc k).core := by
    intro k
    split <;> rfl
  by_cases hki : k = i
  · subst hki
    have hst : (s₁.proc k).state ≠ .UNUSED := by
      rw [Process.state_of_core (hcore k)]
      exact hi
    have hok := (hI₁.proc k hst).core (hparent k)
    simp only [if_true]
    exact ⟨hok.kstack, hok.space, hok.sz⟩
  · simp only [hki, if_false] at hk ⊢
    rw [Process.state_of_core (hparent k)] at hk
    exact (hI₁.proc k hk).core (hparent k)

theorem Inv.newPipe {p rf wf : Nat} {g : Frame} (hI : Inv K s H)
    (hH : Holds (memory K) m (give H (.pipe p) (single p g)))
    (hfresh : H (.pipe p) p = none) (hg : ∀ w, entry g (openWord w) ≠ 0) (hne : wf ≠ rf) :
    Inv K ((Sys.setFile { s with mem := m } rf ⟨1, some (p, false)⟩).setFile wf
      ⟨1, some (p, true)⟩) (give H (.pipe p) (single p g)) := by
  have hold : ∀ f' w, (s.file f').pipe ≠ some (p, w) := by
    intro f' w hf'
    obtain ⟨g', hg', -⟩ := hI.pipe f' p w hf'
    rw [hfresh] at hg'
    cases hg'
  -- the files that are pipes now
  have hcases : ∀ {f' x}, (((Sys.setFile { s with mem := m } rf ⟨1, some (p, false)⟩).setFile wf
      ⟨1, some (p, true)⟩).file f').pipe = some x →
      (f' = wf ∧ x = (p, true)) ∨ (f' = rf ∧ x = (p, false)) ∨ (s.file f').pipe = some x := by
    intro f' x hf'
    by_cases h1 : f' = wf
    · simp only [Sys.setFile, h1, if_true, some.injEq] at hf'
      exact .inl ⟨h1, hf'.symm⟩
    by_cases h2 : f' = rf
    · simp only [Sys.setFile, h2, hne.symm, if_true, if_false, some.injEq] at hf'
      exact .inr (.inl ⟨h2, hf'.symm⟩)
    · simp only [Sys.setFile, h1, h2, if_false] at hf'
      exact .inr (.inr hf')
  refine ⟨hH, hI.kernel, hI.cpu, hI.nodup, fun k hk => hI.proc k hk, ?_, ?_, ?_⟩
  · intro f' p' w' hf'
    rcases hcases hf' with ⟨-, hx⟩ | ⟨-, hx⟩ | hs
    · cases hx
      exact ⟨g, by rw [give_self, single_self], hg _⟩
    · cases hx
      exact ⟨g, by rw [give_self, single_self], hg _⟩
    · have hpp : p' ≠ p := by
        rintro rfl
        exact hold f' w' hs
      rw [give_of_ne H _ (by simpa using hpp)]
      exact hI.pipe f' p' w' hs
  · intro f₁ f₂ x hf₁ hf₂
    rcases hcases hf₁ with ⟨rfl, rfl⟩ | ⟨rfl, rfl⟩ | hf₁
    · rcases hcases hf₂ with ⟨rfl, -⟩ | ⟨-, hx⟩ | hf₂
      · rfl
      · cases hx
      · exact absurd hf₂ (hold _ _)
    · rcases hcases hf₂ with ⟨-, hx⟩ | ⟨rfl, -⟩ | hf₂
      · cases hx
      · rfl
      · exact absurd hf₂ (hold _ _)
    · rcases hcases hf₂ with ⟨-, rfl⟩ | ⟨-, rfl⟩ | hf₂
      · exact absurd hf₁ (hold _ _)
      · exact absurd hf₁ (hold _ _)
      · exact hI.ends hf₁ hf₂
  · intro f' hf'
    by_cases h1 : f' = wf
    · simp [Sys.setFile, h1] at hf'
    by_cases h2 : f' = rf
    · simp [Sys.setFile, h2, hne.symm] at hf'
    · simp only [Sys.setFile, h1, h2, if_false] at hf' ⊢
      exact hI.closed f' hf'

theorem ref_of_filealloc (h : s.filealloc = some f) : (s.file f).ref = 0 := by
  simpa using List.find?_some h

theorem Inv.pipeCall (hI : Inv K s H) (h : s.pipe K i = some s') : ∃ H', Inv K s' H' := by
  have hclose : ∀ {s₁ s₂ : Sys} {H₁ : Owner → Heap Nat Frame} {rf wf : Nat}, Inv K s₁ H₁ →
      ((s₁.fileclose K rf).bind fun s => s.fileclose K wf) = some s₂ → ∃ H', Inv K s₂ H' := by
    intro s₁ s₂ H₁ rf wf hI₁ h₁
    obtain ⟨s₃, h₃, h₄⟩ := bind_eq_some_iff.1 h₁
    obtain ⟨-, H₃, hI₃⟩ := hI₁.fileclose h₃
    exact (hI₃.fileclose h₄).2
  unfold Sys.pipe at h
  split at h
  · cases h
    exact ⟨H, hI⟩
  rename_i rf hrf
  have hI₁ := hI.setFile rf (x := { s.file rf with ref := 1 }) (hI.closed rf (ref_of_filealloc hrf))
  simp only at h
  split at h
  · exact (hI₁.fileclose h).2
  rename_i wf hwf
  have hne : wf ≠ rf := by
    rintro rfl
    have := ref_of_filealloc hwf
    simp [Sys.setFile] at this
  have hI₂ := hI₁.setFile wf (x := { (s.setFile rf { s.file rf with ref := 1 }).file wf with
    ref := 1 }) (hI₁.closed wf (ref_of_filealloc hwf))
  obtain ⟨⟨r, s₁⟩, h₁, h₂⟩ := bind_eq_some_iff.1 h
  obtain ⟨m, L, rfl, hnew, hdisj, hH⟩ := hI₂.perform (D := fun _ => False) h₁
    (fun _ _ hv => by cases hv) fun n => wp_pipePage
  cases r with
  | none =>
    refine hclose (hI₂.update ?_ rfl rfl (fun _ => rfl) hI₂.proc) h₂
    exact hH (fun _ => False) H (fun _ h => h) (fun _ _ => rfl) (fun _ h => h.elim)
      fun _ _ h => h.elim
  | some p =>
    obtain ⟨g, hg, hflags⟩ := hnew p rfl
    have hfresh : H (.pipe p) p = none := (hdisj (.pipe p) (fun h => h)).symm.right_none hg
    have hH' : Holds (memory K) m (give H (.pipe p) (single p g)) := by
      refine hH (· = .pipe p) _ (fun _ h => h.elim) (fun k hk => give_of_ne H _ hk) ?_ ?_
      · rintro l rfl q v hv
        rw [give_self] at hv
        by_cases hq : q = p
        · subst hq
          rw [single_self] at hv
          rw [hg, hv]
        · rw [single_of_ne _ hq] at hv
          cases hv
      · rintro l k rfl rfl hlk
        exact absurd rfl hlk
    have hI₃ := hI₂.newPipe hH' hfresh hflags hne
    simp only at h₂
    split at h₂
    · exact hclose hI₃ h₂
    · rename_i fd0 _
      split at h₂
      · exact hclose (((sameUse_setOfile _ i fd0 _).trans (sameUse_setOfile _ i fd0 none)).inv hI₃)
          h₂
      · cases h₂
        exact ⟨_, ((sameUse_setOfile _ i fd0 _).trans (sameUse_setOfile _ i _ _)).inv hI₃⟩

theorem Inv.call {a : Call} (hI : Inv K s H) (hi : (s.proc i).state ≠ .UNUSED)
    (hsafe : ∀ im argv, a = .exec im argv → ExecSafe im argv) (h : s.call K i a = some s') :
    ∃ H', Inv K s' H' := by
  cases a with
  | fork => exact hI.fork hi h
  | growproc n => exact hI.growproc hi h
  | exec im argv => exact hI.exec hi (hsafe im argv rfl) h
  | exit => exact hI.exit hi h
  | wait => exact hI.wait h
  | pipe => exact hI.pipeCall h
  | close fd => exact hI.close h
  | dup fd => exact hI.dup h
  | store va g => exact hI.store hi h

end Xv6.Vm
