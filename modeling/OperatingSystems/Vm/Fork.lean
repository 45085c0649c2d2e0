import OperatingSystems.Vm.Copying

/-!
# A `fork` that fails

`fork` takes a kernel stack, a page directory, page tables and pages, and any of these may
be refused.  It then gives back the kernel stack, and `copyuvm` what it had copied, but not
a directory for which a page table of the kernel's part was refused, and not the page whose
page table was.

* `Forking.fork` — `fork` with all it writes: the process table, the pids, and the reference
  counts of files and of inodes.
* `forkPlan` — the calls of `kalloc`.
* `fork_leaks_nothing_iff` — **a failed `fork` leaves everything as it was exactly if no page
  table is the first thing that is refused**, and `-1` is not the next pid.
-/

namespace Xv6.Vm

open Cmd Heap Option

variable {K : Layout} {stop : List Ev → Prop} {F : String → List Ev → Prop}
  {S : Space} {h : Heap Nat Frame} {t : List Ev} {fails : Nat → Bool} {N k : Nat} {sz : UInt32}

/-! ## The pages -/

/-- The calls of `kalloc` in `fork`. -/
def forkPlan (sz : UInt32) : List Need := .page :: copyPlan sz

/-- **The pages of `fork`**: a stack and a copy; or nothing; or what was taken is not given
back. -/
theorem wp_force_forkPages {old : Nat} {Q : Post ((Option Nat × Nat) × Nat)}
    (hsz : sz < KERNBASE) (hR : Rep K S h) (hp : ∀ u, u < pages sz → Present (S.pte u))
    (fail : ∀ d k' c' t', Spared (Short fails N) k (forkPlan sz) →
      ¬ Clear (Short fails N) k (k + (forkPlan sz).length) → Q ((none, d), k') ⟨h, c', t'⟩)
    (lost : ∀ g d k' c' t', (∃ p f, g p = some f) → g.Disjoint h →
      ¬ Spared (Short fails N) k (forkPlan sz) → Q ((none, d), k') ⟨g ∪ h, c', t'⟩)
    (ok : ∀ ks d g k' c' t', g ks ≠ none → g.Disjoint h →
      Clear (Short fails N) k (k + (forkPlan sz).length) →
      Q ((some ks, d), k') ⟨g ∪ h, c', t'⟩) :
    wp (ctx K stop) F (force fails k (forkPages K S.dir sz old)) Q ⟨h, some (N - k), t⟩ := by
  have hlen : k + (forkPlan sz).length = k + 1 + (copyPlan sz).length := by
    simp only [forkPlan, List.length_cons]
    omega
  rw [forkPages, wp_force_bind]
  refine wp_force_kalloc ?_ ?_
  · intro hk
    exact fail _ _ _ _ (spared_of_short hk _) fun hc => hc k (Nat.le_refl k) (by omega) hk
  intro hk ks f hm hfree
  have hsp : Spared (Short fails N) k (forkPlan sz) ↔
      Spared (Short fails N) (k + 1) (copyPlan sz) := spared_cons hk
  rw [wp_force_bind, ← union_single f hfree]
  refine wp.frame (disjoint_single.2 hfree) (wp_force_copyuvm hsz hR hp ?_ ?_ ?_)
  · intro k' c' t' hsp' hnc _
    rw [wp_force_bind, wp_force_quiet (quiet_kfree K _)]
    refine wp_kfree hm (sub_union_right (disjoint_single.2 hfree) _ _ (single_self ks f)) ?_
    simp only [erase_union_single hfree]
    exact fail 0 k' _ t' (hsp.2 hsp') fun hc => hnc (hc.mono (by omega) (by omega))
  · intro g k' c' t' hg hd hnot hd'
    rw [wp_force_bind, wp_force_quiet (quiet_kfree K _)]
    refine wp_kfree hm (sub_union_right hd' _ _ (single_self ks f)) ?_
    simp only [erase_union_single (disjoint_single.1 hd')]
    exact lost g 0 k' _ t' hg hd fun hs => hnot (hsp.1 hs)
  · intro C₀ C hc k' t' hC hd _ _ _ hk' hclear hd'
    rw [union_comm hd', ← union_assoc, union_comm (h := single ks f)]
    · refine ok ks C.dir _ k' _ t' ?_ ?_ ?_
      · rw [union_comm (disjoint_union_left.1 hd').1,
          union_left (single_self ks f)]
        simp
      · exact disjoint_union_left.2 ⟨hd, (disjoint_single.2 hfree).symm⟩
      · rw [hlen, ← hk']
        exact (clear_one hk).trans hclear
    · exact (disjoint_union_left.1 hd').1.symm

variable {m m' : Vm} {O O' E E' : Finset Nat}

theorem Resident.free_eq_iff {L : Local Nat Frame Ev} (hm : Resident K m S O E)
    (hs : Split (memory K) m' O' E' L) (hB : O' ∪ E' = O ∪ E) :
    E' = E ↔ ∀ p, L.heap p ≠ none ↔ restrict (memory K) m O p ≠ none := by
  have hin : ∀ p, L.heap p ≠ none ↔ p ∈ O' := by
    intro p
    rw [hs.heap, restrict]
    split <;> simp [*]
  have hout : ∀ p, restrict (memory K) m O p ≠ none ↔ p ∈ O := by
    intro p
    rw [restrict]
    split <;> simp [*]
  have hall : ∀ p, p ∈ O' ∨ p ∈ E' ↔ p ∈ O ∨ p ∈ E := fun p => by
    rw [← Finset.mem_union, ← Finset.mem_union, hB]
  have hd : ∀ p, p ∈ O → p ∉ E := fun p hp => Finset.disjoint_left.1 hm.apart hp
  have hd' : ∀ p, p ∈ O' → p ∉ E' := fun p hp => Finset.disjoint_left.1 hs.apart hp
  simp only [hin, hout]
  constructor
  · rintro rfl p
    have := hall p
    tauto
  · intro hO
    ext p
    have := hall p
    have := hO p
    tauto

theorem Resident.run_forkPages (hm : Resident K m S O E)
    (hp : ∀ v, v < pages sz → Present (pteOf m S.dir v)) (fails : Nat → Bool)
    (old : Nat) :
    ∃ r m' t E', Cmd.run (memory K) (force fails 0 (forkPages K S.dir sz old)) m [] =
      ((.ok r, m'), t) ∧ FreePages K m' E' ∧
      (r.1.1 = none → ¬ Clear (Short fails E.card) 0 (forkPlan sz).length ∧
        (E' = E ↔ Spared (Short fails E.card) 0 (forkPlan sz))) ∧
      (r.1.1 ≠ none → Clear (Short fails E.card) 0 (forkPlan sz).length ∧ E' ≠ E) := by
  have hsz := hm.size_lt fun v _ hv => hp v hv
  simp only [hm.pteOf_eq] at hp
  have hextra : ∀ {g : Heap Nat Frame} {q : Nat}, g q ≠ none →
      g.Disjoint (restrict (memory K) m O) →
      ¬ ∀ p, (g ∪ restrict (memory K) m O) p ≠ none ↔ restrict (memory K) m O p ≠ none := by
    intro g q hq hd hall
    obtain ⟨f, hf⟩ := ne_none_iff_exists'.1 hq
    refine (hall q).1 ?_ (hd.right_none hf)
    rw [union_left hf]
    simp
  obtain ⟨r, m', t, O', E', L, hrun, hs, hB, -, hQ⟩ := hm.run (Q := fun r L =>
      (r.1.1 = none → ¬ Clear (Short fails E.card) 0 (forkPlan sz).length ∧
        ((∀ p, L.heap p ≠ none ↔ restrict (memory K) m O p ≠ none) ↔
          Spared (Short fails E.card) 0 (forkPlan sz))) ∧
      (r.1.1 ≠ none → Clear (Short fails E.card) 0 (forkPlan sz).length ∧
        ¬ ∀ p, L.heap p ≠ none ↔ restrict (memory K) m O p ≠ none))
    (c := force fails 0 (forkPages K S.dir sz old))
    (wp_force_forkPages (N := E.card) hsz hm.rep hp
      (fun d k' c' t' hsp hnc => ⟨fun _ => ⟨by simpa using hnc, iff_of_true (fun _ => .rfl) hsp⟩,
        fun h => absurd rfl h⟩)
      (fun g d k' c' t' ⟨p, f, hf⟩ hd hnot => ⟨fun _ => ⟨by simpa using not_clear_of_not_spared hnot,
        iff_of_false (hextra (q := p) (by simp [hf]) hd) hnot⟩, fun h => absurd rfl h⟩)
      fun ks d g k' c' t' hg hd hc => ⟨fun h => absurd h (by simp), fun _ =>
        ⟨by simpa using hc, hextra hg hd⟩⟩)
  refine ⟨r, m', t, E', hrun, hs.free, ?_⟩
  rwa [ne_eq E', hm.free_eq_iff hs hB]

/-! ## `fork` -/

/-- What `fork` works on.  Of inodes in memory there is the reference count. -/
structure Forking extends Sys where
  pid : Nat → Int32
  nextpid : Int32
  cwd : Nat → Nat
  iref : Nat → Nat

namespace Forking

/-- `fork` of process `i`, with the calls of `kalloc` that fail: what it returns, and the new
state; `none` if it panics. -/
def fork (K : Layout) (x : Forking) (i : Nat) (fails : Nat → Bool) : Option (Int32 × Forking) :=
  match x.findUnused with
  | none => some (-1, x)
  | some j => do
      let x : Forking := { x with
        toSys := x.setProc j { x.proc j with state := .EMBRYO }
        pid := fun q => if q = j then x.nextpid else x.pid q
        nextpid := x.nextpid + 1 }
      let (((stack, d), _), s) ← x.perform K
        (force fails 0 (forkPages K (x.proc i).pgdir (x.proc i).sz (x.proc j).pgdir))
      match stack with
      | none =>
        let s := s.setProc j { s.proc j with kstack := 0, pgdir := d, state := .UNUSED }
        some (-1, { x with toSys := s })
      | some kstack =>
        let np := { s.proc j with
          kstack := kstack, pgdir := d, sz := (s.proc i).sz, parent := some i }
        let s ← Sys.dupFiles i j (List.range User.NOFILE) (s.setProc j np)
        let s := s.setProc j { s.proc j with state := .RUNNABLE }
        some (x.pid j, { x with
          toSys := s
          cwd := fun q => if q = j then x.cwd i else x.cwd q
          iref := fun ip => if ip = x.cwd i then x.iref ip + 1 else x.iref ip })

/-- **If `fork` returns `-1`, nothing was taken**: the free pages `E` are free, the slot is
unused again, and no reference count has changed. -/
def LeaksNothing (K : Layout) (x : Forking) (E : Finset Nat) (i : Nat) (fails : Nat → Bool) :
    Prop :=
  ∃ r x', x.fork K i fails = some (r, x') ∧ (r = -1 → FreePages K x'.mem E ∧
    (∀ j, x.findUnused = some j → (x'.proc j).state = .UNUSED) ∧
    (∀ f, (x'.file f).ref = (x.file f).ref) ∧ ∀ ip, x'.iref ip = x.iref ip)

end Forking

/-- Files that are open can be duplicated. -/
theorem exists_dupFiles {i j : Nat} (hij : i ≠ j) (fds : List Nat) {s : Sys}
    (hf : ∀ fd f, (s.proc i).ofile fd = some f → 1 ≤ (s.file f).ref) :
    ∃ s', Sys.dupFiles i j fds s = some s' ∧ s'.mem = s.mem := by
  induction fds generalizing s with
  | nil => exact ⟨s, rfl, rfl⟩
  | cons fd fds ih =>
    rw [Sys.dupFiles]
    cases hfd : (s.proc i).ofile fd with
    | none => exact ih hf
    | some f =>
      have href : ¬ (s.file f).ref < 1 := Nat.not_lt.2 (hf fd f hfd)
      simp only [Sys.filedup, if_neg href, bind_eq_bind, bind_some]
      refine ih fun fd' f' hfd' => ?_
      simp only [Sys.setOfile, Sys.setProc, Sys.setFile, if_neg hij] at hfd' ⊢
      split
      · simp
      · exact hf fd' f' hfd'

theorem Sys.findUnused_state {s : Sys} {j : Nat} (hj : s.findUnused = some j) :
    (s.proc j).state = .UNUSED := by simpa using List.find?_some hj

section Runs

variable {x : Forking} {i j k : Nat}

theorem Forking.fork_of_none {d : Nat} (hj : x.findUnused = some j) (hij : i ≠ j)
    (hrun : Cmd.run (memory K) (force fails 0 (forkPages K (x.proc i).pgdir (x.proc i).sz
      (x.proc j).pgdir)) x.mem [] = ((.ok ((none, d), k), m'), t)) :
    ∃ x', x.fork K i fails = some (-1, x') ∧ x'.mem = m' ∧ (x'.proc j).state = .UNUSED ∧
      x'.file = x.file ∧ x'.iref = x.iref := by
  have hproc : (x.setProc j { x.proc j with state := .EMBRYO }).proc i = x.proc i := if_neg hij
  have hold : ((x.setProc j { x.proc j with state := .EMBRYO }).proc j).pgdir =
      (x.proc j).pgdir := by simp [Sys.setProc]
  rw [Forking.fork, hj]
  simp only [hproc, hold]
  rw [Sys.perform_eq (s := x.setProc j { x.proc j with state := .EMBRYO }) hrun]
  exact ⟨_, rfl, rfl, by simp [Sys.setProc], rfl, rfl⟩

theorem Forking.fork_of_some {ks d : Nat} (hj : x.findUnused = some j) (hij : i ≠ j)
    (hf : ∀ fd f, (x.proc i).ofile fd = some f → 1 ≤ (x.file f).ref)
    (hrun : Cmd.run (memory K) (force fails 0 (forkPages K (x.proc i).pgdir (x.proc i).sz
      (x.proc j).pgdir)) x.mem [] = ((.ok ((some ks, d), k), m'), t)) :
    ∃ x', x.fork K i fails = some (x.nextpid, x') ∧ x'.mem = m' := by
  have hproc : (x.setProc j { x.proc j with state := .EMBRYO }).proc i = x.proc i := if_neg hij
  have hold : ((x.setProc j { x.proc j with state := .EMBRYO }).proc j).pgdir =
      (x.proc j).pgdir := by simp [Sys.setProc]
  rw [Forking.fork, hj]
  simp only [hproc, hold]
  rw [Sys.perform_eq (s := x.setProc j { x.proc j with state := .EMBRYO }) hrun]
  simp only [bind_eq_bind, bind_some, hproc]
  obtain ⟨s', hs', hmem⟩ := exists_dupFiles hij (List.range User.NOFILE) (s := Sys.setProc
      { x.setProc j { x.proc j with state := .EMBRYO } with mem := m' } j
      { (x.setProc j { x.proc j with state := .EMBRYO }).proc j with
        kstack := ks, pgdir := d, sz := (x.proc i).sz, parent := some i }) (by
    intro fd f hfd
    rw [Sys.setProc] at hfd
    simp only [if_neg hij, hproc] at hfd
    exact hf fd f hfd)
  rw [hs']
  exact ⟨_, by rw [bind_some, if_pos trivial], hmem⟩

theorem Forking.leaksNothing_iff {r : Int32} {x' : Forking}
    (hx : x.fork K i fails = some (r, x')) : x.LeaksNothing K E i fails ↔ (r = -1 →
      FreePages K x'.mem E ∧ (∀ j, x.findUnused = some j → (x'.proc j).state = .UNUSED) ∧
      (∀ f, (x'.file f).ref = (x.file f).ref) ∧ ∀ ip, x'.iref ip = x.iref ip) := by
  rw [Forking.LeaksNothing, hx]
  constructor
  · rintro ⟨r', y, heq, h⟩
    cases heq
    exact h
  · exact fun h => ⟨r, x', rfl, h⟩

end Runs

theorem leaksNothing_iff_of_slot {x : Forking} {i j : Nat} (hm : Resident K x.mem S O E)
    (hd : S.dir = (x.proc i).pgdir)
    (hp : ∀ v, v < pages (x.proc i).sz → Present (pteOf x.mem S.dir v))
    (hi : (x.proc i).state ≠ .UNUSED)
    (hf : ∀ fd f, (x.proc i).ofile fd = some f → 1 ≤ (x.file f).ref)
    (hj : x.findUnused = some j) : x.LeaksNothing K E i fails ↔
      Spared (Short fails E.card) 0 (forkPlan (x.proc i).sz) ∧
      (x.nextpid = -1 → ¬ Clear (Short fails E.card) 0 (forkPlan (x.proc i).sz).length) := by
  have hij : i ≠ j := by
    rintro rfl
    exact hi (Sys.findUnused_state hj)
  obtain ⟨⟨⟨r, d⟩, k⟩, m', t, E', hrun, hE', hnone, hsome⟩ :=
    hm.run_forkPages hp fails (x.proc j).pgdir
  rw [hd] at hrun
  cases r with
  | none =>
    obtain ⟨hnc, hsp⟩ := hnone rfl
    obtain ⟨x', hx', rfl, hstate, hfile, hiref⟩ := Forking.fork_of_none hj hij hrun
    rw [Forking.leaksNothing_iff hx', and_iff_left fun _ => hnc, ← hsp]
    constructor
    · exact fun hleak => hE'.unique (hleak rfl).1
    · rintro rfl -
      refine ⟨hE', fun j' hj' => ?_, fun f => by rw [hfile], fun ip => by rw [hiref]⟩
      obtain rfl := some.inj (hj.symm.trans hj')
      exact hstate
  | some a =>
    obtain ⟨hc, hne⟩ := hsome (by simp)
    obtain ⟨x', hx', rfl⟩ := Forking.fork_of_some hj hij hf hrun
    have hspared : Spared (Short fails E.card) 0 (forkPlan (x.proc i).sz) := by
      by_contra hnot
      exact not_clear_of_not_spared hnot (by simpa using hc)
    rw [Forking.leaksNothing_iff hx', and_iff_right hspared]
    constructor
    · exact fun hleak hpid => absurd (hE'.unique (hleak hpid).1) hne
    · exact fun h hpid => absurd hc (h hpid)

/-- **A `fork` that fails leaks nothing exactly if no page table is the first to be refused**:
there is no free slot; or a call of `kalloc` for a page table fails only after one for a page
has, and the next pid is not `-1` while no call fails. -/
theorem fork_leaks_nothing_iff (K : Layout) {x : Forking} {S : Space} {O E : Finset Nat} (i : Nat)
    (fails : Nat → Bool) (hm : Resident K x.mem S O E) (hd : S.dir = (x.proc i).pgdir)
    (hp : ∀ v, v < pages (x.proc i).sz → Present (pteOf x.mem S.dir v))
    (hi : (x.proc i).state ≠ .UNUSED)
    (hf : ∀ fd f, (x.proc i).ofile fd = some f → 1 ≤ (x.file f).ref) :
    x.LeaksNothing K E i fails ↔ x.findUnused = none ∨
      Spared (Short fails E.card) 0 (forkPlan (x.proc i).sz) ∧
      (x.nextpid = -1 → ¬ Clear (Short fails E.card) 0 (forkPlan (x.proc i).sz).length) := by
  cases hj : x.findUnused with
  | none =>
    refine iff_of_true ⟨-1, x, by simp [Forking.fork, hj], fun _ => ⟨hm.free, ?_⟩⟩ (.inl rfl)
    exact ⟨fun j h => (by cases hj.symm.trans h), fun _ => rfl, fun _ => rfl⟩
  | some j => simpa using leaksNothing_iff_of_slot hm hd hp hi hf hj

/-- A process of one page, the only one. -/
def onePageFork (m : Vm) : Forking where
  mem := m
  proc i := if i = 0 then { state := .RUNNABLE, pgdir := 300, sz := 4096 } else {}
  file _ := {}
  kpgdir := 0
  cpuStack := []
  pid _ := 1
  nextpid := 2
  cwd _ := 0
  iref _ := 1

theorem findUnused_onePageFork (m : Vm) : (onePageFork m).findUnused = some 1 := rfl

/-- With two free pages, `fork` has a stack and a directory, and then no page table.  The
directory is not given back. -/
theorem fork_leaks_directory : ∃ m O, Resident someLayout (onePageFork m).mem onePage O {303, 304} ∧
    (∀ v, v < pages 4096 → Present (pteOf m 300 v)) ∧
    ¬ (onePageFork m).LeaksNothing someLayout {303, 304} 0 (fun _ => false) := by
  obtain ⟨m, O, hm⟩ := exists_resident_onePage (E := {303, 304}) (by simp)
  refine ⟨m, O, hm, present_onePage hm, ?_⟩
  rw [leaksNothing_iff_of_slot (i := 0) hm rfl
    (present_onePage hm) (by simp [onePageFork]) (by simp [onePageFork]) (findUnused_onePageFork m),
    spared_never_iff]
  rintro ⟨htable, -⟩
  exact htable rfl

/-- With one free page there is only the stack, and it is given back. -/
theorem fork_leaks_nothing_iff_onePage : ∃ m O,
    Resident someLayout (onePageFork m).mem onePage O {303} ∧
    (∀ v, v < pages 4096 → Present (pteOf m 300 v)) ∧
    (onePageFork m).LeaksNothing someLayout {303} 0 (fun _ => false) := by
  obtain ⟨m, O, hm⟩ := exists_resident_onePage (E := {303}) (by simp)
  refine ⟨m, O, hm, present_onePage hm, (fork_leaks_nothing_iff someLayout 0 _
    hm rfl (present_onePage hm) (by simp [onePageFork]) (by simp [onePageFork])).2 (.inr ⟨?_, ?_⟩)⟩
  · have hpage : (forkPlan 4096)[({303} : Finset Nat).card]? ≠ some .table := by decide
    exact spared_never_iff.2 hpage
  · have hpid : (2 : Int32) ≠ -1 := by decide
    exact fun h => absurd h hpid

end Xv6.Vm
