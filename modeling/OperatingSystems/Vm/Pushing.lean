import OperatingSystems.Vm.Alias
import OperatingSystems.Vm.Failing

/-!
# Pushing the arguments

`copyout` is to write to pages for the user only, and to fail at any other.  It looks for
the entry of a page with `walkpgdir`, and where there is no page table it takes the word at
address zero for it.

* `copyout_touches_user_pages_iff` — **`copyout` keeps to the user's pages, unless the first
  page that is not the user's has no page table**.
* `copyout_reads_null` — in a run of `exec` it has none.
-/

namespace Xv6.Vm

open Cmd Heap

variable {K : Layout} {m m' : Vm} {S : Space} {O E : Finset Nat} {h : Heap Nat Frame}
  {t : List Ev} {cur d n len : Nat} {va : UInt32} {src : Nat → UInt8}

/-- `copyout` reads no entry that is missing, it returns, it changes pages for the user only,
and it succeeds if the whole range is for the user. -/
def CopiesToUser (K : Layout) (m : Vm) (cur d : Nat) (va : UInt32) (src : Nat → UInt8)
    (len : Nat) : Prop :=
  ∃ b m' t, run (memory K) (copyoutWith K nullTrap cur d va src len) m [] = ((.ok b, m'), t) ∧
    run (memory K) (copyout K cur d va src len) m [] = ((.ok b, m'), t) ∧
    (∀ p, m'.page p ≠ m.page p → ∃ v, UserPage (pteOf m d v) ∧ ptePage (pteOf m d v) = p) ∧
    (b = true ↔ ∀ j < len, UserPage (pteOf m d ((va.toNat + j) / 4096)))

/-- The first page of the range that is not for the user is one that a page table of the
directory is for. -/
def TableAtEnd (m : Vm) (d : Nat) (va : UInt32) (len : Nat) : Prop :=
  ∀ n < len, (∀ j < n, UserPage (pteOf m d ((va.toNat + j) / 4096))) →
    tableOf m d ((va.toNat + n) / 4096 / 1024) ≠ none

/-- Every page is a page of the program. -/
abbrev everyPage : Ctx Nat Ev := ⟨fun _ => True, fun _ => False⟩

/-- What `copyout` does to some pages, it does to memory. -/
theorem run_copyoutWith {F : String → List Ev → Prop} {Q : Post Bool}
    (hw : wp everyPage F (copyoutWith K nullTrap cur d va src len) Q
      ⟨restrict (memory K) m O, none, []⟩) :
    RanStatic (memory K) F Q (restrict (memory K) m O) m
      (Cmd.run (memory K) (copyoutWith K nullTrap cur d va src len) m []) :=
  run_static (fun _ => trivial) (fun _ => not_false)
    (static_copyoutLoopWith (static_panic _) d len va src len)
    (fun _ _ hv => (restrict_eq_some.1 hv).2) hw

namespace Resident

/-- `copyout` runs into the missing entry. -/
theorem run_copyout_null (hm : Resident K m S O E) (hM : Made S) (hn : n < len)
    (huser : ∀ j < n, UserPage (S.pte ((va.toNat + j) / 4096)))
    (hT : S.tab ((va.toNat + n) / 4096 / 1024) = none) {b : Bool} {t : List Ev} :
    Cmd.run (memory K) (copyoutWith K nullTrap cur S.dir va src len) m [] ≠ ((.ok b, m'), t) := by
  intro hrun
  have hnot : ¬ UserPage (S.pte ((va.toNat + n) / 4096)) := by
    rw [hm.rep.pte_none hT]
    exact fun hU => not_present_zero hU.1
  suffices hw : wp everyPage (fun _ _ => True) (copyoutWith K nullTrap cur S.dir va src len)
      (fun _ _ => False) ⟨restrict (memory K) m O, none, []⟩ by
    have hran := run_copyoutWith hw
    rw [hrun] at hran
    obtain ⟨L, -, -, -, hfalse⟩ := hran
    exact hfalse
  refine wp_copyoutLoopWith len le_rfl hm.rep (fun _ => hM.flag) (fun _ _ _ _ _ => trivial) ?_
  -- it can neither have passed the page nor have stopped before it
  intro b k S' h' _ _ hin _ htrue hfalse
  have hpast : n < k → False := fun hk => hnot (hin (va.toNat + n) (by omega) (by omega))
  cases b with
  | true => exact hpast (by have := htrue rfl; omega)
  | false =>
    obtain ⟨-, hT', hU⟩ := hfalse rfl
    rcases Nat.lt_trichotomy k n with hk | rfl | hk
    · exact hU (huser k hk)
    · exact hT' hT
    · exact hpast hk

/-- Otherwise it keeps to the user's pages. -/
theorem run_copyout_user (hm : Resident K m S O E) (hM : Made S)
    (hT : TableAtEnd m S.dir va len) : CopiesToUser K m cur S.dir va src len := by
  suffices hw : wp everyPage (fun _ _ => False) (copyoutWith K nullTrap cur S.dir va src len)
      (fun b L => (∀ p, L.heap p ≠ restrict (memory K) m O p →
          ∃ v, UserPage (S.pte v) ∧ ptePage (S.pte v) = p) ∧
        (b = true ↔ ∀ j < len, UserPage (S.pte ((va.toNat + j) / 4096))))
      ⟨restrict (memory K) m O, none, []⟩ by
    have hran := run_copyoutWith hw
    rcases hrun : Cmd.run (memory K) (copyoutWith K nullTrap cur S.dir va src len) m []
      with ⟨⟨msg | b, m'⟩, t⟩
    · rw [hrun] at hran
      exact hran.elim
    rw [hrun] at hran
    obtain ⟨L, hread, -, hsame, honly, hb⟩ := hran
    refine ⟨b, m', t, hrun, ?_, fun p hp => ?_, ?_⟩
    · rw [copyout_eq]
      exact run_copyoutLoopWith_of_trap hrun
    · simp only [hm.pteOf_eq]
      by_cases hpO : p ∈ O
      · exact honly p fun heq => hp (hread p _ (heq.trans (if_pos hpO)))
      · exact absurd (hsame p (if_neg hpO)) hp
    · simpa only [hm.pteOf_eq] using hb
  refine wp_copyoutLoopWith len le_rfl hm.rep (fun _ => hM.flag) ?_ ?_
  · intro n h' hn hin hnone
    refine (hT n hn (fun j hj => ?_) (by rwa [hm.tableOf_eq])).elim
    rw [hm.pteOf_eq]
    exact hin _ (by omega) (by omega)
  · intro b n S' h' hR' _ hin honly htrue hfalse
    refine ⟨fun p hp => ?_, ?_⟩
    · obtain ⟨a, h1, h2, h3⟩ := honly p hp
      exact ⟨a / 4096, hin a h1 h2, h3⟩
    cases b with
    | true =>
      refine iff_of_true rfl fun j hj => hin _ (by omega) ?_
      have := htrue rfl
      omega
    | false =>
      obtain ⟨hn, -, hU⟩ := hfalse rfl
      exact iff_of_false (by simp) fun hall => hU (hall n hn)

end Resident

/-- **`copyout` touches pages for the user only**, if and only if the first page that is not,
if there is one in the range, is one that a page table of the directory is for. -/
theorem copyout_touches_user_pages_iff (hm : Resident K m S O E) (hM : Made S) (cur : Nat)
    (va : UInt32) (src : Nat → UInt8) (len : Nat) :
    CopiesToUser K m cur S.dir va src len ↔ TableAtEnd m S.dir va len := by
  constructor
  · rintro ⟨b, m', t, hrun, -⟩ n hn huser hnone
    refine hm.run_copyout_null hM hn (fun j hj => ?_) ?_ hrun
    · rw [← hm.pteOf_eq]
      exact huser j hj
    · rw [← hm.tableOf_eq]
      exact hnone
  · exact hm.run_copyout_user hM

/-! ## A run -/

/-- The first process grows to a little more than 32 MB, and calls `exec`, up to the point
where the arguments are pushed. -/
def untilPush (K : Layout) (d : Int32) :
    M ((Nat × List Nat) × (Nat × Nat) × UInt32 × Option (Nat × Option UInt32) × Option UInt32) := do
  let k ← startKernel K 0
  let u ← userinit K (fun _ => 0) 0
  let sz ← growPages K u.2 4096 d
  let im ← loadImage K smallImage u.2
  let top ← stackPages K ((im.map Prod.fst).getD 0) 0
  return (k, u, sz, im, top)

theorem wp_untilPush {d : Int32} {N : UInt32} {page : Nat → Frame} (hfirst : K.first ≤ 900)
    (hpos : d > 0) (hN : 4096 + d.toUInt32 = N) (hN' : N.toNat = 33570816) :
    wp (whole K) noPanic (untilPush K d) (fun r L => ∃ S h g, Rep K S h ∧ h.Disjoint g ∧
        L.heap = h ∪ g ∧ Made S ∧ S.tab 1015 = none ∧ r.2.2 = (N, some (S.dir, some 0), some 8192))
      ⟨pagesFrom page K.first, some 0, t⟩ := by
  simp only [untilPush, wp_bind]
  refine wp_startKernel_ok hfirst fun kpgdir h n t' hn => ?_
  rw [← empty_union h]
  refine wp.frame (empty_disjoint _) (wp_userinit_ok (by omega) ?_)
  intro ks S hs r T p n' t'' hR hd hF hn' hdr
  obtain ⟨hd₁, -⟩ := disjoint_union_left.1 hdr
  have hd₂ : hs.Disjoint (r ∪ h) := disjoint_union_right.2 ⟨hd, hd₁⟩
  rw [union_assoc]
  refine wp.frame hd₂ (wp_grow_ok hR hF (by omega) hpos rfl hN hN' ?_)
  intro S' hs' r' n'' t₃ hR' hd' hdir hT hpte hn'' hd₃
  rw [loadImage, if_neg (by decide), if_neg (by decide)]
  simp only [wp_bind]
  rw [← empty_union (hs' ∪ r' ∪ (r ∪ h))]
  refine wp.frame (empty_disjoint _) (wp_setupkvm (fun _ _ _ hle _ _ => ?_) ?_)
  · have := hle n'' rfl
    omega
  intro S₁ h₁ c₁ t₁ hR₁ hS₁ _ hG hd₄
  obtain ⟨n₁, rfl, -, hcr⟩ := hG.credit (n := n'' - 1) rfl
  have habs := (Space.new S₁.dir).absentTabs_le
  rw [show smallImage.phnum = 0 by decide]
  simp only [loadSegments, wp_bind, wp_pure]
  refine wp.frame hd₄ (wp_stackPages_small hR₁ hS₁ (by omega) ?_)
  intro S₂ h₂ g c₂ t₂ hR₂ hd₅ hdir₂ hgap _ hpte₂ hd₆
  obtain ⟨hd₇, -⟩ := disjoint_union_left.1 hd₆
  refine ⟨S₂, h₂, _, hR₂, disjoint_union_right.2 ⟨hd₅, hd₇⟩, union_assoc _ _ _, ?_, hgap, ?_⟩
  · refine ⟨S₁, hS₁, hdir₂, fun hv => hpte₂ _ ?_⟩
    unfold USERPAGES at hv
    omega
  · rw [hdir₂]

/-- The programs of the run, one after another, and the space that `exec` has made. -/
theorem untilPush_run {d : Int32} {N : UInt32} (hfirst : K.first ≤ 900) (hpos : d > 0)
    (hN : 4096 + d.toUInt32 = N) (hN' : N.toNat = 33570816) (page : Nat → Frame) :
    ∃ b m t, run (memory K) (boot K 0 (fun _ => 0) 0) ⟨page, 0⟩ [] = ((.ok b, m), t) ∧
      ∃ m₁ t₁, run (memory K) (growPages K b.pgdir 4096 d) m t = ((.ok N, m₁), t₁) ∧
      ∃ S m₂ t₂, run (memory K) (loadImage K smallImage b.pgdir) m₁ t₁ =
          ((.ok (some (S.dir, some 0)), m₂), t₂) ∧
      ∃ m₃ t₃, run (memory K) (stackPages K S.dir 0) m₂ t₂ = ((.ok (some 8192), m₃), t₃) ∧
        Made S ∧ S.tab 1015 = none ∧ ∃ O E, Resident K m₃ S O E := by
  have hran := (run_sound (fun _ h => h) (split_start K page)
    (wp_untilPush hfirst hpos hN hN')).resolve_left fun ⟨_, h, _⟩ => h
  rcases hr : run (memory K) (untilPush K d) ⟨page, 0⟩ [] with ⟨⟨msg | ⟨k, u, r⟩, m'⟩, t'⟩
  · rw [hr] at hran
    exact hran.elim
  rw [hr] at hran
  obtain ⟨O, E, L, hs, -, -, -, S, h, g, hR, hd, hL, hM, hgap, hres⟩ := hran
  obtain ⟨O', -, hm, -⟩ := exists_resident_of_split hs hL hd hR
  obtain ⟨k', m₀, t₀, h₀, hr⟩ := run_bind_eq_ok hr
  obtain ⟨u', m, t, hu, hr⟩ := run_bind_eq_ok hr
  obtain ⟨sz', m₁, t₁, h₁, hr⟩ := run_bind_eq_ok hr
  obtain ⟨im, m₂, t₂, h₂, hr⟩ := run_bind_eq_ok hr
  obtain ⟨top, m₃, t₃, h₃, hr⟩ := run_bind_eq_ok hr
  cases hr
  cases hres
  refine ⟨⟨k.1, k.2, u.1, u.2⟩, m, t, ?_, m₁, t₁, h₁, S, m₂, t₂, h₂, m', t', h₃, hM, hgap, O', E,
    hm⟩
  rw [boot, run_bind, h₀]
  simp only [run_bind, hu]
  rfl

/-- The address of a string that is pushed. -/
def pushed (sp : UInt32) (s : Str) : UInt32 := (sp - UInt32.ofNat (s.len + 1)) &&& 0xFFFFFFFC

/-- **`copyout` reads an entry that is missing**, in a run of `exec` by a process that has
room for the string. -/
theorem copyout_reads_null :
    ∃ b m t, run (memory someLayout) (boot someLayout 0 (fun _ => 0) 0) ⟨fun _ => filled 0, 0⟩ [] =
        ((.ok b, m), t) ∧
      ∃ m₁ t₁, run (memory someLayout) (growPages someLayout b.pgdir 4096 33566720) m t =
          ((.ok 33570816, m₁), t₁) ∧ longString.len < UInt32.toNat 33570816 ∧
      ∃ d m₂ t₂, run (memory someLayout) (loadImage someLayout smallImage b.pgdir) m₁ t₁ =
          ((.ok (some (d, some 0)), m₂), t₂) ∧
      ∃ m₃ t₃, run (memory someLayout) (stackPages someLayout d 0) m₂ t₂ =
          ((.ok (some 8192), m₃), t₃) ∧
        ¬ CopiesToUser someLayout m₃ b.pgdir d (pushed 8192 longString) longString.byte
          (longString.len + 1) := by
  obtain ⟨b, m, t, hb, m₁, t₁, h₁, S, m₂, t₂, h₂, m₃, t₃, h₃, hM, hgap, O, E, hm⟩ :=
    untilPush_run (K := someLayout) (d := 33566720) (N := 33570816) (by decide) (by decide)
      (by decide) (by decide) fun _ => filled 0
  refine ⟨b, m, t, hb, m₁, t₁, h₁, by decide, S.dir, m₂, t₂, h₂, m₃, t₃, h₃, ?_⟩
  rintro ⟨c, m', t', hrun, -⟩
  refine hm.run_copyout_null hM (Nat.succ_pos _) (fun j hj => absurd hj (Nat.not_lt_zero j)) ?_ hrun
  have hva : (pushed 8192 longString).toNat = 0xFDFFF000 := rfl
  rw [hva]
  exact hgap

/-- The same space, and an empty string. -/
theorem copyout_touches_user_pages_iff_start : ∃ m S O E, Resident someLayout m S O E ∧ Made S ∧
      (CopiesToUser someLayout m 0 S.dir 8188 (fun _ => 0) 1 ↔ TableAtEnd m S.dir 8188 1) := by
  obtain ⟨-, -, -, -, -, -, -, S, -, -, -, m₃, -, -, hM, -, O, E, hm⟩ :=
    untilPush_run (K := someLayout) (d := 33566720) (N := 33570816) (by decide) (by decide)
      (by decide) (by decide) fun _ => filled 0
  exact ⟨m₃, S, O, E, hm, hM, copyout_touches_user_pages_iff hm hM 0 8188 _ 1⟩

end Xv6.Vm
