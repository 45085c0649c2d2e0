import OperatingSystems.Fs.Hold

/-!
# The functions of the file system keep to the rules

Each function of `fs.c` is followed from where it is called to where it returns, whatever
the operations answer.  What it changes in an inode is written to the disk before it
returns, and it leaves the references that the source says it does.

* `follows_readi`, `follows_writei`: the content of an inode.
* `follows_dirlookup`, `follows_dirlink`: directories.
* `follows_namex`: paths.
-/

namespace Xv6.Fs

namespace Hold

section Inodes

variable {t : Hold} {b : Bal} {L : Set IRef} {ip dp : IRef} {α : Type}

/-- There is a reference for every lock. -/
def Backs (b : Bal) (L : Set IRef) : Prop := ∀ e ∈ L, 1 ≤ b.refs e

theorem backs_empty : Backs b ∅ := fun _ he => he.elim

theorem Backs.insert (h : Backs b L) (hr : 1 ≤ b.refs ip) : Backs b (insert ip L) := by
  rintro e (rfl | he)
  · exact hr
  · exact h e he

theorem refs_addRef_pos (b : Bal) (ip : IRef) : 1 ≤ (b.addRef ip).refs ip := by simp

theorem follows_panic {why : String} {Q : Post α} : (panic why : FsM α).Follows rules Q t :=
  .bind (follows_ask trivial fun r => nomatch r)

/-! ## The content of inodes -/

section

variable (h : t.At b L) (hl : ip ∈ L)

include h hl

theorem follows_consoleread {n : Nat} {Q : Post (Option (List UInt8))} (hs : b.Secures ip) (k : ∀ r t', t'.At b L → Q r t') :
    (consoleread ip n).Follows rules Q t := by
  refine .bind (follows_iunlock h hl fun t1 h1 => ?_)
  refine .bind (follows_ask trivial ?_)
  rintro r t' rfl
  refine .bind (follows_ilock h1 hs fun t2 h2 _ => ?_)
  rw [Set.insert_sdiff_singleton, Set.insert_eq_of_mem hl] at h2
  exact k r t2 h2

theorem follows_consolewrite {n : Nat} {Q : Post (Option Nat)} (hs : b.Secures ip) (k : ∀ r t', t'.At b L → Q r t') :
    (consolewrite ip n).Follows rules Q t := by
  refine .bind (follows_iunlock h hl fun t1 h1 => ?_)
  refine .bind (follows_ilock h1 hs fun t2 h2 _ => ?_)
  rw [Set.insert_sdiff_singleton, Set.insert_eq_of_mem hl] at h2
  exact k _ t2 h2

theorem follows_readi {off n : Nat} {Q : Post (Option (List UInt8))} (hs : b.Secures ip) (k : ∀ r t', t'.At b L → Q r t') :
    (readi ip off n).Follows rules Q t := by
  obtain ⟨d, hd, ht⟩ := h.held hl
  refine .bind (follows_getInode hd ?_)
  split
  · split
    · exact follows_consoleread h hl hs k
    · exact k none t h
  · split
    · exact k none t h
    next hin =>
      generalize hm : (if d.size < off + n then d.size - off else n) = m
      have hle : off + m ≤ nblocks d.size * BSIZE := by
        refine le_trans ?_ (le_nblocks_mul d.size)
        split at hm <;> omega
      refine .bind (follows_of_work (Q := fun _ w => w = ⟨0, d, d, t.blk, []⟩)
        (follows_of_reads (reads_readLoop (h.clean.mapped ip d hd) le_rfl hle rfl)) hd rfl ?_)
      rintro bs w rfl
      rw [rehold_self hd rfl]
      exact k _ t h

/-- The file has the blocks of its new size, and the disk has them too. -/
theorem At.wrote {d d' : Dinode} {w : Work} {n : Nat} (hd : t.lock ip = .held d d) (ht : d.type ≠ 0)
    (hg : Grows ⟨0, d, d, t.blk, []⟩ w (nblocks d.size) n)
    (hd' : d' = { w.din with size := d'.size }) (hn : nblocks d'.size = n) :
    At { t.setLock ip (.held d' d') with blk := w.blk } b L := by
  obtain ⟨hc, rfl, rfl⟩ := h
  have hlock : ({ t.setLock ip (.held d' d') with blk := w.blk } : Hold).lock ip = .held d' d' := by
    simp
  have haddr : d'.addrs = w.din.addrs := by rw [hd']
  have huses : ∀ c, Uses w.blk d' n c ↔ Uses w.blk w.din n c :=
    uses_congr (fun i _ => by rw [haddr]) (fun _ => rfl) n
  have hnew : ∀ c, Owns { t.setLock ip (.held d' d') with blk := w.blk } ip c ↔
      Uses w.blk w.din n c := by
    intro c
    rw [owns_iff hlock, hn]
    exact huses c
  have hold := fun c => owns_iff hd c
  refine ⟨?_, rfl, ?_⟩
  · refine hc.change (fun e (he : e ≠ ip) => by simp [he]) (.inr ⟨d', hlock, ?_, ?_⟩) ?_ ?_ ?_
    · rw [hd', hg.din]
      exact ht
    · rw [hn]
      exact hg.mapped.congr (fun i _ => by rw [haddr]) (fun _ => rfl)
        fun c hc => (hg.mapped.own c hc).1
    · intro c hu
      exact (hg.fresh c ((hnew c).1 hu)).imp_left (hold c).2
    · intro c hu _
      exact hg.frame c fun h => hu ((hnew c).2 h)
    · intro c hu hnu
      exact absurd ((hnew c).2 (hg.uses ((hold c).1 hu))) hnu
  · rw [locked_setLock t ip (by simp)]
    exact Set.insert_eq_of_mem hl

theorem follows_writei {src : Nat → UInt8} {off n : Nat} {Q : Post (Option Nat)} (hs : b.Secures ip) (k : ∀ r t', t'.At b L → Q r t') :
    (writei ip src off n).Follows rules Q t := by
  obtain ⟨d, hd, ht⟩ := h.held hl
  by_cases hdev : d.type = T_DEV
  · refine .bind (follows_getInode hd ?_)
    rw [if_pos hdev]
    split
    · exact follows_consolewrite h hl hs k
    · exact k none t h
  by_cases hr : Refused d off n
  · refine .bind (follows_getInode hd ?_)
    rw [if_neg hdev]
    split
    · exact k none t h
    next hin => rw [if_pos (by unfold Refused at hr; omega)]; exact k none t h
  refine follows_of_work (w := ⟨0, d, d, t.blk, []⟩)
    (follows_writei_work (h.clean.mapped ip d hd) rfl ht hdev hr) hd rfl ?_
  rintro r w' ⟨w, hw, rfl⟩
  have hg := hw.grows
  refine k _ _ ?_
  split
  next hgrow =>
    rw [max_eq_right (nblocks_mono hgrow.2.le)] at hg
    exact h.wrote (w := w) hl hd ht hg rfl rfl
  next hgrow =>
    -- nothing was added, so that the disk still agrees
    replace hgrow : ¬ (0 < n ∧ d.size < off + n) := hgrow
    unfold Refused at hr
    have hmono : nblocks (off + n) ≤ nblocks d.size := by
      refine nblocks_mono ?_
      omega
    rw [max_eq_left hmono] at hg
    have hsame : w.din = d := hg.same rfl
    have hdisk : w.disk = w.din := hg.disk.trans hsame.symm
    rw [rehold, hdisk]
    exact h.wrote hl hd ht hg rfl (by rw [hsame])

/-! ## Inodes and directories -/

theorem follows_stati {Q : Post (Nat × Nat × Int × Nat)}
    (k : ∀ r, Q r t) : (stati ip).Follows rules Q t := by
  obtain ⟨d, hd, -⟩ := h.held hl
  refine .bind (follows_ask trivial ?_)
  rintro inum t' rfl
  exact .bind (follows_getInode hd (k _))

end

theorem follows_ialloc {type : Nat} {Q : Post IRef} (h : t.At b L) (ht : type ≠ 0)
    (k : ∀ ip t', t'.At (b.addRef ip) L → Q ip t') : (ialloc type).Follows rules Q t := by
  rw [ialloc]
  generalize (List.range NINODES).drop 1 = inums
  induction inums with
  | nil => exact follows_panic
  | cons inum inums ih =>
    refine .bind (follows_ask ht ?_)
    rintro free t' rfl
    split
    · exact follows_iget h k
    · exact ih

theorem follows_readDirent {off : Nat} {why : String} {Q : Post (List UInt8)}
    (h : t.At b L) (hl : dp ∈ L) (hr : 1 ≤ b.refs dp) (k : ∀ de t', t'.At b L → Q de t') :
    (readDirent dp off why).Follows rules Q t := by
  refine .bind (follows_readi h hl (.inl hr) fun r t' h' => ?_)
  cases r with
  | none => exact follows_panic
  | some de =>
    show Script.Follows rules (if de.length = DIRENT then pure de else panic why) Q t'
    split
    · exact k de t' h'
    · exact follows_panic

theorem follows_dirlookup {name : Name} {Q : Post (Option (IRef × Nat))} (h : t.At b L)
    (hl : dp ∈ L) (hr : 1 ≤ b.refs dp) (knone : ∀ t', t'.At b L → Q none t')
    (ksome : ∀ ip off t', t'.At (b.addRef ip) L → Q (some (ip, off)) t') :
    (dirlookup dp name).Follows rules Q t := by
  obtain ⟨d, hd, -⟩ := h.held hl
  refine .bind (follows_getInode hd ?_)
  split
  · exact follows_panic
  · generalize offsets 0 d.size = offs
    clear hd
    induction offs generalizing t with
    | nil => exact knone t h
    | cons off offs ih =>
      refine .bind (follows_readDirent h hl hr fun de t' h' => ?_)
      split
      · exact ih h'
      · split
        · exact .bind (follows_iget h' fun ip t'' h'' => ksome ip off t'' h'')
        · exact ih h'

theorem follows_dirlink {name : Name} {inum : Nat} {Q : Post Bool} (h : t.At b L)
    (hl : dp ∈ L) (hb : Backs b L) (k : ∀ r t', t'.At b L → Q r t') :
    (dirlink dp name inum).Follows rules Q t := by
  have hr := hb dp hl
  refine .bind (follows_dirlookup h hl hr (fun t1 h1 => ?_) fun ip off t1 h1 => ?_)
  · obtain ⟨d, hd, -⟩ := h1.held hl
    refine .bind (follows_getInode hd ?_)
    -- the search for an empty entry
    have hsearch : ∀ offs last t, t.At b L → (emptyFrom dp offs last).Follows rules
        (fun _ t' => t'.At b L) t := by
      intro offs
      induction offs with
      | nil => exact fun _ _ h => h
      | cons off offs ih =>
        intro last t h
        refine .bind (follows_readDirent h hl hr fun de t' h' => ?_)
        split
        · exact h'
        · exact ih _ t' h'
    refine .bind ((hsearch _ _ t1 h1).mono fun off t2 h2 => ?_)
    refine .bind (follows_writei h2 hl (.inl hr) fun r t3 h3 => ?_)
    split
    · exact k _ t3 h3
    · exact follows_panic
  · refine .bind (follows_iput h1 (refs_addRef_pos b ip) (fun hm => ?_) fun t2 h2 => ?_)
    · have := hb ip hm
      simp
      omega
    · rw [Bal.addRef_dropRef] at h2
      exact k _ t2 h2

/-! ## Paths -/

theorem insert_diff {ip : IRef} (h : ip ∉ L) : insert ip L \ {ip} = L := by
  ext e
  by_cases he : e = ip <;> simp [he, h]

/-- The walk along a path gives back every reference but that to where it ends. -/
theorem follows_walk {parent : Bool} {name : Name} {names : List Name}
    {Q : Post (Option (IRef × Name))} (h : t.At (b.addRef ip) ∅)
    (knone : ∀ t', t'.At b ∅ → Q none t')
    (ksome : ∀ ip name t', t'.At (b.addRef ip) ∅ → Q (some (ip, name)) t') :
    (walk parent ip name names).Follows rules Q t := by
  induction names generalizing t ip name with
  | nil =>
    rw [walk]
    split
    · refine .bind (follows_iput h (refs_addRef_pos b ip) (fun hm => hm.elim) fun t1 h1 => ?_)
      rw [Bal.addRef_dropRef] at h1
      exact knone t1 h1
    · exact ksome ip name t h
  | cons elem names ih =>
    have hr := refs_addRef_pos b ip
    have hin : ip ∈ insert ip (∅ : Set IRef) := Set.mem_insert ip ∅
    -- the ways out, with the inode still locked
    have hfail : ∀ t', t'.At (b.addRef ip) (insert ip ∅) →
        (iunlockput ip >>= fun _ => pure none).Follows rules Q t' := by
      intro t' h'
      refine .bind (follows_iunlockput h' hin hr fun t'' h'' => ?_)
      rw [Bal.addRef_dropRef, insert_diff (Set.notMem_empty ip)] at h''
      exact knone t'' h''
    rw [walk]
    refine .bind (follows_ilock h (.inl hr) fun t1 h1 hnew => ?_)
    obtain ⟨d, hd, -⟩ := h1.held hin
    refine .bind (follows_getInode hd ?_)
    split
    · exact hfail t1 h1
    · split
      · refine .bind (follows_iunlock h1 hin fun t2 h2 => ?_)
        rw [insert_diff hnew] at h2
        exact ksome ip elem t2 h2
      · refine .bind (follows_dirlookup h1 hin hr (fun t2 h2 => hfail t2 h2)
          fun next off t2 h2 => ?_)
        refine .bind (follows_iunlockput h2 hin ?_ fun t3 h3 => ?_)
        · simp
          split <;> omega
        · rw [Bal.addRef_addRef_dropRef, insert_diff hnew] at h3
          exact ih h3

theorem follows_namex {path : Path} {parent : Bool} {Q : Post (Option (IRef × Name))} (h : t.At b ∅)
    (hcwd : ∀ ip, b.cwd = some ip → 1 ≤ b.refs ip) (knone : ∀ t', t'.At b ∅ → Q none t')
    (ksome : ∀ ip name t', t'.At (b.addRef ip) ∅ → Q (some (ip, name)) t') :
    (namex path parent).Follows rules Q t := by
  rw [namex]
  split
  · exact .bind (follows_iget h fun ip t1 h1 => follows_walk h1 knone ksome)
  · refine .bind (follows_ask trivial ?_)
    rintro cwd t' ⟨hc, rfl⟩
    rw [h.bal] at hc
    subst hc
    cases hb : b.cwd with
    | none => exact follows_panic
    | some cwd =>
      exact .bind (follows_idup h (hcwd cwd hb) fun t1 h1 => follows_walk h1 knone ksome)

theorem follows_namei {path : Path} {Q : Post (Option IRef)} (h : t.At b ∅)
    (hcwd : ∀ ip, b.cwd = some ip → 1 ≤ b.refs ip) (knone : ∀ t', t'.At b ∅ → Q none t')
    (ksome : ∀ ip t', t'.At (b.addRef ip) ∅ → Q (some ip) t') : (namei path).Follows rules Q t :=
  .bind (follows_namex h hcwd knone fun ip _ t' h' => ksome ip t' h')

end Inodes

end Hold

end Xv6.Fs
