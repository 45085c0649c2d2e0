import OperatingSystems.Fs.Exact

/-!
# Writing to a file

What a process that has a file to itself finds after `writei` and `filewrite`.

`filewrite` cuts what it writes into sections of at most `maxWrite` bytes, each between
`begin_op` and `end_op`.  The limit was computed from the size of the log, and not from the
`MAXOPBLOCKS` blocks that `begin_op` reserves; and what a section has written stays when a
later one fails.

* `length_lh_writei`: how many blocks a call of `writei` logs.
* `writeSection_fits_iff`: when a section keeps to what was reserved for it.
* `filewrite_failed_iff`: when a call that fails leaves everything as it was.
-/

namespace Xv6.Fs

open Function Option

/-- The blocks of files. -/
def State.used (s : State) : Blocks := fun b =>
  if nmeta ≤ b ∧ s.bitmap b = true then some (s.block b) else none

/-- The bytes of a file, as the next one to lock it finds them. -/
def State.content (s : State) (ip : IRef) : List UInt8 :=
  (List.range (s.now ip).size).map (byteAt s.disk (s.now ip))

/-- The file is a regular file without holes. -/
structure State.Regular (s : State) (ip : IRef) : Prop where
  inum : (s.inode ip).inum < NINODES
  type : (s.now ip).type = T_FILE
  mapped : Mapped s.used (s.now ip) (nblocks (s.now ip).size)
  fixed : ∀ b < nmeta, s.bitmap b = true

/-! ## `writei` -/

/-- The blocks someone owns are on the disk, and the others may be free. -/
structure Backed (blk : Blocks) (block : Nat → Block) (bitmap : Nat → Bool) : Prop where
  here : ∀ b x, blk b = some x → nmeta ≤ b ∧ block b = x
  free : ∀ b < FSSIZE, bitmap b = false → nmeta ≤ b ∧ blk b = none

/-- What the owner of a locked inode works with is what is there. -/
structure Work.Holds (ip : IRef) (w : Work) (s : State) : Prop where
  din : (s.inode ip).din = w.din
  inum : (s.inode ip).inum = w.inum
  backed : Backed w.blk s.block s.bitmap
  lh : s.lh = w.lh

theorem log_note {s s' : State} {α : Type} {b : Nat} {r r' : α} (h : s.log b r = .ok r' s') :
    r' = r ∧ s' = { s with lh := note b s.lh } := by
  unfold State.log at h
  split at h
  · cases h
  · split at h
    · cases h
    · cases h
      exact ⟨rfl, rfl⟩

/-! ### The type and the size -/

/-- What the owner of a locked inode makes of its fields. -/
def Dinode.rules (ip : IRef) : Script.Protocol Op Op.Ret Dinode where
  pre o _ := match o with
    | .getInode e => e = ip
    | .setInode e _ => e = ip
    | .iupdate _ | .ballocBit | .bread _ | .logWrite _ _ | .panic _ => True
    | _ => False
  post o d r d' := match o, r with
    | .getInode _, x => x = d ∧ d' = d
    | .setInode _ x, _ => d' = x
    | _, _ => d' = d

variable {src : Nat → UInt8}

section Fields

variable {ip : IRef} {d d₀ : Dinode}

/-- The two have the same type and size. -/
def Dinode.Same (d d' : Dinode) : Prop := d'.type = d.type ∧ d'.size = d.size

theorem follows_balloc_fields {Q : Nat → Dinode → Prop} (hQ : ∀ b, Q b d) :
    balloc.Follows (Dinode.rules ip) Q d := by
  refine .bind (follows_ask trivial ?_)
  rintro b _ rfl
  refine .bind (follows_ask trivial ?_)
  rintro _ _ rfl
  exact hQ b

theorem follows_addrOf_fields (i : Nat) (h : d₀.Same d) :
    (addrOf ip i).Follows (Dinode.rules ip) (fun _ => d₀.Same) d := by
  refine .bind (follows_ask rfl ?_)
  rintro _ _ ⟨rfl, rfl⟩
  split
  · refine .bind (follows_balloc_fields fun b => .bind (follows_ask rfl ?_))
    rintro _ _ rfl
    exact h
  · exact h

theorem follows_bmap_fields (bn : Nat) (h : d₀.Same d) :
    (bmap ip bn).Follows (Dinode.rules ip) (fun _ => d₀.Same) d := by
  unfold bmap
  split
  · exact follows_addrOf_fields bn h
  · split
    · refine .bind ((follows_addrOf_fields _ h).mono fun addr d' h' => ?_)
      refine .bind (follows_ask trivial ?_)
      rintro a _ rfl
      split
      · refine .bind (follows_balloc_fields fun b => .bind (follows_ask trivial ?_))
        rintro _ _ rfl
        exact h'
      · exact h'
    · exact .bind (follows_ask trivial fun r => r.elim)

theorem follows_writeLoop_fields (fuel : Nat) (src : Nat → UInt8) (off n : Nat) (h : d₀.Same d) :
    (writeLoop ip fuel src off n).Follows (Dinode.rules ip) (fun _ => d₀.Same) d := by
  induction fuel generalizing d src off n with
  | zero => exact h
  | succ fuel ih =>
    unfold writeLoop
    split
    · exact h
    · refine .bind ((follows_bmap_fields _ h).mono fun b d₁ h₁ => .bind (follows_ask trivial ?_))
      rintro x _ rfl
      refine .bind (follows_ask trivial ?_)
      rintro _ _ rfl
      exact ih _ _ _ h₁

/-- What `writei` makes of the type and the size. -/
theorem follows_writei_fields {off n : Nat} (hdev : d.type ≠ T_DEV)
    (hok : ¬ Refused d off n) : (writei ip src off n).Follows (Dinode.rules ip)
      (fun _ d' => d'.type = d.type ∧ d'.size = max d.size (off + n)) d := by
  simp only [Refused, not_or, not_lt, not_le] at hok
  refine .bind (follows_ask rfl ?_)
  rintro _ d ⟨rfl, rfl⟩
  rw [if_neg hdev, if_neg (by omega), if_neg (by omega)]
  refine .bind ((follows_writeLoop_fields n src off n ⟨rfl, rfl⟩).mono fun _ d' h => ?_)
  refine .bind (follows_ask rfl ?_)
  rintro _ d' ⟨rfl, rfl⟩
  obtain ⟨htype, hsize⟩ : d.Same d' := h
  split
  · refine .bind (follows_ask rfl ?_)
    rintro _ _ rfl
    refine .bind (follows_ask trivial ?_)
    rintro _ _ rfl
    exact ⟨htype, by simp only; omega⟩
  · exact ⟨htype, by omega⟩

theorem exec_fields {p : Slot} {s s' : State} {o : Op} {r : o.Ret}
    (hpre : (Dinode.rules ip).pre o d) (hd : (s.inode ip).din = d)
    (hx : Fs.exec p s o = .ok r s') : ∃ d', (Dinode.rules ip).post o d r d' ∧
      (s'.inode ip).din = d' ∧ (s'.inode ip).valid = (s.inode ip).valid ∧ s'.file = s.file := by
  cases o with
  | getInode e =>
    obtain rfl : e = ip := hpre
    cases hx
    exact ⟨d, ⟨hd, rfl⟩, hd, rfl, rfl⟩
  | setInode e x =>
    obtain rfl : e = ip := hpre
    cases hx
    exact ⟨x, rfl, by simp [State.setInode], by simp [State.setInode], rfl⟩
  | iupdate e =>
    obtain ⟨-, rfl⟩ := log_note hx
    exact ⟨d, rfl, hd, rfl, rfl⟩
  | logWrite b x =>
    obtain ⟨-, rfl⟩ := log_note hx
    exact ⟨d, rfl, hd, rfl, rfl⟩
  | bread b =>
    cases hx
    exact ⟨d, rfl, hd, rfl, rfl⟩
  | ballocBit =>
    have hx : execBallocBit s = .ok r s' := hx
    unfold execBallocBit at hx
    split at hx
    · obtain ⟨-, rfl⟩ := log_note hx
      exact ⟨d, rfl, hd, rfl, rfl⟩
    · cases hx
  | panic => cases hx
  | _ => exact hpre.elim

end Fields

/-! ### The blocks -/

section Writei

variable {ip : IRef} {p : Slot} {s s' : State} {w : Work}

/-- A block that the caller owns, or takes, gets these bytes. -/
theorem Backed.put {blk : Blocks} {block : Nat → Block} {bitmap bitmap' : Nat → Bool} {b : Nat}
    (h : Backed blk block bitmap) (hb : nmeta ≤ b) (x : Block)
    (hfree : ∀ c < FSSIZE, bitmap' c = false → c ≠ b ∧ bitmap c = false) :
    Backed (blk.put b x) (update block b x) bitmap' where
  here c y hc := by
    by_cases hne : c = b
    · subst hne
      rw [Heap.put_self] at hc
      exact ⟨hb, by simp [some.inj hc]⟩
    · rw [Heap.put_of_ne _ _ hne] at hc
      rw [update_of_ne hne]
      exact h.here c y hc
  free c hlt hc := by
    obtain ⟨hne, hc⟩ := hfree c hlt hc
    rw [Heap.put_of_ne _ _ hne]
    exact h.free c hlt hc

theorem Backed.erase {blk : Blocks} {block : Nat → Block} {bitmap : Nat → Bool} {b : Nat}
    (h : Backed blk block bitmap) (hb : nmeta ≤ b) :
    Backed (blk.erase b) block (update bitmap b false) where
  here c y hc := by
    by_cases hne : c = b
    · rw [hne, Heap.erase_self] at hc
      cases hc
    · rw [Heap.erase_of_ne _ hne] at hc
      exact h.here c y hc
  free c hlt hc := by
    by_cases hne : c = b
    · rw [hne]
      exact ⟨hb, Heap.erase_self _ b⟩
    · rw [Heap.erase_of_ne _ hne]
      rw [update_of_ne hne] at hc
      exact h.free c hlt hc

/-- **An operation on a locked inode leaves what the rules say.** -/
theorem Work.Holds.exec {o : Op} {r : o.Ret} (hpre : (Work.rules ip).pre o w)
    (h : w.Holds ip s) (hx : Fs.exec p s o = .ok r s') :
    ∃ w', (Work.rules ip).post o w r w' ∧ w'.Holds ip s' := by
  obtain ⟨hdin, hinum, hback, hlh⟩ := id h
  cases o with
  | getInode e =>
    obtain rfl : e = ip := hpre
    cases hx
    exact ⟨w, ⟨hdin, rfl⟩, h⟩
  | setInode e d =>
    obtain rfl : e = ip := hpre
    cases hx
    exact ⟨_, rfl, by simp [State.setInode], by simp [State.setInode, hinum], hback, hlh⟩
  | iupdate e =>
    obtain ⟨rfl, -⟩ := hpre
    obtain ⟨-, rfl⟩ := log_note hx
    exact ⟨_, rfl, hdin, hinum, hback, congrArg₂ note (congrArg iblock hinum) hlh⟩
  | ballocBit =>
    have hx : execBallocBit s = .ok r s' := hx
    unfold execBallocBit at hx
    split at hx
    next b hb =>
      obtain ⟨rfl, rfl⟩ := log_note hx
      have hlt := List.mem_range.1 (List.mem_of_find?_eq_some hb)
      obtain ⟨hmeta, hnone⟩ := hback.free r hlt (by simpa using List.find?_some hb)
      have hput : Backed (w.blk.put r (s.block r)) s.block (update s.bitmap r true) := by
        have hfree : ∀ c < FSSIZE, update s.bitmap r true c = false →
            c ≠ r ∧ s.bitmap c = false := by
          intro c _ hc
          by_cases hne : c = r
          · simp [hne] at hc
          · exact ⟨hne, by rwa [update_of_ne hne] at hc⟩
        have := hback.put hmeta (s.block r) hfree
        rwa [update_eq_self] at this
      exact ⟨_, ⟨hnone, hmeta, hlt, s.block r, rfl⟩, hdin, hinum, hput, congrArg (note _) hlh⟩
    next => cases hx
  | bfree b =>
    have hx : execBfree s b = .ok r s' := hx
    unfold execBfree at hx
    split at hx
    next =>
      obtain ⟨-, rfl⟩ := log_note hx
      obtain ⟨x, hb⟩ := ne_none_iff_exists'.1 hpre
      exact ⟨_, rfl, hdin, hinum, hback.erase (hback.here b x hb).1, congrArg (note _) hlh⟩
    next => cases hx
  | bread b =>
    cases hx
    obtain ⟨x, hx⟩ := ne_none_iff_exists'.1 hpre
    exact ⟨w, ⟨by rw [hx, (hback.here b x hx).2], rfl⟩, h⟩
  | logWrite b x =>
    obtain ⟨-, rfl⟩ := log_note hx
    obtain ⟨y, hb⟩ := ne_none_iff_exists'.1 hpre
    refine ⟨_, rfl, hdin, hinum, hback.put (hback.here b y hb).1 x fun c hlt hc => ⟨?_, hc⟩,
      congrArg (note _) hlh⟩
    rintro rfl
    exact hpre (hback.free c hlt hc).2
  | _ => exact hpre.elim

/-- `writei` either refuses and changes nothing, or returns the number of bytes. -/
theorem run_writei_cases {off n : Nat} {r : Option Nat} (ht : (s.inode ip).din.type ≠ T_DEV)
    (hrun : (writei ip src off n).run (Fs.exec p) s = .ok r s') :
    Refused (s.inode ip).din off n ∧ r = none ∧ s' = s ∨
      ¬ Refused (s.inode ip).din off n ∧ r = some n := by
  obtain ⟨d, s₀, hd, hrun⟩ := Script.run_bind_ok hrun
  cases hd
  rw [if_neg ht] at hrun
  split at hrun
  next hin =>
    cases hrun
    exact .inl ⟨hin.imp_right .inl, rfl, rfl⟩
  next hin =>
    split at hrun
    next hmax =>
      cases hrun
      exact .inl ⟨.inr (.inr hmax), rfl, rfl⟩
    next hmax =>
      refine .inr ⟨fun h => hin (h.imp_right fun h => h.resolve_right hmax), ?_⟩
      obtain ⟨_, s₁, -, hrun⟩ := Script.run_bind_ok hrun
      obtain ⟨d, s₂, -, hrun⟩ := Script.run_bind_ok hrun
      split at hrun
      next =>
        obtain ⟨_, s₃, -, hrun⟩ := Script.run_bind_ok hrun
        obtain ⟨_, s₄, -, hrun⟩ := Script.run_bind_ok hrun
        cases hrun
        rfl
      next =>
        cases hrun
        rfl

/-- What a call of `writei` that is not refused makes of the type and the size. -/
theorem run_writei_fields {off n : Nat} {r : Option Nat}
    (ht : (s.inode ip).din.type ≠ T_DEV) (hok : ¬ Refused (s.inode ip).din off n)
    (hrun : (writei ip src off n).run (Fs.exec p) s = .ok r s') :
    ((s'.inode ip).din.type = (s.inode ip).din.type ∧
      (s'.inode ip).din.size = max (s.inode ip).din.size (off + n)) ∧
      (s'.inode ip).valid = (s.inode ip).valid ∧ s'.file = s.file := by
  obtain ⟨d, hd, rfl, hkept⟩ := Script.Follows.of_run
    (R := fun d s₁ => (s₁.inode ip).din = d ∧ (s₁.inode ip).valid = (s.inode ip).valid ∧
      s₁.file = s.file)
    (fun o d s₁ r s₂ hpre hR hx => by
      obtain ⟨d', hpost, hd', hvalid, hfile⟩ := exec_fields hpre hR.1 hx
      exact ⟨d', hpost, hd', hvalid.trans hR.2.1, hfile.trans hR.2.2⟩)
    (follows_writei_fields ht hok) ⟨rfl, rfl, rfl⟩ hrun
  exact ⟨hd, hkept⟩

/-- The number of blocks in which the bytes are. -/
def touched (off n : Nat) : Nat := nblocks (off + n) - off / BSIZE

/-- The blocks of the bytes, by their index. -/
theorem exists_byte_iff {off len k : Nat} (hlen : 0 < len) :
    (∃ i, off ≤ i ∧ i < off + len ∧ i / BSIZE = k) ↔ k ∈ List.range' (off / BSIZE) (touched off len) := by
  rw [List.mem_range'_1]
  simp only [touched, nblocks, BSIZE]
  constructor
  · rintro ⟨i, hlo, hhi, rfl⟩
    omega
  · intro hk
    exact ⟨max off (k * 512), by omega, by omega, by omega⟩

/-- The blocks of the bytes are logged, and if there are new ones the free map and the
indirect block. -/
theorem Wrote.length_lh {w' : Work} {n n' : Nat} {off len : Nat}
    (h : Wrote w w' n n' src off len) (hlh : w.lh = []) (hlen : 0 < len)
    (hle : nblocks (off + len) ≤ n') :
    w'.lh.length = touched off len + if n < n' then (if NDIRECT < n' then 2 else 1) else 0 := by
  have hm := h.grows.mapped
  have hbmap : bmapstart < nmeta := by decide
  have hk : ∀ k ∈ List.range' (off / BSIZE) (touched off len), k < n' := by
    intro k hk
    rw [List.mem_range'_1, touched] at hk
    omega
  generalize hE : (if n < n' then bmapstart :: (if NDIRECT < n' then [w'.din.addrs NDIRECT] else [])
    else []) = E
  have hmem : ∀ b, b ∈ E ↔ n < n' ∧ (b = bmapstart ∨ NDIRECT < n' ∧ b = w'.din.addrs NDIRECT) := by
    intro b
    rw [← hE]
    by_cases hn : n < n' <;> by_cases hd : NDIRECT < n' <;> simp [hn, hd]
  have hperm : w'.lh.Perm ((List.range' (off / BSIZE) (touched off len)).map
      (addrAt w'.blk w'.din) ++ E) := by
    refine (List.perm_ext_iff_of_nodup (h.logs.nodup (by simp [hlh])) ?_).2 fun b => ?_
    · refine .append ?_ ?_ ?_
      · exact .map_on (fun i hi j hj => hm.inj i j (hk i hi) (hk j hj)) List.nodup_range'
      · rw [← hE]
        split_ifs with hn hd
        · have := (hm.own _ (Uses.indirect hd)).2.1
          simp only [List.nodup_cons, List.mem_singleton, List.not_mem_nil, not_false_eq_true,
            List.nodup_nil, and_true]
          omega
        · simp
        · simp
      · intro b hb hbE
        obtain ⟨i, hi, rfl⟩ := List.mem_map.1 hb
        obtain ⟨-, heq | ⟨hd, heq⟩⟩ := (hmem _).1 hbE
        · have := (hm.own _ (Uses.addr (hk i hi))).2.1
          omega
        · exact hm.apart hd i (hk i hi) heq
    · rw [h.logs.mem, hlh, List.mem_append, hmem, List.mem_map]
      simp only [List.not_mem_nil, false_or, ← exists_byte_iff hlen]
      refine or_congr_left ⟨?_, ?_⟩
      · rintro ⟨i, hlo, hhi, rfl⟩
        exact ⟨_, ⟨i, hlo, hhi, rfl⟩, rfl⟩
      · rintro ⟨_, ⟨i, hlo, hhi, rfl⟩, rfl⟩
        exact ⟨i, hlo, hhi, rfl⟩
  rw [hperm.length_eq, List.length_append, List.length_map, List.length_range', ← hE]
  split_ifs <;> rfl

theorem Wrote.le_of_mem_lh {w' : Work} {n n' b : Nat} {off len : Nat}
    (h : Wrote w w' n n' src off len) (hlh : w.lh = []) (hle : nblocks (off + len) ≤ n')
    (hb : b ∈ w'.lh) : bmapstart ≤ b := by
  have hbmap : bmapstart ≤ nmeta := by decide
  rw [h.logs.mem, hlh] at hb
  obtain hb | ⟨i, -, hi, rfl⟩ | ⟨-, rfl | ⟨hd, rfl⟩⟩ := hb
  · cases hb
  · have hlt : i / BSIZE < nblocks (off + len) := by
      simp only [nblocks, BSIZE]
      omega
    have := (h.grows.mapped.own _ (Uses.addr (lt_of_lt_of_le hlt hle))).2.1
    omega
  · exact le_rfl
  · have := (h.grows.mapped.own _ (Uses.indirect hd)).2.1
    omega

/-- The number of blocks that a write of `n` bytes at `off` logs, in a file of `size` bytes. -/
def logged (size off n : Nat) : Nat :=
  touched off n +
    (if nblocks size < nblocks (off + n) then (if NDIRECT < nblocks (off + n) then 2 else 1) else 0) +
    if size < off + n then 1 else 0

/-- **How many blocks a call of `writei` logs.** -/
theorem length_lh_writei {off n k : Nat} (hlh : s.lh = []) (hinum : (s.inode ip).inum < NINODES)
    (hm : Mapped s.used (s.inode ip).din (nblocks (s.inode ip).din.size))
    (hmeta : ∀ b < nmeta, s.bitmap b = true) (ht : (s.inode ip).din.type ≠ 0)
    (hdev : (s.inode ip).din.type ≠ T_DEV) (hn : 0 < n)
    (hrun : (writei ip src off n).run (Fs.exec p) s = .ok (some k) s') :
    s'.lh.length = logged (s.inode ip).din.size off n := by
  obtain ⟨-, h, -⟩ | ⟨hok, -⟩ := run_writei_cases hdev hrun
  · cases h
  have hback : Backed s.used s.block s.bitmap := by
    refine ⟨fun b x hb => ?_, fun b _ hb => ⟨?_, by simp [State.used, hb]⟩⟩
    · unfold State.used at hb
      split at hb
      next hb' => exact ⟨hb'.1, some.inj hb⟩
      next => cases hb
    · by_contra hlt
      rw [hmeta b (by omega)] at hb
      cases hb
  obtain ⟨w', ⟨w₁, hw, rfl⟩, hh⟩ := Script.Follows.of_run (R := Work.Holds ip)
    (fun o w s r s' hpre hh hx => hh.exec hpre hx)
    (follows_writei_work (w := ⟨(s.inode ip).inum, (s.inode ip).din, (s.inode ip).din, s.used, s.lh⟩)
      hm rfl ht hdev hok) ⟨rfl, rfl, hback, rfl⟩ hrun
  have hlen := hw.length_lh hlh hn (le_max_right _ _)
  have hnew : w₁.lh.length = touched off n + if nblocks (s.inode ip).din.size < nblocks (off + n)
      then (if NDIRECT < nblocks (off + n) then 2 else 1) else 0 := by
    rw [hlen]
    by_cases hlt : nblocks (s.inode ip).din.size < nblocks (off + n)
    · rw [max_eq_right hlt.le]
    · rw [max_eq_left (not_lt.1 hlt), if_neg (lt_irrefl _), if_neg hlt]
  rw [hh.lh, logged, ← hnew]
  by_cases hgrow : (s.inode ip).din.size < off + n
  · have hout : iblock (s.inode ip).inum ∉ w₁.lh := fun hin => by
      have hge := hw.le_of_mem_lh hlh (le_max_right _ _) hin
      have hlt : iblock (s.inode ip).inum < bmapstart := by
        simp only [iblock, bmapstart, IPB, BSIZE, NINODES] at hinum ⊢
        omega
      omega
    rw [if_pos ⟨hn, hgrow⟩, if_pos hgrow]
    simp [note, hout]
  · rw [if_neg fun h => hgrow h.2, if_neg hgrow]
    rfl

end Writei

/-! ## The sections of `filewrite` -/

section Sections

variable {p : Slot} {f : FRef} {s s' : State} {src : Nat → UInt8} {n : Nat} {r : Option Nat}

/-- The state in which `filewrite` calls `writei`. -/
def State.locking (s : State) (f : FRef) : State :=
  { s with outstanding := s.outstanding + 1 }.setInode (s.file f).ip
    { s.inode (s.file f).ip with busy := true, din := s.now (s.file f).ip, valid := true }

theorem State.locking_din (s : State) (f : FRef) :
    ((s.locking f).inode (s.file f).ip).din = s.now (s.file f).ip := by
  simp [State.locking, State.setInode]

theorem content_congr {ip : IRef} (hb : s'.block = s.block) (hd : s'.now ip = s.now ip) :
    s'.content ip = s.content ip := by
  have hdisk : s'.disk = s.disk := by
    unfold State.disk
    rw [hb]
  rw [State.content, State.content, hd, hdisk]

theorem run_getFile_bind {α : Type} (k : File → FsM α) :
    (ask (.getFile f) >>= k).run (exec p) s = (k (s.file f)).run (exec p) s := rfl

theorem run_iunlock_pure {ip : IRef} {k : Option Nat}
    (hrun : (iunlock ip >>= fun _ => pure k).run (exec p) s = .ok r s') :
    r = k ∧ s' = s.setInode ip { s.inode ip with busy := false } := by
  obtain ⟨_, s₁, hs₁, hrun⟩ := Script.run_bind_ok hrun
  cases hrun
  rw [iunlock, ask, Script.run_call] at hs₁
  simp only [exec, execIunlock] at hs₁
  split at hs₁
  next => cases hs₁
  next =>
    cases hs₁
    exact ⟨rfl, rfl⟩

theorem run_writeSection (hrun : (writeSection f src n).run (exec p) s = .ok r s') :
    ∃ s₁, (writei (s.file f).ip src (s.file f).off n).run (exec p) (s.locking f) = .ok r s₁ ∧
      s'.lh = s₁.lh ∧ s'.block = s₁.block ∧
      s'.inode (s.file f).ip = { s₁.inode (s.file f).ip with busy := false } ∧
      s'.file f = { s₁.file f with off := (s₁.file f).off + r.getD 0 } := by
  obtain ⟨_, s₁, hs₁, hrun⟩ := Script.run_bind_ok hrun
  have h₁ : s₁ = { s with outstanding := s.outstanding + 1 } := by
    rw [ask, Script.run_call] at hs₁
    simp only [exec, execBeginOp] at hs₁
    split at hs₁
    next => cases hs₁
    next =>
      cases hs₁
      rfl
  subst h₁
  rw [run_getFile_bind] at hrun
  obtain ⟨_, s₂, hs₂, hrun⟩ := Script.run_bind_ok hrun
  obtain ⟨-, -, rfl⟩ := run_ilock hs₂
  rw [run_getFile_bind] at hrun
  obtain ⟨r', s₃, hw, hrun⟩ := Script.run_bind_ok hrun
  cases r' with
  | none =>
    obtain ⟨rfl, rfl⟩ := run_iunlock_pure hrun
    exact ⟨s₃, hw, rfl, rfl, update_self .., rfl⟩
  | some k =>
    have hrun : (if 0 < k then ask (.addOff f k) >>= fun _ => iunlock (s.file f).ip >>= fun _ =>
        pure (some k) else iunlock (s.file f).ip >>= fun _ => pure (some k)).run (exec p) s₃ =
        .ok r s' := hrun
    split at hrun
    next =>
      obtain ⟨_, s₄, hs₄, hrun⟩ := Script.run_bind_ok hrun
      cases hs₄
      obtain ⟨rfl, rfl⟩ := run_iunlock_pure hrun
      exact ⟨s₃, hw, rfl, rfl, update_self .., update_self ..⟩
    next hk =>
      obtain ⟨rfl, rfl⟩ := run_iunlock_pure hrun
      obtain rfl : k = 0 := by omega
      exact ⟨s₃, hw, rfl, rfl, update_self .., rfl⟩

/-- **A section keeps to its reservation** exactly when `writei` refuses it, or the blocks it has
to log are few enough. -/
theorem writeSection_fits_iff (hreg : s.Regular (s.file f).ip) (hlh : s.lh = []) (hn : 0 < n)
    (hrun : (writeSection f src (min n maxWrite)).run (exec p) s = .ok r s') :
    s'.lh.length ≤ MAXOPBLOCKS ↔ Refused (s.now (s.file f).ip) (s.file f).off (min n maxWrite) ∨
      logged (s.now (s.file f).ip).size (s.file f).off (min n maxWrite) ≤ MAXOPBLOCKS := by
  obtain ⟨s₁, hw, hlog, -⟩ := run_writeSection hrun
  have hdin := s.locking_din f
  have hpos : 0 < min n maxWrite := by
    have : 0 < maxWrite := by decide
    omega
  have hdev : ((s.locking f).inode (s.file f).ip).din.type ≠ T_DEV := by
    rw [hdin, hreg.type]
    decide
  rw [hlog]
  obtain ⟨href, rfl, rfl⟩ | ⟨hok, rfl⟩ := run_writei_cases hdev hw
  · rw [hdin] at href
    simp [State.locking, State.setInode, hlh, href]
  · rw [length_lh_writei (s := s.locking f) hlh ?_ ?_ hreg.fixed ?_ hdev hpos hw, hdin]
    · rw [hdin] at hok
      exact (or_iff_right hok).symm
    · simpa [State.locking, State.setInode] using hreg.inum
    · rw [hdin]
      exact hreg.mapped
    · rw [hdin, hreg.type]
      decide

/-! ## The calls that fail -/

/-- An iteration of `filewrite` is refused and changes nothing, or it writes its bytes. -/
theorem run_writeChunk (htype : (s.now (s.file f).ip).type = T_FILE)
    (hrun : (writeChunk f src n).run (exec p) s = .ok r s') :
    (Refused (s.now (s.file f).ip) (s.file f).off n ∧ r = none ∧ s'.file f = s.file f ∧
      s'.content (s.file f).ip = s.content (s.file f).ip) ∨
    (¬ Refused (s.now (s.file f).ip) (s.file f).off n ∧ r = some n ∧
      s'.file f = { s.file f with off := (s.file f).off + n } ∧
      (s'.now (s.file f).ip).type = T_FILE ∧
      (s'.now (s.file f).ip).size = max (s.now (s.file f).ip).size ((s.file f).off + n)) := by
  obtain ⟨r', s₁, hsection, hend⟩ := Script.run_bind_ok hrun
  cases hend
  obtain ⟨s₂, hw, -, hblock, hin, hfile⟩ := run_writeSection hsection
  have hdin := s.locking_din f
  have hdev : ((s.locking f).inode (s.file f).ip).din.type ≠ T_DEV := by
    rw [hdin, htype]
    decide
  obtain ⟨href, rfl, rfl⟩ | ⟨hok, rfl⟩ := run_writei_cases hdev hw
  · rw [hdin] at href
    refine .inl ⟨href, rfl, hfile, content_congr hblock ?_⟩
    rw [← hdin]
    simp [State.now, hin, State.locking, State.setInode]
  · obtain ⟨⟨htype', hsize⟩, hvalid, hfile'⟩ := run_writei_fields hdev hok hw
    have hnow : s₁.now (s.file f).ip = (s₂.inode (s.file f).ip).din := by
      simp [State.now, hin, hvalid, State.locking, State.setInode]
    rw [hdin] at hok htype' hsize
    refine .inr ⟨hok, rfl, ?_, ?_, ?_⟩
    · rw [show ({ s₁ with outstanding := _, lh := _ } : State).file f = s₁.file f from rfl, hfile,
        hfile']
      rfl
    · exact (congrArg Dinode.type hnow).trans (htype'.trans htype)
    · exact (congrArg Dinode.size hnow).trans hsize

/-- The loop of `filewrite`: it changes nothing or goes forward, and from an offset in the file it
comes to its end exactly when the file does not become too long. -/
theorem run_writeChunks {fuel : Nat} {done : Bool} (hfuel : n ≤ fuel)
    (htype : (s.now (s.file f).ip).type = T_FILE)
    (hrun : (writeChunks f fuel src n).run (exec p) s = .ok done s') :
    ((n = 0 ∨ Refused (s.now (s.file f).ip) (s.file f).off (min n maxWrite)) ∧
      s'.content (s.file f).ip = s.content (s.file f).ip ∧ (s'.file f).off = (s.file f).off ∨
      0 < n ∧ ¬ Refused (s.now (s.file f).ip) (s.file f).off (min n maxWrite) ∧
      (s.file f).off + min n maxWrite ≤ (s'.file f).off) ∧
    ((s.file f).off ≤ (s.now (s.file f).ip).size →
      (done = true ↔ n = 0 ∨ (s.file f).off + n ≤ MAXFILE * BSIZE)) := by
  induction fuel generalizing s src n with
  | zero =>
    obtain rfl : n = 0 := by omega
    cases hrun
    simp
  | succ fuel ih =>
    unfold writeChunks at hrun
    split at hrun
    next h0 =>
      cases hrun
      simp [h0]
    next h0 =>
      have hpos : 0 < maxWrite := by decide
      have hwrap : MAXFILE * BSIZE < 2 ^ 32 := by decide
      obtain ⟨r, s₁, hchunk, hrun⟩ := Script.run_bind_ok hrun
      obtain ⟨href, rfl, hfile, hsame⟩ | ⟨hok, rfl, hfile, htype', hsize⟩ :=
        run_writeChunk htype hchunk
      · cases hrun
        refine ⟨.inl ⟨.inr href, hsame, by rw [hfile]⟩, fun hle => iff_of_false (by simp) ?_⟩
        obtain h | h | h := href <;> omega
      · simp only [ne_eq, not_true_eq_false, if_false] at hrun
        obtain ⟨hmono, hdone⟩ := ih (by omega) (by rw [hfile]; exact htype') hrun
        rw [hfile] at hmono hdone
        refine ⟨.inr ⟨by omega, hok, ?_⟩, fun _ => ?_⟩
        · obtain ⟨-, -, hoff⟩ | ⟨-, -, hoff⟩ := hmono
          · exact hoff.ge
          · exact le_trans (Nat.le_add_right _ _) hoff
        · simp only [Refused, not_or, not_lt, not_le] at hok
          rw [hdone (by simp only; omega)]
          simp only
          omega

/-- **A call of `filewrite` that fails leaves everything as it was** exactly when the file may not
be written, the call is a single section, its first section is refused, or none is. -/
theorem filewrite_failed_iff (hinode : (s.file f).type = .inode)
    (htype : (s.now (s.file f).ip).type = T_FILE)
    (hrun : (filewrite f src n).run (exec p) s = .ok r s') :
    (r = none → s'.content (s.file f).ip = s.content (s.file f).ip ∧
      (s'.file f).off = (s.file f).off) ↔
    (s.file f).writable = false ∨ n ≤ maxWrite ∨ (s.now (s.file f).ip).size < (s.file f).off ∨
      MAXFILE * BSIZE < (s.file f).off + maxWrite ∨ (s.file f).off + n ≤ MAXFILE * BSIZE := by
  have hpos : 0 < maxWrite := by decide
  have hwrap : MAXFILE * BSIZE < 2 ^ 32 := by decide
  rw [filewrite, run_getFile_bind] at hrun
  by_cases hwr : (s.file f).writable = false
  · rw [if_pos hwr] at hrun
    cases hrun
    simp [hwr]
  rw [if_neg hwr, if_neg (by rw [hinode]; exact FdType.noConfusion), if_pos hinode] at hrun
  obtain ⟨done, s₀, hrun, hret⟩ := Script.run_bind_ok hrun
  obtain ⟨hcases, hdone⟩ := run_writeChunks le_rfl htype hrun
  cases done with
  | true =>
    cases hret
    simp only [true_iff] at hdone
    refine iff_of_true (fun h => by cases h) (.inr ?_)
    omega
  | false =>
    cases hret
    simp only [Bool.false_eq_true, false_iff, not_or] at hdone
    obtain ⟨hfirst, hsame⟩ | ⟨hn, hok, hoff⟩ := hcases
    · refine iff_of_true (fun _ => hsame) (.inr ?_)
      obtain rfl | h | h | h := hfirst <;> omega
    · -- the first section was written, and a later one refused
      simp only [Refused, not_or, not_lt, not_le] at hok
      refine iff_of_false (fun h => ?_) ?_
      · have := (h rfl).2
        omega
      · rintro (h | h)
        · exact hwr h
        · omega

end Sections

/-! ## A file of the largest size -/

/-- The indirect block of the file: its entries are `100` and the next numbers. -/
def fullBlock : Block := fun i => if i.val % 4 = 0 then UInt8.ofNat (100 + i.val / 4) else 0

/-- The inode of the file. -/
def fullInode : Dinode := ⟨T_FILE, 0, 0, 1, MAXFILE * BSIZE, fun i => 60 + i⟩

theorem zero_lt_ninode : 0 < NINODE := by decide

theorem zero_lt_nfile : 0 < NFILE := by decide

/-- A process has opened the file, and stands at this offset. -/
def fullState (off : Nat) : State where
  bitmap b := b < 300
  dinode i := if i = 2 then fullInode else .zero
  block b := if b = 72 then fullBlock else .zero
  inode ip := ⟨if ip.val = 0 then 2 else 0, if ip.val = 0 then 1 else 0, false, false, .zero⟩
  file f := ⟨if f.val = 0 then .inode else .none, if f.val = 0 then 1 else 0, true, true, 0,
    ⟨0, zero_lt_ninode⟩, off⟩
  cwd _ := none
  ofile p fd := if p.val = 0 ∧ fd.val = 0 then some ⟨0, zero_lt_nfile⟩ else none
  outstanding := 0
  lh := []
  console := []

theorem addrAt_full (off : Nat) {i : Nat} (hi : i < MAXFILE) :
    addrAt (fullState off).used fullInode i = if i < NDIRECT then 60 + i else 88 + i := by
  have hentry : ∀ j : Fin 128, (fullBlock.get32 (4 * j)).toNat = 100 + j := by decide
  unfold addrAt
  split
  next => rfl
  next hge =>
    have hlt : i - NDIRECT < 128 := by
      simp only [MAXFILE, NINDIRECT, NDIRECT, BSIZE] at hi hge ⊢
      omega
    have := hentry ⟨i - NDIRECT, hlt⟩
    simp only [NDIRECT] at this hge
    rw [if_neg (by decide)]
    show (fullBlock.get32 (4 * (i - 12))).toNat = _
    omega

theorem regular_full (off : Nat) : (fullState off).Regular ⟨0, by decide⟩ where
  inum := show 2 < NINODES by decide
  type := rfl
  fixed b hb := by
    have : nmeta = 59 := by decide
    exact decide_eq_true (by omega : b < 300)
  mapped := by
    have hN : nblocks fullInode.size = MAXFILE := by decide
    show Mapped (fullState off).used fullInode (nblocks fullInode.size)
    rw [hN]
    have hmax : MAXFILE = 140 := rfl
    have hdir : NDIRECT = 12 := rfl
    refine ⟨le_rfl, fun i hi hn => by omega, fun j hj hn => ?_, fun i j hi hj h => ?_,
      fun _ i hi h => ?_, fun b hb => ?_⟩
    · have : NINDIRECT = 128 := rfl
      omega
    · rw [addrAt_full off hi, addrAt_full off hj] at h
      split_ifs at h <;> omega
    · rw [addrAt_full off hi] at h
      have h : _ = 72 := h
      split_ifs at h <;> omega
    · have hmem : 60 ≤ b ∧ b < 300 := by
        obtain ⟨i, hi, rfl⟩ | ⟨-, rfl⟩ := hb
        · rw [addrAt_full off hi]
          split_ifs <;> omega
        · decide
      have hmeta : nmeta = 59 := by decide
      have hsize : FSSIZE = 1000 := rfl
      refine ⟨?_, by omega, by omega⟩
      have hbit : nmeta ≤ b ∧ (fullState off).bitmap b = true :=
        ⟨by omega, decide_eq_true hmem.2⟩
      simp [State.used, hbit]

/-- As many blocks as are reserved. -/
theorem writeSection_fits_ten : ∃ s', (writeSection ⟨0, by decide⟩ (fun _ => 1)
    (min (MAXOPBLOCKS * BSIZE) maxWrite)).run (exec 0) (fullState 0) =
      .ok (some (MAXOPBLOCKS * BSIZE)) s' ∧ s'.lh.length ≤ MAXOPBLOCKS := by
  obtain ⟨r, s', hrun, hr⟩ := Outcome.exists_of_any (P := fun r _ => r == some (MAXOPBLOCKS * BSIZE))
    (x := (writeSection ⟨0, by decide⟩ (fun _ => 1) (min (MAXOPBLOCKS * BSIZE) maxWrite)).run
      (exec 0) (fullState 0)) (by decide)
  obtain rfl : r = some (MAXOPBLOCKS * BSIZE) := by simpa using hr
  exact ⟨s', hrun, (writeSection_fits_iff (regular_full 0) rfl (by decide) hrun).2
    (.inr (by decide))⟩

/-- Eleven blocks. -/
theorem writeSection_overflows : (fullState 0).Regular ⟨0, by decide⟩ ∧ ∃ s',
    (writeSection ⟨0, by decide⟩ (fun _ => 1) (min 5632 maxWrite)).run (exec 0) (fullState 0) =
      .ok (some 5632) s' ∧ MAXOPBLOCKS < s'.lh.length := by
  refine ⟨regular_full 0, ?_⟩
  obtain ⟨r, s', hrun, hr⟩ := Outcome.exists_of_any
    (P := fun r s' => r == some 5632 && decide (MAXOPBLOCKS < s'.lh.length))
    (x := (writeSection ⟨0, by decide⟩ (fun _ => 1) (min 5632 maxWrite)).run (exec 0) (fullState 0))
    (by decide)
  simp only [Bool.and_eq_true, beq_iff_eq, decide_eq_true_eq] at hr
  obtain ⟨rfl, hlen⟩ := hr
  exact ⟨s', hrun, hlen⟩

/-- A byte past the end of the largest file. -/
theorem filewrite_failed_full : ∃ s', (filewrite ⟨0, by decide⟩ (fun _ => 1) 1).run (exec 0)
    (fullState (MAXFILE * BSIZE)) = .ok none s' ∧
    s'.content ⟨0, by decide⟩ = (fullState (MAXFILE * BSIZE)).content ⟨0, by decide⟩ := by
  obtain ⟨r, s', hrun, hr⟩ := Outcome.exists_of_any (P := fun r _ => r == none)
    (x := (filewrite ⟨0, by decide⟩ (fun _ => 1) 1).run (exec 0) (fullState (MAXFILE * BSIZE)))
    (by decide)
  obtain rfl : r = none := by simpa using hr
  exact ⟨s', hrun, ((filewrite_failed_iff rfl rfl hrun).2 (.inr (.inl (by decide))) rfl).1⟩

/-- The first section is written, and the second one fails. -/
theorem filewrite_failed_half : (fullState (MAXFILE * BSIZE - maxWrite)).Regular ⟨0, by decide⟩ ∧
    ∃ s', (filewrite ⟨0, by decide⟩ (fun _ => 1) (maxWrite + 1)).run (exec 0)
      (fullState (MAXFILE * BSIZE - maxWrite)) = .ok none s' ∧
      (s'.file ⟨0, by decide⟩).off = MAXFILE * BSIZE := by
  refine ⟨regular_full _, ?_⟩
  obtain ⟨r, s', hrun, hr⟩ := Outcome.exists_of_any
    (P := fun r s' => r == none && (s'.file ⟨0, by decide⟩).off == MAXFILE * BSIZE)
    (x := (filewrite ⟨0, by decide⟩ (fun _ => 1) (maxWrite + 1)).run (exec 0)
      (fullState (MAXFILE * BSIZE - maxWrite))) (by decide)
  simp only [Bool.and_eq_true, beq_iff_eq] at hr
  obtain ⟨rfl, hoff⟩ := hr
  exact ⟨s', hrun, hoff⟩

end Xv6.Fs
