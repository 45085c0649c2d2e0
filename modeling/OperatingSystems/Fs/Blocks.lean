import OperatingSystems.Fs.Inode
import OperatingSystems.Lib.Heap

/-!
# The blocks of a file

What `bmap`, `itrunc` and the loops of `readi` and `writei` do with the blocks of one
locked inode.  They touch nothing but the copy of the inode and the blocks it points to,
so they are judged by what their caller owns (`Work`): the copy, the inode on the disk,
and some blocks.  `Work.rules` says which operations that permits.

A file has no holes: `Mapped blk d n` says that the inode `d` points to its first `n`
blocks and to no other, each pointer to a block of its own.

* `reads_bmap`, `follows_bmap_eq`: `bmap` finds a block, or adds the next one.
* `reads_readLoop`: reading changes nothing, and gives the bytes.
* `follows_writeLoop`: writing puts the bytes there, and adds the blocks they need.
* `follows_itrunc`: nothing is left.
-/

namespace Xv6.Fs

open Function Heap Option Nat

/-! ## Where the blocks are -/

/-- Blocks of the disk that someone owns, with what is in them. -/
abbrev Blocks := Heap Nat Block

/-- The number of blocks that `size` bytes take. -/
def nblocks (size : Nat) : Nat := (size + (BSIZE - 1)) / BSIZE

theorem nblocks_le_iff {size n : Nat} : nblocks size ≤ n ↔ size ≤ n * BSIZE := by
  simp only [nblocks, BSIZE]
  omega

theorem le_nblocks_mul (size : Nat) : size ≤ nblocks size * BSIZE := nblocks_le_iff.1 le_rfl

theorem nblocks_mono {size size' : Nat} (h : size ≤ size') : nblocks size ≤ nblocks size' :=
  nblocks_le_iff.2 (h.trans (le_nblocks_mul size'))

/-- `a[j]` of the indirect block at `addr`. -/
def entry (blk : Blocks) (addr j : Nat) : Nat :=
  match blk addr with
  | some a => (a.get32 (4 * j)).toNat
  | none => 0

/-- The address of a block of a file; `0` if there is none. -/
def addrAt (blk : Blocks) (d : Dinode) (bn : Nat) : Nat :=
  if bn < NDIRECT then d.addrs bn
  else if d.addrs NDIRECT = 0 then 0
  else entry blk (d.addrs NDIRECT) (bn - NDIRECT)

/-- The inode points to the block, from one of the first `n` addresses or as its indirect
block. -/
def Uses (blk : Blocks) (d : Dinode) (n b : Nat) : Prop :=
  (∃ i < n, addrAt blk d i = b) ∨ NDIRECT < n ∧ d.addrs NDIRECT = b

/-- The inode points to its first `n` blocks and to no other. -/
structure Mapped (blk : Blocks) (d : Dinode) (n : Nat) : Prop where
  le : n ≤ MAXFILE
  zero : ∀ i ≤ NDIRECT, n ≤ i → d.addrs i = 0
  entries : ∀ j < NINDIRECT, n ≤ NDIRECT + j → d.addrs NDIRECT ≠ 0 →
    entry blk (d.addrs NDIRECT) j = 0
  inj : ∀ i j, i < n → j < n → addrAt blk d i = addrAt blk d j → i = j
  apart : NDIRECT < n → ∀ i < n, addrAt blk d i ≠ d.addrs NDIRECT
  own : ∀ b, Uses blk d n b → blk b ≠ none ∧ nmeta ≤ b ∧ b < FSSIZE

/-- The byte of a file at an offset. -/
def byteAt (blk : Blocks) (d : Dinode) (i : Nat) : UInt8 :=
  match blk (addrAt blk d (i / BSIZE)) with
  | some x => x.get (i % BSIZE)
  | none => 0

theorem nmeta_pos : 0 < nmeta := by decide

section Mapped

variable {blk blk' : Blocks} {d d' : Dinode} {n i b : Nat}

theorem addrAt_of_lt (h : i < NDIRECT) : addrAt blk d i = d.addrs i := if_pos h

theorem addrAt_of_ge (h : NDIRECT ≤ i) (hd : d.addrs NDIRECT ≠ 0) :
    addrAt blk d i = entry blk (d.addrs NDIRECT) (i - NDIRECT) := by
  rw [addrAt, if_neg (by omega), if_neg hd]

theorem Uses.addr (h : i < n) : Uses blk d n (addrAt blk d i) := .inl ⟨i, h, rfl⟩

theorem Uses.indirect (h : NDIRECT < n) : Uses blk d n (d.addrs NDIRECT) := .inr ⟨h, rfl⟩

theorem Mapped.addrAt_ne_zero (h : Mapped blk d n) (hi : i < n) : addrAt blk d i ≠ 0 := by
  have := (h.own _ (Uses.addr hi)).2.1
  have := nmeta_pos
  omega

theorem Mapped.indirect_ne_zero (h : Mapped blk d n) (hn : NDIRECT < n) : d.addrs NDIRECT ≠ 0 := by
  have := (h.own _ (Uses.indirect hn)).2.1
  have := nmeta_pos
  omega

theorem Mapped.addrAt_eq_zero (h : Mapped blk d n) (hi : n ≤ i) (hm : i < MAXFILE) :
    addrAt blk d i = 0 := by
  unfold addrAt
  split
  next hlt => exact h.zero i (by omega) hi
  next hge =>
    split
    next => rfl
    next hd =>
      have hm' : i < NDIRECT + NINDIRECT := hm
      exact h.entries (i - NDIRECT) (by omega) (by omega) hd

section

variable (ha : ∀ i ≤ NDIRECT, d'.addrs i = d.addrs i)
  (hb : d.addrs NDIRECT ≠ 0 → blk' (d.addrs NDIRECT) = blk (d.addrs NDIRECT))

include ha hb

/-- Where the blocks are depends on the addresses and the indirect block only. -/
theorem addrAt_congr (i : Nat) : addrAt blk' d' i = addrAt blk d i := by
  unfold addrAt
  rw [ha NDIRECT le_rfl]
  split
  next hlt => exact ha i hlt.le
  next =>
    split
    next => rfl
    next hd => rw [entry, entry, hb hd]

theorem uses_congr (n b : Nat) : Uses blk' d' n b ↔ Uses blk d n b := by
  simp only [Uses, addrAt_congr ha hb, ha NDIRECT le_rfl]

end

theorem Mapped.congr (h : Mapped blk d n) (ha : ∀ i ≤ NDIRECT, d'.addrs i = d.addrs i)
    (hb : d.addrs NDIRECT ≠ 0 → blk' (d.addrs NDIRECT) = blk (d.addrs NDIRECT))
    (hown : ∀ b, Uses blk d n b → blk' b ≠ none) : Mapped blk' d' n where
  le := h.le
  zero i hi hn := by rw [ha i hi, h.zero i hi hn]
  entries j hj hn hd := by
    rw [ha NDIRECT le_rfl] at hd ⊢
    rw [entry, hb hd]
    exact h.entries j hj hn hd
  inj i j := by
    rw [addrAt_congr ha hb, addrAt_congr ha hb]
    exact h.inj i j
  apart := by
    simp only [addrAt_congr ha hb, ha NDIRECT le_rfl]
    exact h.apart
  own b hu := by
    rw [uses_congr ha hb] at hu
    exact ⟨hown b hu, (h.own b hu).2⟩

theorem Mapped.uses_indirect (h : Mapped blk d n) (hd : d.addrs NDIRECT ≠ 0) :
    Uses blk d n (d.addrs NDIRECT) := by
  by_cases hn : NDIRECT < n
  · exact .inr ⟨hn, rfl⟩
  · exact absurd (h.zero NDIRECT le_rfl (by omega)) hd

/-- Only the blocks the inode points to matter. -/
theorem Mapped.uses_iff (h : Mapped blk d n) (hb : ∀ b, Uses blk d n b → blk' b = blk b) (b : Nat) :
    Uses blk' d n b ↔ Uses blk d n b :=
  uses_congr (fun _ _ => rfl) (fun hd => hb _ (h.uses_indirect hd)) n b

theorem Mapped.frame (h : Mapped blk d n) (hb : ∀ b, Uses blk d n b → blk' b = blk b) :
    Mapped blk' d n :=
  h.congr (fun _ _ => rfl) (fun hd => hb _ (h.uses_indirect hd)) fun b hu => by
      rw [hb b hu]
      exact (h.own b hu).1

theorem mapped_zero (h : ∀ i ≤ NDIRECT, d.addrs i = 0) : Mapped blk d 0 where
  le := zero_le _
  zero i hi _ := h i hi
  entries _ _ _ hd := absurd (h NDIRECT le_rfl) hd
  inj _ _ hi := absurd hi (not_lt_zero _)
  apart hn := absurd hn (not_lt_zero _)
  own b hu := by
    obtain ⟨_, hi, -⟩ | ⟨hn, -⟩ := hu
    · exact absurd hi (not_lt_zero _)
    · exact absurd hn (not_lt_zero _)

end Mapped

/-! ## What the caller owns -/

/-- What the owner of a locked inode works with.  `lh` is the header of the log. -/
structure Work where
  inum : Nat
  din : Dinode
  disk : Dinode
  blk : Blocks
  lh : List Nat

/-- `log_write` in the header. -/
def note (b : Nat) (lh : List Nat) : List Nat := if b ∈ lh then lh else lh ++ [b]

@[simp] theorem mem_note {b c : Nat} {lh : List Nat} : c ∈ note b lh ↔ c = b ∨ c ∈ lh := by
  unfold note
  split <;> simp_all [or_comm]

variable {b : Nat}

theorem nodup_note {lh : List Nat} (h : lh.Nodup) : (note b lh).Nodup := by
  unfold note
  split
  next => exact h
  next hb => exact List.nodup_append.2 ⟨h, List.nodup_singleton b, by
    rintro c hc d hd rfl
    exact hb (List.mem_singleton.1 hd ▸ hc)⟩

/-- What the operations on the inode `ip` and its blocks need and leave. -/
def Work.rules (ip : IRef) : Script.Protocol Op Op.Ret Work where
  pre o w := match o with
    | .getInode e => e = ip
    | .setInode e _ => e = ip
    | .iupdate e => e = ip ∧ w.din.type ≠ 0
    | .bread b => w.blk b ≠ none
    | .logWrite b _ => w.blk b ≠ none
    | .ballocBit => True
    | .bfree b => w.blk b ≠ none
    | _ => False
  post o w r w' := match o, r with
    | .getInode _, d => d = w.din ∧ w' = w
    | .setInode _ d, _ => w' = { w with din := d }
    | .iupdate _, _ => w' = { w with disk := w.din, lh := note (iblock w.inum) w.lh }
    | .bread b, x => w.blk b = some x ∧ w' = w
    | .logWrite b x, _ => w' = { w with blk := w.blk.put b x, lh := note b w.lh }
    | .ballocBit, b => w.blk b = none ∧ nmeta ≤ b ∧ b < FSSIZE ∧
        ∃ x, w' = { w with blk := w.blk.put b x, lh := note (bblock b) w.lh }
    | .bfree b, _ => w' = { w with blk := w.blk.erase b, lh := note (bblock b) w.lh }
    | _, _ => True

/-- The same for a caller that only reads. -/
def Work.reads (ip : IRef) : Script.Protocol Op Op.Ret Work where
  pre o w := match o with
    | .getInode e => e = ip
    | .bread b => w.blk b ≠ none
    | _ => False
  post := (Work.rules ip).post

theorem follows_of_reads {α : Type} {x : FsM α} {ip : IRef} {w : Work} {Q : α → Work → Prop}
    (h : x.Follows (Work.reads ip) Q w) : x.Follows (Work.rules ip) Q w := by
  refine .weaken (P := Work.reads ip) (fun o t hpre => ?_) (fun o t r t' _ h => h) h
  cases o <;> first | exact hpre | exact hpre.elim

/-- There is one block of the free map. -/
theorem bblock_eq (h : b < FSSIZE) : bblock b = bmapstart := by
  have hb : b / BPB = 0 := div_eq_of_lt (lt_trans h (by decide))
  rw [bblock, hb, zero_add]

variable {Q : Unit → Work → Prop} {src : Nat → UInt8}

section Rules

variable {ip : IRef} {w : Work} {α : Type}

theorem reads_getInode {Q : Dinode → Work → Prop} (h : Q w.din w) :
    (getInode ip).Follows (Work.reads ip) Q w :=
  ⟨rfl, fun _ _ ⟨hr, hw⟩ => hr ▸ hw ▸ h⟩

theorem follows_getInode {Q : Dinode → Work → Prop} (h : Q w.din w) :
    (getInode ip).Follows (Work.rules ip) Q w :=
  follows_of_reads (reads_getInode h)

theorem follows_setInode {d : Dinode} (h : Q () { w with din := d }) :
    (setInode ip d).Follows (Work.rules ip) Q w :=
  ⟨rfl, fun _ _ hw => hw ▸ h⟩

theorem follows_iupdate (ht : w.din.type ≠ 0)
    (h : Q () { w with disk := w.din, lh := note (iblock w.inum) w.lh }) :
    (iupdate ip).Follows (Work.rules ip) Q w :=
  ⟨⟨rfl, ht⟩, fun _ _ hw => hw ▸ h⟩

theorem reads_bread {x : Block} {Q : Block → Work → Prop} (hb : w.blk b = some x)
    (h : Q x w) : (bread b).Follows (Work.reads ip) Q w := by
  refine ⟨fun hn => some_ne_none x (hb.symm.trans hn), ?_⟩
  rintro r w' ⟨hr, rfl⟩
  cases hb.symm.trans hr
  exact h

theorem follows_bread {x : Block} {Q : Block → Work → Prop} (hb : w.blk b = some x)
    (h : Q x w) : (bread b).Follows (Work.rules ip) Q w :=
  follows_of_reads (reads_bread hb h)

theorem follows_logWrite {x : Block} (hb : w.blk b ≠ none)
    (h : Q () { w with blk := w.blk.put b x, lh := note b w.lh }) :
    (logWrite b x).Follows (Work.rules ip) Q w :=
  ⟨hb, fun _ _ hw => hw ▸ h⟩

theorem follows_bfree (hb : w.blk b ≠ none)
    (h : Q () { w with blk := w.blk.erase b, lh := note (bblock b) w.lh }) :
    (bfree b).Follows (Work.rules ip) Q w :=
  ⟨hb, fun _ _ hw => hw ▸ h⟩

/-- `balloc` gives a block that the caller did not own, all zeroes. -/
theorem follows_balloc {Q : Nat → Work → Prop} (h : ∀ b, w.blk b = none → nmeta ≤ b → b < FSSIZE →
      Q b { w with blk := w.blk.put b .zero, lh := note b (note bmapstart w.lh) }) :
    balloc.Follows (Work.rules ip) Q w := by
  refine .bind (follows_ask trivial ?_)
  rintro b w' ⟨hb, hlo, hhi, x, rfl⟩
  refine .bind (follows_logWrite (by simp) ?_)
  have hput : (w.blk.put b x).put b .zero = w.blk.put b .zero := by
    funext c
    by_cases hc : c = b <;> simp [put, hc]
  have hQ := h b hb hlo hhi
  rw [← hput, ← bblock_eq hhi] at hQ
  exact hQ

end Rules

/-! ## `bmap` -/

theorem setAddr_addrs (d : Dinode) (i b j : Nat) :
    (d.setAddr i b).addrs j = if j = i then b else d.addrs j := by
  simp [Dinode.setAddr, update_apply]

/-- The file has got more blocks: `n'` instead of `n`.  No other block changes hands. -/
structure Grows (w w' : Work) (n n' : Nat) : Prop where
  mapped : Mapped w'.blk w'.din n'
  le : n ≤ n'
  din : w'.din = { w.din with addrs := w'.din.addrs }
  same : n' = n → w'.din = w.din
  disk : w'.disk = w.disk
  inum : w'.inum = w.inum
  addr : ∀ i < n, addrAt w'.blk w'.din i = addrAt w.blk w.din i
  indirect : NDIRECT < n → w'.din.addrs NDIRECT = w.din.addrs NDIRECT
  frame : ∀ b, ¬ Uses w'.blk w'.din n' b → w'.blk b = w.blk b
  fresh : ∀ b, Uses w'.blk w'.din n' b → Uses w.blk w.din n b ∨ w.blk b = none

/-- The blocks put in the header of the log are those of `S`. -/
structure Logs (w w' : Work) (S : Nat → Prop) : Prop where
  mem : ∀ b, b ∈ w'.lh ↔ b ∈ w.lh ∨ S b
  nodup : w.lh.Nodup → w'.lh.Nodup

section Grow

variable {w w' w'' : Work} {n n' n'' b : Nat}

theorem Grows.refl (h : Mapped w.blk w.din n) : Grows w w n n where
  mapped := h
  le := le_rfl
  din := rfl
  same _ := rfl
  disk := rfl
  inum := rfl
  addr _ _ := rfl
  indirect _ := rfl
  frame _ _ := rfl
  fresh _ hu := .inl hu

theorem Grows.uses (h : Grows w w' n n') (hu : Uses w.blk w.din n b) : Uses w'.blk w'.din n' b := by
  have hle := h.le
  obtain ⟨i, hi, rfl⟩ | ⟨hn, rfl⟩ := hu
  · exact .inl ⟨i, by omega, h.addr i hi⟩
  · exact .inr ⟨by omega, h.indirect hn⟩

theorem Grows.trans (h : Grows w w' n n') (h' : Grows w' w'' n' n'') : Grows w w'' n n'' where
  mapped := h'.mapped
  le := h.le.trans h'.le
  din := by rw [h'.din, h.din]
  same hn := by
    have := h.le
    have := h'.le
    rw [h'.same (by omega), h.same (by omega)]
  disk := h'.disk.trans h.disk
  inum := h'.inum.trans h.inum
  addr i hi := (h'.addr i (lt_of_lt_of_le hi h.le)).trans (h.addr i hi)
  indirect hn := (h'.indirect (lt_of_lt_of_le hn h.le)).trans (h.indirect hn)
  frame b hb := (h'.frame b hb).trans (h.frame b fun hu => hb (h'.uses hu))
  fresh b hb := by
    by_cases hu : Uses w'.blk w'.din n' b
    · exact h.fresh b hu
    · have hnone := (h'.fresh b hb).resolve_left hu
      exact .inr ((h.frame b hu).symm.trans hnone)

variable {blk blk' : Blocks} {d d' : Dinode}

/-- One block more. -/
theorem Mapped.grow (h : Mapped blk d n) (hn : n < MAXFILE)
    (hzero : ∀ i ≤ NDIRECT, n + 1 ≤ i → d'.addrs i = 0)
    (hent : ∀ j < NINDIRECT, n + 1 ≤ NDIRECT + j → d'.addrs NDIRECT ≠ 0 →
      entry blk' (d'.addrs NDIRECT) j = 0)
    (haddr : ∀ i < n, addrAt blk' d' i = addrAt blk d i)
    (hnew : blk (addrAt blk' d' n) = none) (hlo : nmeta ≤ addrAt blk' d' n)
    (hhi : addrAt blk' d' n < FSSIZE)
    (hind : NDIRECT < n → d'.addrs NDIRECT = d.addrs NDIRECT)
    (hind' : n = NDIRECT → blk (d'.addrs NDIRECT) = none ∧
      d'.addrs NDIRECT ≠ addrAt blk' d' n ∧ nmeta ≤ d'.addrs NDIRECT ∧ d'.addrs NDIRECT < FSSIZE ∧
        blk' (d'.addrs NDIRECT) ≠ none)
    (hown : ∀ b, blk b ≠ none → blk' b ≠ none) (hown' : blk' (addrAt blk' d' n) ≠ none) :
    Mapped blk' d' (n + 1) := by
  have hold : ∀ i < n, blk (addrAt blk' d' i) ≠ none := by
    intro i hi
    rw [haddr i hi]
    exact (h.own _ (.addr hi)).1
  have hne : ∀ i < n, addrAt blk' d' i ≠ addrAt blk' d' n := by
    intro i hi he
    exact hold i hi (he ▸ hnew)
  refine ⟨hn, hzero, hent, ?_, ?_, ?_⟩
  · intro i j hi hj he
    obtain hi | rfl := Nat.lt_succ_iff_lt_or_eq.1 hi
    · obtain hj | rfl := Nat.lt_succ_iff_lt_or_eq.1 hj
      · rw [haddr i hi, haddr j hj] at he
        exact h.inj i j hi hj he
      · exact absurd he (hne i hi)
    · obtain hj | rfl := Nat.lt_succ_iff_lt_or_eq.1 hj
      · exact absurd he.symm (hne j hj)
      · rfl
  · intro hlt i hi
    obtain hn' | rfl := Nat.lt_succ_iff_lt_or_eq.1 hlt
    · rw [hind hn']
      obtain hi | rfl := Nat.lt_succ_iff_lt_or_eq.1 hi
      · rw [haddr i hi]
        exact h.apart hn' i hi
      · intro he
        exact (h.own _ (.indirect hn')).1 (he ▸ hnew)
    · obtain ⟨hnone, hdiff, -⟩ := hind' rfl
      obtain hi | rfl := Nat.lt_succ_iff_lt_or_eq.1 hi
      · intro he
        exact hold i hi (he ▸ hnone)
      · exact hdiff.symm
  · rintro b (⟨i, hi, rfl⟩ | ⟨hlt, rfl⟩)
    · obtain hi | rfl := Nat.lt_succ_iff_lt_or_eq.1 hi
      · have := h.own _ (Uses.addr hi)
        rw [haddr i hi]
        exact ⟨hown _ this.1, this.2⟩
      · exact ⟨hown', hlo, hhi⟩
    · obtain hn' | rfl := Nat.lt_succ_iff_lt_or_eq.1 hlt
      · have := h.own _ (Uses.indirect hn')
        rw [hind hn']
        exact ⟨hown _ this.1, this.2⟩
      · obtain ⟨-, -, hlo', hhi', hown''⟩ := hind' rfl
        exact ⟨hown'', hlo', hhi'⟩

end Grow

section Bmap

variable {ip : IRef} {w : Work} {n i : Nat} {Q : Nat → Work → Prop}

theorem reads_addrOf (hi : w.din.addrs i ≠ 0) (h : Q (w.din.addrs i) w) :
    (addrOf ip i).Follows (Work.reads ip) Q w := by
  refine .bind (reads_getInode ?_)
  rw [if_neg hi]
  exact h

theorem follows_addrOf_zero (hi : w.din.addrs i = 0)
    (h : ∀ b, w.blk b = none → nmeta ≤ b → b < FSSIZE → Q b { w with
        din := w.din.setAddr i b, blk := w.blk.put b .zero, lh := note b (note bmapstart w.lh) }) :
    (addrOf ip i).Follows (Work.rules ip) Q w := by
  refine .bind (follows_getInode ?_)
  rw [if_pos hi]
  refine .bind (follows_balloc fun b hb hlo hhi => ?_)
  exact .bind (follows_setInode (h b hb hlo hhi))

theorem reads_entryOf {addr j : Nat} (hj : entry w.blk addr j ≠ 0)
    (h : Q (entry w.blk addr j) w) : (entryOf addr j).Follows (Work.reads ip) Q w := by
  cases ha : w.blk addr with
  | none => simp [entry, ha] at hj
  | some a =>
    simp only [entry, ha] at hj h
    refine .bind (reads_bread ha ?_)
    rw [if_neg (fun h0 => hj (by rw [h0]; rfl))]
    exact h

theorem follows_entryOf_zero {addr j : Nat} {a : Block} (ha : w.blk addr = some a)
    (hj : entry w.blk addr j = 0)
    (h : ∀ b, w.blk b = none → nmeta ≤ b → b < FSSIZE → Q b { w with
        blk := (w.blk.put b .zero).put addr (a.put32 (4 * j) (UInt32.ofNat b))
        lh := note addr (note b (note bmapstart w.lh)) }) :
    (entryOf addr j).Follows (Work.rules ip) Q w := by
  have hz : a.get32 (4 * j) = 0 := by
    simp only [entry, ha] at hj
    exact UInt32.toNat_inj.1 hj
  refine .bind (follows_bread ha ?_)
  rw [if_pos hz]
  refine .bind (follows_balloc fun b hb hlo hhi => ?_)
  have hne : addr ≠ b := fun he => some_ne_none a (ha.symm.trans (he ▸ hb))
  refine .bind (follows_logWrite ?_ (h b hb hlo hhi))
  show w.blk.put b .zero addr ≠ none
  rw [put_of_ne _ _ hne, ha]
  exact some_ne_none a

/-- **`bmap` finds the blocks of the file.** -/
theorem reads_bmap (hm : Mapped w.blk w.din n) (hi : i < n)
    (h : Q (addrAt w.blk w.din i) w) : (bmap ip i).Follows (Work.reads ip) Q w := by
  have hne := hm.addrAt_ne_zero hi
  by_cases hd : i < NDIRECT
  · rw [addrAt_of_lt hd] at hne h
    rw [bmap, if_pos hd]
    exact reads_addrOf hne h
  · have hind := hm.indirect_ne_zero (by omega)
    have hle : i < NDIRECT + NINDIRECT := lt_of_lt_of_le hi hm.le
    rw [addrAt_of_ge (by omega) hind] at hne h
    rw [bmap, if_neg hd, if_pos (by omega)]
    exact .bind (reads_addrOf hind (reads_entryOf hne h))

theorem entry_put (blk : Blocks) (addr b : Nat) (a : Block) {i j : Nat} (hi : i < NINDIRECT)
    (hj : j < NINDIRECT) (hb : b < FSSIZE) :
    entry (blk.put addr (a.put32 (4 * i) (UInt32.ofNat b))) addr j =
      if j = i then b else (a.get32 (4 * j)).toNat := by
  have hsize : BSIZE = 4 * NINDIRECT := rfl
  simp only [entry, put, if_pos]
  by_cases hji : j = i
  · subst hji
    rw [if_pos rfl, Bytes.get32_put32 _ _ (by omega), UInt32.toNat_ofNat']
    exact mod_eq_of_lt (lt_trans hb (by decide))
  · rw [if_neg hji, Bytes.get32_put32_of_disjoint _ _ (by omega)]

/-- What `bmap` leaves when it has added the block after the last one. -/
structure Added (w w' : Work) (n : Nat) : Prop where
  grows : Grows w w' n (n + 1)
  new : w'.blk (addrAt w'.blk w'.din n) = some .zero
  data : ∀ i < n, w'.blk (addrAt w.blk w.din i) = w.blk (addrAt w.blk w.din i)
  logs : Logs w w' fun b =>
    b = bmapstart ∨ b = addrAt w'.blk w'.din n ∨ NDIRECT ≤ n ∧ b = w'.din.addrs NDIRECT

/-- A block was added among the direct ones. -/
theorem Added.direct (hm : Mapped w.blk w.din n) (hn : n < NDIRECT) (hb : w.blk b = none)
    (hlo : nmeta ≤ b) (hhi : b < FSSIZE) :
    Added w { w with
      din := w.din.setAddr n b, blk := w.blk.put b .zero, lh := note b (note bmapstart w.lh) } n := by
  have hmax : NDIRECT + NINDIRECT = MAXFILE := rfl
  have hat : ∀ i < n, addrAt (w.blk.put b .zero) (w.din.setAddr n b) i = addrAt w.blk w.din i := by
    intro i hi
    rw [addrAt_of_lt (by omega), addrAt_of_lt (by omega), setAddr_addrs, if_neg (by omega)]
  have hnew : addrAt (w.blk.put b .zero) (w.din.setAddr n b) n = b := by
    rw [addrAt_of_lt hn, setAddr_addrs, if_pos rfl]
  have hzero : ∀ i ≤ NDIRECT, n + 1 ≤ i → (w.din.setAddr n b).addrs i = 0 := by
    intro i hi hni
    rw [setAddr_addrs, if_neg (by omega)]
    exact hm.zero i hi (by omega)
  have hown : ∀ c, w.blk c ≠ none → c ≠ b := by
    rintro c hc rfl
    exact hc hb
  have hmap : Mapped (w.blk.put b .zero) (w.din.setAddr n b) (n + 1) := by
    refine hm.grow (by omega) hzero ?_ hat ?_ ?_ ?_ ?_ ?_ ?_ ?_
    · intro j _ _ h0
      exact absurd (hzero NDIRECT le_rfl (by omega)) h0
    · rwa [hnew]
    · rwa [hnew]
    · rwa [hnew]
    · intro h
      omega
    · intro h
      omega
    · intro c hc
      rw [put_of_ne _ _ (hown c hc)]
      exact hc
    · rw [hnew]
      simp
  refine ⟨⟨hmap, by omega, rfl, by omega, rfl, rfl, hat, by omega, ?_, ?_⟩, ?_, ?_, ?_, ?_⟩
  · intro c hc
    refine put_of_ne _ _ ?_
    rintro rfl
    exact hc (.inl ⟨n, by omega, hnew⟩)
  · rintro c (⟨i, hi, rfl⟩ | ⟨h, -⟩)
    · obtain hi | rfl := Nat.lt_succ_iff_lt_or_eq.1 hi
      · exact .inl (.inl ⟨i, hi, (hat i hi).symm⟩)
      · right
        show w.blk (addrAt _ _ _) = none
        rwa [hnew]
    · omega
  · show w.blk.put b .zero (addrAt (w.blk.put b .zero) _ n) = _
    rw [hnew]
    simp
  · intro i hi
    exact put_of_ne _ _ (hown _ (hm.own _ (.addr hi)).1)
  · intro c
    show c ∈ note b (note bmapstart w.lh) ↔ _
    rw [mem_note, mem_note, hnew]
    grind
  · intro h
    exact nodup_note (nodup_note h)

/-- A block was added after the direct ones, where `ib` is the indirect block and `a` what
was in it. -/
theorem Added.indirect (hm : Mapped w.blk w.din n) (hn : NDIRECT ≤ n) (hmax : n < MAXFILE)
    {b ib : Nat} {a : Block} {l : List Nat} (hb : w.blk b = none) (hlo : nmeta ≤ b)
    (hhi : b < FSSIZE) (hne : ib ≠ b)
    (hold : NDIRECT < n → ib = w.din.addrs NDIRECT ∧ w.blk ib = some a)
    (hnew : n = NDIRECT → w.blk ib = none ∧ nmeta ≤ ib ∧ ib < FSSIZE ∧ a = .zero)
    (hlh : ∀ c, c ∈ l ↔ c ∈ w.lh ∨ c = bmapstart ∨ c = b ∨ c = ib)
    (hnd : w.lh.Nodup → l.Nodup) :
    Added w { w with
      din := w.din.setAddr NDIRECT ib
      blk := (w.blk.put b .zero).put ib (a.put32 (4 * (n - NDIRECT)) (UInt32.ofNat b))
      lh := l } n := by
  generalize hblk : (w.blk.put b .zero).put ib (a.put32 (4 * (n - NDIRECT)) (UInt32.ofNat b)) = blk'
  have hM : MAXFILE = NDIRECT + NINDIRECT := rfl
  have hib : ib ≠ 0 := by
    obtain h | h := lt_or_eq_of_le hn
    · rw [(hold h).1]
      exact hm.indirect_ne_zero h
    · have := (hnew h.symm).2.1
      have := nmeta_pos
      omega
  have haddr : ∀ i, (w.din.setAddr NDIRECT ib).addrs i = if i = NDIRECT then ib else w.din.addrs i :=
    setAddr_addrs _ _ _
  have hind : (w.din.setAddr NDIRECT ib).addrs NDIRECT = ib := by rw [haddr, if_pos rfl]
  have hent : ∀ j < NINDIRECT, entry blk' ib j =
      if j = n - NDIRECT then b else (a.get32 (4 * j)).toNat := by
    intro j hj
    rw [← hblk, entry_put _ _ _ _ (by omega) hj hhi]
  have hne' : (w.din.setAddr NDIRECT ib).addrs NDIRECT ≠ 0 := by rwa [hind]
  have hat : ∀ i < n, addrAt blk' (w.din.setAddr NDIRECT ib) i = addrAt w.blk w.din i := by
    intro i hi
    by_cases hd : i < NDIRECT
    · rw [addrAt_of_lt hd, addrAt_of_lt hd, haddr, if_neg (by omega)]
    · obtain ⟨rfl, ha⟩ := hold (by omega)
      rw [addrAt_of_ge (by omega) hne', addrAt_of_ge (by omega) hib, hind, hent _ (by omega),
        if_neg (by omega), entry, ha]
  have hatn : addrAt blk' (w.din.setAddr NDIRECT ib) n = b := by
    rw [addrAt_of_ge hn hne', hind, hent _ (by omega), if_pos rfl]
  have hbb : blk' b = some .zero := by
    rw [← hblk, put_of_ne _ _ hne.symm]
    simp
  have hbib : blk' ib ≠ none := by
    rw [← hblk]
    simp
  have hother : ∀ c, c ≠ b → c ≠ ib → blk' c = w.blk c := by
    intro c hc hc'
    rw [← hblk, put_of_ne _ _ hc', put_of_ne _ _ hc]
  have hown : ∀ c, w.blk c ≠ none → c ≠ b := by
    rintro c hc rfl
    exact hc hb
  have hmap : Mapped blk' (w.din.setAddr NDIRECT ib) (n + 1) := by
    refine hm.grow hmax ?_ ?_ hat ?_ ?_ ?_ ?_ ?_ ?_ ?_
    · intro i hi hni
      omega
    · intro j hj hnj _
      rw [hind, hent j hj, if_neg (by omega)]
      obtain h | h := lt_or_eq_of_le hn
      · obtain ⟨rfl, ha⟩ := hold h
        have := hm.entries j hj (by omega) hib
        rwa [entry, ha] at this
      · rw [(hnew h.symm).2.2.2]
        simp
    · rwa [hatn]
    · rwa [hatn]
    · rwa [hatn]
    · intro h
      rw [hind, (hold h).1]
    · intro h
      obtain ⟨h1, h2, h3, -⟩ := hnew h
      rw [hind, hatn]
      exact ⟨h1, hne, h2, h3, hbib⟩
    · intro c hc
      by_cases hc' : c = ib
      · rwa [hc']
      · rwa [hother c (hown c hc) hc']
    · rw [hatn, hbb]
      exact some_ne_none _
  refine ⟨⟨hmap, by omega, rfl, by omega, rfl, rfl, hat, ?_, ?_, ?_⟩, ?_, ?_, ?_, hnd⟩
  · intro h
    rw [hind, (hold h).1]
  · intro c hc
    refine hother c ?_ ?_
    · rintro rfl
      exact hc (.inl ⟨n, by omega, hatn⟩)
    · rintro rfl
      exact hc (.inr ⟨by omega, hind⟩)
  · rintro c (⟨i, hi, rfl⟩ | ⟨-, rfl⟩)
    · obtain hi | rfl := Nat.lt_succ_iff_lt_or_eq.1 hi
      · exact .inl (.inl ⟨i, hi, (hat i hi).symm⟩)
      · right
        show w.blk (addrAt _ _ _) = none
        rwa [hatn]
    · show _ ∨ w.blk ((w.din.setAddr NDIRECT ib).addrs NDIRECT) = none
      rw [hind]
      obtain h | h := lt_or_eq_of_le hn
      · exact .inl (.inr ⟨h, (hold h).1.symm⟩)
      · exact .inr (hnew h.symm).1
  · show blk' (addrAt blk' _ n) = _
    rw [hatn, hbb]
  · intro i hi
    have hi' := hm.own _ (Uses.addr hi)
    refine hother _ (hown _ hi'.1) ?_
    rintro rfl
    obtain h | h := lt_or_eq_of_le hn
    · exact hm.apart h i hi (hold h).1
    · exact hi'.1 (hnew h.symm).1
  · intro c
    show c ∈ l ↔ _ ∨ c = bmapstart ∨ c = addrAt blk' _ n ∨ NDIRECT ≤ n ∧ c = _
    rw [hlh, hatn, hind]
    grind

/-- **`bmap` adds the block after the last one of the file.** -/
theorem follows_bmap_eq (hm : Mapped w.blk w.din n) (hn : n < MAXFILE)
    (h : ∀ w', Added w w' n → Q (addrAt w'.blk w'.din n) w') :
    (bmap ip n).Follows (Work.rules ip) Q w := by
  have hM : MAXFILE = NDIRECT + NINDIRECT := rfl
  -- the block `b` is where the new inode says it is
  have hret : ∀ b w', Added w w' n → addrAt w'.blk w'.din n = b → Q b w' := by
    rintro _ w' ha rfl
    exact h w' ha
  by_cases hd : n < NDIRECT
  · rw [bmap, if_pos hd]
    refine follows_addrOf_zero (hm.zero n hd.le le_rfl) fun b hb hlo hhi => ?_
    refine hret b _ (.direct hm hd hb hlo hhi) ?_
    rw [addrAt_of_lt hd, setAddr_addrs, if_pos rfl]
  · rw [bmap, if_neg hd, if_pos (by omega)]
    have hat : ∀ ib b (a : Block) (blk : Blocks), ib ≠ 0 → b < FSSIZE →
        addrAt (blk.put ib (a.put32 (4 * (n - NDIRECT)) (UInt32.ofNat b)))
          (w.din.setAddr NDIRECT ib) n = b := by
      intro ib b a blk hib hb
      have hind : (w.din.setAddr NDIRECT ib).addrs NDIRECT = ib := by rw [setAddr_addrs, if_pos rfl]
      rw [addrAt_of_ge (by omega) (by rwa [hind]), hind, entry_put _ _ _ _ (by omega) (by omega) hb,
        if_pos rfl]
    by_cases hnew : n = NDIRECT
    · refine .bind (follows_addrOf_zero (hm.zero NDIRECT le_rfl (by omega)) fun ib hib hlo hhi => ?_)
      refine follows_entryOf_zero (a := .zero) (by simp) (by simp [entry]) fun b hb hlo' hhi' => ?_
      have hne : ib ≠ b := by
        rintro rfl
        simp at hb
      have hb' : w.blk b = none := (put_of_ne _ _ hne.symm).symm.trans hb
      have hblk : ((w.blk.put ib .zero).put b .zero).put ib
          (Bytes.zero.put32 (4 * (n - NDIRECT)) (UInt32.ofNat b)) =
          (w.blk.put b .zero).put ib (Bytes.zero.put32 (4 * (n - NDIRECT)) (UInt32.ofNat b)) := by
        funext c
        by_cases hc : c = ib <;> simp [put, hc]
      show Q b { w with din := _, blk := ((w.blk.put ib .zero).put b .zero).put ib _, lh := _ }
      rw [hblk]
      refine hret b _ (.indirect hm (by omega) hn hb' hlo' hhi' hne (by omega)
        (fun _ => ⟨hib, hlo, hhi, rfl⟩) ?_ ?_) (hat _ _ _ _ ?_ hhi')
      · intro c
        simp only [mem_note]
        grind
      · intro hnd
        exact nodup_note (nodup_note (nodup_note (nodup_note (nodup_note hnd))))
      · have := nmeta_pos
        omega
    · have hlt : NDIRECT < n := by omega
      have hind := hm.indirect_ne_zero hlt
      obtain ⟨a, ha⟩ := ne_none_iff_exists'.1 (hm.own _ (Uses.indirect hlt)).1
      have hself : w.din.setAddr NDIRECT (w.din.addrs NDIRECT) = w.din := by
        rw [Dinode.setAddr, update_eq_self]
      refine .bind (follows_of_reads (reads_addrOf hind (follows_entryOf_zero ha
        (hm.entries _ (by omega) (by omega) hind) fun b hb hlo hhi => ?_)))
      have hne : w.din.addrs NDIRECT ≠ b := fun he => by
        rw [he, hb] at ha
        cases ha
      have hadd := Added.indirect (l := note (w.din.addrs NDIRECT) (note b (note bmapstart w.lh)))
        hm (by omega) hn hb hlo hhi hne (fun _ => ⟨rfl, ha⟩) (by omega) ?_ ?_
      · have hat' := hat (w.din.addrs NDIRECT) b a (w.blk.put b .zero) hind hhi
        rw [hself] at hadd hat'
        exact hret b _ hadd hat'
      · intro c
        simp only [mem_note]
        grind
      · intro hnd
        exact nodup_note (nodup_note (nodup_note hnd))

end Bmap

/-! ## Reading and writing -/

/-- The byte of a file of `n` blocks; `0` past them. -/
def Work.byte (w : Work) (n i : Nat) : UInt8 :=
  if i < n * BSIZE then byteAt w.blk w.din i else 0

/-- The bytes were written at `off`, and the file has the blocks they need. -/
structure Wrote (w w' : Work) (n n' : Nat) (src : Nat → UInt8) (off len : Nat) : Prop where
  grows : Grows w w' n n'
  bytes : ∀ i, w'.byte n' i = if off ≤ i ∧ i < off + len then src (i - off) else w.byte n i
  logs : Logs w w' fun b =>
    (∃ i, off ≤ i ∧ i < off + len ∧ b = addrAt w'.blk w'.din (i / BSIZE)) ∨
      n < n' ∧ (b = bmapstart ∨ NDIRECT < n' ∧ b = w'.din.addrs NDIRECT)

section ReadWrite

variable {ip : IRef} {w w' w'' : Work} {n n' n'' off len : Nat}

/-- **Reading changes nothing, and gives the bytes of the file.** -/
theorem reads_readLoop (hm : Mapped w.blk w.din n) {fuel : Nat} (hf : len ≤ fuel)
    (hlen : off + len ≤ n * BSIZE) {Q : List UInt8 → Work → Prop}
    (h : Q ((List.range len).map fun k => byteAt w.blk w.din (off + k)) w) :
    (readLoop ip fuel off len).Follows (Work.reads ip) Q w := by
  have hpos : 0 < BSIZE := by decide
  induction fuel generalizing off len Q with
  | zero =>
    obtain rfl : len = 0 := by omega
    exact h
  | succ fuel ih =>
    rw [readLoop]
    by_cases h0 : len = 0
    · subst h0
      exact h
    · simp only [if_neg h0]
      have hk : off / BSIZE < n := (div_lt_iff_lt_mul hpos).2 (by omega)
      have hmod := mod_lt off hpos
      have hdiv := div_add_mod off BSIZE
      obtain ⟨x, hx⟩ := ne_none_iff_exists'.1 (hm.own _ (Uses.addr hk)).1
      refine .bind (reads_bmap hm hk (.bind (reads_bread hx ?_)))
      generalize hmin : min len (BSIZE - off % BSIZE) = m
      refine .bind (ih (by omega) (by omega) ?_)
      have hslice : x.slice (off % BSIZE) m =
          (List.range m).map fun k => byteAt w.blk w.din (off + k) := by
        refine List.map_congr_left fun k hk => ?_
        have hk := List.mem_range.1 hk
        have hq : (off + k) / BSIZE = off / BSIZE := by
          rw [Nat.div_eq_iff hpos]
          rw [mul_comm] at hdiv
          omega
        have hr : (off + k) % BSIZE = off % BSIZE + k := by
          have := div_add_mod (off + k) BSIZE
          rw [hq] at this
          omega
        rw [byteAt, hq, hx, hr]
      have hsplit : List.range len = List.range m ++ (List.range (len - m)).map (m + ·) := by
        rw [← List.range_add]
        congr 1
        omega
      rw [hsplit, List.map_append, List.map_map, ← hslice] at h
      simp only [add_assoc]
      exact h

theorem Wrote.trans {m : Nat} (h : Wrote w w' n n' src off m)
    (h' : Wrote w' w'' n' n'' (fun k => src (m + k)) (off + m) (len - m)) (hm : m ≤ len)
    (hn : off + m ≤ n' * BSIZE) : Wrote w w'' n n'' src off len := by
  have hpos : 0 < BSIZE := by decide
  have hg := h.grows
  have hg' := h'.grows
  have hle := hg.le
  have hle' := hg'.le
  refine ⟨hg.trans hg', ?_, ?_, fun hnd => h'.logs.nodup (h.logs.nodup hnd)⟩
  · intro i
    rw [h'.bytes, h.bytes]
    by_cases h1 : off + m ≤ i ∧ i < off + m + (len - m)
    · rw [if_pos h1, if_pos (by omega)]
      congr 1
      omega
    · rw [if_neg h1]
      by_cases h2 : off ≤ i ∧ i < off + m
      · rw [if_pos h2, if_pos (by omega)]
      · rw [if_neg h2, if_neg (by omega)]
  · intro b
    have haddr : ∀ i < off + m,
        addrAt w''.blk w''.din (i / BSIZE) = addrAt w'.blk w'.din (i / BSIZE) := by
      intro i hi
      exact hg'.addr _ ((div_lt_iff_lt_mul hpos).2 (by omega))
    rw [h'.logs.mem, h.logs.mem]
    constructor
    · rintro ((hb | ⟨i, h1, h2, rfl⟩ | ⟨h1, rfl | ⟨h2, rfl⟩⟩) | ⟨i, h1, h2, rfl⟩ |
        ⟨h1, rfl | ⟨h2, rfl⟩⟩)
      · exact .inl hb
      · exact .inr (.inl ⟨i, h1, by omega, (haddr i h2).symm⟩)
      · exact .inr (.inr ⟨by omega, .inl rfl⟩)
      · exact .inr (.inr ⟨by omega, .inr ⟨by omega, (hg'.indirect h2).symm⟩⟩)
      · exact .inr (.inl ⟨i, by omega, by omega, rfl⟩)
      · exact .inr (.inr ⟨by omega, .inl rfl⟩)
      · exact .inr (.inr ⟨by omega, .inr ⟨h2, rfl⟩⟩)
    · rintro (hb | ⟨i, h1, h2, rfl⟩ | ⟨h1, hb⟩)
      · exact .inl (.inl hb)
      · by_cases hi : i < off + m
        · exact .inl (.inr (.inl ⟨i, h1, hi, haddr i hi⟩))
        · exact .inr (.inl ⟨i, by omega, by omega, rfl⟩)
      · by_cases hn1 : n' < n''
        · exact .inr (.inr ⟨hn1, hb⟩)
        · obtain rfl : n'' = n' := by omega
          refine .inl (.inr (.inr ⟨h1, hb.imp_right fun ⟨h2, h3⟩ => ⟨h2, ?_⟩⟩))
          rw [h3, hg'.indirect h2]

theorem Wrote.block (hm : Mapped w.blk w.din n) {k m : Nat} {x : Block}
    (hk : k < n) (hx : w.blk (addrAt w.blk w.din k) = some x) (hoff : off / BSIZE = k)
    (hm0 : 0 < m) (hmB : off % BSIZE + m ≤ BSIZE) :
    Wrote w { w with
      blk := w.blk.put (addrAt w.blk w.din k) (x.blit (off % BSIZE) m src)
      lh := note (addrAt w.blk w.din k) w.lh } n n src off m := by
  have hpos : 0 < BSIZE := by decide
  have hdiv := div_add_mod off BSIZE
  generalize hb : addrAt w.blk w.din k = b at hx
  have hind : w.din.addrs NDIRECT ≠ 0 → w.blk.put b (x.blit (off % BSIZE) m src)
      (w.din.addrs NDIRECT) = w.blk (w.din.addrs NDIRECT) := by
    intro h0
    refine put_of_ne _ _ ?_
    rw [← hb]
    by_cases hn : NDIRECT < n
    · exact (hm.apart hn k hk).symm
    · exact absurd (hm.zero NDIRECT le_rfl (by omega)) h0
  have hat : ∀ i, addrAt (w.blk.put b (x.blit (off % BSIZE) m src)) w.din i =
      addrAt w.blk w.din i := addrAt_congr (fun _ _ => rfl) hind
  have huses : ∀ c, Uses (w.blk.put b (x.blit (off % BSIZE) m src)) w.din n c ↔
      Uses w.blk w.din n c := uses_congr (fun _ _ => rfl) hind n
  have hown : ∀ c, w.blk c ≠ none → w.blk.put b (x.blit (off % BSIZE) m src) c ≠ none := by
    intro c hc
    by_cases hcb : c = b
    · subst hcb
      simp
    · rwa [put_of_ne _ _ hcb]
  have hmap : Mapped (w.blk.put b (x.blit (off % BSIZE) m src)) w.din n :=
    hm.congr (fun _ _ => rfl) hind fun c hc => hown c (hm.own c hc).1
  refine ⟨⟨hmap, le_rfl, rfl, fun _ => rfl, rfl, rfl, fun i _ => hat i, fun _ => rfl, ?_, ?_⟩, ?_, ?_,
    nodup_note⟩
  · intro c hc
    refine put_of_ne _ _ ?_
    rintro rfl
    exact hc ((huses _).2 (hb ▸ Uses.addr hk))
  · intro c hc
    exact .inl ((huses c).1 hc)
  · intro i
    simp only [Work.byte]
    by_cases hi : i < n * BSIZE
    · rw [if_pos hi, if_pos hi, byteAt, byteAt, hat]
      by_cases hik : i / BSIZE = k
      · have hdi := div_add_mod i BSIZE
        rw [hik] at hdi ⊢
        rw [hoff] at hdiv
        rw [hb, hx]
        have hself : w.blk.put b (x.blit (off % BSIZE) m src) b =
            some (x.blit (off % BSIZE) m src) := by simp
        simp only [hself, Bytes.get_blit _ _ _ _ (mod_lt i hpos)]
        by_cases hin : off ≤ i ∧ i < off + m
        · rw [if_pos hin, if_pos (by omega)]
          congr 1
          omega
        · rw [if_neg hin, if_neg (by omega)]
      · have hne : addrAt w.blk w.din (i / BSIZE) ≠ b := by
          intro he
          rw [← hb] at he
          exact hik (hm.inj _ _ ((div_lt_iff_lt_mul hpos).2 hi) hk he)
        rw [put_of_ne _ _ hne, if_neg]
        rintro ⟨h1, h2⟩
        apply hik
        rw [Nat.div_eq_iff hpos, ← hoff, Nat.mul_comm]
        omega
    · rw [if_neg hi, if_neg hi, if_neg]
      rintro ⟨h1, h2⟩
      apply hi
      rw [← div_lt_iff_lt_mul hpos]
      have hik : i / BSIZE = k := by
        rw [Nat.div_eq_iff hpos, ← hoff, Nat.mul_comm]
        omega
      omega
  · intro c
    show c ∈ note b w.lh ↔ _
    rw [mem_note]
    have hblock : ∀ i, off ≤ i → i < off + m → i / BSIZE = k := by
      intro i h1 h2
      rw [Nat.div_eq_iff hpos, ← hoff, Nat.mul_comm]
      omega
    constructor
    · rintro (rfl | hc)
      · refine .inr (.inl ⟨off, le_rfl, by omega, ?_⟩)
        rw [hat, hoff, hb]
      · exact .inl hc
    · rintro (hc | ⟨i, h1, h2, rfl⟩ | ⟨hlt, -⟩)
      · exact .inr hc
      · left
        rw [hat, hblock i h1 h2, hb]
      · omega

theorem Added.byte (h : Added w w' n) (i : Nat) : w'.byte (n + 1) i = w.byte n i := by
  have hpos : 0 < BSIZE := by decide
  simp only [Work.byte, byteAt]
  by_cases hi : i < n * BSIZE
  · have hlt : i / BSIZE < n := (div_lt_iff_lt_mul hpos).2 hi
    rw [if_pos hi, if_pos (by rw [succ_mul]; omega), h.grows.addr _ hlt, h.data _ hlt]
  · rw [if_neg hi]
    by_cases hi' : i < (n + 1) * BSIZE
    · have hq : i / BSIZE = n := by
        rw [Nat.div_eq_iff hpos]
        rw [succ_mul] at hi'
        omega
      rw [if_pos hi', hq, h.new]
      exact Bytes.get_zero _
    · rw [if_neg hi']

theorem Wrote.refl (hm : Mapped w.blk w.din n) (src : Nat → UInt8) :
    Wrote w w n n src off 0 := by
  refine ⟨.refl hm, fun i => ?_, fun b => ?_, id⟩
  · rw [if_neg (by omega)]
  · refine ⟨.inl, ?_⟩
    rintro (hb | ⟨i, h1, h2, -⟩ | ⟨h1, -⟩)
    · exact hb
    · omega
    · omega

theorem Added.wrote (h : Added w w' n) {m : Nat}
    (h' : Wrote w' w'' (n + 1) (n + 1) src off m) (hoff : off / BSIZE = n) (hm : 0 < m) :
    Wrote w w'' n (n + 1) src off m := by
  have hg := h'.grows
  refine ⟨h.grows.trans hg, fun i => ?_, fun b => ?_, fun hnd => h'.logs.nodup (h.logs.nodup hnd)⟩
  · rw [h'.bytes, h.byte]
  · rw [h'.logs.mem, h.logs.mem, ← hg.addr n (by omega)]
    constructor
    · rintro ((hb | rfl | rfl | ⟨h1, rfl⟩) | hb | ⟨h1, -⟩)
      · exact .inl hb
      · exact .inr (.inr ⟨by omega, .inl rfl⟩)
      · exact .inr (.inl ⟨off, le_rfl, by omega, by rw [hoff]⟩)
      · exact .inr (.inr ⟨by omega, .inr ⟨by omega, (hg.indirect (by omega)).symm⟩⟩)
      · exact .inr (.inl hb)
      · omega
    · rintro (hb | hb | ⟨h1, rfl | ⟨h2, rfl⟩⟩)
      · exact .inl (.inl hb)
      · exact .inr (.inl hb)
      · exact .inl (.inr (.inl rfl))
      · exact .inl (.inr (.inr (.inr ⟨by omega, hg.indirect h2⟩)))

theorem follows_writeBlock {α : Type} (hm : Mapped w.blk w.din n) {m : Nat}
    (hm0 : 0 < m) (hmB : off % BSIZE + m ≤ BSIZE) (hoff : off ≤ n * BSIZE)
    (hmax : off < MAXFILE * BSIZE) {f : FsM α} {Q : α → Work → Prop}
    (h : ∀ w', Wrote w w' n (max n (off / BSIZE + 1)) src off m → f.Follows (Work.rules ip) Q w') :
    (bmap ip (off / BSIZE) >>= fun b => bread b >>= fun x =>
      logWrite b (x.blit (off % BSIZE) m src) >>= fun _ => f).Follows (Work.rules ip) Q w := by
  have hpos : 0 < BSIZE := by decide
  have hkM : off / BSIZE < MAXFILE := (div_lt_iff_lt_mul hpos).2 hmax
  by_cases hk : off / BSIZE < n
  · obtain ⟨x, hx⟩ := ne_none_iff_exists'.1 (hm.own _ (Uses.addr hk)).1
    refine .bind (follows_of_reads (reads_bmap hm hk (.bind (follows_bread hx ?_))))
    refine .bind (follows_logWrite (hm.own _ (.addr hk)).1 (h _ ?_))
    rw [max_eq_left (by omega)]
    exact .block hm hk hx rfl hm0 hmB
  · have hkn : off / BSIZE = n := by
      have := Nat.div_le_of_le_mul (show off ≤ BSIZE * n by rwa [Nat.mul_comm])
      omega
    rw [hkn] at h hkM ⊢
    refine .bind (follows_bmap_eq hm hkM fun w' ha => ?_)
    refine .bind (follows_bread ha.new ?_)
    refine .bind (follows_logWrite (by simp [ha.new]) (h _ ?_))
    rw [max_eq_right (by omega)]
    exact ha.wrote (.block ha.grows.mapped (by omega) ha.new hkn hm0 hmB) hkn hm0

/-- **Writing puts the bytes there, and adds the blocks they need.** -/
theorem follows_writeLoop (hm : Mapped w.blk w.din n) {fuel : Nat}
    (hf : len ≤ fuel) (hoff : off ≤ n * BSIZE) (hmax : off + len ≤ MAXFILE * BSIZE)
    (h : ∀ w', Wrote w w' n (max n (nblocks (off + len))) src off len → Q () w') :
    (writeLoop ip fuel src off len).Follows (Work.rules ip) Q w := by
  have hpos : 0 < BSIZE := by decide
  induction fuel generalizing off len src n w with
  | zero =>
    obtain rfl : len = 0 := by omega
    refine h w ?_
    rw [add_zero, max_eq_left (nblocks_le_iff.2 hoff)]
    exact .refl hm src
  | succ fuel ih =>
    rw [writeLoop]
    by_cases h0 : len = 0
    · subst h0
      refine h w ?_
      rw [add_zero, max_eq_left (nblocks_le_iff.2 hoff)]
      exact .refl hm src
    · simp only [if_neg h0]
      have hmod := mod_lt off hpos
      have hdiv := div_add_mod off BSIZE
      generalize hmin : min len (BSIZE - off % BSIZE) = m
      have hm0 : 0 < m := by omega
      have hmB : off % BSIZE + m ≤ BSIZE := by omega
      refine follows_writeBlock hm hm0 hmB hoff (by omega) fun w' hw => ?_
      generalize hn' : max n (off / BSIZE + 1) = n' at hw
      have hoff' : off + m ≤ n' * BSIZE := by
        refine le_trans ?_ (mul_le_mul_right BSIZE (show off / BSIZE + 1 ≤ n' by omega))
        rw [succ_mul, mul_comm]
        omega
      refine ih hw.grows.mapped (by omega) hoff' (by omega) fun w'' hw' => h w'' ?_
      have hlen : off + m + (len - m) = off + len := by omega
      have hmax' : max n' (nblocks (off + len)) = max n (nblocks (off + len)) := by
        have : off / BSIZE < nblocks (off + len) := by
          rw [← not_le, nblocks_le_iff, mul_comm]
          omega
        omega
      rw [hlen, hmax'] at hw'
      exact hw.trans hw' (by omega) hoff'

/-- What `writei` refuses to write. -/
def Refused (d : Dinode) (off n : Nat) : Prop :=
  d.size < off ∨ 2 ^ 32 ≤ off + n ∨ MAXFILE * BSIZE < off + n

/-- What `writei` has to do with a file without holes. -/
theorem follows_writei_work {m : Nat} (hm : Mapped w.blk w.din m)
    (hsize : nblocks w.din.size = m) (ht : w.din.type ≠ 0) (hdev : w.din.type ≠ T_DEV)
    (hok : ¬ Refused w.din off n) :
    (writei ip src off n).Follows (Work.rules ip) (fun _ w' => ∃ w₁,
      Wrote w w₁ m (max m (nblocks (off + n))) src off n ∧ w' = if 0 < n ∧ w.din.size < off + n then
          { w₁ with
            din := { w₁.din with size := off + n }
            disk := { w₁.din with size := off + n }
            lh := note (iblock w.inum) w₁.lh }
        else w₁) w := by
  simp only [Refused, not_or, not_lt, not_le] at hok
  obtain ⟨hoff, hwrap, hmax⟩ := hok
  refine .bind (follows_getInode ?_)
  rw [if_neg hdev, if_neg (by omega), if_neg (by omega)]
  have hle := le_nblocks_mul w.din.size
  rw [hsize] at hle
  refine .bind (follows_writeLoop hm le_rfl (by omega) hmax fun w₁ hw => ?_)
  have hg := hw.grows
  refine .bind (follows_getInode ?_)
  have hsz : w₁.din.size = w.din.size := by rw [hg.din]
  rw [hsz]
  split
  next hgrow =>
    refine .bind (.bind (follows_setInode (follows_iupdate ?_ ?_)))
    · show w₁.din.type ≠ 0
      rw [hg.din]
      exact ht
    · refine ⟨w₁, hw, ?_⟩
      rw [← hg.inum]
  next => exact ⟨w₁, hw, rfl⟩

end ReadWrite

/-! ## `itrunc` -/

/-- What `itrunc` leaves of a file of `n` blocks. -/
structure Emptied (w w' : Work) (n : Nat) : Prop where
  din : w'.din = { w.din with size := 0, addrs := w'.din.addrs }
  addrs : ∀ i ≤ NDIRECT, w'.din.addrs i = 0
  disk : w'.disk = w'.din
  inum : w'.inum = w.inum
  gone : ∀ b, Uses w.blk w.din n b → w'.blk b = none
  frame : ∀ b, ¬ Uses w.blk w.din n b → w'.blk b = w.blk b

/-- The blocks of the file with a number below `j` are free. -/
structure Cut (w w' : Work) (n j : Nat) : Prop where
  disk : w'.disk = w.disk
  inum : w'.inum = w.inum
  gone : ∀ i < n, i < j → w'.blk (addrAt w.blk w.din i) = none
  frame : ∀ b, (∀ i < n, i < j → addrAt w.blk w.din i ≠ b) → w'.blk b = w.blk b

section Itrunc

variable {ip : IRef} {w w' : Work} {n j : Nat}

/-- The next block is still there. -/
theorem Cut.own (h : Cut w w' n j) (hm : Mapped w.blk w.din n) (hj : j < n) :
    w'.blk (addrAt w.blk w.din j) ≠ none := by
  rw [h.frame]
  · exact (hm.own _ (.addr hj)).1
  · intro i hi hij he
    have := hm.inj i j hi hj he
    omega

theorem Cut.succ (h : Cut w w' n j) (hj : j < n) {w'' : Work} (hd : w''.disk = w'.disk)
    (hi : w''.inum = w'.inum) (hb : w''.blk = w'.blk.erase (addrAt w.blk w.din j)) :
    Cut w w'' n (j + 1) where
  disk := hd.trans h.disk
  inum := hi.trans h.inum
  gone i hi hij := by
    rw [hb]
    by_cases he : addrAt w.blk w.din i = addrAt w.blk w.din j
    · rw [he]
      simp
    · rw [erase_of_ne _ he]
      refine h.gone i hi ?_
      have : i ≠ j := fun heq => he (by rw [heq])
      omega
  frame b hne := by
    rw [hb, erase_of_ne _ (hne j hj (by omega)).symm]
    exact h.frame b fun i hi hij => hne i hi (by omega)

theorem Cut.skip (h : Cut w w' n j) (hj : n ≤ j) {w'' : Work} (hd : w''.disk = w'.disk)
    (hi : w''.inum = w'.inum) (hb : w''.blk = w'.blk) : Cut w w'' n (j + 1) where
  disk := hd.trans h.disk
  inum := hi.trans h.inum
  gone i hi _ := by
    rw [hb]
    exact h.gone i hi (by omega)
  frame b hne := by
    rw [hb]
    exact h.frame b fun i hi _ => hne i hi (by omega)

/-- The first loop of `itrunc`. -/
theorem follows_truncDirects (hm : Mapped w.blk w.din n) :
    ((List.range NDIRECT).forM (truncDirect ip)).Follows (Work.rules ip)
      (fun _ w' => Cut w w' n NDIRECT ∧ w'.din =
        { w.din with addrs := fun i => if i < NDIRECT then 0 else w.din.addrs i }) w := by
  refine Script.follows_forM_range (I := fun j w' => Cut w w' n j ∧
    w'.din = { w.din with addrs := fun i => if i < j then 0 else w.din.addrs i }) ?_ ?_
  · rintro j w' hj ⟨hc, hd⟩
    have hat : addrAt w.blk w.din j = w.din.addrs j := addrAt_of_lt hj
    have hset : ∀ d', (∀ i, i < j → d' i = 0) → d' j = 0 → (∀ i, j < i → d' i = w.din.addrs i) →
        d' = fun i => if i < j + 1 then 0 else w.din.addrs i := by
      intro d' h1 h2 h3
      funext i
      obtain h | rfl | h := lt_trichotomy i j
      · rw [h1 i h, if_pos (by omega)]
      · rw [h2, if_pos (by omega)]
      · rw [h3 i h, if_neg (by omega)]
    have haj : w'.din.addrs j = w.din.addrs j := by rw [hd]; exact if_neg (lt_irrefl j)
    refine .bind (follows_getInode ?_)
    by_cases hjn : j < n
    · have hne := hm.addrAt_ne_zero hjn
      rw [haj, ← hat, if_pos hne]
      refine .bind (follows_bfree (hc.own hm hjn) (follows_setInode ⟨hc.succ hjn rfl rfl rfl, ?_⟩))
      show w'.din.setAddr j 0 = _
      rw [hd, Dinode.setAddr]
      congr 1
      refine hset _ (fun i hi => ?_) (update_self _ _ _) fun i hi => ?_
      · rw [update_of_ne (by omega)]
        exact if_pos hi
      · rw [update_of_ne (by omega)]
        exact if_neg (by omega)
    · have hz := hm.zero j hj.le (by omega)
      rw [haj, if_neg (not_not.2 hz)]
      refine ⟨hc.skip (by omega) rfl rfl rfl, ?_⟩
      have heq := hset (fun i => if i < j then 0 else w.din.addrs i) (fun i hi => if_pos hi)
        ((if_neg (lt_irrefl j)).trans hz) fun i hi => if_neg (by omega)
      rw [hd, ← heq]
  · exact ⟨⟨rfl, rfl, by omega, fun _ _ => rfl⟩, by simp⟩

/-- The second loop of `itrunc`. -/
theorem follows_truncIndirects (hm : Mapped w.blk w.din n) (hn : NDIRECT < n) {a : Block}
    (ha : w.blk (w.din.addrs NDIRECT) = some a) (hc : Cut w w' n NDIRECT) :
    ((List.range NINDIRECT).forM (truncIndirect a)).Follows (Work.rules ip)
      (fun _ w'' => Cut w w'' n MAXFILE ∧ w''.din = w'.din) w' := by
  have hM : MAXFILE = NDIRECT + NINDIRECT := rfl
  have hind := hm.indirect_ne_zero hn
  have hent : ∀ j, entry w.blk (w.din.addrs NDIRECT) j = (a.get32 (4 * j)).toNat := by
    intro j
    rw [entry, ha]
  rw [hM]
  refine Script.follows_forM_range (I := fun j w'' => Cut w w'' n (NDIRECT + j) ∧
    w''.din = w'.din) ?_ ⟨hc, rfl⟩
  rintro j w'' hj ⟨hc', hd⟩
  have hat : addrAt w.blk _ (NDIRECT + j) = _ := addrAt_of_ge (by omega) hind
  rw [Nat.add_sub_cancel_left, hent] at hat
  rw [truncIndirect]
  by_cases hjn : NDIRECT + j < n
  · have hne : a.get32 (4 * j) ≠ 0 := by
      intro h0
      have := hm.addrAt_ne_zero hjn
      rw [hat, h0] at this
      exact this rfl
    rw [if_pos hne, ← hat]
    exact follows_bfree (hc'.own hm hjn) ⟨hc'.succ hjn rfl rfl rfl, hd⟩
  · have hz : a.get32 (4 * j) = 0 := by
      have := hm.entries j hj (by omega) hind
      rw [hent] at this
      exact UInt32.toNat_inj.1 this
    rw [if_neg (not_not.2 hz)]
    exact ⟨hc'.skip (by omega) rfl rfl rfl, hd⟩

/-- **`itrunc` leaves nothing of the file, and everything else.** -/
theorem follows_itrunc (hm : Mapped w.blk w.din n) (ht : w.din.type ≠ 0)
    (h : ∀ w', Emptied w w' n → Q () w') : (itrunc ip).Follows (Work.rules ip) Q w := by
  have hle := hm.le
  -- what is left to do once all the blocks are free
  have hend : ∀ w', w'.din = { w.din with addrs := w'.din.addrs } →
      (∀ i ≤ NDIRECT, w'.din.addrs i = 0) → w'.inum = w.inum →
      (∀ b, Uses w.blk w.din n b → w'.blk b = none) →
      (∀ b, ¬ Uses w.blk w.din n b → w'.blk b = w.blk b) →
      (getInode ip >>= fun d => setInode ip { d with size := 0 } >>= fun _ => iupdate ip).Follows
        (Work.rules ip) Q w' := by
    intro w' hd ha hi hg hf
    refine .bind (follows_getInode (.bind (follows_setInode (follows_iupdate ?_ (h _ ?_)))))
    · rw [hd]
      exact ht
    · refine ⟨?_, ha, rfl, hi, hg, hf⟩
      rw [hd]
  refine .bind (.mono (follows_truncDirects hm) ?_)
  rintro - w1 ⟨hc, hd1⟩
  have hind1 : w1.din.addrs NDIRECT = w.din.addrs NDIRECT := by simp [hd1]
  have hz1 : ∀ i < NDIRECT, w1.din.addrs i = 0 := by
    intro i hi
    rw [hd1]
    exact if_pos hi
  refine .bind (follows_getInode ?_)
  rw [hind1]
  by_cases hn : NDIRECT < n
  · have hne := hm.indirect_ne_zero hn
    have huse := hm.own _ (Uses.indirect hn)
    obtain ⟨a, ha⟩ := ne_none_iff_exists'.1 huse.1
    have hout : ∀ i < n, addrAt w.blk w.din i ≠ w.din.addrs NDIRECT := hm.apart hn
    have ha1 : w1.blk (w.din.addrs NDIRECT) = some a := by
      rw [hc.frame _ fun i hi _ => hout i hi, ha]
    rw [if_pos hne]
    refine .bind (.bind (follows_bread ha1 (.bind
      (Script.Follows.mono (follows_truncIndirects hm hn ha hc) ?_))))
    rintro - w2 ⟨hc2, hd2⟩
    have ha2 : w2.blk (w.din.addrs NDIRECT) ≠ none := by
      rw [hc2.frame _ fun i hi _ => hout i hi]
      exact huse.1
    refine .bind (follows_bfree ha2 (follows_setInode (hend _ ?_ ?_ hc2.inum ?_ ?_)))
    · show Dinode.setAddr _ _ _ = _
      rw [hd2, hd1]
      rfl
    · intro i hi
      show (Dinode.setAddr _ _ _).addrs i = 0
      rw [setAddr_addrs]
      split
      · rfl
      · exact hz1 i (by omega)
    · intro b hb
      show w2.blk.erase _ b = none
      obtain ⟨i, hi, rfl⟩ | ⟨-, rfl⟩ := hb
      · rw [erase_of_ne _ (hout i hi)]
        exact hc2.gone i hi (by omega)
      · simp
    · intro b hb
      show w2.blk.erase _ b = _
      rw [erase_of_ne _ fun he => hb (.inr ⟨hn, he.symm⟩)]
      exact hc2.frame b fun i hi _ he => hb (.inl ⟨i, hi, he⟩)
  · have hz := hm.zero NDIRECT le_rfl (by omega)
    rw [if_neg (not_not.2 hz)]
    refine .bind (hend w1 ?_ ?_ hc.inum ?_ ?_)
    · rw [hd1]
    · intro i hi
      obtain hi | rfl := lt_or_eq_of_le hi
      · exact hz1 i hi
      · rw [hind1, hz]
    · rintro b (⟨i, hi, rfl⟩ | ⟨hlt, -⟩)
      · exact hc.gone i hi (by omega)
      · exact absurd hlt hn
    · intro b hb
      exact hc.frame b fun i hi _ he => hb (.inl ⟨i, hi, he⟩)

end Itrunc

end Xv6.Fs
