import OperatingSystems.Lib.Bytes
import OperatingSystems.Lib.Machine
import OperatingSystems.Lib.Writes
import Mathlib.Data.List.Nodup
import Mathlib.Tactic.Common

/-!
# The disk and the buffer cache

The model of `bio.c`, and of `iderw` for a disk that carries out a request before
the caller goes on.  The cache is the list of its `NBUF` buffers, the most
recently used one first.

The code above the cache sees less of it: of every block, what it reads, whether
it is pinned by `B_DIRTY`, and whether someone has it.  That is `Bio.view`, and
every operation of the cache is a simple change to it.

* `view_bread`, `view_update`, `view_brelse`, `view_bwrite`: what the operations do
  to the view and to the disk.
* `Bio.Coherent`: a block that is not pinned, and that no one is changing, reads as
  it is on the disk.
-/

namespace Xv6

open List

/-- `BSIZE`: the size of a block. -/
def BSIZE : Nat := 512

/-- `MAXOPBLOCKS`: the most blocks an operation writes. -/
def MAXOPBLOCKS : Nat := 10

/-- `LOGSIZE`: the most data blocks in the log on the disk. -/
def LOGSIZE : Nat := MAXOPBLOCKS * 3

/-- `NBUF`: the size of the buffer cache. -/
def NBUF : Nat := MAXOPBLOCKS * 3

/-- `FSSIZE`: the size of the file system in blocks. -/
def FSSIZE : Nat := 1000

abbrev Blockno := UInt32

abbrev Block := Bytes BSIZE

abbrev Disk := Blockno → Block

/-- A buffer.  `binit` gives it the device `-1`, so that it is found under no block
number; later it is found under the number of its block. -/
structure Buf where
  blockno : Option Blockno
  busy : Bool
  valid : Bool
  dirty : Bool
  data : Block

namespace Buf

/-- The buffer is taken by a process. -/
@[simps blockno]
def take (x : Buf) : Buf := { x with busy := true }

/-- `iderw` for a buffer `bget` gave: it is read from the disk unless it is valid. -/
def fill (d : Block) (x : Buf) : Buf :=
  if x.valid then x else { x with data := d, valid := true, dirty := false }

/-- `iderw` for a buffer that is written. -/
@[simps blockno]
def written (x : Buf) : Buf := { x with valid := true, dirty := false }

/-- The data is changed. -/
@[simps blockno]
def put (d : Block) (x : Buf) : Buf := { x with data := d }

/-- The buffer is free. -/
@[simps blockno]
def free (x : Buf) : Buf := { x with busy := false }

/-- The buffer is pinned by `B_DIRTY`. -/
@[simps blockno]
def pin (x : Buf) : Buf := { x with dirty := true }

@[simp] theorem fill_blockno (d : Block) (x : Buf) : (x.fill d).blockno = x.blockno := by
  unfold fill
  split <;> rfl

end Buf

/-- The calls of `panic` in the buffer cache and the log. -/
inductive Panic
  | bgetNoBuffers
  | bwrite
  | brelse
  | tooBigATransaction
  | logWriteOutsideOfTrans
  | logCommitting
deriving DecidableEq

/-- The text of the panic. -/
def Panic.text : Panic → String
  | bgetNoBuffers => "bget: no buffers"
  | bwrite => "bwrite"
  | brelse => "brelse"
  | tooBigATransaction => "too big a transaction"
  | logWriteOutsideOfTrans => "log_write outside of trans"
  | logCommitting => "log.committing"

/-- Why a call does not go on: it sleeps until someone else has acted, or it
panics. -/
inductive Halt
  | sleep
  | panic (why : Panic)
deriving DecidableEq

/-- The disk and the buffer cache. -/
structure Bio where
  disk : Disk
  bcache : List Buf

variable {T' : Blockno → Prop} {f : Buf → Buf}

namespace Bio

/-- `binit`. -/
def binit (disk : Disk) : Bio :=
  ⟨disk, replicate NBUF ⟨none, false, false, false, .zero⟩⟩

/-- The buffer of a block. -/
def find (io : Bio) (b : Blockno) : Option Buf :=
  io.bcache.find? fun x => x.blockno = some b

/-- Change the buffer of a block. -/
def update (io : Bio) (b : Blockno) (f : Buf → Buf) : Bio :=
  { io with bcache := io.bcache.map fun x => if x.blockno = some b then f x else x }

/-- Give the block the least recently used buffer that is neither busy nor dirty. -/
def recycle (b : Blockno) : List Buf → Option (List Buf)
  | [] => none
  | x :: xs =>
    match recycle b xs with
    | some xs' => some (x :: xs')
    | none =>
      if x.busy = false ∧ x.dirty = false then
        some ({ x with blockno := some b, busy := true, valid := false, dirty := false } :: xs)
      else none

/-- `bget`. -/
def bget (io : Bio) (b : Blockno) : Except Halt Bio :=
  match io.find b with
  | some x => if x.busy then .error .sleep else .ok (io.update b Buf.take)
  | none =>
    match recycle b io.bcache with
    | some bcache => .ok { io with bcache }
    | none => .error (.panic .bgetNoBuffers)

/-- `bread`: a buffer that is not valid is read from the disk. -/
def bread (io : Bio) (b : Blockno) : Except Halt Bio := do
  let io ← io.bget b
  return io.update b (Buf.fill (io.disk b))

/-- `bwrite`. -/
def bwrite (io : Bio) (b : Blockno) : Except Halt Bio :=
  match io.find b with
  | some x =>
    if x.busy then
      .ok { io.update b Buf.written with disk := Function.update io.disk b x.data }
    else .error (.panic .bwrite)
  | none => .error (.panic .bwrite)

/-- `brelse`: the buffer becomes the most recently used one. -/
def brelse (io : Bio) (b : Blockno) : Except Halt Bio :=
  match io.find b with
  | some x =>
    if x.busy then
      .ok { io with bcache := x.free :: io.bcache.eraseP fun y => y.blockno = some b }
    else .error (.panic .brelse)
  | none => .error (.panic .brelse)

/-- `memmove` from the buffer of one block to that of another. -/
def memmove (io : Bio) (dst src : Blockno) : Bio :=
  match io.find src with
  | some x => io.update dst (Buf.put x.data)
  | none => io

/-! ## What is seen of the cache -/

/-- What is seen of a block: what a reader gets, whether it is pinned in the cache
and whether someone has its buffer. -/
structure View where
  data : Block
  dirty : Bool
  busy : Bool

/-- The view of every block. -/
def view (io : Bio) (b : Blockno) : View :=
  match io.find b with
  | some x => ⟨x.data, x.dirty, x.busy⟩
  | none => ⟨io.disk b, false, false⟩

/-- No block has two buffers, and a buffer with a block is valid. -/
structure Wf (io : Bio) : Prop where
  unique : io.bcache.Pairwise fun x y => x.blockno = none ∨ x.blockno ≠ y.blockno
  valid : ∀ x ∈ io.bcache, x.blockno ≠ none → x.valid = true

/-- A block that is not pinned, and that no one is changing, reads as it is on the
disk.  `T` are the blocks someone is changing. -/
structure Coherent (io : Bio) (T : Blockno → Prop) : Prop extends Wf io where
  clean : ∀ b, ¬ T b → (io.view b).dirty = false → (io.view b).data = io.disk b
  busy : ∀ b, T b → (io.view b).busy = true

variable {io io' : Bio} {b b' : Blockno} {x : Buf} {T : Blockno → Prop}

/-! ## Looking up buffers -/

theorem find_mem (h : io.find b = some x) : x ∈ io.bcache := mem_of_find?_eq_some h

theorem find_blockno (h : io.find b = some x) : x.blockno = some b := by
  simpa using find?_some h

theorem find_eq_none : io.find b = none ↔ ∀ x ∈ io.bcache, x.blockno ≠ some b := by
  simp [find, find?_eq_none]

@[simp] theorem update_disk (f : Buf → Buf) : (io.update b f).disk = io.disk := rfl

theorem find_update (hf : ∀ x, (f x).blockno = x.blockno) :
    (io.update b f).find b' = if b' = b then (io.find b').map f else io.find b' := by
  have hp : (fun x : Buf => decide (x.blockno = some b')) ∘
      (fun x => if x.blockno = some b then f x else x) = fun x => decide (x.blockno = some b') := by
    funext x
    simp only [Function.comp]
    split
    · rw [hf]
    · rfl
  unfold find update
  rw [find?_map, hp]
  cases h : io.bcache.find? fun x => decide (x.blockno = some b') with
  | none => simp
  | some x =>
    have hx : x.blockno = some b' := by simpa using find?_some h
    by_cases hb : b' = b <;> simp [hx, hb]

theorem unique_update (hf : ∀ x, (f x).blockno = x.blockno)
    (hu : io.bcache.Pairwise fun x y => x.blockno = none ∨ x.blockno ≠ y.blockno) :
    (io.update b f).bcache.Pairwise fun x y => x.blockno = none ∨ x.blockno ≠ y.blockno := by
  have hblock : ∀ x : Buf, (if x.blockno = some b then f x else x).blockno = x.blockno := by
    intro x
    split
    · exact hf x
    · rfl
  simp only [Bio.update, pairwise_map, hblock]
  exact hu

theorem Wf.update (hw : io.Wf) (hf : ∀ x, (f x).blockno = x.blockno)
    (hv : ∀ x, x.valid = true → (f x).valid = true) : (io.update b f).Wf := by
  refine ⟨unique_update hf hw.unique, ?_⟩
  intro y hy hne
  obtain ⟨x, hx, rfl⟩ := mem_map.1 hy
  by_cases hb : x.blockno = some b
  · simp only [if_pos hb]
    exact hv x (hw.valid x hx (by simp [hb]))
  · simp only [if_neg hb] at hne ⊢
    exact hw.valid x hx hne

/-- The victim of `recycle`. -/
theorem recycle_spec {l l' : List Buf} (h : recycle b l = some l') :
    ∃ l₁ x l₂, l = l₁ ++ x :: l₂ ∧ x.busy = false ∧ x.dirty = false ∧
      l' = l₁ ++ { x with blockno := some b, busy := true, valid := false, dirty := false } :: l₂ := by
  induction l generalizing l' with
  | nil => simp [recycle] at h
  | cons y ys ih =>
    rw [recycle] at h
    cases hr : recycle b ys with
    | none =>
      rw [hr] at h
      simp only [Option.ite_none_right_eq_some, Option.some.injEq] at h
      obtain ⟨⟨hbusy, hdirty⟩, rfl⟩ := h
      exact ⟨[], y, ys, rfl, hbusy, hdirty, rfl⟩
    | some ys' =>
      rw [hr] at h
      cases h
      obtain ⟨l₁, x, l₂, rfl, hbusy, hdirty, rfl⟩ := ih hr
      exact ⟨y :: l₁, x, l₂, rfl, hbusy, hdirty, rfl⟩

theorem view_of_find (h : io.find b = some x) : io.view b = ⟨x.data, x.dirty, x.busy⟩ := by
  simp [view, h]

theorem view_of_find_none (h : io.find b = none) : io.view b = ⟨io.disk b, false, false⟩ := by
  simp [view, h]

theorem find_of_busy (h : (io.view b).busy = true) :
    ∃ x, io.find b = some x ∧ x.busy = true ∧ io.view b = ⟨x.data, x.dirty, x.busy⟩ := by
  cases hf : io.find b with
  | none => simp [view_of_find_none hf] at h
  | some x =>
    rw [view_of_find hf] at h
    exact ⟨x, rfl, h, view_of_find hf⟩

theorem Wf.find_recycle (hw : io.Wf) (hb : io.find b = none) {l : List Buf}
    (h : recycle b io.bcache = some l) :
    (∃ x : Buf, ({ io with bcache := l } : Bio).find b = some x ∧ x.valid = false ∧ x.busy = true) ∧
    ∀ b', b' ≠ b → ({ io with bcache := l } : Bio).find b' = io.find b' ∨
      ({ io with bcache := l } : Bio).find b' = none ∧
        ∃ x, io.find b' = some x ∧ x.busy = false ∧ x.dirty = false := by
  obtain ⟨l₁, x, l₂, hl, hbusy, hdirty, rfl⟩ := recycle_spec h
  have hnone := find_eq_none.1 hb
  have huniq := hw.unique
  simp only [find, hl, find?_append, find?_cons] at hnone huniq ⊢
  rw [pairwise_append, pairwise_cons] at huniq
  obtain ⟨-, ⟨hx₂, -⟩, hx₁⟩ := huniq
  constructor
  · have h₁ : l₁.find? (fun y => decide (y.blockno = some b)) = none := by
      rw [find?_eq_none]
      intro y hy
      simpa using hnone y (by simp [hy])
    exact ⟨{ x with blockno := some b, busy := true, valid := false, dirty := false },
      by simp [h₁], rfl, rfl⟩
  · intro b' hne
    by_cases hxb : x.blockno = some b'
    · right
      have h₁ : l₁.find? (fun y => decide (y.blockno = some b')) = none := by
        rw [find?_eq_none]
        intro y hy
        rcases hx₁ y hy x mem_cons_self with h | h
        · simp [h]
        · simpa [hxb] using h
      have h₂ : l₂.find? (fun y => decide (y.blockno = some b')) = none := by
        rw [find?_eq_none]
        intro y hy
        rcases hx₂ y hy with h | h
        · simp [h] at hxb
        · simpa [hxb, eq_comm] using h
      exact ⟨by simp [h₁, h₂, hne.symm], x, by simp [h₁, hxb], hbusy, hdirty⟩
    · left
      simp [hxb, hne.symm]

theorem Wf.recycle_unique (hw : io.Wf) (hb : io.find b = none) {l : List Buf}
    (h : recycle b io.bcache = some l) :
    l.Pairwise fun x y => x.blockno = none ∨ x.blockno ≠ y.blockno := by
  obtain ⟨l₁, x, l₂, hl, -, -, rfl⟩ := recycle_spec h
  have hnone := find_eq_none.1 hb
  have huniq := hw.unique
  rw [hl] at hnone huniq
  rw [pairwise_append, pairwise_cons] at huniq ⊢
  obtain ⟨h₁, ⟨-, h₂⟩, h₃⟩ := huniq
  refine ⟨h₁, ⟨?_, h₂⟩, ?_⟩
  · intro y hy
    exact .inr fun heq => hnone y (by simp [hy]) heq.symm
  · intro y hy z hz
    rcases mem_cons.1 hz with rfl | hz
    · exact .inr fun heq => hnone y (by simp [hy]) heq
    · exact h₃ y hy z (mem_cons_of_mem _ hz)

/-! ## The operations and the view -/

theorem view_update (hf : ∀ x, (f x).blockno = x.blockno) (hx : io.find b = some x) :
    (io.update b f).view = Function.update io.view b ⟨(f x).data, (f x).dirty, (f x).busy⟩ := by
  funext b'
  by_cases hb : b' = b
  · subst hb
    rw [Function.update_self]
    exact view_of_find (by simp [find_update hf, hx])
  · rw [Function.update_of_ne hb]
    simp [view, find_update hf, hb]

theorem bread_cases (h : io.bread b = .ok io') : (∃ x, io.find b = some x ∧ x.busy = false ∧
      io' = (io.update b Buf.take).update b (Buf.fill (io.disk b))) ∨
    (io.find b = none ∧ ∃ l, recycle b io.bcache = some l ∧
      io' = ({ io with bcache := l } : Bio).update b (Buf.fill (io.disk b))) := by
  unfold bread bget at h
  cases hf : io.find b with
  | some x =>
    cases hbusy : x.busy with
    | true => simp [hf, hbusy, bind, Except.bind] at h
    | false =>
      simp only [hf, hbusy, bind, Except.bind, Bool.false_eq_true, if_false] at h
      cases h
      exact .inl ⟨x, rfl, hbusy, rfl⟩
  | none =>
    cases hr : recycle b io.bcache with
    | none => simp [hf, hr, bind, Except.bind] at h
    | some l =>
      simp only [hf, hr, bind, Except.bind] at h
      cases h
      exact .inr ⟨rfl, l, rfl, rfl⟩

/-- **`bread`**: the block was free, and it is now taken; nothing else is seen to
change. -/
theorem Coherent.view_bread (hc : io.Coherent T) (h : io.bread b = .ok io') :
    (io.view b).busy = false ∧ io'.disk = io.disk ∧
      io'.view = Function.update io.view b { io.view b with busy := true } ∧ io'.Wf := by
  rcases bread_cases h with ⟨x, hf, hbusy, rfl⟩ | ⟨hf, l, hl, rfl⟩
  · have hvalid := hc.valid x (find_mem hf) (by simp [find_blockno hf])
    have hf' : (io.update b Buf.take).find b = some x.take := by
      simp [find_update Buf.take_blockno, hf]
    refine ⟨by simp [view_of_find hf, hbusy], rfl, ?_, ?_⟩
    · rw [view_update (Buf.fill_blockno _) hf', view_update Buf.take_blockno hf]
      simp [Buf.fill, Buf.take, hvalid, view_of_find hf]
    · refine (hc.toWf.update Buf.take_blockno fun _ h => h).update (Buf.fill_blockno _) ?_
      intro y hy
      simp [Buf.fill, hy]
  · obtain ⟨⟨x, hx, hvalid, hbusy⟩, hother⟩ := hc.toWf.find_recycle hf hl
    refine ⟨by simp [view_of_find_none hf], rfl, ?_, ?_, ?_⟩
    · rw [view_update (Buf.fill_blockno _) hx]
      funext b'
      by_cases hb : b' = b
      · subst hb
        simp [Buf.fill, hvalid, hbusy, view_of_find_none hf]
      · rw [Function.update_of_ne hb, Function.update_of_ne hb]
        rcases hother b' hb with hsame | ⟨hnone, y, hy, hbusy', hdirty⟩
        · simp [view, hsame]
        · -- the buffer of `b'` was recycled: it was clean, so its block is on the disk
          have hT : ¬ T b' := fun hT => by simpa [view_of_find hy, hbusy'] using hc.busy b' hT
          have hclean := hc.clean b' hT (by simp [view_of_find hy, hdirty])
          rw [view_of_find hy] at hclean ⊢
          rw [view_of_find_none hnone, ← hclean, hdirty, hbusy']
    · exact unique_update (Buf.fill_blockno _) (hc.toWf.recycle_unique hf hl)
    · intro y hy hne
      obtain ⟨z, hz, rfl⟩ := mem_map.1 hy
      by_cases hb : z.blockno = some b
      · simp only [if_pos hb]
        unfold Buf.fill
        split
        · assumption
        · rfl
      · simp only [if_neg hb] at hne ⊢
        obtain ⟨l₁, v, l₂, hlist, -, -, rfl⟩ := recycle_spec hl
        refine hc.valid z ?_ hne
        simp only [mem_append, mem_cons] at hz
        rcases hz with hz | rfl | hz
        · simp [hlist, hz]
        · exact absurd rfl hb
        · simp [hlist, hz]

theorem view_put (d : Block) (hb : (io.view b).busy = true) :
    (io.update b (Buf.put d)).view = Function.update io.view b { io.view b with data := d } := by
  obtain ⟨x, hf, -, hv⟩ := find_of_busy hb
  rw [view_update (Buf.put_blockno d) hf, hv]
  rfl

theorem view_pin (hb : (io.view b).busy = true) :
    (io.update b Buf.pin).view = Function.update io.view b { io.view b with dirty := true } := by
  obtain ⟨x, hf, -, hv⟩ := find_of_busy hb
  rw [view_update Buf.pin_blockno hf, hv]
  rfl

/-- **`memmove`** between two buffers that someone has. -/
theorem view_memmove {dst src : Blockno} (hd : (io.view dst).busy = true)
    (hs : (io.view src).busy = true) :
    (io.memmove dst src).disk = io.disk ∧ (io.memmove dst src).view =
        Function.update io.view dst { io.view dst with data := (io.view src).data } := by
  obtain ⟨x, hf, -, hv⟩ := find_of_busy hs
  have hm : io.memmove dst src = io.update dst (Buf.put x.data) := by
    unfold memmove
    rw [hf]
  rw [hm, hv]
  exact ⟨rfl, view_put x.data hd⟩

theorem Wf.memmove (hw : io.Wf) (dst src : Blockno) : (io.memmove dst src).Wf := by
  unfold Bio.memmove
  split
  · exact hw.update (Buf.put_blockno _) fun _ h => h
  · exact hw

/-- **`bwrite`**: the block is on the disk as it is in its buffer, and is no longer
pinned. -/
theorem Wf.view_bwrite (hw : io.Wf) (h : io.bwrite b = .ok io') :
    (io.view b).busy = true ∧ io'.disk = Function.update io.disk b (io.view b).data ∧
      io'.view = Function.update io.view b { io.view b with dirty := false } ∧ io'.Wf := by
  unfold bwrite at h
  cases hf : io.find b with
  | none => simp [hf] at h
  | some x =>
    cases hbusy : x.busy with
    | false => simp [hf, hbusy] at h
    | true =>
      simp only [hf, hbusy, if_true] at h
      cases h
      have hwf := hw.update (b := b) Buf.written_blockno fun _ _ => rfl
      refine ⟨by simp [view_of_find hf, hbusy], by simp [view_of_find hf], ?_,
        hwf.unique, hwf.valid⟩
      have hfind : ∀ b', Bio.find { io.update b Buf.written with
          disk := Function.update io.disk b x.data } b' = (io.update b Buf.written).find b' :=
        fun _ => rfl
      funext b'
      unfold view
      rw [hfind, find_update Buf.written_blockno]
      by_cases hb : b' = b
      · subst hb
        simp [hf, Buf.written]
      · simp [hb]

theorem find_split (h : io.find b = some x) : ∃ l₁ l₂, io.bcache = l₁ ++ x :: l₂ ∧
      io.bcache.eraseP (fun y => y.blockno = some b) = l₁ ++ l₂ := by
  obtain ⟨hx, l₁, l₂, hl, hl₁⟩ := find?_eq_some_iff_append.1 h
  refine ⟨l₁, l₂, hl, ?_⟩
  rw [hl, eraseP_append_right _ fun y hy => by simpa using hl₁ y hy]
  simp [of_decide_eq_true hx]

/-- **`brelse`**: the block is free. -/
theorem Wf.view_brelse (hw : io.Wf) (h : io.brelse b = .ok io') :
    (io.view b).busy = true ∧ io'.disk = io.disk ∧
      io'.view = Function.update io.view b { io.view b with busy := false } ∧ io'.Wf := by
  unfold brelse at h
  cases hf : io.find b with
  | none => simp [hf] at h
  | some x =>
    cases hbusy : x.busy with
    | false => simp [hf, hbusy] at h
    | true =>
      simp only [hf, hbusy, if_true] at h
      cases h
      have hxb := find_blockno hf
      obtain ⟨l₁, l₂, hl, herase⟩ := find_split hf
      have huniq := hw.unique
      rw [hl, pairwise_append, pairwise_cons] at huniq
      obtain ⟨h₁, ⟨hx₂, h₂⟩, h₁₂⟩ := huniq
      refine ⟨by simp [view_of_find hf, hbusy], rfl, ?_, ?_, ?_⟩
      · funext b'
        by_cases hb : b' = b
        · subst hb
          rw [Function.update_self, view_of_find hf]
          exact view_of_find (x := x.free) (by simp [find, Buf.free, hxb])
        · have hne : b ≠ b' := fun h => hb h.symm
          have hfind : (x.free :: (l₁ ++ l₂)).find? (fun y => y.blockno = some b') =
              io.find b' := by
            unfold find
            rw [hl]
            simp [hxb, hne, Buf.free]
          rw [Function.update_of_ne hb]
          unfold view
          rw [← hfind, ← herase]
          rfl
      · simp only [herase]
        refine pairwise_cons.2 ⟨?_, pairwise_append.2 ⟨h₁, h₂, ?_⟩⟩
        · intro y hy
          rcases mem_append.1 hy with hy | hy
          · rcases h₁₂ y hy x mem_cons_self with h | h
            · exact .inr (by simp [hxb, h])
            · exact .inr h.symm
          · exact hx₂ y hy
        · intro y hy z hz
          exact h₁₂ y hy z (mem_cons_of_mem _ hz)
      · intro y hy hne
        rcases mem_cons.1 hy with rfl | hy
        · exact hw.valid x (find_mem hf) hne
        · exact hw.valid y (mem_of_mem_eraseP hy) hne

/-! ## Coherence -/

section

variable (hc : io.Coherent T)

include hc

theorem Coherent.congr (h : ∀ b, T' b ↔ T b) : io.Coherent T' := by
  obtain rfl : T' = T := funext fun b => propext (h b)
  exact hc

theorem Coherent.change {v : View} (hwf : io'.Wf) (hview : io'.view = Function.update io.view b v)
    (hdisk : ∀ b', b' ≠ b → io'.disk b' = io.disk b') (hT : ∀ b', b' ≠ b → (T' b' ↔ T b'))
    (hclean : ¬ T' b → v.dirty = false → v.data = io'.disk b) (hbusy : T' b → v.busy = true) :
    io'.Coherent T' := by
  have hv := hview.update_apply
  refine ⟨hwf, ?_, ?_⟩
  · grind [hc.clean]
  · grind [hc.busy]

theorem Coherent.bread (h : io.bread b = .ok io') : io'.Coherent T := by
  obtain ⟨-, hdisk, hview, hwf⟩ := hc.view_bread h
  refine hc.change hwf hview (fun _ _ => by rw [hdisk]) (fun _ _ => .rfl) ?_ fun _ => rfl
  rw [hdisk]
  exact hc.clean b

theorem Coherent.brelse (hb : ¬ T b) (h : io.brelse b = .ok io') : io'.Coherent T := by
  obtain ⟨-, hdisk, hview, hwf⟩ := hc.toWf.view_brelse h
  refine hc.change hwf hview (fun _ _ => by rw [hdisk]) (fun _ _ => .rfl) ?_ fun h => absurd h hb
  rw [hdisk]
  exact hc.clean b

theorem Coherent.put (d : Block) (hb : (io.view b).busy = true)
    (hT' : ∀ b', T' b' ↔ b' = b ∨ T b') : (io.update b (Buf.put d)).Coherent T' :=
  hc.change (hc.toWf.update (Buf.put_blockno d) fun _ h => h) (view_put d hb) (fun _ _ => rfl)
    (fun b' hne => by rw [hT', or_iff_right hne]) (fun h => absurd ((hT' b).2 (.inl rfl)) h)
    fun _ => hb

theorem Coherent.pin (hb : (io.view b).busy = true)
    (hT' : ∀ b', T' b' ↔ b' ≠ b ∧ T b') : (io.update b Buf.pin).Coherent T' :=
  hc.change (hc.toWf.update Buf.pin_blockno fun _ h => h) (view_pin hb) (fun _ _ => rfl)
    (fun b' hne => by rw [hT', and_iff_right hne]) (fun _ h => by cases h) fun _ => hb

end

theorem binit_find (d : Disk) (b : Blockno) : (binit d).find b = none := by
  rw [find_eq_none]
  intro x hx
  rw [eq_of_mem_replicate hx]
  simp

theorem binit_coherent (d : Disk) : (binit d).Coherent fun _ => False where
  unique := by
    refine pairwise_replicate.2 (.inr ?_)
    exact .inl rfl
  valid := by
    intro x hx hne
    rw [eq_of_mem_replicate hx] at hne
    exact absurd rfl hne
  clean := by
    intro b _ _
    rw [view_of_find_none (binit_find d b)]
  busy := fun _ h => h.elim

end Bio

end Xv6
