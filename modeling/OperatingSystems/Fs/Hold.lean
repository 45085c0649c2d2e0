import Mathlib.Data.Set.Insert
import OperatingSystems.Fs.Blocks
import OperatingSystems.Fs.Syscall

/-!
# What a process holds

Processes run the calls of `sysfile.c` at the same time.  What keeps them from each
other's work is what each of them holds: references to inodes and to files, locked
inodes, and with a locked inode its blocks.  `Hold` is what one process holds, and
`Hold.rules` says for every operation what it needs of that and what it leaves; an inode
is given back only when the disk agrees with the copy.

Between the functions of the source a process is `Clean`: what it has locked it has read
and written back, and the blocks it owns are those of its locked inodes.

* `follows_of_work`: what was proved of the blocks of one inode holds here.
* `follows_ilock`, `follows_iunlock`, `follows_iput`: the rules for locks and references.
-/

namespace Xv6.Fs

open Function

/-! ## Holdings -/

/-- The lock of an inode, as its owner sees it. -/
inductive Lock
  /-- Not locked by this process. -/
  | none
  /-- Locked, and not read yet. -/
  | wait
  /-- Locked: the copy, and the inode on the disk. -/
  | held (din disk : Dinode)
  /-- Locked by `iput`, which has freed it on the disk. -/
  | gone

/-- What a process knows of a file to which it has references. -/
inductive Know
  | nothing
  /-- It is the only one to have it, and it has no type. -/
  | fresh
  /-- It is an inode. -/
  | inode (ip : IRef)

/-- References and the like.  `refs` are the references to inodes, that of the current
directory among them, and `frefs` those to files, also from open file descriptors; `pipe`
is an end of a pipe that no file is any more. -/
structure Bal where
  refs : IRef → Nat
  frefs : FRef → Nat
  know : FRef → Know
  cwd : Option IRef
  ofile : Fd → Option FRef
  ops : Nat
  pipe : Option (Nat × Bool)

/-- What a process holds. -/
structure Hold where
  bal : Bal
  lock : IRef → Lock
  blk : Blocks

namespace Bal

def addRef (t : Bal) (ip : IRef) : Bal :=
  { t with refs := update t.refs ip (t.refs ip + 1) }

def dropRef (t : Bal) (ip : IRef) : Bal :=
  { t with refs := update t.refs ip (t.refs ip - 1) }

def setFrefs (t : Bal) (f : FRef) (n : Nat) : Bal := { t with frefs := update t.frefs f n }

def setKnow (t : Bal) (f : FRef) (k : Know) : Bal := { t with know := update t.know f k }

@[simp] theorem addRef_refs (t : Bal) (ip e : IRef) :
    (t.addRef ip).refs e = if e = ip then t.refs ip + 1 else t.refs e := by
  simp [addRef, update_apply]

@[simp] theorem dropRef_refs (t : Bal) (ip e : IRef) :
    (t.dropRef ip).refs e = if e = ip then t.refs ip - 1 else t.refs e := by
  simp [dropRef, update_apply]

@[simp] theorem setFrefs_frefs (t : Bal) (f g : FRef) (n : Nat) :
    (t.setFrefs f n).frefs g = if g = f then n else t.frefs g := by
  simp [setFrefs, update_apply]

@[simp] theorem setKnow_know (t : Bal) (f g : FRef) (k : Know) :
    (t.setKnow f k).know g = if g = f then k else t.know g := by
  simp [setKnow, update_apply]

@[simp] theorem addRef_dropRef (t : Bal) (ip : IRef) : (t.addRef ip).dropRef ip = t := by
  simp [addRef, dropRef]

@[simp] theorem addRef_addRef_dropRef (t : Bal) (x y : IRef) :
    ((t.addRef x).addRef y).dropRef x = t.addRef y := by
  unfold addRef dropRef
  congr 1
  funext e
  grind

/-- The process has a reference of its own, or one by a file. -/
def Secures (t : Bal) (ip : IRef) : Prop :=
  1 ≤ t.refs ip ∨ ∃ f, t.know f = .inode ip ∧ 1 ≤ t.frefs f

/-- What is left of a file the process has dropped a reference to; the last reference
leaves that to the inode, or the end of the pipe. -/
def dropFile (t : Bal) (f : FRef) (last : Option File) : Bal :=
  let t := (t.setFrefs f (t.frefs f - 1)).setKnow f .nothing
  match last with
  | some x =>
    if x.type = .inode then t.addRef x.ip
    else if x.type = .pipe then { t with pipe := some (x.pipe, x.writable) }
    else t
  | none => t

/-- What the process knows of a file it has looked at. -/
def learn (t : Bal) (f : FRef) (x : File) : Bal :=
  if x.type = .inode then t.setKnow f (.inode x.ip) else t

/-- A file is given its type: an inode takes a reference. -/
def give (t : Bal) (f : FRef) (x : File) : Bal :=
  if x.type = .inode then (t.dropRef x.ip).setKnow f (.inode x.ip) else t.setKnow f .nothing

end Bal

namespace Hold

/-- What is said of the result of a script, and of what the process then holds. -/
abbrev Post (α : Type) : Type := α → Hold → Prop

def setLock (t : Hold) (ip : IRef) (l : Lock) : Hold :=
  { t with lock := update t.lock ip l }

@[simp] theorem setLock_lock (t : Hold) (ip e : IRef) (l : Lock) :
    (t.setLock ip l).lock e = if e = ip then l else t.lock e := by
  simp [setLock, update_apply]

/-- The blocks of the inode were added to what the process owns. -/
structure Gains (blk blk' : Blocks) (d : Dinode) : Prop where
  mapped : Mapped blk' d (nblocks d.size)
  new : ∀ b, Uses blk' d (nblocks d.size) b → blk b = none
  frame : ∀ b, ¬ Uses blk' d (nblocks d.size) b → blk' b = blk b

/-- The blocks of the inode were taken from what the process owns. -/
structure Loses (blk blk' : Blocks) (d : Dinode) : Prop where
  gone : ∀ b, Uses blk d (nblocks d.size) b → blk' b = none
  frame : ∀ b, ¬ Uses blk d (nblocks d.size) b → blk' b = blk b

/-- What an operation needs. -/
def pre : Op → Hold → Prop
  | .idup ip, t => 1 ≤ t.bal.refs ip
  | .ilockBusy ip, t => t.bal.Secures ip
  | .ilockRead ip, t => t.lock ip = .wait
  | .iunlock ip, t => ∃ d, t.lock ip = .held d d ∧ d.type ≠ 0 ∧ Mapped t.blk d (nblocks d.size)
  | .iputStart ip, t => 1 ≤ t.bal.refs ip ∧ (t.lock ip ≠ .none → 2 ≤ t.bal.refs ip)
  | .iputEnd ip, t => t.lock ip = .gone ∧ 1 ≤ t.bal.refs ip
  | .getInode ip, t => ∃ d dk, t.lock ip = .held d dk
  | .setInode ip _, t => ∃ d dk, t.lock ip = .held d dk
  | .iupdate ip, t => ∃ d dk, t.lock ip = .held d dk ∧
      (d.type = 0 → d.size = 0 ∧ ∀ i ≤ NDIRECT, d.addrs i = 0)
  | .iallocTry _ type, _ => type ≠ 0
  | .bfree b, t => t.blk b ≠ none
  | .bread b, t => t.blk b ≠ none
  | .logWrite b _, t => t.blk b ≠ none
  | .filedup f, t => 1 ≤ t.bal.frefs f ∧ t.bal.know f ≠ .fresh
  | .fileDrop f, t => 1 ≤ t.bal.frefs f ∧ (∀ ip, t.lock ip ≠ .none → 1 ≤ t.bal.refs ip) ∧
      t.bal.pipe = none
  | .pipeclose pipe writable, t => t.bal.pipe = some (pipe, writable)
  | .getFile f, t => 1 ≤ t.bal.frefs f
  | .setFile f x, t => t.bal.know f = .fresh ∧ 1 ≤ t.bal.frefs f ∧
      (x.type = .inode → 1 ≤ t.bal.refs x.ip ∧ t.lock x.ip = .none)
  | .endOp, t => 1 ≤ t.bal.ops
  | _, _ => True

/-- What an operation leaves. -/
def post : (o : Op) → Hold → o.Ret → Hold → Prop
  | .iget _, t, ip, t' => t' = { t with bal := t.bal.addRef ip }
  | .idup ip, t, _, t' => t' = { t with bal := t.bal.addRef ip }
  | .ilockBusy ip, t, _, t' => t.lock ip = .none ∧ t' = t.setLock ip .wait
  | .ilockRead ip, t, _, t' => ∃ d blk, t' = { t.setLock ip (.held d d) with blk } ∧
      d.type ≠ 0 ∧ Gains t.blk blk d
  | .iunlock ip, t, _, t' => ∃ blk, t' = { t.setLock ip .none with blk } ∧
      ∀ d, t.lock ip = .held d d → Loses t.blk blk d
  | .iputStart ip, t, last, t' => match last with
      | false => t' = { t with bal := t.bal.dropRef ip }
      | true => t.lock ip = .none ∧ ∃ d blk, t' = { t.setLock ip (.held d d) with blk } ∧
          d.type ≠ 0 ∧ Gains t.blk blk d
  | .iputEnd ip, t, _, t' => t' = { t.setLock ip .none with bal := t.bal.dropRef ip }
  | .getInode ip, t, d, t' => (∃ dk, t.lock ip = .held d dk) ∧ t' = t
  | .setInode ip d, t, _, t' => ∃ d₀ dk, t.lock ip = .held d₀ dk ∧ t' = t.setLock ip (.held d dk)
  | .iupdate ip, t, _, t' => ∃ d dk, t.lock ip = .held d dk ∧
      t' = t.setLock ip (if d.type = 0 then .gone else .held d d)
  | .ballocBit, t, b, t' => t.blk b = none ∧ nmeta ≤ b ∧ b < FSSIZE ∧
      ∃ x, t' = { t with blk := t.blk.put b x }
  | .bfree b, t, _, t' => t' = { t with blk := t.blk.erase b }
  | .bread b, t, x, t' => t.blk b = some x ∧ t' = t
  | .logWrite b x, t, _, t' => t' = { t with blk := t.blk.put b x }
  | .filealloc, t, f, t' => match f with
      | none => t' = t
      | some f => t.bal.frefs f = 0 ∧
          t' = { t with bal := (t.bal.setFrefs f 1).setKnow f .fresh }
  | .filedup f, t, _, t' => t' = { t with bal := t.bal.setFrefs f (t.bal.frefs f + 1) }
  | .fileDrop f, t, last, t' => t' = { t with bal := t.bal.dropFile f last } ∧
      ∀ x, last = some x → t.bal.know f = .fresh → x.type = .none
  | .getFile f, t, x, t' => t' = { t with bal := t.bal.learn f x } ∧
      (t.bal.know f = .fresh → x.type = .none) ∧
      ∀ ip, t.bal.know f = .inode ip → x.type = .inode ∧ x.ip = ip
  | .setFile f x, t, _, t' => t' = { t with bal := t.bal.give f x }
  | .fdalloc f, t, fd, t' => match fd with
      | none => t' = t
      | some fd => t.bal.ofile fd = none ∧
          t' = { t with bal := { t.bal with ofile := update t.bal.ofile fd (some f) } }
  | .getOfile fd, t, f, t' => f = t.bal.ofile fd ∧ t' = t
  | .clearOfile fd, t, _, t' =>
    t' = { t with bal := { t.bal with ofile := update t.bal.ofile fd none } }
  | .getCwd, t, ip, t' => ip = t.bal.cwd ∧ t' = t
  | .setCwd ip, t, _, t' => t' = { t with bal := { t.bal with cwd := ip } }
  | .beginOp, t, _, t' => t' = { t with bal := { t.bal with ops := t.bal.ops + 1 } }
  | .endOp, t, _, t' => t' = { t with bal := { t.bal with ops := t.bal.ops - 1 } }
  | .getInum _, t, _, t' => t' = t
  | .iallocTry _ _, t, _, t' => t' = t
  | .addOff _ _, t, _, t' => t' = t
  | .consoleread _, t, _, t' => t' = t
  | .pipeclose _ _, t, _, t' => t' = { t with bal := { t.bal with pipe := none } }
  | .panic _, _, _, _ => True

/-- The rules for processes that run at the same time. -/
def rules : Script.Protocol Op Op.Ret Hold := ⟨pre, post⟩

/-- The inodes the process has locked. -/
def locked (t : Hold) : Set IRef := {ip | t.lock ip ≠ .none}

/-- What is locked was read and written back, and owns the blocks. -/
structure Clean (t : Hold) : Prop where
  lock : ∀ ip, t.lock ip = .none ∨ ∃ d, t.lock ip = .held d d ∧ d.type ≠ 0
  mapped : ∀ ip d, t.lock ip = .held d d → Mapped t.blk d (nblocks d.size)
  apart : ∀ ip ip' d d' b, ip ≠ ip' → t.lock ip = .held d d → t.lock ip' = .held d' d' →
    Uses t.blk d (nblocks d.size) b → ¬ Uses t.blk d' (nblocks d'.size) b
  cover : ∀ b, t.blk b ≠ none → ∃ ip d, t.lock ip = .held d d ∧ Uses t.blk d (nblocks d.size) b

/-- The process owns the block by a locked inode. -/
def Owns (t : Hold) (ip : IRef) (b : Nat) : Prop :=
  ∃ d, t.lock ip = .held d d ∧ Uses t.blk d (nblocks d.size) b

section Clean

variable {t t' : Hold} {ip : IRef}

theorem Clean.held (hc : t.Clean) (h : ip ∈ t.locked) : ∃ d, t.lock ip = .held d d ∧ d.type ≠ 0 :=
  (hc.lock ip).resolve_left h

/-- The lock of one inode has changed, and with it its blocks. -/
theorem Clean.change (hc : t.Clean) (hother : ∀ e ≠ ip, t'.lock e = t.lock e)
    (hl : t'.lock ip = .none ∨ ∃ d, t'.lock ip = .held d d ∧ d.type ≠ 0 ∧
      Mapped t'.blk d (nblocks d.size))
    (hfresh : ∀ b, t'.Owns ip b → t.Owns ip b ∨ t.blk b = none)
    (hframe : ∀ b, ¬ t'.Owns ip b → ¬ t.Owns ip b → t'.blk b = t.blk b)
    (hgone : ∀ b, t.Owns ip b → ¬ t'.Owns ip b → t'.blk b = none) : t'.Clean := by
  -- the blocks of the other inodes stay what they are
  have hblk : ∀ e d, e ≠ ip → t.lock e = .held d d → ∀ b, Uses t.blk d (nblocks d.size) b →
      t'.blk b = t.blk b ∧ ¬ t'.Owns ip b := by
    intro e d he hd b hb
    have hold : ¬ t.Owns ip b := by
      rintro ⟨d', hd', hb'⟩
      exact hc.apart e ip d d' b he hd hd' hb hb'
    have hnew : ¬ t'.Owns ip b := fun h => (hfresh b h).elim hold ((hc.mapped e d hd).own b hb).1
    exact ⟨hframe b hnew hold, hnew⟩
  have huses : ∀ e d, e ≠ ip → t.lock e = .held d d → ∀ b,
      Uses t'.blk d (nblocks d.size) b ↔ Uses t.blk d (nblocks d.size) b := by
    intro e d he hd
    exact (hc.mapped e d hd).uses_iff fun b hb => (hblk e d he hd b hb).1
  refine ⟨?_, ?_, ?_, ?_⟩
  · intro e
    by_cases he : e = ip
    · subst he
      exact hl.imp_right fun ⟨d, hd, ht, _⟩ => ⟨d, hd, ht⟩
    · rw [hother e he]
      exact hc.lock e
  · intro e d hd
    by_cases he : e = ip
    · subst he
      obtain h | ⟨d', hd', -, hm⟩ := hl
      · rw [h] at hd
        cases hd
      · rw [hd'] at hd
        cases hd
        exact hm
    · rw [hother e he] at hd
      exact (hc.mapped e d hd).frame fun b hb => (hblk e d he hd b hb).1
  · intro e e' d d' b hne hd hd' hb hb'
    by_cases he : e = ip
    · subst he
      rw [hother e' hne.symm] at hd'
      rw [huses e' d' hne.symm hd'] at hb'
      exact (hblk e' d' hne.symm hd' b hb').2 ⟨d, hd, hb⟩
    · rw [hother e he] at hd
      rw [huses e d he hd] at hb
      by_cases he' : e' = ip
      · subst he'
        exact (hblk e d he hd b hb).2 ⟨d', hd', hb'⟩
      · rw [hother e' he'] at hd'
        rw [huses e' d' he' hd'] at hb'
        exact hc.apart e e' d d' b hne hd hd' hb hb'
  · intro b hb
    by_cases hnew : t'.Owns ip b
    · exact ⟨ip, hnew⟩
    · by_cases hold : t.Owns ip b
      · exact absurd (hgone b hold hnew) hb
      · rw [hframe b hnew hold] at hb
        obtain ⟨e, d, hd, hu⟩ := hc.cover b hb
        have he : e ≠ ip := by
          rintro rfl
          exact hold ⟨d, hd, hu⟩
        exact ⟨e, d, by rw [hother e he, hd], (huses e d he hd b).2 hu⟩

theorem not_owns (h : t.lock ip = .none) (b : Nat) : ¬ t.Owns ip b := by
  rintro ⟨d, hd, -⟩
  rw [h] at hd
  cases hd

theorem owns_iff {d : Dinode} (h : t.lock ip = .held d d) (b : Nat) :
    t.Owns ip b ↔ Uses t.blk d (nblocks d.size) b := by
  constructor
  · rintro ⟨d', hd', hu⟩
    rw [h] at hd'
    cases hd'
    exact hu
  · intro hu
    exact ⟨d, h, hu⟩

theorem Clean.gain (hc : t.Clean) (h : t.lock ip = .none) {d : Dinode} {blk : Blocks}
    (ht : d.type ≠ 0) (hg : Gains t.blk blk d) :
    Clean { t.setLock ip (.held d d) with blk } := by
  have hl : ({ t.setLock ip (.held d d) with blk } : Hold).lock ip = .held d d := by simp
  refine hc.change (fun e (he : e ≠ ip) => by simp [he]) (.inr ⟨d, hl, ht, hg.mapped⟩) ?_ ?_ ?_
  · intro b hb
    exact .inr (hg.new b ((owns_iff hl b).1 hb))
  · intro b hb _
    exact hg.frame b fun hu => hb ((owns_iff hl b).2 hu)
  · intro b hb
    exact absurd hb (not_owns h b)

theorem Clean.lose (hc : t.Clean) {d : Dinode} (h : t.lock ip = .held d d) {blk : Blocks}
    (hg : Loses t.blk blk d) : Clean { t.setLock ip .none with blk } := by
  have hl : ({ t.setLock ip .none with blk } : Hold).lock ip = .none := by simp
  refine hc.change (fun e (he : e ≠ ip) => by simp [he]) (.inl hl) ?_ ?_ ?_
  · intro b hb
    exact absurd hb (not_owns hl b)
  · intro b _ hb
    exact hg.frame b fun hu => hb ((owns_iff h b).2 hu)
  · intro b hb _
    exact hg.gone b ((owns_iff h b).1 hb)

end Clean

/-! ## Work on one inode -/

/-- The locked inode and the blocks were changed. -/
def rehold (t : Hold) (ip : IRef) (w : Work) : Hold :=
  { t.setLock ip (.held w.din w.disk) with blk := w.blk }

@[simp] theorem rehold_lock (t : Hold) (ip e : IRef) (w : Work) :
    (t.rehold ip w).lock e = if e = ip then .held w.din w.disk else t.lock e :=
  setLock_lock t ip e _

theorem rehold_self {t : Hold} {ip : IRef} {w : Work} (hl : t.lock ip = .held w.din w.disk)
    (hb : t.blk = w.blk) : t.rehold ip w = t := by
  rw [rehold, setLock, ← hl, ← hb, update_eq_self]

theorem rehold_rehold (t : Hold) (ip : IRef) (w w' : Work) :
    (t.rehold ip w).rehold ip w' = t.rehold ip w' := by
  simp only [rehold, setLock, update_idem]

/-- **What was proved of the blocks of one inode holds among other processes.** -/
theorem follows_of_work {α : Type} {x : FsM α} {ip : IRef} {w : Work} {t : Hold}
    {Q : α → Work → Prop} {R : α → Hold → Prop} (h : x.Follows (Work.rules ip) Q w)
    (hl : t.lock ip = .held w.din w.disk) (hb : t.blk = w.blk)
    (hR : ∀ a w', Q a w' → R a (t.rehold ip w')) : x.Follows rules R t := by
  induction x generalizing w t with
  | pure a =>
    have := hR a w h
    rwa [rehold_self hl hb] at this
  | op o k ih =>
    obtain ⟨hpre, hk⟩ := h
    -- after the operation the process is where the work says it is
    have hgo : ∀ r w', (Work.rules ip).post o w r w' → (k r).Follows rules R (t.rehold ip w') := by
      intro r w' hpost
      refine ih r (hk r w' hpost) (by simp) rfl fun a w'' hq => ?_
      rw [rehold_rehold]
      exact hR a w'' hq
    have hself := rehold_self hl hb
    have hown : ∀ b, w.blk b ≠ none → t.blk b ≠ none := fun b => by
      rw [hb]
      exact id
    cases o <;> try exact hpre.elim
    case getInode e =>
      obtain rfl : e = ip := hpre
      refine ⟨⟨_, _, hl⟩, ?_⟩
      rintro d t' ⟨⟨dk, hd⟩, rfl⟩
      obtain ⟨rfl, -⟩ := Lock.held.inj (hl.symm.trans hd)
      have := hgo _ w ⟨rfl, rfl⟩
      rwa [hself] at this
    case setInode e d =>
      obtain rfl : e = ip := hpre
      refine ⟨⟨_, _, hl⟩, ?_⟩
      rintro r t' ⟨d₀, dk, hd, rfl⟩
      obtain ⟨rfl, rfl⟩ := Lock.held.inj (hl.symm.trans hd)
      have := hgo r { w with din := d } rfl
      rw [rehold, ← hb] at this
      exact this
    case iupdate e =>
      obtain ⟨rfl, ht⟩ := hpre
      refine ⟨⟨_, _, hl, fun h0 => absurd h0 ht⟩, ?_⟩
      rintro r t' ⟨d, dk, hd, rfl⟩
      obtain ⟨rfl, rfl⟩ := Lock.held.inj (hl.symm.trans hd)
      have := hgo r { w with disk := w.din, lh := note (iblock w.inum) w.lh } rfl
      rw [rehold, ← hb] at this
      rw [if_neg ht]
      exact this
    case ballocBit =>
      refine ⟨trivial, ?_⟩
      rintro b t' ⟨hnone, hlo, hhi, x, rfl⟩
      have := hgo b { w with blk := w.blk.put b x, lh := note (bblock b) w.lh }
        ⟨hb ▸ hnone, hlo, hhi, x, rfl⟩
      rw [rehold, setLock, ← hl, ← hb, update_eq_self] at this
      exact this
    case bfree b =>
      refine ⟨hown b hpre, ?_⟩
      rintro r t' rfl
      have := hgo r { w with blk := w.blk.erase b, lh := note (bblock b) w.lh } rfl
      rw [rehold, setLock, ← hl, ← hb, update_eq_self] at this
      exact this
    case bread b =>
      refine ⟨hown b hpre, ?_⟩
      rintro x t' ⟨hx, rfl⟩
      have := hgo x w ⟨hb ▸ hx, rfl⟩
      rwa [hself] at this
    case logWrite b x =>
      refine ⟨hown b hpre, ?_⟩
      rintro r t' rfl
      have := hgo r { w with blk := w.blk.put b x, lh := note b w.lh } rfl
      rw [rehold, setLock, ← hl, ← hb, update_eq_self] at this
      exact this

/-! ## Locks and references -/

section Rules

variable {t : Hold} {ip : IRef} {α : Type}

theorem locked_setLock (t : Hold) (ip : IRef) {l : Lock} (hl : l ≠ .none) (blk : Blocks) :
    ({ t.setLock ip l with blk } : Hold).locked = insert ip t.locked := by
  ext e
  by_cases he : e = ip <;> simp [locked, he, hl]

theorem locked_unlock (t : Hold) (ip : IRef) (blk : Blocks) :
    ({ t.setLock ip .none with blk } : Hold).locked = t.locked \ {ip} := by
  ext e
  by_cases he : e = ip <;> simp [locked, he]

/-- The process is between two functions of the source, where it has these references and
has locked these inodes. -/
structure At (t : Hold) (b : Bal) (L : Set IRef) : Prop where
  clean : t.Clean
  bal : t.bal = b
  locked : t.locked = L

variable {b : Bal} {L : Set IRef} {Q : Post Unit}

theorem At.setBal (h : t.At b L) (b' : Bal) : At { t with bal := b' } b' L :=
  ⟨⟨h.clean.lock, h.clean.mapped, h.clean.apart, h.clean.cover⟩, rfl, h.locked⟩

theorem At.held (h : t.At b L) (hl : ip ∈ L) : ∃ d, t.lock ip = .held d d ∧ d.type ≠ 0 :=
  h.clean.held (by rwa [h.locked])

theorem follows_iget {inum : Nat} {Q : Post IRef} (h : t.At b L)
    (k : ∀ ip t', t'.At (b.addRef ip) L → Q ip t') : (iget inum).Follows rules Q t := by
  refine follows_ask trivial ?_
  rintro ip t' rfl
  rw [h.bal]
  exact k ip _ (h.setBal _)

theorem follows_idup {Q : Post IRef} (h : t.At b L) (hr : 1 ≤ b.refs ip)
    (k : ∀ t', t'.At (b.addRef ip) L → Q ip t') : (idup ip).Follows rules Q t := by
  obtain rfl := h.bal
  refine .bind (follows_ask hr ?_)
  rintro - t' rfl
  exact k _ (h.setBal _)

/-- **A process locks an inode it has a reference to.** -/
theorem follows_ilock (h : t.At b L) (hs : b.Secures ip)
    (k : ∀ t', t'.At b (insert ip L) → ip ∉ L → Q () t') : (ilock ip).Follows rules Q t := by
  obtain ⟨hc, rfl, rfl⟩ := h
  refine .bind (follows_ask hs ?_)
  rintro - t' ⟨hnone, rfl⟩
  refine follows_ask (by simp [rules, pre]) ?_
  rintro - t' ⟨d, blk, rfl, ht, hg⟩
  have hset : ({ (t.setLock ip .wait).setLock ip (.held d d) with blk } : Hold) =
      { t.setLock ip (.held d d) with blk } := by simp [setLock]
  rw [hset]
  exact k _ ⟨hc.gain hnone ht hg, rfl, locked_setLock t ip (by simp) blk⟩ (not_not.2 hnone)

/-- **It gives back an inode it has locked.** -/
theorem follows_iunlock (h : t.At b L) (hl : ip ∈ L)
    (k : ∀ t', t'.At b (L \ {ip}) → Q () t') : (iunlock ip).Follows rules Q t := by
  obtain ⟨d, hd, ht⟩ := h.held hl
  obtain ⟨hc, rfl, rfl⟩ := h
  refine follows_ask ⟨d, hd, ht, hc.mapped ip d hd⟩ ?_
  rintro - t' ⟨blk, rfl, hloses⟩
  exact k _ ⟨hc.lose hd (hloses d hd), rfl, locked_unlock t ip blk⟩

theorem follows_getInode {Q : Post Dinode} {d dk : Dinode} (hl : t.lock ip = .held d dk)
    (h : Q d t) : (getInode ip).Follows rules Q t := by
  refine follows_ask ⟨d, dk, hl⟩ ?_
  rintro d' t' ⟨⟨dk', hl'⟩, rfl⟩
  cases hl.symm.trans hl'
  exact h

theorem follows_setInode {d d' dk : Dinode} (hl : t.lock ip = .held d dk)
    (h : Q () (t.setLock ip (.held d' dk))) : (setInode ip d').Follows rules Q t := by
  refine follows_ask ⟨d, dk, hl⟩ ?_
  rintro - t' ⟨d₀, dk₀, hl', rfl⟩
  cases hl.symm.trans hl'
  exact h

theorem follows_iupdate {d dk : Dinode} (hl : t.lock ip = .held d dk)
    (hz : d.type = 0 → d.size = 0 ∧ ∀ i ≤ NDIRECT, d.addrs i = 0)
    (h : Q () (t.setLock ip (if d.type = 0 then .gone else .held d d))) :
    (iupdate ip).Follows rules Q t := by
  refine follows_ask ⟨d, dk, hl, hz⟩ ?_
  rintro - t' ⟨d₀, dk₀, hl', rfl⟩
  cases hl.symm.trans hl'
  exact h

/-- **It gives back a reference.**  The last one frees an inode that has no links. -/
theorem follows_iput (h : t.At b L) (hr : 1 ≤ b.refs ip)
    (hl : ip ∈ L → 2 ≤ b.refs ip) (k : ∀ t', t'.At (b.dropRef ip) L → Q () t') :
    (iput ip).Follows rules Q t := by
  obtain ⟨hc, rfl, rfl⟩ := id h
  refine .bind (follows_ask ⟨hr, hl⟩ ?_)
  rintro (_ | _) t' hpost
  · obtain rfl := hpost
    exact k _ (h.setBal _)
  · obtain ⟨hnone, d, blk, rfl, ht, hg⟩ := hpost
    have hc' := hc.gain hnone ht hg
    have hlock : ({ t.setLock ip (.held d d) with blk } : Hold).lock ip = .held d d := by simp
    refine .bind (follows_of_work (Q := fun _ w => Emptied ⟨0, d, d, blk, []⟩ w (nblocks d.size))
      (follows_itrunc hg.mapped ht fun _ hw => hw) hlock rfl ?_)
    rintro - w hw
    have hw' : (Hold.rehold { t.setLock ip (.held d d) with blk } ip w).lock ip =
        .held w.din w.disk := by simp
    refine .bind (follows_getInode hw' ?_)
    refine .bind (follows_setInode hw' ?_)
    refine .bind (follows_iupdate (d := { w.din with type := 0 })
      (show _ = Lock.held _ w.disk by simp)
      (fun _ => ⟨by rw [hw.din], hw.addrs⟩) ?_)
    refine follows_ask ⟨by simp, hr⟩ ?_
    rintro - t' rfl
    refine k _ ⟨?_, rfl, ?_⟩
    · refine hc'.change (fun e (he : e ≠ ip) => by simp [he]) (.inl (by simp)) ?_ ?_ ?_
      · intro b hb
        exact absurd hb (not_owns (by simp) b)
      · intro b _ hb
        exact hw.frame b fun hu => hb ((owns_iff hlock b).2 hu)
      · intro b hb _
        exact hw.gone b ((owns_iff hlock b).1 hb)
    · ext e
      by_cases he : e = ip
      · subst he
        simp [Hold.locked, hnone]
      · simp [Hold.locked, he]

theorem follows_iunlockput (h : t.At b L) (hl : ip ∈ L) (hr : 1 ≤ b.refs ip)
    (k : ∀ t', t'.At (b.dropRef ip) (L \ {ip}) → Q () t') : (iunlockput ip).Follows rules Q t := by
  refine .bind (follows_iunlock h hl fun t' h' => ?_)
  exact follows_iput h' hr (fun hm => absurd rfl hm.2) k

/-- Assign fields that say nothing of the blocks, and write the inode back. -/
theorem follows_assign {d d' : Dinode} (h : t.At b L)
    (hd : t.lock ip = .held d d) (ht : d'.type ≠ 0) (hsize : d'.size = d.size)
    (haddr : d'.addrs = d.addrs) (k : ∀ t', t'.At b L → Q () t') :
    (setInode ip d' >>= fun _ => iupdate ip).Follows rules Q t := by
  obtain ⟨hc, rfl, rfl⟩ := h
  refine .bind (follows_setInode hd ?_)
  refine follows_iupdate (show _ = Lock.held d' d by simp) (fun h0 => absurd h0 ht) ?_
  rw [if_neg ht]
  have hset : (t.setLock ip (.held d' d)).setLock ip (.held d' d') =
      { t.setLock ip (.held d' d') with blk := t.blk } := by simp [setLock]
  rw [hset]
  have hlock : ({ t.setLock ip (.held d' d') with blk := t.blk } : Hold).lock ip = .held d' d' := by
    simp
  have huses : ∀ n b, Uses t.blk d' n b ↔ Uses t.blk d n b :=
    uses_congr (fun i _ => by rw [haddr]) fun _ => rfl
  have howns : ∀ b, Owns { t.setLock ip (.held d' d') with blk := t.blk } ip b ↔ t.Owns ip b := by
    intro b
    rw [owns_iff hlock, owns_iff hd, hsize]
    exact huses _ b
  have hin : insert ip t.locked = t.locked :=
    Set.insert_eq_of_mem (show t.lock ip ≠ .none by simp [hd])
  refine k _ ⟨?_, rfl, ?_⟩
  · refine hc.change (fun e (he : e ≠ ip) => by simp [he]) (.inr ⟨d', hlock, ht, ?_⟩) ?_ ?_ ?_
    · rw [hsize]
      exact (hc.mapped ip d hd).congr (fun i _ => by rw [haddr]) (fun _ => rfl)
        fun b hb => ((hc.mapped ip d hd).own b hb).1
    · intro b hb
      exact .inl ((howns b).1 hb)
    · intro b _ _
      rfl
    · intro b hb hnb
      exact absurd ((howns b).2 hb) hnb
  · rw [locked_setLock t ip (by simp), hin]

end Rules

end Hold

end Xv6.Fs
