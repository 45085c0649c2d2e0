import Mathlib.Data.Fintype.BigOperators
import OperatingSystems.Fs.System

/-!
# Open files

A file is counted once for every descriptor that is open on it, and what it keeps open,
an inode or one end of a pipe, is let go once, with the last of them.

To say how often, a run also records what was opened and closed (`Ends`): a file is given
an inode or an end of a pipe (`opened`), its last reference is dropped (`dropped`), and
`pipeclose` is called (`closed`).  The reference to an inode that a dropped file leaves is
among those counted by `ip->ref`, so that `iput` is called once for each shows in that
count.

* `Ends.Ok.step`: the record agrees with the files and with what the processes hold.
* `file_refs_exact`: what is so when every process is outside the kernel.
* `call_balanced`: what a call that has returned has changed.
-/

namespace Xv6.Fs

open Finset Function

/-! ## What files keep open -/

/-- What a file keeps open. -/
inductive End
  | pipe (pipe : Nat) (writable : Bool)
  | inode (ip : IRef)
deriving DecidableEq

/-- What a file keeps open, by its type. -/
def File.keeps (x : File) : Option End :=
  match x.type with
  | .none => none
  | .pipe => some (.pipe x.pipe x.writable)
  | .inode => some (.inode x.ip)

/-- The number of files that keep it open. -/
def State.keepers (s : State) (e : End) : Nat := (univ.filter fun f => (s.file f).keeps = some e).card

/-- The number of descriptors that are open on a file. -/
def State.slots (s : State) (f : FRef) : Nat :=
  (univ.filter fun x : Slot × Fd => s.ofile x.1 x.2 = some f).card

/-- The number of processes in a directory. -/
def State.dwellers (s : State) (ip : IRef) : Nat := (univ.filter fun p => s.cwd p = some ip).card

/-- What a run has opened and closed so far. -/
structure Ends where
  opened : End → Nat
  dropped : End → Nat
  closed : End → Nat

namespace Ends

def none : Ends := ⟨fun _ => 0, fun _ => 0, fun _ => 0⟩

/-- Count it. -/
def tick (g : End → Nat) (o : Option End) : End → Nat := fun e => g e + if o = some e then 1 else 0

/-- Record a step. -/
def note (x : Sys) (ev : Event) (g : Ends) : Ends :=
  match x.did ev with
  | some ⟨_, .setFile _ y, _⟩ => { g with opened := tick g.opened y.keeps }
  | some ⟨_, .fileDrop _, last⟩ => { g with dropped := tick g.dropped (last.bind File.keeps) }
  | some ⟨_, .pipeclose pipe writable, _⟩ =>
    { g with closed := tick g.closed (some (.pipe pipe writable)) }
  | _ => g

end Ends

/-- The processes, with a record of what they open and close. -/
def recorded (img : Image) : Machine (Sys × Ends) Event := (system img).ghost .none Ends.note

/-! ## Steps -/

section Steps

variable {x x' : Sys} {ev : Event} {p : Slot} {o : Op} {r : o.Ret} {s s' : State}

theorem Sys.did_some (h : x.did ev = some ⟨p, o, r⟩) : ev = .run p ∧
    ∃ k s, x.thread p = .call (.op o k) ∧ exec p x.fs o = .ok r s := by
  unfold Sys.did at h
  split at h
  next q =>
    split at h
    next o' k hq =>
      split at h
      next r' s hs =>
        cases h
        exact ⟨rfl, k, s, hq, hs⟩
      next => cases h
    next => cases h
  next => cases h

theorem Sys.exec_of_did (h : x.did ev = some ⟨p, o, r⟩) (hs : x.step ev = some x') :
    exec p x.fs o = .ok r x'.fs := by
  obtain ⟨rfl, k, s, hp, he⟩ := Sys.did_some h
  have hs : x.run p = some x' := hs
  unfold Sys.run at hs
  rw [hp] at hs
  simp only [Sys.runCall, he] at hs
  cases hs
  exact he

theorem Sys.Inv.pre_of_did {T : Slot → Hold} {own : Nat → Owner} (hi : x.Inv T own)
    (h : x.did ev = some ⟨p, o, r⟩) : Hold.rules.pre o (T p) := by
  obtain ⟨-, k, s, hp, -⟩ := Sys.did_some h
  have hok := hi.thread p
  rw [hp] at hok
  exact hok.1

theorem Sys.keeps_of_not_did (h : x.did ev = none) (hs : x.step ev = some x') (f : FRef) :
    (x'.fs.file f).keeps = (x.fs.file f).keeps := by
  cases ev with
  | start p c =>
    have hs : x.start p c = some x' := hs
    unfold Sys.start at hs
    split at hs
    next => cases hs; rfl
    next => cases hs
  | fork p q =>
    have hs : x.fork p q = some x' := hs
    unfold Sys.fork at hs
    split at hs
    next =>
      split at hs
      next => cases hs; rfl
      next => cases hs
    next => cases hs
  | run p =>
    have hs : x.run p = some x' := hs
    unfold Sys.run at hs
    split at hs
    next y hp =>
      cases y with
      | pure v => cases hs; rfl
      | op o k =>
        rw [Sys.runCall] at hs
        split at hs
        next r s he =>
          rw [Sys.did_op hp he] at h
          cases h
        next => cases hs
        next => cases hs
    next q fds hp =>
      cases fds with
      | nil =>
        rw [Sys.runFork] at hs
        split at hs
        next => cases hs
        next => cases hs; rfl
      | cons fd fds =>
        rw [Sys.runFork] at hs
        split at hs
        next => cases hs; rfl
        next g hg =>
          unfold execFiledup at hs
          split at hs
          next heq =>
            split at heq
            next => cases heq
            next =>
              cases heq
              cases hs
              show (update x.fs.file g _ f).keeps = _
              by_cases hf : f = g
              · rw [hf, update_self]
                rfl
              · rw [update_of_ne hf]
          next => cases hs
          next => cases hs
    next => cases hs
    next => cases hs

/-- Only `fileclose` and `pipeclose` change which end of a pipe a process has to close. -/
theorem Hold.pipe_of_post {t t' : Hold} (h : Hold.rules.post o t r t')
    (hdrop : ∀ f, o ≠ .fileDrop f) (hclose : ∀ pipe writable, o ≠ .pipeclose pipe writable) :
    t'.bal.pipe = t.bal.pipe := by
  cases o with
  | fileDrop f => exact absurd rfl (hdrop f)
  | pipeclose pipe writable => exact absurd rfl (hclose pipe writable)
  | panic why => exact r.elim
  | getFile f =>
    obtain ⟨rfl, -⟩ := h
    show (t.bal.learn f r).pipe = _
    unfold Bal.learn
    split
    · rfl
    · rfl
  | setFile f y =>
    obtain rfl : t' = { t with bal := t.bal.give f y } := h
    show (t.bal.give f y).pipe = _
    unfold Bal.give
    split
    · rfl
    · rfl
  | ilockRead ip =>
    obtain ⟨d, blk, rfl, -⟩ := h
    rfl
  | iunlock ip =>
    obtain ⟨blk, rfl, -⟩ := h
    rfl
  | iputStart ip =>
    cases r with
    | false =>
      obtain rfl : t' = { t with bal := t.bal.dropRef ip } := h
      rfl
    | true =>
      obtain ⟨-, d, blk, rfl, -⟩ := h
      rfl
  | ballocBit =>
    obtain ⟨-, -, -, y, rfl⟩ := h
    rfl
  | setInode ip d =>
    obtain ⟨d₀, dk, -, rfl⟩ := h
    rfl
  | iupdate ip =>
    obtain ⟨d, dk, -, rfl⟩ := h
    rfl
  | filealloc =>
    cases r with
    | none =>
      obtain rfl : t' = t := h
      rfl
    | some f =>
      obtain ⟨-, rfl⟩ := h
      rfl
  | fdalloc f =>
    cases r with
    | none =>
      obtain rfl : t' = t := h
      rfl
    | some fd =>
      obtain ⟨-, rfl⟩ := h
      rfl
  | ilockBusy ip | getInode ip | bread b | getOfile fd | getCwd =>
    obtain ⟨-, rfl⟩ := h
    rfl
  | iget | idup | iputEnd | getInum | iallocTry | bfree | logWrite | filedup | addOff
  | clearOfile | setCwd | beginOp | endOp | consoleread =>
    cases h
    rfl

theorem keeps_update {g : FRef → File} {f f' : FRef} {y : File} (h : y.keeps = (g f).keeps) :
    (update g f y f').keeps = (g f').keeps := by
  by_cases hf : f' = f
  · rw [hf, update_self, h]
  · rw [update_of_ne hf]

/-- Only `setFile` and `fileclose` change what a file keeps open. -/
theorem keeps_of_exec (h : exec p s o = .ok r s') (hset : ∀ f y, o ≠ .setFile f y)
    (hdrop : ∀ f, o ≠ .fileDrop f) (f : FRef) : (s'.file f).keeps = (s.file f).keeps := by
  cases o with
  | setFile f y => exact absurd rfl (hset f y)
  | fileDrop f => exact absurd rfl (hdrop f)
  | panic why => exact r.elim
  | iupdate ip | logWrite b d =>
    obtain ⟨-, lh, rfl⟩ := log_ok h
    rfl
  | iallocTry inum type =>
    have h : execIallocTry s inum type = .ok r s' := h
    unfold execIallocTry at h
    split at h
    · obtain ⟨-, lh, rfl⟩ := log_ok h
      rfl
    · cases h
      rfl
  | ballocBit =>
    have h : execBallocBit s = .ok r s' := h
    unfold execBallocBit at h
    split at h
    · obtain ⟨-, lh, rfl⟩ := log_ok h
      rfl
    · cases h
  | bfree b =>
    have h : execBfree s b = .ok r s' := h
    unfold execBfree at h
    split at h
    · obtain ⟨-, lh, rfl⟩ := log_ok h
      rfl
    · cases h
  | iget inum =>
    have h : execIget s inum = .ok r s' := h
    unfold execIget at h
    split at h
    · cases h
      rfl
    · split at h
      · cases h
        rfl
      · cases h
  | ilockBusy ip =>
    have h : execIlockBusy s ip = .ok r s' := h
    unfold execIlockBusy at h
    split at h
    · cases h
    · split at h
      · cases h
      · cases h
        rfl
  | ilockRead ip =>
    have h : execIlockRead s ip = .ok r s' := h
    unfold execIlockRead at h
    split at h
    · cases h
      rfl
    · split at h
      · cases h
      · cases h
        rfl
  | iunlock ip =>
    have h : execIunlock s ip = .ok r s' := h
    unfold execIunlock at h
    split at h
    · cases h
    · cases h
      rfl
  | iputStart ip =>
    have h : execIputStart s ip = .ok r s' := h
    unfold execIputStart at h
    split at h
    · split at h
      · cases h
      · cases h
        rfl
    · cases h
      rfl
  | filealloc =>
    have h : execFilealloc s = .ok r s' := h
    unfold execFilealloc at h
    split at h
    · cases h
      exact keeps_update rfl
    · cases h
      rfl
  | filedup f =>
    have h : execFiledup s f = .ok r s' := h
    unfold execFiledup at h
    split at h
    · cases h
    · cases h
      exact keeps_update rfl
  | addOff f n =>
    cases h
    exact keeps_update rfl
  | fdalloc f =>
    have h : execFdalloc p s f = .ok r s' := h
    unfold execFdalloc at h
    split at h
    · cases h
      rfl
    · cases h
      rfl
  | beginOp =>
    have h : execBeginOp s = .ok r s' := h
    unfold execBeginOp at h
    split at h
    · cases h
    · cases h
      rfl
  | consoleread n =>
    have h : execConsoleread s n = .ok r s' := h
    unfold execConsoleread at h
    split at h
    · cases h
    · cases h
      rfl
  | idup | iputEnd | getInode | setInode | getInum | bread | pipeclose | getFile | getOfile
  | clearOfile | getCwd | setCwd | endOp =>
    cases h
    rfl

end Steps

/-! ## The record is right -/

/-- What was opened is still kept open or was dropped, and of the ends of pipes that were
dropped those are not closed that a process is about to close. -/
structure Ends.Ok (g : Ends) (s : State) (T : Slot → Hold) : Prop where
  opened : ∀ e, g.opened e = g.dropped e + s.keepers e
  closed : ∀ pipe writable, g.dropped (.pipe pipe writable) = g.closed (.pipe pipe writable) +
    ∑ p, if (T p).bal.pipe = some (pipe, writable) then 1 else 0

namespace Ends

variable {g : Ends} {s s' : State} {T : Slot → Hold} {own : Nat → Owner} {p : Slot} {t : Hold}

theorem keepers_setFile (s : State) (f : FRef) (y : File) (e : End) :
    (s.setFile f y).keepers e + (if (s.file f).keeps = some e then 1 else 0) =
      s.keepers e + if y.keeps = some e then 1 else 0 :=
  card_update (fun y : File => y.keeps = some e) s.file f y

/-- What one process has to close has changed. -/
theorem sum_pipe (T : Slot → Hold) (p : Slot) (t : Hold) (e : Nat × Bool) :
    (∑ q, if (update T p t q).bal.pipe = some e then 1 else 0) +
        (if (T p).bal.pipe = some e then 1 else 0) =
      (∑ q, if (T q).bal.pipe = some e then 1 else 0) + if t.bal.pipe = some e then 1 else 0 :=
  sum_set (fun t => if t.bal.pipe = some e then 1 else 0) T p t

theorem Ok.frame (h : g.Ok s T) (hkeeps : ∀ f, (s'.file f).keeps = (s.file f).keeps)
    (hpipe : t.bal.pipe = (T p).bal.pipe) : g.Ok s' (update T p t) where
  opened e := by
    rw [h.opened, State.keepers, State.keepers]
    simp only [hkeeps]
  closed pipe writable := by
    have := sum_pipe T p t (pipe, writable)
    rw [hpipe] at this
    have := h.closed pipe writable
    omega

theorem Ok.setFile (h : g.Ok s T) {f : FRef} {y z : File} (hnone : (s.file f).type = .none)
    (hpipe : t.bal.pipe = (T p).bal.pipe) (hz : z.keeps = y.keeps) :
    Ok { g with opened := tick g.opened y.keeps } (s.setFile f z) (update T p t) where
  opened e := by
    have hold : (s.file f).keeps = Option.none := by
      rw [File.keeps, hnone]
    have := keepers_setFile s f z e
    rw [hold, hz, if_neg (Option.some_ne_none e).symm] at this
    have := h.opened e
    show g.opened e + _ = g.dropped e + _
    omega
  closed := (show Ok g s (update T p t) from h.frame (fun _ => rfl) hpipe).closed

theorem Ok.dropLast (h : g.Ok s T) {f : FRef} {z : File} (hz : z.type = .none)
    (hnone : (T p).bal.pipe = Option.none) (ht : t.bal = (T p).bal.dropFile f (some (s.file f))) :
    Ok { g with dropped := tick g.dropped (s.file f).keeps } (s.setFile f z) (update T p t) where
  opened e := by
    have hnew : z.keeps = Option.none := by
      rw [File.keeps, hz]
    have := keepers_setFile s f z e
    rw [hnew, if_neg (Option.some_ne_none e).symm] at this
    have := h.opened e
    show g.opened e = g.dropped e + _ + _
    omega
  closed pipe writable := by
    have hiff : t.bal.pipe = some (pipe, writable) ↔
        (s.file f).keeps = some (.pipe pipe writable) := by
      rw [ht, File.keeps, Bal.dropFile]
      cases hty : (s.file f).type with
      | none => simpa [Bal.setFrefs, Bal.setKnow] using by simp [hnone]
      | inode => simpa [Bal.setFrefs, Bal.setKnow, Bal.addRef] using by simp [hnone]
      | pipe => simp
    have := sum_pipe T p t (pipe, writable)
    rw [hnone, if_neg (Option.some_ne_none _).symm] at this
    have := h.closed pipe writable
    show g.dropped _ + (if _ then 1 else 0) = _
    simp only [hiff] at *
    omega

theorem Ok.pipeclose (h : g.Ok s T) {pipe : Nat} {writable : Bool}
    (hpipe : (T p).bal.pipe = some (pipe, writable)) (ht : t.bal.pipe = Option.none) :
    Ok { g with closed := tick g.closed (some (.pipe pipe writable)) } s (update T p t) where
  opened := h.opened
  closed pipe' writable' := by
    have hsum := sum_pipe T p t (pipe', writable')
    have hold := h.closed pipe' writable'
    have hiff : (some (End.pipe pipe writable) = some (.pipe pipe' writable')) ↔
        some (pipe, writable) = some (pipe', writable') := by
      simp
    rw [hpipe, ht, if_neg (Option.some_ne_none _).symm, ← if_congr hiff rfl rfl] at hsum
    show g.dropped (.pipe pipe' writable') = g.closed (.pipe pipe' writable') +
      (if some (End.pipe pipe writable) = some (.pipe pipe' writable') then 1 else 0) + _
    omega

/-- **The record stays right.** -/
theorem Ok.step {x x' : Sys} {ev : Event} {T' : Slot → Hold} (h : g.Ok x.fs T) (hi : x.Inv T own)
    (hs : x.step ev = some x') (hm : x.Moves ev T T') : (note x ev g).Ok x'.fs T' := by
  unfold Sys.Moves at hm
  cases hd : x.did ev with
  | none =>
    rw [hd] at hm
    obtain ⟨q, t, hq, ht, rfl⟩ := hm
    have hnote : note x ev g = g := by simp only [note, hd]
    rw [hnote]
    exact h.frame (Sys.keeps_of_not_did hd hs) (ht.idle.pipe.trans hq.idle.pipe.symm)
  | some d =>
    obtain ⟨p, o, r⟩ := d
    rw [hd] at hm
    obtain ⟨t, hpost, rfl⟩ := hm
    have hex := Sys.exec_of_did hd hs
    have hpre := hi.pre_of_did hd
    generalize x'.fs = s' at hex ⊢
    cases o with
    | setFile f y =>
      have hnote : note x ev g = { g with opened := tick g.opened y.keeps } := by
        simp only [note, hd]
      have hpipe := Hold.pipe_of_post hpost (fun _ => Op.noConfusion) fun _ _ => Op.noConfusion
      rw [hnote]
      cases hex
      exact h.setFile (hi.inv.refs.fresh p f hpre.1).2.2 hpipe rfl
    | fileDrop f =>
      have hnote : note x ev g = { g with dropped := tick g.dropped (r.bind File.keeps) } := by
        simp only [note, hd]
      obtain ⟨rfl, -⟩ := hpost
      have hex : execFileDrop x.fs f = .ok r s' := hex
      rw [hnote]
      unfold execFileDrop at hex
      split at hex
      next => cases hex
      next =>
        split at hex
        next =>
          cases hex
          exact h.frame (fun _ => keeps_update rfl) rfl
        next =>
          cases hex
          exact h.dropLast rfl hpre.2.2 rfl
    | pipeclose pipe writable =>
      have hnote : note x ev g =
          { g with closed := tick g.closed (some (.pipe pipe writable)) } := by
        simp only [note, hd]
      rw [hnote]
      cases hex
      cases hpost
      exact h.pipeclose hpre rfl
    | _ =>
      have hnote : note x ev g = g := by simp only [note, hd]
      rw [hnote]
      exact h.frame (keeps_of_exec hex (fun _ _ => Op.noConfusion) (fun _ => Op.noConfusion))
        (Hold.pipe_of_post hpost (fun _ => Op.noConfusion) fun _ _ => Op.noConfusion)

/-- In every state reached the record is right. -/
theorem recorded_inv {img : Image} {y : Sys × Ends} (h : (recorded img).Reachable y) :
    ∃ T own, y.1.Inv T own ∧ y.2.Ok y.1.fs T := by
  refine Machine.ReachableBy.induct (I := fun y => ∃ T own, y.1.Inv T own ∧ y.2.Ok y.1.fs T) ?_ ?_ h
  · rintro ⟨x, g⟩ ⟨⟨console, rfl⟩, hg⟩
    obtain rfl : g = Ends.none := hg
    obtain ⟨own, hi⟩ := img.boot_inv console
    refine ⟨bootHold, own, hi, fun e => ?_, fun pipe writable => ?_⟩
    · simp [State.keepers, Image.boot, File.keeps, Ends.none]
    · simp [bootHold, Ends.none]
  · rintro y ev y' - ⟨T, own, hi, hok⟩ - hs
    obtain ⟨hs, hg⟩ := Machine.ghost_step hs
    obtain ⟨T', own', hi', hm⟩ := hi.step hs
    rw [hg]
    exact ⟨T', own', hi', hok.step hi hs hm⟩

end Ends

/-! ## Processes at rest -/

section Rest

variable {x : Sys} {T : Slot → Hold} {own : Nat → Owner}

/-- A process that is not in a system call holds only what its descriptors and its current
directory stand for. -/
theorem Sys.Inv.rests (h : x.Inv T own) {p : Slot} (hp : ∀ k, x.thread p ≠ .call k) :
    (T p).Rests := by
  have hok := h.thread p
  cases ht : x.thread p with
  | call k => exact absurd ht (hp k)
  | idle | fork | embryo =>
    rw [ht] at hok
    exact hok

theorem State.slots_eq (s : State) (f : FRef) (hT : ∀ p, s.ofile p = (T p).bal.ofile) :
    s.slots f = ∑ p, (T p).bal.opens f := by
  rw [State.slots, card_filter, Fintype.sum_prod_type]
  refine sum_congr rfl fun p _ => ?_
  rw [Bal.opens, card_filter, ← hT p]

theorem State.dwellers_eq (s : State) (ip : IRef) (hT : ∀ p, s.cwd p = (T p).bal.cwd) :
    s.dwellers ip = ∑ p, if (T p).bal.cwd = some ip then 1 else 0 := by
  rw [State.dwellers, card_filter]
  simp only [hT]

theorem File.keeps_inode (y : File) (ip : IRef) : y.keeps = some (.inode ip) ↔ y.Is ip := by
  unfold File.keeps File.Is
  cases y.type with
  | none => simp
  | pipe => simp
  | inode => simp

theorem State.keepers_inode (s : State) (ip : IRef) : s.keepers (.inode ip) = s.files ip := by
  simp only [State.keepers, State.files, File.keeps_inode]

theorem Sys.Inv.ref_eq_slots (h : x.Inv T own) (hidle : ∀ p, x.thread p = .idle) (f : FRef) :
    (x.fs.file f).ref = x.fs.slots f := by
  have hrests : ∀ p, (T p).Rests := fun p => h.rests fun k => by rw [hidle p]; exact Thread.noConfusion
  have hsum : ∑ p, (T p).bal.frefs f = ∑ p, (T p).bal.opens f :=
    sum_congr rfl fun p _ => (hrests p).idle.frefs f
  rw [h.inv.refs.frefs, x.fs.slots_eq f h.inv.refs.ofile, hsum]

theorem Sys.Inv.ref_eq_dwellers (h : x.Inv T own) (hidle : ∀ p, x.thread p = .idle) (ip : IRef) :
    (x.fs.inode ip).ref = (x.fs.dwellers ip + x.fs.keepers (.inode ip) : Nat) := by
  have hrests : ∀ p, (T p).Rests := fun p => h.rests fun k => by rw [hidle p]; exact Thread.noConfusion
  have hsum : ∑ p, (T p).bal.refs ip = ∑ p, if (T p).bal.cwd = some ip then 1 else 0 :=
    sum_congr rfl fun p _ => (hrests p).idle.refs ip
  rw [h.inv.refs.refs, x.fs.dwellers_eq ip h.inv.refs.cwd, x.fs.keepers_inode, hsum]

/-- Once the last reference to a file is dropped, no process at rest has it open. -/
theorem Sys.Inv.last_drop (h : x.Inv T own) {ev : Event} {p : Slot} {f : FRef} {last : File}
    (hd : x.did ev = some ⟨p, .fileDrop f, some last⟩) :
    (x.fs.file f).ref = 1 ∧ ∀ q ≠ p, (∀ k, x.thread q ≠ .call k) → ∀ fd, x.fs.ofile q fd ≠ some f := by
  have hpre := h.pre_of_did hd
  have href : (x.fs.file f).ref = 1 := by
    obtain ⟨-, k, s, -, he⟩ := Sys.did_some hd
    have he : execFileDrop x.fs f = .ok (some last) s := he
    unfold execFileDrop at he
    split at he
    next => cases he
    next =>
      split at he
      next => cases he
      next => omega
  refine ⟨href, fun q hq hk fd hf => ?_⟩
  have hopen : 1 ≤ (T q).bal.frefs f := by
    rw [(h.rests hk).idle.frefs]
    rw [h.inv.refs.ofile] at hf
    exact Bal.opens_pos hf
  have := (h.inv.refs.only hpre.1 href).2 q hq
  omega

end Rest

/-- **Files are counted exactly.**  When every process is outside the kernel, a file counts
the descriptors that are open on it; every end of a pipe that was opened and that no file is
any more was closed by one `pipeclose`, and the references to an inode are those of the
files and current directories.  At any time a file that is not in use has no type, and what
it kept open is let go when the last descriptor goes. -/
theorem file_refs_exact (img : Image) (y : Sys × Ends) (h : (recorded img).Reachable y) :
    ((∀ p, y.1.thread p = .idle) → (∀ f, (y.1.fs.file f).ref = y.1.fs.slots f) ∧
      (∀ e, y.2.opened e = y.2.dropped e + y.1.fs.keepers e) ∧
      (∀ pipe writable, y.2.closed (.pipe pipe writable) = y.2.dropped (.pipe pipe writable)) ∧
      ∀ ip, (y.1.fs.inode ip).ref = (y.1.fs.dwellers ip + y.1.fs.keepers (.inode ip) : Nat)) ∧
    (∀ f, (y.1.fs.file f).ref = 0 → (y.1.fs.file f).type = .none) ∧
    ∀ ev p f last, y.1.did ev = some ⟨p, .fileDrop f, some last⟩ → (y.1.fs.file f).ref = 1 ∧
        ∀ q ≠ p, (∀ k, y.1.thread q ≠ .call k) → ∀ fd, y.1.fs.ofile q fd ≠ some f := by
  obtain ⟨T, own, hi, hok⟩ := Ends.recorded_inv h
  refine ⟨fun hidle => ⟨hi.ref_eq_slots hidle, hok.opened, fun pipe writable => ?_,
    hi.ref_eq_dwellers hidle⟩, hi.inv.refs.notype, fun ev p f last hd => hi.last_drop hd⟩
  have hzero : (∑ p, if (T p).bal.pipe = some (pipe, writable) then 1 else 0) = 0 := by
    refine sum_eq_zero fun p _ => if_neg ?_
    rw [(hi.rests fun k => by rw [hidle p]; exact Thread.noConfusion).idle.pipe]
    exact (Option.some_ne_none _).symm
  have := hok.closed pipe writable
  omega

/-- A process opens a pipe and forks, and both close the end for writing. -/
theorem file_refs_exact_pipe : ∃ y : Sys × Ends, (recorded .root).Reachable y ∧
    (y.1.fs.file 0).ref = 2 ∧ y.1.fs.slots 0 = 2 ∧ y.2.opened (.pipe 7 true) = 1 ∧
    y.2.closed (.pipe 7 true) = 1 ∧ y.1.fs.keepers (.pipe 7 true) = 0 := by
  obtain ⟨y, hr, hidle, h0, h1, h2⟩ := Machine.reachable_of_run (M := recorded .root)
    (P := fun y => (∀ p, (y.1.thread p).isIdle = true) ∧ (y.1.fs.file 0).ref = 2 ∧
      y.2.opened (.pipe 7 true) = 1 ∧ y.2.closed (.pipe 7 true) = 1)
    (⟨Image.root.boot [], fun _ => .idle⟩, .none)
    ([.start 0 (.pipe (some 7))] ++ List.replicate 9 (.run 0) ++
      [.fork 0 1] ++ List.replicate 17 (.run 0) ++
      [.start 1 (.close (some 1))] ++ List.replicate 4 (.run 1) ++
      [.start 0 (.close (some 1))] ++ List.replicate 5 (.run 0))
    ⟨⟨[], rfl⟩, rfl⟩ (by decide)
  obtain ⟨hrest, -⟩ := file_refs_exact .root y hr
  obtain ⟨hslots, hopened, hclosed, -⟩ := hrest fun p => (y.1.thread p).eq_idle (hidle p)
  have hs := hslots 0
  have ho := hopened (.pipe 7 true)
  have hc := hclosed 7 true
  exact ⟨y, hr, h0, by omega, h1, h2, by omega⟩

/-! ## One call -/

section Balanced

variable {T : Slot → Hold} {p : Slot} {t : Hold}

/-- What others hold is what it was: of the process only what is the same before and after
has changed. -/
theorem sum_sub_sum_set (T : Slot → Hold) (g g' : Hold → Nat) (h : g (T p) = g' (T p)) (ht : g t = g' t) :
    ((∑ q, g (update T p t q) : Nat) : Int) - (∑ q, g' (update T p t q) : Nat) =
      (∑ q, g (T q) : Nat) - (∑ q, g' (T q) : Nat) := by
  have := sum_set g T p t
  have := sum_set g' T p t
  omega

theorem busy_eq_of_rests {s s' : State} (h : Locks s T) (h' : Locks s' (update T p t))
    (hp : (T p).Rests) (ht : t.Rests) (e : IRef) : (s'.inode e).busy = (s.inode e).busy := by
  rw [Bool.eq_iff_iff, h.busy, h'.busy]
  refine exists_congr fun q => ?_
  by_cases hq : q = p
  · rw [hq, update_self, ht.lock, hp.lock]
  · rw [update_of_ne hq]

/-- A call that has returned leaves its process at rest, and what others hold as it was. -/
theorem Inv.run_call {s s' : State} {own : Nat → Owner} (h : Inv s T own) (hp : (T p).Rests)
    {c : Call} {r : Option Nat} (hrun : c.body.run (exec p) s = .ok r s') :
    ∃ t own', t.Rests ∧ Inv s' (update T p t) own' := by
  have hstep : ∀ o t s r s', Hold.rules.pre o t → (∃ own, Inv s (update T p t) own) →
      exec p s o = .ok r s' →
      ∃ t', Hold.rules.post o t r t' ∧ ∃ own, Inv s' (update T p t') own := by
    rintro o t s r s' hpre ⟨own, hi⟩ hx
    obtain ⟨t', own', hpost, hi'⟩ := hi.step (by rwa [update_self]) hx
    rw [update_self] at hpost
    rw [update_idem] at hi'
    exact ⟨t', hpost, own', hi'⟩
  obtain ⟨t, ht, own', hi⟩ := (Hold.Call.follows_body c hp).of_run hstep
    ⟨own, by rwa [update_eq_self]⟩ hrun
  exact ⟨t, own', ht, hi⟩

end Balanced

/-- **Calls are balanced.**  When a call has returned, with a result or an error, the locks
and the transactions are those from before it, the references to an inode have changed with
the current directories and files, and those to a file with the descriptors, whatever other
processes were in the middle of.  When every process is outside the kernel no lock is held, no
transaction is open, and nothing else is counted. -/
theorem call_balanced (img : Image) (x : Sys) (h : (system img).Reachable x) :
    (∀ p (c : Call) r s', x.thread p = .idle → c.body.run (exec p) x.fs = .ok r s' →
      s'.outstanding = x.fs.outstanding ∧
      (∀ f, (s'.file f).ref - s'.slots f = (x.fs.file f).ref - x.fs.slots f) ∧
      ∀ e, (s'.inode e).busy = (x.fs.inode e).busy ∧
        (s'.inode e).ref - (s'.dwellers e + s'.keepers (.inode e)) =
          (x.fs.inode e).ref - (x.fs.dwellers e + x.fs.keepers (.inode e))) ∧
    ((∀ p, x.thread p = .idle) → x.fs.outstanding = 0 ∧ (∀ f, (x.fs.file f).ref = x.fs.slots f) ∧
      ∀ e, (x.fs.inode e).busy = false ∧
        (x.fs.inode e).ref = (x.fs.dwellers e + x.fs.keepers (.inode e) : Nat)) := by
  obtain ⟨T, own, hi⟩ := sys_inv h
  have hrests : ∀ p, x.thread p = .idle → (T p).Rests :=
    fun p hp => hi.rests fun k => by rw [hp]; exact Thread.noConfusion
  refine ⟨fun p c r s' hp hrun => ?_, fun hidle => ⟨?_, hi.ref_eq_slots hidle,
    fun e => ⟨?_, hi.ref_eq_dwellers hidle e⟩⟩⟩
  · have hp := hrests p hp
    obtain ⟨t, own', ht, hi'⟩ := hi.inv.run_call hp hrun
    refine ⟨?_, fun f => ?_, fun e => ⟨busy_eq_of_rests hi.inv.locks hi'.locks hp ht e, ?_⟩⟩
    · have := sum_set (fun t => t.bal.ops) T p t
      rw [hp.idle.ops, ht.idle.ops] at this
      rw [hi.inv.refs.ops, hi'.refs.ops]
      omega
    · have := sum_sub_sum_set T (fun t => t.bal.frefs f) (fun t => t.bal.opens f)
        (hp.idle.frefs f) (ht.idle.frefs f)
      rw [hi.inv.refs.frefs, hi'.refs.frefs, x.fs.slots_eq f hi.inv.refs.ofile,
        s'.slots_eq f hi'.refs.ofile]
      omega
    · have := sum_sub_sum_set T (fun t => t.bal.refs e)
        (fun t => if t.bal.cwd = some e then 1 else 0) (hp.idle.refs e) (ht.idle.refs e)
      rw [← x.fs.dwellers_eq e hi.inv.refs.cwd, ← s'.dwellers_eq e hi'.refs.cwd] at this
      rw [hi.inv.refs.refs, hi'.refs.refs, State.keepers_inode, State.keepers_inode]
      omega
  · rw [hi.inv.refs.ops]
    exact sum_eq_zero fun p _ => (hrests p (hidle p)).idle.ops
  · rw [← Bool.not_eq_true, hi.inv.locks.busy]
    rintro ⟨p, hlock⟩
    exact hlock ((hrests p (hidle p)).lock e)

/-- The root directory is opened: the new reference is that of the new file. -/
theorem call_balanced_open : ∃ (e : IRef) (s' : State),
    (sysOpen (some [47]) ⟨false, false, false, false⟩).run (exec 0) (Image.root.boot []) =
      .ok (some 0) s' ∧ (s'.inode e).ref = 2 ∧ s'.dwellers e = 1 ∧ s'.keepers (.inode e) = 1 ∧
      s'.outstanding = 0 ∧ (s'.inode e).busy = false := by
  let e : IRef := ⟨0, by decide⟩
  obtain ⟨r, s', hrun, hr⟩ := Outcome.exists_of_any
    (P := fun r s' => r == some 0 && (State.inode s' e).ref == 2 && s'.dwellers e == 1)
    (x := (sysOpen (some [47]) ⟨false, false, false, false⟩).run (exec 0) (Image.root.boot []))
    (by decide)
  simp only [Bool.and_eq_true, beq_iff_eq] at hr
  obtain ⟨⟨rfl, href⟩, hd⟩ := hr
  obtain ⟨hcall, hrest⟩ := call_balanced .root ⟨Image.root.boot [], fun _ => .idle⟩
    (.init ⟨[], rfl⟩)
  obtain ⟨hops, -, hinode⟩ := hcall 0 (.open (some [47]) ⟨false, false, false, false⟩) (some 0) s' rfl hrun
  obtain ⟨hzero, -, hidle⟩ := hrest fun _ => rfl
  obtain ⟨hbusy, hrefs⟩ := hinode e
  obtain ⟨hfree, hall⟩ := hidle e
  refine ⟨e, s', hrun, href, hd, ?_, hops.trans hzero, hbusy.trans hfree⟩
  omega

end Xv6.Fs
