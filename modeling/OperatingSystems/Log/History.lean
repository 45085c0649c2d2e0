import OperatingSystems.Log.Ready

/-!
# What the log has promised

The history of a run of the log since the last recovery that was completed: the
content of the disk then, the groups of log writes that `commit` has started to
commit, the log writes that are in no group yet, and how many commits have
returned.  No step reads it.

* `LogArea.redo`: what a recovery makes of a disk; `redo_install` says that it may
  be interrupted anywhere.
* `Durable`: a recovery gives the content after some of the groups, among them all
  those whose commit has returned.
* `Data`, `Stage`: what is in the cache and on the disk while the system is running,
  and at every point of the commit.
-/

namespace Xv6

open Function

/-- A call of `log_write`: by which operation, and for which block with which data. -/
structure LogWrite where
  op : Nat
  blockno : Blockno
  data : Block

/-- The history of a run. -/
structure History where
  base : Disk
  groups : List (List LogWrite)
  pending : List LogWrite
  returned : Nat
  trace : List LogWrite
  op : Nat → Nat
  next : Nat

/-- The disk with log writes applied to it. -/
def replay (ws : List LogWrite) (d : Disk) : Disk :=
  Writes.apply (ws.map fun w => (w.blockno, w.data)) d

namespace History

/-- The history of a machine that was never started. -/
def start (d : Disk) : History := ⟨d, [], [], 0, [], fun _ => 0, 0⟩

/-- The content after the first `k` groups. -/
def content (g : History) (k : Nat) : Disk := replay (g.groups.take k).flatten g.base

/-- The content after all log writes. -/
def current (g : History) : Disk := replay (g.groups.flatten ++ g.pending) g.base

/-- What a step that does not panic adds to the history. -/
def note (g : History) (s : Sys) : Sys.Event → History
  | .crash => { g with pending := [] }
  | .recover =>
    if s.mode = .recovering .writeHead then
      { g with base := s.io.disk, groups := [], pending := [], returned := 0, trace := [] }
    else g
  | .beginOp p => { g with op := update g.op p g.next, next := g.next + 1 }
  | .append p =>
    match (s.thread p).pc with
    | .logWrite b =>
      let w : LogWrite := ⟨g.op p, b, (s.io.view b).data⟩
      { g with pending := g.pending ++ [w], trace := g.trace ++ [w] }
    | _ => g
  | .endOp _ =>
    if s.log.outstanding - 1 = 0 then
      { g with groups := g.groups ++ [g.pending], pending := [] }
    else g
  | .commit p =>
    if (s.thread p).pc = .commit .start ∧ s.log.lh = [] ∨ (s.thread p).pc = .commit .eraseHead then
      { g with returned := g.groups.length }
    else g
  | _ => g

/-- What a step adds to the history. -/
def record (A : LogArea) (s : Sys) (e : Sys.Event) (g : History) : History :=
  match s.step A e with
  | some s' =>
    match s'.mode with
    | .panicked _ => g
    | _ => g.note s e
  | none => g

end History

/-- The log with its history. -/
def logHistory (A : LogArea) (d : Disk) : Machine (Sys × History) Sys.Event :=
  (logSystem A d).ghost (History.start d) (History.record A)

/-! ## Recovery -/

/-- The writes a recovery makes. -/
def LogArea.writes (A : LogArea) (d : Disk) : List (Blockno × Block) :=
  (getHead (d A.start)).mapIdx fun i b => (b, d (A.slot i))

/-- What a recovery makes of the disk. -/
def LogArea.redo (A : LogArea) (d : Disk) : Disk := Writes.apply (A.writes d) d

/-- The header on the disk is one that `write_head` wrote. -/
structure LogArea.HeadOk (A : LogArea) (d : Disk) : Prop where
  nodup : (getHead (d A.start)).Nodup
  home : ∀ b ∈ getHead (d A.start), ¬ A.Has b
  fit : (getHead (d A.start)).length ≤ A.size - 1

section Redo

variable {A : LogArea} {d d' : Disk} {b : Blockno}

theorem LogArea.writes_fst (A : LogArea) (d : Disk) :
    (A.writes d).map Prod.fst = getHead (d A.start) := by
  refine List.ext_getElem (by simp [writes]) ?_
  intro i h₁ h₂
  simp [writes]

theorem LogArea.mem_writes {w : Blockno × Block} :
    w ∈ A.writes d ↔ ∃ i, (getHead (d A.start))[i]? = some w.1 ∧ d (A.slot i) = w.2 := by
  constructor
  · intro h
    obtain ⟨i, hi, rfl⟩ := List.mem_mapIdx.1 h
    exact ⟨i, by simp, rfl⟩
  · rintro ⟨i, hi, hw⟩
    obtain ⟨hlt, hget⟩ := List.getElem?_eq_some_iff.1 hi
    exact List.mem_mapIdx.2 ⟨i, hlt, by rw [hget, hw]⟩

/-- With an empty header there is nothing to do. -/
theorem LogArea.redo_of_nil (h : getHead (d A.start) = []) : A.redo d = d := by
  simp [redo, writes, h]

theorem LogArea.HeadOk.writes_congr (ok : A.HeadOk d) (h : ∀ b, A.Has b → d' b = d b) :
    A.writes d' = A.writes d := by
  unfold writes
  rw [h _ A.has_start]
  refine List.ext_getElem (by simp) ?_
  intro i h₁ h₂
  have hi : i < (getHead (d A.start)).length := by simpa using h₁
  have hfit := ok.fit
  have hslot : A.Has (A.slot i) := A.has_slot (by omega)
  simp [h _ hslot]

theorem LogArea.HeadOk.congr (ok : A.HeadOk d) (h : ∀ b, A.Has b → d' b = d b) : A.HeadOk d' := by
  have hhead := h _ A.has_start
  exact ⟨hhead ▸ ok.nodup, hhead ▸ ok.home, hhead ▸ ok.fit⟩

/-- **A recovery may be interrupted anywhere**: a block that it sets may hold
anything. -/
theorem LogArea.HeadOk.redo_install (ok : A.HeadOk d) (hb : b ∈ getHead (d A.start)) (x : Block) :
    A.redo (update d b x) = A.redo d := by
  have hhome := ok.home b hb
  have hsame : ∀ b', A.Has b' → update d b x b' = d b' := by
    intro b' hb'
    have hne : b' ≠ b := fun heq => hhome (heq ▸ hb')
    exact update_of_ne hne _ _
  unfold redo
  rw [ok.writes_congr hsame]
  exact Writes.apply_update_of_mem (by rwa [A.writes_fst]) x d

end Redo

end Xv6
