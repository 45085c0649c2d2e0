import OperatingSystems.Log.System

/-!
# The steps of the log, one by one

`Trans` lists the ways in which a step can go, with what holds when it is taken.
Every invariant of the log is proved by cases on it.

* `trans_of_step`: every step is one of them.
* `view_readHead`, `view_writeHead`, `view_writeLog`, `view_installTrans`: what the
  steps that read or write the log do to the disk and to what is seen of the cache.
-/

namespace Xv6

open Function (update_of_ne update_self)

namespace Bio

variable {io : Bio} {α β : Type}

/-- A call of the cache panics with a text of the cache only. -/
def Own (r : Except Halt α) : Prop :=
  ∀ why, r = .error (.panic why) → why = .bgetNoBuffers ∨ why = .bwrite ∨ why = .brelse

theorem Own.bind {r : Except Halt α} {k : α → Except Halt β} (hr : Own r) (hk : ∀ a, Own (k a)) :
    Own (r >>= k) := by
  intro why h
  cases r with
  | error e =>
    cases h
    exact hr why rfl
  | ok a => exact hk a why h

theorem own_ok (a : α) : Own (.ok a) := fun _ h => by cases h

theorem own_bread (b : Blockno) : Own (io.bread b) := by
  refine .bind ?_ fun _ => own_ok _
  unfold bget
  intro why h
  split at h
  · split at h <;> cases h
  · split at h
    · cases h
    · cases h
      simp

theorem own_bwrite (b : Blockno) : Own (io.bwrite b) := by
  unfold bwrite
  intro why h
  split at h
  · split at h
    · cases h
    · cases h
      simp
  · cases h
    simp

theorem own_brelse (b : Blockno) : Own (io.brelse b) := by
  unfold brelse
  intro why h
  split at h
  · split at h
    · cases h
    · cases h
      simp
  · cases h
    simp

theorem own_readHead (b : Blockno) : Own (io.readHead b) :=
  (own_bread b).bind fun _ => (own_brelse b).bind fun _ => own_ok _

theorem own_writeHead (b : Blockno) (lh : List Blockno) : Own (io.writeHead b lh) :=
  (own_bread b).bind fun _ => (own_bwrite b).bind fun _ => own_brelse b

theorem own_writeLog (dst src : Blockno) : Own (io.writeLog dst src) :=
  (own_bread dst).bind fun _ => (own_bread src).bind fun _ => (own_bwrite dst).bind fun _ =>
    (own_brelse src).bind fun _ => own_brelse dst

theorem own_installTrans (lbuf dbuf : Blockno) : Own (io.installTrans lbuf dbuf) :=
  (own_bread lbuf).bind fun _ => (own_bread dbuf).bind fun _ => (own_bwrite dbuf).bind fun _ =>
    (own_brelse lbuf).bind fun _ => own_brelse dbuf

theorem bind_eq_ok {r : Except Halt α} {k : α → Except Halt β} {b : β}
    (h : (r >>= k) = .ok b) : ∃ a, r = .ok a ∧ k a = .ok b := by
  cases r with
  | ok a => exact ⟨a, rfl, h⟩
  | error e => cases h

variable {io' : Bio} {T : Blockno → Prop} {b dst src : Blockno}

/-- A block that is free looks the same when it is taken and given back. -/
theorem View.free_eq {v : View} (h : v.busy = false) : { v with busy := false } = v := by
  cases v
  cases h
  rfl

section

variable (hc : io.Coherent T)

include hc

theorem Coherent.written {x : Block} (hb : (io.view b).busy = false)
    (hw : io'.Wf) (hdisk : io'.disk = Function.update io.disk b x)
    (hview : io'.view = Function.update io.view b ⟨x, false, false⟩) : io'.Coherent T := by
  have hT : ¬ T b := fun hT => by simp [hc.busy b hT] at hb
  refine hc.change hw hview (fun b' hne => ?_) (fun _ _ => .rfl) (fun _ _ => ?_)
    fun h => absurd h hT
  · rw [hdisk, update_of_ne hne]
  · rw [hdisk, update_self]

theorem Coherent.copy {io₂ : Bio} (hne : dst ≠ src)
    (hd : (io.view dst).busy = false) (hs : (io.view src).busy = false) (hw : io₂.Wf)
    (hdisk : io₂.disk = io.disk)
    (hview : io₂.view = Function.update (Function.update io.view dst { io.view dst with busy := true })
      src { io.view src with busy := true })
    (h : (do
      let io ← (io₂.memmove dst src).bwrite dst
      let io ← io.brelse src
      io.brelse dst) = .ok io') :
    io'.disk = Function.update io.disk dst (io.view src).data ∧
      io'.view = Function.update io.view dst ⟨(io.view src).data, false, false⟩ ∧
      io'.Coherent T := by
  have hd₂ : io₂.view dst = { io.view dst with busy := true } := by
    rw [hview, update_of_ne hne, update_self]
  have hs₂ : io₂.view src = { io.view src with busy := true } := by
    rw [hview, update_self]
  obtain ⟨hmdisk, hmview⟩ := view_memmove (by rw [hd₂]) (by rw [hs₂] : (io₂.view src).busy = true)
  obtain ⟨io₃, h₃, h⟩ := bind_eq_ok h
  obtain ⟨-, hdisk₃, hview₃, hw₃⟩ := (hw.memmove dst src).view_bwrite h₃
  obtain ⟨io₄, h₄, h⟩ := bind_eq_ok h
  obtain ⟨-, hdisk₄, hview₄, hw₄⟩ := hw₃.view_brelse h₄
  obtain ⟨-, hdisk₅, hview₅, hw₅⟩ := hw₄.view_brelse h
  have hdisk' : io'.disk = Function.update io.disk dst (io.view src).data := by
    rw [hdisk₅, hdisk₄, hdisk₃, hmdisk, hmview, hdisk, update_self, hs₂]
  have hview' : io'.view = Function.update io.view dst ⟨(io.view src).data, false, false⟩ := by
    funext b
    rw [hview₅, hview₄, hview₃, hmview]
    by_cases hb : b = dst
    · subst hb
      simp [hne, hs₂]
    · by_cases hb' : b = src
      · subst hb'
        simp [hb, hs₂, View.free_eq hs]
      · simp [hb, hb', hview]
  exact ⟨hdisk', hview', hc.written hd hw₅ hdisk' hview'⟩

theorem Coherent.bread_bread {io₁ io₂ : Bio} (h₁ : io.bread dst = .ok io₁)
    (h₂ : io₁.bread src = .ok io₂) :
    dst ≠ src ∧ (io.view dst).busy = false ∧ (io.view src).busy = false ∧ io₂.Wf ∧
      io₂.disk = io.disk ∧
      io₂.view = Function.update (Function.update io.view dst { io.view dst with busy := true })
        src { io.view src with busy := true } := by
  obtain ⟨hbusy₁, hdisk₁, hview₁, -⟩ := hc.view_bread h₁
  obtain ⟨hbusy₂, hdisk₂, hview₂, hw₂⟩ := (hc.bread h₁).view_bread h₂
  have hne : dst ≠ src := by
    rintro rfl
    rw [hview₁, update_self] at hbusy₂
    cases hbusy₂
  rw [hview₁, update_of_ne hne.symm] at hbusy₂ hview₂
  exact ⟨hne, hbusy₁, hbusy₂, hw₂, hdisk₂.trans hdisk₁, hview₂⟩

/-- **An iteration of `write_log`.** -/
theorem Coherent.writeLog (h : io.writeLog dst src = .ok io') :
    dst ≠ src ∧ (io.view dst).busy = false ∧ (io.view src).busy = false ∧
      io'.disk = Function.update io.disk dst (io.view src).data ∧
      io'.view = Function.update io.view dst ⟨(io.view src).data, false, false⟩ ∧
      io'.Coherent T := by
  obtain ⟨io₁, h₁, h⟩ := bind_eq_ok h
  obtain ⟨io₂, h₂, h⟩ := bind_eq_ok h
  obtain ⟨hne, hd, hs, hw, hdisk, hview⟩ := hc.bread_bread h₁ h₂
  exact ⟨hne, hd, hs, hc.copy hne hd hs hw hdisk hview h⟩

/-- **An iteration of `install_trans`.** -/
theorem Coherent.installTrans (h : io.installTrans src dst = .ok io') :
    dst ≠ src ∧ (io.view dst).busy = false ∧ (io.view src).busy = false ∧
      io'.disk = Function.update io.disk dst (io.view src).data ∧
      io'.view = Function.update io.view dst ⟨(io.view src).data, false, false⟩ ∧
      io'.Coherent T := by
  obtain ⟨io₁, h₁, h⟩ := bind_eq_ok h
  obtain ⟨io₂, h₂, h⟩ := bind_eq_ok h
  obtain ⟨hne, hs, hd, hw, hdisk, hview⟩ := hc.bread_bread h₁ h₂
  rw [Function.update_comm hne] at hview
  exact ⟨hne.symm, hd, hs, hc.copy hne.symm hd hs hw hdisk hview h⟩

/-- **`write_head`.** -/
theorem Coherent.writeHead {lh : List Blockno} (h : io.writeHead b lh = .ok io') :
    (io.view b).busy = false ∧ io'.disk = Function.update io.disk b (putHead lh (io.view b).data) ∧
      io'.view = Function.update io.view b ⟨putHead lh (io.view b).data, false, false⟩ ∧
      io'.Coherent T := by
  obtain ⟨io₁, h₁, h⟩ := bind_eq_ok h
  obtain ⟨hbusy, hdisk₁, hview₁, hw₁⟩ := hc.view_bread h₁
  have hv₁ : io₁.view b = { io.view b with busy := true } := by
    rw [hview₁, update_self]
  obtain ⟨x, hf, hx, hxv⟩ := find_of_busy (by rw [hv₁] : (io₁.view b).busy = true)
  have hdata : x.data = (io.view b).data := by
    rw [hxv] at hv₁
    exact congrArg View.data hv₁
  have hview₂ := view_update (f := fun x => x.put (putHead lh x.data)) (fun _ => rfl) hf
  have hw₂ := hw₁.update (b := b) (f := fun x => x.put (putHead lh x.data)) (fun _ => rfl)
    fun _ h => h
  obtain ⟨io₃, h₃, h⟩ := bind_eq_ok h
  obtain ⟨-, hdisk₃, hview₃, hw₃⟩ := hw₂.view_bwrite h₃
  obtain ⟨-, hdisk₄, hview₄, hw₄⟩ := hw₃.view_brelse h
  have hdisk' : io'.disk = Function.update io.disk b (putHead lh (io.view b).data) := by
    rw [hdisk₄, hdisk₃, hview₂, update_disk, hdisk₁, update_self]
    simp [Buf.put, hdata]
  have hview' : io'.view =
      Function.update io.view b ⟨putHead lh (io.view b).data, false, false⟩ := by
    rw [hview₄, hview₃, hview₂, hview₁]
    simp [Buf.put, hdata]
  exact ⟨hbusy, hdisk', hview', hc.written hbusy hw₄ hdisk' hview'⟩

/-- **`read_head`.** -/
theorem Coherent.readHead {lh : List Blockno} (h : io.readHead b = .ok (io', lh)) :
    lh = getHead (io.view b).data ∧ io'.disk = io.disk ∧ io'.view = io.view ∧ io'.Coherent T := by
  obtain ⟨io₁, h₁, h⟩ := bind_eq_ok h
  obtain ⟨hbusy, hdisk₁, hview₁, -⟩ := hc.view_bread h₁
  have hc₁ := hc.bread h₁
  obtain ⟨io₂, h₂, h⟩ := bind_eq_ok h
  obtain ⟨-, hdisk₂, hview₂, hw₂⟩ := hc₁.toWf.view_brelse h₂
  have hv : io₂.view = io.view := by
    rw [hview₂, hview₁]
    simp [View.free_eq hbusy]
  cases h
  refine ⟨by rw [hview₁, update_self], hdisk₂.trans hdisk₁, hv, hw₂, ?_, ?_⟩
  · intro b' hT hdirty
    rw [hv, hdisk₂, hdisk₁] at *
    exact hc.clean b' hT hdirty
  · intro b' hT
    rw [hv]
    exact hc.busy b' hT

end

end Bio

namespace Sys

/-- What a panic other than that of a full log says of the state it comes from. -/
def Tells (s : Sys) : Panic → Prop
  | .tooBigATransaction => False
  | .logWriteOutsideOfTrans => s.log.outstanding < 1 ∧ ∃ p, (s.thread p).pc = .inOp
  | .logCommitting => s.log.committing = true ∧ ∃ p, (s.thread p).pc = .inOp
  | _ => True

/-- The ways a step can go. -/
inductive Trans (A : LogArea) (s : Sys) : Event → Sys → Prop
  | crash : Trans A s .crash (boot s.io.disk)
  | panic {e : Event} {why : Panic} (hwhy : s.Tells why) :
      Trans A s e { s with mode := .panicked why }
  | readHead {io : Bio} {lh : List Blockno} (hm : s.mode = .recovering .readHead)
      (h : s.io.readHead A.start = .ok (io, lh)) :
      Trans A s .recover
        { s with io, log := { s.log with lh }, mode := .recovering (.installTrans 0) }
  | reinstall {io : Bio} {tail : Nat} {b : Blockno} (hm : s.mode = .recovering (.installTrans tail))
      (hb : s.log.lh[tail]? = some b) (h : s.io.installTrans (A.slot tail) b = .ok io) :
      Trans A s .recover { s with io, mode := .recovering (.installTrans (tail + 1)) }
  | reinstalled {tail : Nat} (hm : s.mode = .recovering (.installTrans tail))
      (hb : s.log.lh[tail]? = none) :
      Trans A s .recover { s with log := { s.log with lh := [] }, mode := .recovering .writeHead }
  | recovered {io : Bio} (hm : s.mode = .recovering .writeHead)
      (h : s.io.writeHead A.start s.log.lh = .ok io) :
      Trans A s .recover { s with io, mode := .running }
  | beginOp {p : Nat} (hm : s.mode = .running) (hpc : (s.thread p).pc = .outside)
      (hc : s.log.committing = false)
      (hroom : s.log.lh.length + (s.log.outstanding + 1) * MAXOPBLOCKS ≤ LOGSIZE) :
      Trans A s (.beginOp p) { s.setThread p { s.thread p with pc := .inOp, logged := [] } with
          log := { s.log with outstanding := s.log.outstanding + 1 } }
  | bread {io : Bio} {p : Nat} {b : Blockno} (hm : s.mode = .running)
      (hpc : (s.thread p).pc = .outside ∨ (s.thread p).pc = .inOp) (hb : ¬ A.Has b)
      (h : s.io.bread b = .ok io) :
      Trans A s (.bread p b)
        { s.setThread p { s.thread p with held := b :: (s.thread p).held } with io }
  | change {p : Nat} {b : Blockno} {d : Block} (hm : s.mode = .running)
      (hpc : (s.thread p).pc = .inOp) (hb : b ∈ (s.thread p).held) :
      Trans A s (.change p b d)
        { s.setThread p { s.thread p with changed := b :: (s.thread p).changed } with
          io := s.io.update b (Buf.put d) }
  | tooBig {p : Nat} {b : Blockno} (hm : s.mode = .running) (hpc : (s.thread p).pc = .inOp)
      (hb : b ∈ (s.thread p).held)
      (hbig : LOGSIZE ≤ s.log.lh.length ∨ A.size ≤ s.log.lh.length + 1) :
      Trans A s (.logWrite p b) { s with mode := .panicked .tooBigATransaction }
  | logWrite {p : Nat} {b : Blockno} (hm : s.mode = .running) (hpc : (s.thread p).pc = .inOp)
      (hb : b ∈ (s.thread p).held) (hn : s.log.lh.length < LOGSIZE)
      (hsize : s.log.lh.length + 1 < A.size) :
      Trans A s (.logWrite p b) (s.setThread p { s.thread p with pc := .logWrite b })
  | append {p : Nat} {b : Blockno} (hm : s.mode = .running)
      (hpc : (s.thread p).pc = .logWrite b) :
      Trans A s (.append p) { s.setThread p ((s.thread p).append b) with
          log := s.log.append b, io := s.io.update b Buf.pin }
  | brelse {io : Bio} {p : Nat} {b : Blockno} (hm : s.mode = .running)
      (hpc : (s.thread p).pc = .outside ∨ (s.thread p).pc = .inOp)
      (hb : b ∈ (s.thread p).held) (hch : b ∉ (s.thread p).changed)
      (h : s.io.brelse b = .ok io) :
      Trans A s (.brelse p b)
        { s.setThread p { s.thread p with held := (s.thread p).held.erase b } with io }
  | endOp {p : Nat} (hm : s.mode = .running) (hpc : (s.thread p).pc = .inOp)
      (hheld : (s.thread p).held = []) (hc : s.log.committing = false)
      (hout : s.log.outstanding - 1 ≠ 0) :
      Trans A s (.endOp p) { s.setThread p { s.thread p with pc := .outside } with
          log := { s.log with outstanding := s.log.outstanding - 1 } }
  | endLast {p : Nat} (hm : s.mode = .running) (hpc : (s.thread p).pc = .inOp)
      (hheld : (s.thread p).held = []) (hc : s.log.committing = false)
      (hout : s.log.outstanding - 1 = 0) :
      Trans A s (.endOp p) { s.setThread p { s.thread p with pc := .commit .start } with
          log := { s.log with outstanding := s.log.outstanding - 1, committing := true } }
  | start {p : Nat} (hm : s.mode = .running) (hpc : (s.thread p).pc = .commit .start) :
      Trans A s (.commit p) (s.commitTo p (if 0 < s.log.lh.length then .writeLog 0 else .done))
  | writeLog {io : Bio} {p tail : Nat} {b : Blockno} (hm : s.mode = .running)
      (hpc : (s.thread p).pc = .commit (.writeLog tail)) (hb : s.log.lh[tail]? = some b)
      (h : s.io.writeLog (A.slot tail) b = .ok io) :
      Trans A s (.commit p) { s.commitTo p (.writeLog (tail + 1)) with io }
  | wroteLog {p tail : Nat} (hm : s.mode = .running)
      (hpc : (s.thread p).pc = .commit (.writeLog tail)) (hb : s.log.lh[tail]? = none) :
      Trans A s (.commit p) (s.commitTo p .writeHead)
  | writeHead {io : Bio} {p : Nat} (hm : s.mode = .running)
      (hpc : (s.thread p).pc = .commit .writeHead)
      (h : s.io.writeHead A.start s.log.lh = .ok io) :
      Trans A s (.commit p) { s.commitTo p (.installTrans 0) with io }
  | installTrans {io : Bio} {p tail : Nat} {b : Blockno} (hm : s.mode = .running)
      (hpc : (s.thread p).pc = .commit (.installTrans tail)) (hb : s.log.lh[tail]? = some b)
      (h : s.io.installTrans (A.slot tail) b = .ok io) :
      Trans A s (.commit p) { s.commitTo p (.installTrans (tail + 1)) with io }
  | installed {p tail : Nat} (hm : s.mode = .running)
      (hpc : (s.thread p).pc = .commit (.installTrans tail)) (hb : s.log.lh[tail]? = none) :
      Trans A s (.commit p) { s.commitTo p .eraseHead with log := { s.log with lh := [] } }
  | eraseHead {io : Bio} {p : Nat} (hm : s.mode = .running)
      (hpc : (s.thread p).pc = .commit .eraseHead)
      (h : s.io.writeHead A.start s.log.lh = .ok io) :
      Trans A s (.commit p) { s.commitTo p .done with io }
  | done {p : Nat} (hm : s.mode = .running) (hpc : (s.thread p).pc = .commit .done) :
      Trans A s (.commit p) { s.setThread p { s.thread p with pc := .outside } with
          log := { s.log with committing := false } }

variable {A : LogArea} {s s' : Sys} {e : Event}

/-- A step that calls the cache goes on, or panics. -/
theorem trans_of_after {α : Type} {r : Except Halt α} {k : α → Sys} (hr : Bio.Own r)
    (hk : ∀ a, r = .ok a → Trans A s e (k a)) (h : s.after r k = some s') : Trans A s e s' := by
  cases r with
  | ok a =>
    cases h
    exact hk a rfl
  | error halt =>
    cases halt with
    | sleep => cases h
    | panic why =>
      cases h
      refine .panic ?_
      rcases hr why rfl with rfl | rfl | rfl <;> trivial

theorem trans_of_recover {pc : RecoverPc} (hm : s.mode = .recovering pc)
    (h : s.recover A pc = some s') : Trans A s .recover s' := by
  cases pc with
  | readHead => exact trans_of_after (Bio.own_readHead _) (fun _ hr => .readHead hm hr) h
  | installTrans tail =>
    rw [recover] at h
    cases hb : s.log.lh[tail]? with
    | some b =>
      rw [hb] at h
      exact trans_of_after (Bio.own_installTrans _ _) (fun _ hr => .reinstall hm hb hr) h
    | none =>
      rw [hb] at h
      cases h
      exact .reinstalled hm hb
  | writeHead => exact trans_of_after (Bio.own_writeHead _ _) (fun _ hr => .recovered hm hr) h

section

variable (hm : s.mode = .running)

include hm

theorem trans_of_commit {p : Nat} (h : s.commit A p = some s') : Trans A s (.commit p) s' := by
  unfold commit at h
  split at h
  · rename_i hpc
    cases h
    exact .start hm hpc
  · rename_i tail hpc
    cases hb : s.log.lh[tail]? with
    | some b =>
      rw [hb] at h
      exact trans_of_after (Bio.own_writeLog _ _) (fun _ hr => .writeLog hm hpc hb hr) h
    | none =>
      rw [hb] at h
      cases h
      exact .wroteLog hm hpc hb
  · rename_i hpc
    exact trans_of_after (Bio.own_writeHead _ _) (fun _ hr => .writeHead hm hpc hr) h
  · rename_i tail hpc
    cases hb : s.log.lh[tail]? with
    | some b =>
      rw [hb] at h
      exact trans_of_after (Bio.own_installTrans _ _) (fun _ hr => .installTrans hm hpc hb hr) h
    | none =>
      rw [hb] at h
      cases h
      exact .installed hm hpc hb
  · rename_i hpc
    exact trans_of_after (Bio.own_writeHead _ _) (fun _ hr => .eraseHead hm hpc hr) h
  · rename_i hpc
    cases h
    exact .done hm hpc
  · cases h

theorem trans_of_beginOp {p : Nat} (h : s.beginOp p = some s') : Trans A s (.beginOp p) s' := by
  unfold beginOp at h
  split at h
  · rename_i hpc
    split at h
    · cases h
    · rename_i hc
      split at h
      · cases h
      · rename_i hroom
        cases h
        exact .beginOp hm hpc (by simpa using hc) (by omega)
  · cases h

theorem trans_of_logWrite {p : Nat} {b : Blockno}
    (h : s.logWrite A p b = some s') : Trans A s (.logWrite p b) s' := by
  unfold logWrite at h
  split at h
  · rename_i hpc
    split at h
    · rename_i hbig
      cases h
      exact .tooBig hm hpc.1 hpc.2 hbig
    · rename_i hbig
      split at h
      · rename_i hout
        cases h
        exact .panic ⟨hout, p, hpc.1⟩
      · cases h
        exact .logWrite hm hpc.1 hpc.2 (by omega) (by omega)
  · cases h

theorem trans_of_endOp {p : Nat} (h : s.endOp p = some s') : Trans A s (.endOp p) s' := by
  unfold endOp at h
  split at h
  · rename_i hpc
    split at h
    · rename_i hc
      cases h
      exact .panic ⟨hc, p, hpc.1⟩
    · rename_i hc
      have hc : s.log.committing = false := by simpa using hc
      split at h
      · rename_i hout
        cases h
        exact .endLast hm hpc.1 hpc.2 hc hout
      · rename_i hout
        cases h
        exact .endOp hm hpc.1 hpc.2 hc hout
  · cases h

theorem trans_of_run (h : s.run A e = some s') : Trans A s e s' := by
  cases e with
  | beginOp p => exact trans_of_beginOp hm h
  | bread p b =>
    simp only [run, take] at h
    split at h
    · rename_i hpc
      exact trans_of_after (Bio.own_bread b) (fun _ hr => .bread hm hpc.1 hpc.2 hr) h
    · cases h
  | change p b d =>
    simp only [run, change] at h
    split at h
    · rename_i hpc
      cases h
      exact .change hm hpc.1 hpc.2
    · cases h
  | logWrite p b => exact trans_of_logWrite hm h
  | append p =>
    simp only [run, append] at h
    split at h
    · rename_i hpc
      cases h
      exact .append hm hpc
    · cases h
  | brelse p b =>
    simp only [run, release] at h
    split at h
    · rename_i hpc
      exact trans_of_after (Bio.own_brelse b) (fun _ hr => .brelse hm hpc.1 hpc.2.1 hpc.2.2 hr) h
    · cases h
  | endOp p => exact trans_of_endOp hm h
  | commit p => exact trans_of_commit hm h
  | recover | crash => cases h

end

/-- **Every step is one of the list.** -/
theorem trans_of_step (h : s.step A e = some s') : Trans A s e s' := by
  unfold step at h
  split at h
  · cases h
    exact .crash
  · rename_i hm
    exact trans_of_recover hm h
  · rename_i hm
    exact trans_of_run hm h
  · cases h

end Sys

end Xv6
