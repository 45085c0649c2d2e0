import OperatingSystems.Log.Durable

/-!
# Crash atomicity

A crash may come before any step of any process, of the commit, or of a recovery.
Whatever the run, the first recovery that is completed leaves the disk as it was
after some of the groups that were committed, first to last: every group whose
commit had returned is there, and a group holds all log writes of an operation or
none.

* `History.Whole`, `whole`: the log writes of an operation are in one group.
* `crash_atomicity`: what a recovery that is completed gives.
* `log_writes_seen`: what is read in the meantime.
-/

namespace Xv6

open Function

/-! ## Whole operations -/

/-- The log writes of an operation. -/
def writesOf (o : Nat) (ws : List LogWrite) : List LogWrite := ws.filter fun w => w.op = o

theorem writesOf_concat (o : Nat) (ws : List LogWrite) (w : LogWrite) :
    writesOf o (ws ++ [w]) = if w.op = o then writesOf o ws ++ [w] else writesOf o ws := by
  by_cases h : w.op = o <;> simp [writesOf, h]

theorem writesOf_eq_nil {o : Nat} {ws : List LogWrite} (h : ∀ w ∈ ws, w.op < o) :
    writesOf o ws = [] := by
  rw [writesOf, List.filter_eq_nil_iff]
  intro w hw
  have := h w hw
  simp only [decide_eq_true_eq]
  omega

/-- The log writes of an operation are all in one group, or in none. -/
structure History.Whole (g : History) (s : Sys) : Prop where
  fresh : ∀ w ∈ g.trace, w.op < g.next
  active : ∀ p, (s.thread p).pc.InOp → g.op p < g.next ∧
    (∀ q, (s.thread q).pc.InOp → g.op q = g.op p → q = p) ∧
    writesOf (g.op p) g.pending = writesOf (g.op p) g.trace ∧
    ∀ grp ∈ g.groups, writesOf (g.op p) grp = []
  pending : ∀ o, writesOf o g.pending = [] ∨ writesOf o g.pending = writesOf o g.trace
  groups : ∀ grp ∈ g.groups, ∀ o, writesOf o grp = [] ∨ writesOf o grp = writesOf o g.trace

namespace History.Whole

variable {A : LogArea} {s s' : Sys} {g g' : History} {p : Nat}

/-- A step that logs nothing, and begins no operation. -/
theorem same (h : g.Whole s) (hop : ∀ q, (s'.thread q).pc.InOp → (s.thread q).pc.InOp)
    (hg : g' = { g with returned := g'.returned }) : g'.Whole s' := by
  rw [hg]
  refine ⟨h.fresh, ?_, h.pending, h.groups⟩
  intro q hq
  obtain ⟨h1, h2, h3, h4⟩ := h.active q (hop q hq)
  exact ⟨h1, fun r hr => h2 r (hop r hr), h3, h4⟩

theorem nextOp (h : g.Whole s) : writesOf g.next g.pending = [] ∧ writesOf g.next g.trace = [] ∧
    ∀ grp ∈ g.groups, writesOf g.next grp = [] := by
  have htrace := writesOf_eq_nil h.fresh
  refine ⟨?_, htrace, ?_⟩
  · rcases h.pending g.next with h' | h'
    · exact h'
    · exact h'.trans htrace
  · intro grp hgrp
    rcases h.groups grp hgrp g.next with h' | h'
    · exact h'
    · exact h'.trans htrace

theorem beginOp (h : g.Whole s) (hop : ∀ q, q ≠ p → (s'.thread q).pc.InOp → (s.thread q).pc.InOp) :
    History.Whole { g with op := update g.op p g.next, next := g.next + 1 } s' := by
  obtain ⟨hpend, htrace, hgroups⟩ := h.nextOp
  refine ⟨fun w hw => Nat.lt_succ_of_lt (h.fresh w hw), ?_, h.pending, h.groups⟩
  intro q hq
  by_cases hqp : q = p
  · subst hqp
    simp only [update_self]
    refine ⟨Nat.lt_succ_self _, ?_, by rw [hpend, htrace], hgroups⟩
    intro r hr heq
    by_contra hne
    rw [update_of_ne hne] at heq
    have := (h.active r (hop r hne hr)).1
    omega
  · obtain ⟨h1, h2, h3, h4⟩ := h.active q (hop q hqp hq)
    simp only [update_of_ne hqp]
    refine ⟨Nat.lt_succ_of_lt h1, ?_, h3, h4⟩
    intro r hr heq
    by_cases hrp : r = p
    · rw [hrp, update_self] at heq
      omega
    · rw [update_of_ne hrp] at heq
      exact h2 r (hop r hrp hr) heq

theorem append (h : g.Whole s) {w : LogWrite} (hp : (s.thread p).pc.InOp) (hw : w.op = g.op p)
    (hop : ∀ q, (s'.thread q).pc.InOp → (s.thread q).pc.InOp) :
    History.Whole { g with pending := g.pending ++ [w], trace := g.trace ++ [w] } s' := by
  obtain ⟨hlt, huniq, hpend, hgroups⟩ := h.active p hp
  refine ⟨?_, ?_, ?_, ?_⟩
  · intro v hv
    rcases List.mem_append.1 hv with hv | hv
    · exact h.fresh v hv
    · rw [List.mem_singleton.1 hv, hw]
      exact hlt
  · intro q hq
    obtain ⟨h1, h2, h3, h4⟩ := h.active q (hop q hq)
    refine ⟨h1, fun r hr => h2 r (hop r hr), ?_, h4⟩
    simp only [writesOf_concat]
    split <;> rw [h3]
  · intro o
    simp only [writesOf_concat]
    split
    · rename_i ho
      rw [← ho, hw, hpend]
      exact .inr rfl
    · exact h.pending o
  · intro grp hgrp o
    rw [writesOf_concat]
    split
    · rename_i ho
      rw [← ho, hw]
      exact .inl (hgroups grp hgrp)
    · exact h.groups grp hgrp o

theorem close (h : g.Whole s) (hop : ∀ q, ¬ (s'.thread q).pc.InOp) :
    History.Whole { g with groups := g.groups ++ [g.pending], pending := [] } s' := by
  refine ⟨h.fresh, fun q hq => absurd hq (hop q), fun o => .inl rfl, ?_⟩
  intro grp hgrp o
  rcases List.mem_append.1 hgrp with hgrp | hgrp
  · exact h.groups grp hgrp o
  · rw [List.mem_singleton.1 hgrp]
    exact h.pending o

theorem inOp_of_update {t : Thread} (hth : s'.thread = update s.thread p t)
    (ht : t.pc.InOp → (s.thread p).pc.InOp) (q : Nat) (hq : (s'.thread q).pc.InOp) :
    (s.thread q).pc.InOp := by
  rw [hth] at hq
  by_cases hqp : q = p
  · rw [hqp, update_self] at hq
    exact hqp ▸ ht hq
  · rwa [update_of_ne hqp] at hq

theorem note_commit : ∃ n, g.note s (.commit p) = { g with returned := n } := by
  simp only [History.note]
  split
  · exact ⟨_, rfl⟩
  · exact ⟨g.returned, rfl⟩

theorem note_recovered (hm : s.mode = .recovering .writeHead) : g.note s .recover =
      { g with base := s.io.disk, groups := [], pending := [], returned := 0, trace := [] } := by
  simp [History.note, hm]

theorem note (h : g.Whole s) (hsafe : s.Safe A g) {e : Sys.Event} (ht : Sys.Trans A s e s')
    (hp : ∀ why, s'.mode ≠ .panicked why) : (g.note s e).Whole s' := by
  cases ht with
  | crash => exact ⟨h.fresh, fun q hq => (by cases hq), fun o => .inl rfl, h.groups⟩
  | panic _ | tooBig => exact absurd rfl (hp _)
  | readHead hm _ | reinstall hm _ _ | reinstalled hm _ =>
    exact h.same (fun _ hq => hq) (by simp [History.note, hm])
  | recovered hm _ =>
    rw [note_recovered hm]
    refine ⟨by simp, ?_, fun o => .inl rfl, by simp⟩
    intro q hq
    replace hq : (s.thread q).pc.InOp := hq
    rw [(hsafe.recovering hm).idle q] at hq
    cases hq
  | @beginOp p _ _ _ _ =>
    refine h.beginOp fun q hqp hq => ?_
    simpa [Sys.setThread, hqp] using hq
  | @bread io p b _ hpc _ _ =>
    exact h.same (inOp_of_update rfl id) rfl
  | @change p b d _ hpc _ =>
    exact h.same (inOp_of_update rfl id) rfl
  | @logWrite p b _ hpc _ _ _ =>
    exact h.same (inOp_of_update rfl (fun _ => by simp [hpc])) rfl
  | @append p b _ hpc =>
    rw [show g.note s (.append p) = { g with
        pending := g.pending ++ [⟨g.op p, b, (s.io.view b).data⟩]
        trace := g.trace ++ [⟨g.op p, b, (s.io.view b).data⟩] } by simp [History.note, hpc]]
    have hin : (s.thread p).pc.InOp := by simp [hpc]
    exact h.append hin rfl (inOp_of_update rfl fun _ => hin)
  | @brelse io p b _ hpc _ _ _ =>
    exact h.same (inOp_of_update rfl id) rfl
  | @endOp p _ hpc _ _ hout =>
    exact h.same (inOp_of_update rfl (fun hq => by cases hq)) (by simp [History.note, hout])
  | @endLast p hm hpc hheld _ hout =>
    rw [Sys.note_endLast hout]
    have hr := (hsafe.running hm).1.endLast hpc hheld hout
    exact h.close (hr.counting.not_inOp (p := p) (c := .start) (by simp [Sys.setThread]))
  | @start p _ hpc | @writeLog io p tail b _ hpc _ _ | @wroteLog p tail _ hpc _
  | @writeHead io p _ hpc _ | @installTrans io p tail b _ hpc _ _ | @installed p tail _ hpc _
  | @eraseHead io p _ hpc _ | @done p _ hpc =>
    obtain ⟨n, hn⟩ := note_commit
    exact h.same (inOp_of_update rfl (fun hq => by cases hq)) (by rw [hn])

/-- **Every step keeps operations whole.** -/
theorem step {e : Sys.Event} (h : g.Whole s) (hsafe : s.Safe A g) (hs : s.step A e = some s') :
    (History.record A s e g).Whole s' := by
  have ht := Sys.trans_of_step hs
  by_cases hp : ∃ why, s'.mode = .panicked why
  · obtain ⟨why, hp⟩ := hp
    rw [Sys.record_of_panic hs hp, Sys.eq_of_panic ht hp]
    exact h.same (fun q hq => hq) rfl
  · rw [Sys.record_eq_note hs fun why hw => hp ⟨why, hw⟩]
    exact h.note hsafe ht fun why hw => hp ⟨why, hw⟩

end History.Whole

/-- **In every run the log writes of an operation are in one group or in none.** -/
theorem whole {A : LogArea} {d : Disk} (h0 : getHead (d A.start) = []) {s : Sys} {g : History}
    (h : (logHistory A d).ReachableBy (fun x _ => x.1.fits A) (s, g)) : g.Whole s := by
  refine (h.induct (I := fun x : Sys × History => x.1.Safe A x.2 ∧ x.2.Whole x.1) ?_ ?_).2
  · rintro ⟨s, g⟩ hinit
    obtain ⟨hs, hg⟩ := hinit
    replace hs : s = Sys.boot d := hs
    replace hg : g = History.start d := hg
    subst hs hg
    exact ⟨Sys.safe_start h0, fun w hw => (by cases hw), fun q hq => (by cases hq),
      fun o => .inl rfl, fun grp hgrp => (by cases hgrp)⟩
  · rintro ⟨s, g⟩ e ⟨s', g'⟩ - ⟨hsafe, hwhole⟩ hfit hs
    obtain ⟨hs, hg⟩ := Machine.ghost_step hs
    replace hg : g' = History.record A s e g := hg
    subst hg
    exact ⟨hsafe.step hfit hs, hwhole.step hsafe hs⟩

/-- **Crash atomicity.**  When a recovery is completed, every block outside the log
holds what it held after the first `k` of the groups that were committed, for some
`k`: the groups whose commit had returned are among them, and every group holds
all log writes of an operation or none. -/
theorem crash_atomicity {A : LogArea} {d : Disk} (h0 : getHead (d A.start) = []) {s s' : Sys}
    {g : History} (h : (logHistory A d).ReachableBy (fun x _ => x.1.fits A) (s, g))
    (hs : s.step A .recover = some s') (hm' : s'.mode = .running) :
    (∃ k, g.returned ≤ k ∧ k ≤ g.groups.length ∧
      ∀ b, ¬ A.Has b → s'.io.disk b = replay (g.groups.take k).flatten g.base b) ∧
    ∀ grp ∈ g.groups, ∀ o, writesOf o grp = [] ∨ writesOf o grp = writesOf o g.trace := by
  have hsafe := safe h0 h
  refine ⟨?_, (whole h0 h).groups⟩
  obtain ⟨k, hk, hlen, hredo⟩ := hsafe.1.groups
  refine ⟨k, hk, hlen, ?_⟩
  cases Sys.trans_of_step hs with
  | panic _ | readHead | reinstall | reinstalled => cases hm'
  | recovered hm hio =>
    have hrec := hsafe.recovering hm
    obtain ⟨-, hdisk, -⟩ := hrec.coherent.writeHead hio
    intro b hb
    have hne : b ≠ A.start := fun heq => hb (heq ▸ A.has_start)
    show _ = g.content k b
    rw [← hredo b hb, hrec.redone.2 b hb, hdisk, update_of_ne hne]

instance (A : LogArea) (s : Sys) : Decidable (s.fits A) := inferInstanceAs (Decidable (_ ≤ _))

/-- An operation logs one block, and the machine crashes as soon as the header is
written.  The recovery is about to be completed. -/
def crashInCommit : List Sys.Event :=
  [.recover, .recover, .recover, .beginOp 0, .bread 0 100, .change 0 100 (Bytes.zero.put32 0 7),
    .logWrite 0 100, .append 0, .brelse 0 100, .endOp 0, .commit 0, .commit 0, .commit 0, .commit 0,
    .crash, .recover, .recover, .recover]

theorem crash_atomicity_commit :
    ∃ s s' g, (logHistory .mkfs fun _ => .zero).ReachableBy (fun x _ => x.1.fits .mkfs) (s, g) ∧
      s.step .mkfs .recover = some s' ∧ s'.mode = .running ∧
      g.returned = 0 ∧ g.groups.length = 1 ∧
      ((∃ k, g.returned ≤ k ∧ k ≤ g.groups.length ∧ ∀ b, ¬ LogArea.mkfs.Has b →
        s'.io.disk b = replay (g.groups.take k).flatten g.base b) ∧
      ∀ grp ∈ g.groups, ∀ o, writesOf o grp = [] ∨ writesOf o grp = writesOf o g.trace) := by
  obtain ⟨⟨s, g⟩, h, hstep, hret, hlen⟩ := Machine.reachableBy_of_runBy
    (M := logHistory .mkfs fun _ => .zero)
    (P := fun x => (x.1.step .mkfs .recover).any (fun s' => s'.mode = .running) = true ∧
      x.2.returned = 0 ∧ x.2.groups.length = 1)
    (fun x _ => x.1.fits .mkfs) (Sys.boot fun _ => .zero, .start fun _ => .zero) crashInCommit
    ⟨rfl, rfl⟩ (by decide)
  obtain ⟨s', hs, hm⟩ := (Option.any_eq_true _ _).1 hstep
  have hm : s'.mode = .running := of_decide_eq_true hm
  exact ⟨s, s', g, h, hs, hm, hret, hlen, crash_atomicity (by decide) h hs hm⟩

/-- **What is logged is seen.**  While the system runs, a block that no one is changing is
read as all log writes so far have left it, committed or not.  If it is not in the header
the disk has the same, and no block is in the header twice. -/
theorem log_writes_seen {A : LogArea} {d : Disk} (h0 : getHead (d A.start) = []) {s : Sys}
    {g : History} (h : (logHistory A d).ReachableBy (fun x _ => x.1.fits A) (s, g))
    (hm : s.mode = .running) :
    (∀ b, ¬ A.Has b → ¬ s.Changing b →
      (s.io.view b).data = replay (g.groups.flatten ++ g.pending) g.base b ∧
      (b ∉ s.log.lh → s.io.disk b = (s.io.view b).data)) ∧
    s.log.lh.Nodup := by
  obtain ⟨hready, hdata⟩ := (safe h0 h).running hm
  refine ⟨fun b hb hc => ⟨hdata.seen b hb hc, fun hlh => ?_⟩, hready.cached.nodup⟩
  rw [hdata.seen b hb hc, hdata.settled b hb fun hp => hlh hp.1]

/-- An operation logs the same block twice, each time with other data, and gives it back. -/
theorem log_writes_seen_twice : ∃ s g,
    (logHistory .mkfs fun _ => .zero).ReachableBy (fun x _ => x.1.fits .mkfs) (s, g) ∧
      g.groups = [] ∧ g.pending.length = 2 ∧ 100 ∈ s.log.lh ∧
      (s.io.view 100).data = replay g.pending g.base 100 ∧ s.log.lh.Nodup := by
  obtain ⟨⟨s, g⟩, h, hm, hbusy, hg, hp, hlh⟩ := Machine.reachableBy_of_runBy
    (M := logHistory .mkfs fun _ => .zero)
    (P := fun x => x.1.mode = .running ∧ (x.1.io.view 100).busy = false ∧
      x.2.groups.length = 0 ∧ x.2.pending.length = 2 ∧ 100 ∈ x.1.log.lh)
    (fun x _ => x.1.fits .mkfs) (Sys.boot fun _ => .zero, .start fun _ => .zero)
    (crashInCommit.take 8 ++ [.change 0 100 (Bytes.zero.put32 0 8), .logWrite 0 100, .append 0,
      .brelse 0 100]) ⟨rfl, rfl⟩ (by decide)
  have hg : g.groups = [] := List.eq_nil_of_length_eq_zero hg
  -- who changes a block has its buffer
  have hholding := ((safe (by decide) h).running hm).1.holding
  have hchanging : ¬ s.Changing 100 := by
    rintro ⟨p, hp⟩
    have := (hholding.held p 100 (hholding.changed p 100 hp).1).1
    rw [hbusy] at this
    contradiction
  obtain ⟨hseen, hnodup⟩ := log_writes_seen (by decide) h hm
  have hdata := (hseen 100 (by decide) hchanging).1
  rw [hg] at hdata
  exact ⟨s, g, h, hg, hp, hlh, hdata, hnodup⟩

end Xv6
