import OperatingSystems.Fs.Sound

/-!
# One operation

Every operation keeps `Inv`: if it answers, the process that called it is left with what
the rules say (`Inv.step`).
-/

namespace Xv6.Fs

open Function Bal

section Inodes

variable {s s' : State} {T : Slot → Hold} {own : Nat → Owner} {p : Slot} {e : IRef}

theorem Bal.Secures.addRef {b : Bal} (h : b.Secures e) (ip : IRef) : (b.addRef ip).Secures e :=
  h.imp_left fun hr => hr.trans (Hold.refs_addRef_le b ip e)

theorem Inv.setLh (h : Inv s T own) (lh : List Nat) : Inv { s with lh } T own :=
  ⟨⟨h.refs.refs, h.refs.frefs, h.refs.notype, h.refs.fresh, h.refs.known, h.refs.ops, h.refs.cwd,
    h.refs.ofile⟩, ⟨h.locks.uniq, h.locks.busy, h.locks.excl, h.locks.secure, h.locks.held,
    h.locks.rest, h.locks.zero⟩, h.owned.congr (fun _ => rfl) (fun _ => Iff.rfl) rfl rfl rfl⟩

theorem log_ok {α : Type} {b : Nat} {r r' : α} (h : s.log b r = .ok r' s') :
    r' = r ∧ ∃ lh, s' = { s with lh } := by
  unfold State.log at h
  split at h
  · cases h
  · split at h
    · cases h
    · cases h
      exact ⟨rfl, _, rfl⟩

section

variable (h : Inv s T own)

include h

theorem Inv.addRef (hpos : 0 < (s.inode e).ref) :
    Inv (s.setInode e { s.inode e with ref := (s.inode e).ref + 1 })
      (update T p { T p with bal := (T p).bal.addRef e }) own := by
  refine h.setRef hpos rfl rfl (fun e' he => (h.locks.secure p e' he).addRef e) (fun e' => ?_) rfl
  rw [addRef_refs]
  split
  next he =>
    rw [he]
    omega
  next => rfl

theorem Inv.iget {inum : Nat} (hx : execIget s inum = .ok e s') :
    ∃ own', Inv s' (update T p { T p with bal := (T p).bal.addRef e }) own' := by
  unfold execIget at hx
  split at hx
  next ip hc =>
    cases hx
    have := List.find?_some hc
    exact ⟨own, h.addRef (of_decide_eq_true this).1⟩
  next hc =>
    split at hx
    next ip hempty =>
      cases hx
      have hz : (s.inode e).ref = 0 := by
        have := List.find?_some hempty
        exact of_decide_eq_true this
      have hnone := List.find?_eq_none.1 hc
      have hnew : ∀ e', 0 < (s.inode e').ref → (s.inode e').inum ≠ inum := by
        intro e' hp hi
        have := hnone e' (List.mem_finRange e')
        simp [hp, hi] at this
      -- no one has locked an entry that is not in use
      have hnl : ∀ q, (T q).lock e = .none := by
        intro q
        by_contra hne
        have := h.refs.pos (h.locks.secure q e hne)
        omega
      have hin := fun e' => setInode_inode s e e' { s.inode e with
        inum := inum, ref := 1, busy := false, valid := false }
      generalize ht : ({ T p with bal := (T p).bal.addRef e } : Hold) = t
      have hlock := update_congr (t := t) (·.lock) (by rw [← ht])
      have hne : ∀ q e', (T q).lock e' ≠ .none → e' ≠ e := by
        rintro q e' hl rfl
        exact hl (hnl q)
      refine ⟨own, ?_, ⟨?_, ?_, ?_, ?_, ?_, ?_, ?_⟩, ?_⟩
      · refine h.refs.update_refs (fun e' => ?_) rfl (by rw [← ht]; rfl) (by rw [← ht]; rfl)
          (by rw [← ht]; rfl) ?_ ?_
        · rw [hin, ← ht]
          show _ + _ = _ + (((T p).bal.addRef e).refs e' : Int)
          rw [addRef_refs]
          split
          next he =>
            rw [he]
            push_cast
            omega
          next => rfl
        · rw [← ht]
          exact h.refs.cwd_self p
        · rw [← ht]
          exact h.refs.ofile_self p
      · intro e1 e2 h1 h2 heq
        rw [hin] at h1 heq
        rw [hin] at h2 heq
        split at h1
        next he1 =>
          split at h2
          next he2 => rw [he1, he2]
          next he2 =>
            rw [if_pos he1, if_neg he2] at heq
            exact absurd heq.symm (hnew e2 h2)
        next he1 =>
          split at h2
          next he2 =>
            rw [if_neg he1, if_pos he2] at heq
            exact absurd heq (hnew e1 h1)
          next he2 =>
            rw [if_neg he1, if_neg he2] at heq
            exact h.locks.uniq e1 e2 h1 h2 heq
      · intro e'
        simp only [hlock]
        rw [hin]
        split
        next he =>
          rw [he]
          simp [hnl]
        next => exact h.locks.busy e'
      · simp only [hlock]
        exact h.locks.excl
      · intro q e' hl
        rw [hlock] at hl
        have hs := h.locks.secure q e' hl
        by_cases hq : q = p
        · subst hq
          rw [update_self, ← ht]
          exact hs.addRef e
        · rw [update_of_ne hq]
          exact hs
      · intro q e' d dk hl
        rw [hlock] at hl
        have he := hne q e' (by rw [hl]; exact Lock.noConfusion)
        rw [hin, if_neg he]
        exact h.locks.held q e' d dk hl
      · intro e' hp hv hw
        simp only [hlock] at hw
        rw [hin] at hp hv ⊢
        split at hv
        next => cases hv
        next he =>
          rw [if_neg he] at hp ⊢
          exact h.locks.rest e' hp hv hw
      · exact h.locks.zero
      · refine h.owned.congr (update_congr (·.blk) (by rw [← ht])) (fun i => ?_) rfl rfl rfl
        · have hiff : ∀ q e' d dk, (T q).lock e' = .held d dk →
              (((s.setInode e { s.inode e with
                inum := inum, ref := 1, busy := false, valid := false }).inode e').inum = i ↔
                (s.inode e').inum = i) := by
            intro q e' d dk hl
            rw [hin, if_neg (hne q e' (by rw [hl]; exact Lock.noConfusion))]
          simp only [HeldAt, hlock]
          constructor
          · rintro ⟨q, e', d, dk, hl, hi⟩
            exact ⟨q, e', d, dk, hl, (hiff q e' d dk hl).1 hi⟩
          · rintro ⟨q, e', d, dk, hl, hi⟩
            exact ⟨q, e', d, dk, hl, (hiff q e' d dk hl).2 hi⟩
    next => cases hx

theorem Inv.ilockBusy (hsec : (T p).bal.Secures e) (hbusy : (s.inode e).busy = false) :
    Inv (s.setInode e { s.inode e with busy := true })
      (update T p ((T p).setLock e .wait)) own := by
  have hpos : 0 < (s.inode e).ref := h.refs.pos hsec
  have hfree := h.locks.free hbusy
  have hx : Keeps s e { s.inode e with busy := true } := ⟨rfl, rfl⟩
  generalize ht : (T p).setLock e .wait = t
  have hl : ∀ e' ≠ e, t.lock e' = (T p).lock e' := fun e' he => by simp [← ht, he]
  have hle : t.lock e = .wait := by simp [← ht]
  have hbal : t.bal = (T p).bal := by rw [← ht]; rfl
  have hblk : t.blk = (T p).blk := by rw [← ht]; rfl
  refine ⟨h.refs.same hx.ref_eq rfl hbal rfl rfl rfl, ?_,
    h.owned.congr (update_congr (·.blk) hblk) (fun i => ?_) rfl rfl rfl⟩
  · refine h.locks.set h.refs (setInode_inode s e · _) (fun _ _ => rfl) hpos rfl hl
      (fun q _ => hfree q) ?_ ?_ ?_ ?_ ?_
    · rw [hle]
      simp
    · exact h.locks.secure_of hsec hbal hl
    · intro d dk hl'
      rw [hle] at hl'
      cases hl'
    · intro hp hv _
      exact h.locks.rest e hp hv fun q => .inl (hfree q)
    · exact h.locks.zero _
  · rw [heldAt_iff _ _ p e, heldAt_iff s T p e, others_update hx.inum_eq hl, update_self,
      hle, hfree p]
    simp

theorem Inv.ilockRead (hwait : (T p).lock e = .wait) (hx : execIlockRead s e = .ok () s') :
    ∃ d blk own', d.type ≠ 0 ∧ Hold.Gains (T p).blk blk d ∧
      Inv s' (update T p { (T p).setLock e (.held d d) with blk }) own' := by
  have hne : (T p).lock e ≠ .none := by
    rw [hwait]
    exact Lock.noConfusion
  have hsec := h.locks.secure p e hne
  have hpos : 0 < (s.inode e).ref := h.refs.pos hsec
  have hbusy := (h.locks.busy e).2 ⟨p, hne⟩
  have hother : ∀ q ≠ p, (T q).lock e = .none := fun q hq => h.locks.other (.inl hne) hq
  have hnot : ∀ d dk, (T p).lock e ≠ .held d dk := by
    intro d dk hl
    rw [hwait] at hl
    cases hl
  unfold execIlockRead at hx
  split at hx
  next hv =>
    cases hx
    have hrest := h.locks.rest e hpos hv fun q => by
      by_cases hq : q = p
      · rw [hq]
        exact .inr hwait
      · exact .inl (hother q hq)
    obtain ⟨blk, own', hg, hinv⟩ := h.open hpos hother hnot hsec
      ⟨rfl, rfl⟩ hbusy hv hrest.1 rfl (hrest.1 ▸ hrest.2)
    refine ⟨_, blk, own', hrest.1 ▸ hrest.2, hg, ?_⟩
    rwa [show s.setInode e (s.inode e) = s by
      unfold State.setInode
      rw [update_eq_self]] at hinv
  next =>
    split at hx
    next => cases hx
    next htype =>
      cases hx
      obtain ⟨blk, own', hg, hinv⟩ := h.open
        (x := { s.inode e with din := s.dinode (s.inode e).inum, valid := true }) hpos hother hnot
        hsec ⟨rfl, rfl⟩ hbusy rfl rfl rfl htype
      exact ⟨_, blk, own', htype, hg, hinv⟩

theorem Inv.iunlock {d : Dinode} (hheld : (T p).lock e = .held d d)
    (htype : d.type ≠ 0) (hmap : Mapped (T p).blk d (nblocks d.size)) :
    ∃ blk own', Hold.Loses (T p).blk blk d ∧ Inv (s.setInode e { s.inode e with busy := false })
        (update T p { (T p).setLock e .none with blk }) own' := by
  obtain ⟨hv, hd, hdk, -⟩ := h.locks.held p e d d hheld
  have hx : Keeps s e { s.inode e with busy := false } := ⟨rfl, rfl⟩
  refine h.close (x := { s.inode e with busy := false }) hheld hmap
    (setInode_inode s e · _) rfl rfl (fun j => ?_) rfl (fun _ _ => Lock.noConfusion) (by simp) (fun _ _ _ => ⟨hd, htype⟩) (absurd · htype)
    (fun t ht => h.refs.same hx.ref_eq rfl ht rfl rfl rfl)
  split
  next hj =>
    rw [hj]
    exact hdk
  next => rfl

theorem Inv.dropRef (href : 1 ≤ (T p).bal.refs e)
    (hlock : (T p).lock e ≠ .none → 2 ≤ (T p).bal.refs e) :
    Inv (s.setInode e { s.inode e with ref := (s.inode e).ref - 1 })
      (update T p { T p with bal := (T p).bal.dropRef e }) own := by
  refine h.setRef (h.refs.pos (.inl href)) rfl rfl (fun e' he => ?_) (fun e' => ?_) rfl
  · obtain hr | hf := h.locks.secure p e' he
    · refine .inl ?_
      show 1 ≤ ((T p).bal.dropRef e).refs e'
      rw [dropRef_refs]
      split
      next hee =>
        rw [hee] at he
        have := hlock he
        omega
      next => exact hr
    · exact .inr hf
  · rw [dropRef_refs]
    split
    next he =>
      rw [he]
      omega
    next => rfl

theorem Inv.iputStart (href : 1 ≤ (T p).bal.refs e)
    (hlock : (T p).lock e ≠ .none → 2 ≤ (T p).bal.refs e) {last : Bool}
    (hx : execIputStart s e = .ok last s') :
    ∃ t own', Hold.post (.iputStart e) (T p) last t ∧ Inv s' (update T p t) own' := by
  unfold execIputStart at hx
  split at hx
  next hc =>
    split at hx
    next => cases hx
    next hbusy =>
      cases hx
      rw [Bool.not_eq_true] at hbusy
      have hfree := h.locks.free hbusy
      have hpos : 0 < (s.inode e).ref := h.refs.pos (.inl href)
      have hrest := h.locks.rest e hpos hc.2.1 fun q => .inl (hfree q)
      obtain ⟨blk, own', hg, hinv⟩ := h.open
        (x := { s.inode e with busy := true }) hpos (fun q _ => hfree q)
        (fun d dk hl => by rw [hfree p] at hl; cases hl) (.inl href) ⟨rfl, rfl⟩ rfl hc.2.1 hrest.1
        rfl (hrest.1 ▸ hrest.2)
      exact ⟨_, own', ⟨hfree p, _, blk, rfl, hrest.1 ▸ hrest.2, hg⟩, hinv⟩
  next =>
    cases hx
    exact ⟨_, own, rfl, h.dropRef href hlock⟩

theorem Inv.iputEnd (hgone : (T p).lock e = .gone) (href : 1 ≤ (T p).bal.refs e) :
    Inv (s.setInode e { s.inode e with ref := (s.inode e).ref - 1, busy := false, valid := false })
      (update T p { (T p).setLock e .none with bal := (T p).bal.dropRef e }) own := by
  have hpos : 0 < (s.inode e).ref := h.refs.pos (.inl href)
  have hne : (T p).lock e ≠ .none := by
    rw [hgone]
    exact Lock.noConfusion
  have hin := fun e' => setInode_inode s e e' { s.inode e with
    ref := (s.inode e).ref - 1, busy := false, valid := false }
  have hinum := setInode_inum (x := { s.inode e with
    ref := (s.inode e).ref - 1, busy := false, valid := false }) rfl
  generalize ht : ({ (T p).setLock e .none with bal := (T p).bal.dropRef e } : Hold) = t
  have hl : ∀ e' ≠ e, t.lock e' = (T p).lock e' := fun e' he => by simp [← ht, he]
  have hle : t.lock e = .none := by simp [← ht]
  have hbal : t.bal = (T p).bal.dropRef e := by rw [← ht]
  have hblk : t.blk = (T p).blk := by rw [← ht]; rfl
  refine ⟨?_, ?_, h.owned.congr (update_congr (·.blk) hblk) (fun i => ?_) rfl rfl rfl⟩
  · refine h.refs.update_refs (fun e' => ?_) rfl (by rw [hbal]; rfl) (by rw [hbal]; rfl)
      (by rw [hbal]; rfl) ?_ ?_
    · rw [hin, hbal, dropRef_refs]
      split
      next he =>
        rw [he]
        show (s.inode e).ref - 1 + _ = _
        omega
      next => rfl
    · rw [hbal]
      exact h.refs.cwd_self p
    · rw [hbal]
      exact h.refs.ofile_self p
  · refine h.locks.set h.refs hin (fun _ _ => rfl) hpos rfl hl
      (fun q hq => h.locks.other (.inl hne) hq) ?_ ?_ ?_ ?_ ?_
    · rw [hle]
      simp
    · intro e' hne'
      by_cases he : e' = e
      · rw [he, hle] at hne'
        exact absurd rfl hne'
      · rw [hl e' he] at hne'
        rw [hbal]
        refine (h.locks.secure p e' hne').imp_left fun hr => ?_
        rw [dropRef_refs, if_neg he]
        exact hr
    · intro d dk hl'
      rw [hle] at hl'
      cases hl'
    · intro _ hv
      cases hv
    · exact h.locks.zero _
  · rw [heldAt_iff _ _ p e, heldAt_iff s T p e, others_update hinum hl, update_self,
      hle, hgone]
    simp

theorem Inv.setInode {d₀ dk d : Dinode} (hheld : (T p).lock e = .held d₀ dk) :
    Inv (s.setInode e { s.inode e with din := d })
      (update T p ((T p).setLock e (.held d dk))) own := by
  obtain ⟨hv, -, hdk, htype⟩ := h.locks.held p e d₀ dk hheld
  have hbusy := (h.locks.busy e).2 ⟨p, by rw [hheld]; exact Lock.noConfusion⟩
  have hx : Keeps s e { s.inode e with din := d } := ⟨rfl, rfl⟩
  refine h.hold hheld (setInode_inode s e · _) rfl rfl
    (fun j => ?_) hx hbusy hv rfl htype (fun t ht => h.refs.same hx.ref_eq rfl ht rfl rfl rfl)
  split
  next hj =>
    rw [hj]
    exact hdk
  next => rfl

theorem Inv.iupdate {d dk : Dinode} (hheld : (T p).lock e = .held d dk)
    (hzero : d.type = 0 → d.size = 0 ∧ ∀ i ≤ NDIRECT, d.addrs i = 0) :
    ∃ own', Inv { s with dinode := update s.dinode (s.inode e).inum (s.inode e).din }
      (update T p ((T p).setLock e (if d.type = 0 then .gone else .held d d))) own' := by
  obtain ⟨hv, hd, -⟩ := h.locks.held p e d dk hheld
  have hbusy := (h.locks.busy e).2 ⟨p, by rw [hheld]; exact Lock.noConfusion⟩
  have hin : ∀ e', s.inode e' = if e' = e then s.inode e else s.inode e' := by
    intro e'
    split
    next he => rw [he]
    next => rfl
  have hdisk : ∀ j, update s.dinode (s.inode e).inum (s.inode e).din j =
      if j = (s.inode e).inum then d else s.dinode j := by
    intro j
    rw [update_apply, hd]
  generalize hs' : ({ s with dinode := update s.dinode (s.inode e).inum (s.inode e).din } :
    State) = s'
  have hin' : ∀ e', s'.inode e' = if e' = e then s.inode e else s.inode e' := by
    rw [← hs']
    exact hin
  have hdisk' : ∀ j, s'.dinode j = if j = (s.inode e).inum then d else s.dinode j := by
    rw [← hs']
    exact hdisk
  have hr : ∀ t : Hold, t.bal = (T p).bal → Refs s' (update T p t) := by
    intro t ht
    rw [← hs']
    exact h.refs.same (fun _ => rfl) rfl ht rfl rfl rfl
  have hb : s'.block = s.block := by rw [← hs']
  have hm : s'.bitmap = s.bitmap := by rw [← hs']
  split
  next h0 =>
    -- a freed inode has no blocks to give back
    have hs := hzero h0
    have hn : nblocks d.size = 0 := by
      rw [hs.1]
      rfl
    have hnone : ∀ b, ¬ Uses (T p).blk d (nblocks d.size) b := by
      rw [hn]
      rintro b (⟨i, hi, -⟩ | ⟨hi, -⟩) <;> omega
    obtain ⟨blk, own', hlose, hinv⟩ := h.close (l := .gone) hheld (by rw [hn]; exact mapped_zero hs.2)
      hin' hb hm hdisk' rfl (fun _ _ => Lock.noConfusion) (by simp [hbusy])
      (fun _ _ hl => by obtain hl | hl := hl <;> cases hl) hzero hr
    have hblk : blk = (T p).blk := funext fun b => hlose.frame b (hnone b)
    subst hblk
    exact ⟨own', hinv⟩
  next h0 => exact ⟨own, h.hold hheld hin' hb hm hdisk' ⟨rfl, rfl⟩ hbusy hv hd h0 hr⟩

theorem Inv.iallocTry {i type : Nat} (htype : type ≠ 0) (hfree : (s.dinode i).type = 0) :
    Inv { s with dinode := update s.dinode i { Dinode.zero with type } } T own := by
  have hnh : ¬ HeldAt s T i := by
    rintro ⟨q, e, d, dk, hl, hi⟩
    obtain ⟨-, -, hdk, h0⟩ := h.locks.held q e d dk hl
    rw [hi] at hdk
    exact h0 (by rw [← hdk, hfree])
  generalize hs' : ({ s with dinode := update s.dinode i { Dinode.zero with type } } : State) = s'
  have hsame : ∀ j, j ≠ i → s'.dinode j = s.dinode j := by
    intro j hj
    rw [← hs']
    exact update_of_ne hj _ _
  have hself : s'.dinode i = { Dinode.zero with type } := by
    rw [← hs']
    exact update_self ..
  have hin : s'.inode = s.inode := by rw [← hs']
  have hdisk : s'.disk = s.disk := by
    rw [← hs']
    rfl
  have hz := h.locks.zero i hfree
  have hn : nblocks (s.dinode i).size = 0 := by
    rw [hz.1]
    rfl
  have hnone : ∀ d b, ¬ Uses s.disk d 0 b := by
    rintro d b (⟨i, hi, -⟩ | ⟨hi, -⟩) <;> omega
  have hsize : nblocks (s'.dinode i).size = 0 := by
    have : (s'.dinode i).size = 0 := by
      rw [hself]
      rfl
    rw [this]
    rfl
  have haddr : ∀ k ≤ NDIRECT, (s'.dinode i).addrs k = 0 := by
    intro k _
    rw [hself]
    rfl
  have hheld : ∀ j, HeldAt s' T j ↔ HeldAt s T j := by
    intro j
    rw [HeldAt, HeldAt, hin]
  refine ⟨?_, ⟨?_, ?_, h.locks.excl, h.locks.secure, ?_, ?_, ?_⟩, ⟨?_, ?_, ?_, ?_, h.owned.fixed⟩⟩
  · rw [← hs']
    exact ⟨h.refs.refs, h.refs.frefs, h.refs.notype, h.refs.fresh, h.refs.known, h.refs.ops,
      h.refs.cwd, h.refs.ofile⟩
  · rw [hin]
    exact h.locks.uniq
  · rw [hin]
    exact h.locks.busy
  · intro q e d dk hl
    have hi : (s.inode e).inum ≠ i := fun hi => hnh ⟨q, e, d, dk, hl, hi⟩
    rw [hin, hsame _ hi]
    exact h.locks.held q e d dk hl
  · intro e hp hv hw
    rw [hin] at hp hv ⊢
    obtain ⟨h1, h2⟩ := h.locks.rest e hp hv hw
    have hi : (s.inode e).inum ≠ i := by
      intro hi
      rw [h1, hi] at h2
      exact h2 hfree
    rw [hsame _ hi]
    exact ⟨h1, h2⟩
  · intro j hj
    by_cases hji : j = i
    · rw [hji, hself] at hj
      exact absurd hj htype
    · rw [hsame j hji] at hj ⊢
      exact h.locks.zero j hj
  · rw [← hs']
    exact h.owned.blk
  · intro j hj
    rw [hheld] at hj
    rw [hdisk]
    by_cases hji : j = i
    · rw [hji, hsize]
      exact mapped_zero haddr
    · rw [hsame j hji]
      exact h.owned.mapped j hj
  · intro j b
    rw [h.owned.disk, hheld]
    refine and_congr_right fun _ => ?_
    rw [State.Uses, State.Uses, hdisk]
    by_cases hji : j = i
    · rw [hji, hsize, hn]
      exact iff_of_false (hnone _ b) (hnone _ b)
    · rw [hsame j hji]
  · rw [← hs']
    exact h.owned.bitmap

end

end Inodes

/-! ## Blocks -/

section Blocks

variable {s s' : State} {T : Slot → Hold} {own : Nat → Owner} {p : Slot} {b : Nat}

theorem Owned.touch (h : Owned s T own) {T' : Slot → Hold} {o : Owner}
    (hdisk : ∀ i, own b ≠ .disk i) (hfixed : own b ≠ .fixed) (hdisk' : ∀ i, o ≠ .disk i)
    (hfixed' : o ≠ .fixed) (hheld : ∀ i, HeldAt s' T' i ↔ HeldAt s T i)
    (hb : ∀ c ≠ b, s'.block c = s.block c) (hd : s'.dinode = s.dinode)
    (hm : ∀ c ≠ b, s'.bitmap c = s.bitmap c) (hbit : b < FSSIZE → (s'.bitmap b = false ↔ o = .free))
    (hblk : ∀ q c, (T' q).blk c = if update own b o c = .proc q then some (s'.block c) else none) :
    Owned s' T' (update own b o) := by
  have hagree : ∀ i, ¬ HeldAt s T i → ∀ c, s.Uses i c → s'.disk c = s.disk c := by
    intro i hi c hu
    have hc : c ≠ b := by
      rintro rfl
      exact hdisk i ((h.disk i c).2 ⟨hi, hu⟩)
    rw [State.disk, State.disk, hb c hc]
  have hiff : ∀ i, ¬ HeldAt s T i → ∀ c, s'.Uses i c ↔ s.Uses i c := by
    intro i hi
    rw [funext fun c => State.Uses.eq_1 s' i c, hd]
    exact (h.mapped i hi).uses_iff (hagree i hi)
  refine ⟨hblk, fun i hi => ?_, fun i c => ?_, fun c hc => ?_, fun c => ?_⟩
  · rw [hheld] at hi
    rw [hd]
    exact (h.mapped i hi).frame (hagree i hi)
  · rw [hheld]
    have hold : ¬ HeldAt s T i ∧ s'.Uses i c ↔ own c = .disk i := by
      rw [h.disk]
      exact and_congr_right fun hi => hiff i hi c
    rw [hold]
    by_cases hcb : c = b
    · subst hcb
      rw [update_self]
      exact iff_of_false (hdisk' i) (hdisk i)
    · rw [update_of_ne hcb]
  · by_cases hcb : c = b
    · subst hcb
      rw [update_self]
      exact hbit hc
    · rw [update_of_ne hcb, hm c hcb]
      exact h.bitmap c hc
  · rw [← h.fixed]
    by_cases hcb : c = b
    · subst hcb
      rw [update_self]
      exact iff_of_false hfixed' hfixed
    · rw [update_of_ne hcb]

theorem Inv.touch (h : Inv s T own) {o : Owner} {blk : Blocks} (hdisk : ∀ i, own b ≠ .disk i)
    (hfixed : own b ≠ .fixed) (hown : ∀ q ≠ p, own b ≠ .proc q) (ho : o = .free ∨ o = .proc p)
    (hin : s'.inode = s.inode) (hfile : s'.file = s.file) (hcwd : s'.cwd = s.cwd)
    (hofile : s'.ofile = s.ofile) (hout : s'.outstanding = s.outstanding)
    (hb : ∀ c ≠ b, s'.block c = s.block c) (hd : s'.dinode = s.dinode)
    (hm : ∀ c ≠ b, s'.bitmap c = s.bitmap c) (hbit : b < FSSIZE → (s'.bitmap b = false ↔ o = .free))
    (hother : ∀ c ≠ b, blk c = (T p).blk c)
    (hblk : blk b = if o = .proc p then some (s'.block b) else none) :
    Inv s' (update T p { T p with blk }) (update own b o) := by
  generalize ht : ({ T p with blk } : Hold) = t
  have hlock := update_congr (t := t) (·.lock) (by rw [← ht])
  have hbal := update_congr (t := t) (·.bal) (by rw [← ht])
  have hne : ∀ q ≠ p, o ≠ .proc q := by
    rintro q hq rfl
    obtain h1 | h1 := ho
    · cases h1
    · exact hq (Owner.proc.inj h1)
  refine ⟨h.refs.same (fun e => by rw [hin]) hfile (by rw [← ht]) hout hcwd hofile,
    ⟨?_, ?_, ?_, ?_, ?_, ?_, ?_⟩, h.owned.touch hdisk hfixed ?_ ?_ ?_ hb hd hm hbit ?_⟩
  · rw [hin]
    exact h.locks.uniq
  · simp only [hlock, hin]
    exact h.locks.busy
  · simp only [hlock]
    exact h.locks.excl
  · simp only [hlock, hbal]
    exact h.locks.secure
  · simp only [hlock, hin, hd]
    exact h.locks.held
  · simp only [hlock, hin, hd]
    exact h.locks.rest
  · rw [hd]
    exact h.locks.zero
  · rintro i rfl
    obtain h1 | h1 := ho <;> cases h1
  · rintro rfl
    obtain h1 | h1 := ho <;> cases h1
  · intro i
    simp only [HeldAt, hlock, hin]
  · intro q c
    by_cases hcb : c = b
    · subst hcb
      rw [update_self]
      by_cases hq : q = p
      · subst hq
        rw [update_self, ← ht]
        exact hblk
      · rw [update_of_ne hq, if_neg (hne q hq), h.owned.blk, if_neg (hown q hq)]
    · rw [update_of_ne hcb, hb c hcb, ← h.owned.blk]
      by_cases hq : q = p
      · subst hq
        rw [update_self, ← ht]
        exact hother c hcb
      · rw [update_of_ne hq]

theorem Owned.eq_proc (h : Owned s T own) (hb : (T p).blk b ≠ none) : own b = .proc p := by
  rw [h.blk] at hb
  by_contra hne
  rw [if_neg hne] at hb
  exact hb rfl

theorem Inv.ballocBit (h : Inv s T own) (hfree : s.freeBlock = some b) :
    ((T p).blk b = none ∧ nmeta ≤ b ∧ b < FSSIZE) ∧ Inv { s with bitmap := update s.bitmap b true }
        (update T p { T p with blk := (T p).blk.put b (s.block b) })
        (update own b (.proc p)) := by
  have hlt : b < FSSIZE := by
    have := List.mem_of_find?_eq_some hfree
    rwa [List.mem_range] at this
  have hbit : s.bitmap b = false := by
    have := List.find?_some hfree
    simpa using this
  have hown := (h.owned.bitmap b hlt).1 hbit
  refine ⟨⟨?_, ?_, hlt⟩, h.touch (fun i => ?_) ?_ (fun q _ => ?_) (.inr rfl) rfl rfl rfl rfl rfl
    (fun _ _ => rfl) rfl (fun c hc => update_of_ne hc _ _) ?_
    (fun c hc => Heap.put_of_ne _ _ hc) ?_⟩
  · rw [h.owned.blk, hown, if_neg Owner.noConfusion]
  · by_contra hlt'
    have := (h.owned.fixed b).2 (.inl (by omega))
    rw [hown] at this
    cases this
  · rw [hown]
    exact Owner.noConfusion
  · rw [hown]
    exact Owner.noConfusion
  · rw [hown]
    exact Owner.noConfusion
  · simp
  · rw [if_pos rfl, Heap.put_self]

theorem Inv.bfree (h : Inv s T own) (hb : (T p).blk b ≠ none) :
    Inv { s with bitmap := update s.bitmap b false }
      (update T p { T p with blk := (T p).blk.erase b }) (update own b .free) := by
  have hown := h.owned.eq_proc hb
  refine h.touch (fun i => ?_) ?_ (fun q hq => ?_) (.inl rfl) rfl rfl rfl rfl rfl
    (fun _ _ => rfl) rfl (fun c hc => update_of_ne hc _ _) ?_
    (fun c hc => if_neg hc) ?_
  · rw [hown]
    exact Owner.noConfusion
  · rw [hown]
    exact Owner.noConfusion
  · rw [hown]
    exact fun he => hq (Owner.proc.inj he).symm
  · simp
  · rw [if_neg Owner.noConfusion]
    exact if_pos rfl

theorem Inv.logWrite (h : Inv s T own) (hb : (T p).blk b ≠ none) (x : Block) :
    Inv { s with block := update s.block b x }
      (update T p { T p with blk := (T p).blk.put b x }) own := by
  have hown := h.owned.eq_proc hb
  have : Inv { s with block := update s.block b x }
      (update T p { T p with blk := (T p).blk.put b x }) (update own b (.proc p)) :=
    h.touch (fun i => ?_) ?_ (fun q hq => ?_)
    (.inr rfl) rfl rfl rfl rfl rfl (fun c hc => update_of_ne hc _ _) rfl (fun _ _ => rfl) ?_
    (fun c hc => Heap.put_of_ne _ _ hc) ?_
  · rwa [← hown, update_eq_self] at this
  · rw [hown]
    exact Owner.noConfusion
  · rw [hown]
    exact Owner.noConfusion
  · rw [hown]
    exact fun he => hq (Owner.proc.inj he).symm
  · intro hlt
    rw [← hown]
    exact h.owned.bitmap b hlt
  · rw [if_pos rfl, Heap.put_self]
    exact congrArg some (update_self b x s.block).symm

end Blocks

/-! ## Files -/

section Files

variable {s s' : State} {T : Slot → Hold} {own : Nat → Owner} {p : Slot} {f : FRef} {b : Bal}

theorem Inv.setFile (h : Inv s T own) {x : File}
    (hrefs : ∀ ip, (T p).bal.refs ip + (if (s.file f).Is ip then 1 else 0) =
      b.refs ip + if x.Is ip then 1 else 0)
    (hfref : x.ref + (T p).bal.frefs f = (s.file f).ref + b.frefs f)
    (hfrefs : ∀ g ≠ f, b.frefs g = (T p).bal.frefs g)
    (hknow : ∀ g ≠ f, b.know g = (T p).bal.know g) (hnotype : x.ref = 0 → x.type = .none)
    (hfresh : b.know f = .fresh → b.frefs f = 1 ∧ x.ref = 1 ∧ x.type = .none)
    (hknown : ∀ ip, b.know f = .inode ip → 1 ≤ b.frefs f → x.Is ip)
    (hother : ∀ q ≠ p, 1 ≤ (T q).bal.frefs f → x.ref = (s.file f).ref ∧ x.type = (s.file f).type ∨
      (T q).bal.know f ≠ .fresh)
    (hother' : ∀ q ≠ p, 1 ≤ (T q).bal.frefs f → ∀ ip, (s.file f).Is ip → x.Is ip)
    (hops : b.ops = (T p).bal.ops) (hcwd : b.cwd = (T p).bal.cwd)
    (hofile : b.ofile = (T p).bal.ofile) (hsec : ∀ e, (T p).lock e ≠ .none → b.Secures e) :
    Inv (s.setFile f x) (update T p { T p with bal := b }) own := by
  have hfile : ∀ g, (s.setFile f x).file g = if g = f then x else s.file g := by
    simp [State.setFile, update_apply]
  refine h.files rfl rfl rfl rfl rfl rfl hsec (h.refs.update ?_ ?_ ?_ ?_ ?_ ?_ ?_ ?_)
  · intro ip
    have h1 := hrefs ip
    have h2 := files_setFile s f x ip
    show (s.inode ip).ref + _ + _ = (s.inode ip).ref + (b.refs ip : Int) + _
    omega
  · intro g
    rw [hfile]
    show _ = _ + (b.frefs g : Int)
    split
    next hg =>
      rw [hg]
      exact hfref
    next hg => rw [hfrefs g hg]
  · intro g hg
    rw [hfile] at hg ⊢
    split at hg
    next hgf =>
      rw [if_pos hgf]
      exact hnotype hg
    next hgf =>
      rw [if_neg hgf]
      exact h.refs.notype g hg
  · intro q g
    rw [hfile]
    by_cases hq : q = p
    · subst hq
      rw [update_self]
      show b.know g = _ → b.frefs g = 1 ∧ _
      split
      next hgf =>
        rw [hgf]
        exact hfresh
      next hgf =>
        rw [hknow g hgf, hfrefs g hgf]
        exact h.refs.fresh q g
    · rw [update_of_ne hq]
      intro hk
      have hold := h.refs.fresh q g hk
      split
      next hgf =>
        subst hgf
        obtain ⟨h1, h2⟩ | h1 := hother q hq (by omega)
        · rw [h1, h2]
          exact hold
        · exact absurd hk h1
      next => exact hold
  · intro q g ip
    rw [hfile]
    by_cases hq : q = p
    · subst hq
      rw [update_self]
      show b.know g = _ → 1 ≤ b.frefs g → _
      split
      next hgf =>
        rw [hgf]
        exact hknown ip
      next hgf =>
        rw [hknow g hgf, hfrefs g hgf]
        exact h.refs.known q g ip
    · rw [update_of_ne hq]
      intro hk hf
      have hold := h.refs.known q g ip hk hf
      split
      next hgf =>
        subst hgf
        exact hother' q hq hf ip hold
      next => exact hold
  · show s.outstanding + _ = s.outstanding + b.ops
    rw [hops]
  · rw [hcwd]
    exact h.refs.cwd_self p
  · rw [hofile]
    exact h.refs.ofile_self p

theorem Refs.not_fresh (h : Refs s T) (hf : 1 ≤ (T p).bal.frefs f) {q : Slot} (hq : q ≠ p) :
    (T q).bal.know f ≠ .fresh := by
  intro hk
  obtain ⟨h1, h2, -⟩ := h.fresh q f hk
  have := add_le_sum (fun t => t.bal.frefs f) T hq
  have := h.frefs f
  omega

theorem Refs.only (h : Refs s T) (hf : 1 ≤ (T p).bal.frefs f) (hr : (s.file f).ref = 1) :
    (T p).bal.frefs f = 1 ∧ ∀ q ≠ p, (T q).bal.frefs f = 0 := by
  have hsum := h.frefs f
  refine ⟨?_, fun q hq => ?_⟩
  · have := le_sum (fun t => t.bal.frefs f) T p
    omega
  · have := add_le_sum (fun t => t.bal.frefs f) T hq
    omega

theorem Refs.frefs_zero (h : Refs s T) (hr : (s.file f).ref = 0) (q : Slot) :
    (T q).bal.frefs f = 0 := by
  have := le_sum (fun t => t.bal.frefs f) T q
  have := h.frefs f
  omega

theorem File.not_is {x : File} (h : x.type = .none) (ip : IRef) : ¬ x.Is ip := by
  rintro ⟨hi, -⟩
  rw [h] at hi
  cases hi

theorem Inv.filealloc (h : Inv s T own) (hfree : s.freeFile = some f) : (T p).bal.frefs f = 0 ∧
      Inv (s.setFile f { s.file f with ref := 1 })
        (update T p { T p with bal := ((T p).bal.setFrefs f 1).setKnow f .fresh }) own := by
  have hz : (s.file f).ref = 0 := by
    have := List.find?_some hfree
    exact of_decide_eq_true this
  have htype := h.refs.notype f hz
  have hfz := h.refs.frefs_zero hz
  refine ⟨hfz p, h.setFile (fun ip => ?_) ?_ (fun g hg => ?_) (fun g hg => ?_) ?_ ?_ ?_ ?_ ?_
    rfl rfl rfl ?_⟩
  · rw [if_neg (File.not_is htype ip), if_neg (File.not_is (x := { s.file f with ref := 1 }) htype ip)]
    rfl
  · show (1 : Int) + _ = _ + ((update (T p).bal.frefs f 1 f : Nat) : Int)
    rw [update_self, hz, hfz p]
    rfl
  · exact update_of_ne hg _ _
  · exact update_of_ne hg _ _
  · intro h0
    cases h0
  · intro _
    exact ⟨update_self .., rfl, htype⟩
  · intro ip hk
    have : (update (T p).bal.know f .fresh f) = .inode ip := hk
    rw [update_self] at this
    cases this
  · intro q _ hf
    rw [hfz q] at hf
    omega
  · intro q _ hf
    rw [hfz q] at hf
    omega
  · intro e hl
    refine (h.locks.secure p e hl).imp_right ?_
    rintro ⟨g, hk, hg⟩
    have hgf : g ≠ f := by
      rintro rfl
      rw [hfz p] at hg
      omega
    refine ⟨g, ?_, ?_⟩
    · rw [setKnow_know, if_neg hgf]
      exact hk
    · show 1 ≤ ((T p).bal.setFrefs f 1).frefs g
      rw [setFrefs_frefs, if_neg hgf]
      exact hg

theorem Inv.filedup (h : Inv s T own) (hf : 1 ≤ (T p).bal.frefs f)
    (hk : (T p).bal.know f ≠ .fresh) :
    Inv (s.setFile f { s.file f with ref := (s.file f).ref + 1 })
      (update T p { T p with bal := (T p).bal.setFrefs f ((T p).bal.frefs f + 1) }) own := by
  have hpos : 1 ≤ (s.file f).ref := by
    have := le_sum (fun t => t.bal.frefs f) T p
    have := h.refs.frefs f
    omega
  refine h.setFile (fun ip => rfl) ?_ (fun g hg => ?_) (fun g hg => rfl) ?_ ?_ ?_ ?_ ?_
    rfl rfl rfl ?_
  · rw [setFrefs_frefs, if_pos rfl]
    push_cast
    omega
  · rw [setFrefs_frefs, if_neg hg]
  · intro h0
    have : (s.file f).ref + 1 = 0 := h0
    omega
  · intro hk'
    exact absurd hk' hk
  · intro ip hk' _
    exact h.refs.known p f ip hk' hf
  · intro q hq _
    exact .inr (h.refs.not_fresh hf hq)
  · intro q _ _ ip hi
    exact hi
  · intro e hl
    refine (h.locks.secure p e hl).imp_right ?_
    rintro ⟨g, hk, hg⟩
    refine ⟨g, hk, ?_⟩
    rw [setFrefs_frefs]
    split
    · omega
    · exact hg

theorem Bal.dropFile_refs (t : Bal) (f : FRef) (last : Option File) (ip : IRef) :
    (t.dropFile f last).refs ip = t.refs ip + if ∃ x, last = some x ∧ x.Is ip then 1 else 0 := by
  cases last with
  | none => simp [dropFile, setFrefs, setKnow]
  | some x =>
    rw [dropFile]
    by_cases hx : x.type = .inode
    · rw [if_pos hx, addRef_refs]
      by_cases hip : ip = x.ip
      · rw [if_pos hip, if_pos ⟨x, rfl, hx, hip.symm⟩, hip]
        rfl
      · rw [if_neg hip, if_neg]
        · rfl
        · rintro ⟨_, hy, hi⟩
          cases hy
          exact hip hi.2.symm
    · rw [if_neg hx, if_neg (c := ∃ _, _)]
      · split
        · rfl
        · rfl
      · rintro ⟨_, hy, hi⟩
        cases hy
        exact hx hi.1

/-- Apart from what the file was, it does not matter whether it was the last reference. -/
theorem Bal.dropFile_eq (t : Bal) (f : FRef) (last : Option File) :
    t.dropFile f last = { (t.setFrefs f (t.frefs f - 1)).setKnow f .nothing with
      refs := (t.dropFile f last).refs, pipe := (t.dropFile f last).pipe } := by
  cases last with
  | none => rfl
  | some x =>
    rw [dropFile]
    split
    · rfl
    · split
      · rfl
      · rfl

section

variable (h : Inv s T own) (hf : 1 ≤ (T p).bal.frefs f)
  (hsec : ∀ e, (T p).lock e ≠ .none → 1 ≤ (T p).bal.refs e)

include h hf hsec

theorem Inv.dropFile {last : Option File} {x : File} (href : x.ref = (s.file f).ref - 1)
    (hlast : last = none ∧ 1 < (s.file f).ref ∧ (∀ ip, x.Is ip ↔ (s.file f).Is ip) ∨
      last = some (s.file f) ∧ (s.file f).ref = 1 ∧ x.type = .none) :
    Inv (s.setFile f x) (update T p { T p with bal := (T p).bal.dropFile f last }) own := by
  have hfrefs : ∀ g, ((T p).bal.dropFile f last).frefs g =
      if g = f then (T p).bal.frefs f - 1 else (T p).bal.frefs g := by
    intro g
    rw [dropFile_eq]
    exact setFrefs_frefs _ _ _ _
  have hknow : ∀ g, ((T p).bal.dropFile f last).know g =
      if g = f then .nothing else (T p).bal.know g := by
    intro g
    rw [dropFile_eq]
    exact setKnow_know _ _ _ _
  refine h.setFile (fun ip => ?_) ?_ (fun g hg => ?_) (fun g hg => ?_) ?_ ?_ ?_ ?_ ?_
    (by rw [dropFile_eq]; rfl) (by rw [dropFile_eq]; rfl) (by rw [dropFile_eq]; rfl) ?_
  · rw [dropFile_refs]
    obtain ⟨rfl, -, hiff⟩ | ⟨rfl, -, htype⟩ := hlast
    · simp [hiff]
    · simp [File.not_is htype ip]
  · rw [hfrefs, if_pos rfl, href]
    omega
  · rw [hfrefs, if_neg hg]
  · rw [hknow, if_neg hg]
  · intro h0
    obtain ⟨-, h1, -⟩ | ⟨-, -, htype⟩ := hlast
    · omega
    · exact htype
  · intro hk
    rw [hknow, if_pos rfl] at hk
    cases hk
  · intro ip hk
    rw [hknow, if_pos rfl] at hk
    cases hk
  · intro q hq _
    exact .inr (h.refs.not_fresh hf hq)
  · intro q hq hfq ip hi
    obtain ⟨-, -, hiff⟩ | ⟨-, h1, -⟩ := hlast
    · exact (hiff ip).2 hi
    · have := (h.refs.only hf h1).2 q hq
      omega
  · intro e hl
    have := hsec e hl
    refine .inl ?_
    rw [dropFile_refs]
    omega

theorem Inv.fileDrop {last : Option File} (hx : execFileDrop s f = .ok last s') :
    (∀ x, last = some x → (T p).bal.know f = .fresh → x.type = .none) ∧
      Inv s' (update T p { T p with bal := (T p).bal.dropFile f last }) own := by
  unfold execFileDrop at hx
  split at hx
  next => cases hx
  next hpos =>
    split at hx
    next hmore =>
      cases hx
      exact ⟨fun x hx => (Option.some_ne_none x hx.symm).elim,
        h.dropFile hf hsec rfl (.inl ⟨rfl, by omega, fun _ => Iff.rfl⟩)⟩
    next hlast =>
      cases hx
      refine ⟨fun x hx hk => ?_, h.dropFile hf hsec ?_ (.inr ⟨rfl, by omega, rfl⟩)⟩
      · cases hx
        exact (h.refs.fresh p f hk).2.2
      · show (0 : Int) = _
        omega

end

theorem setFile_self (s : State) (f : FRef) : s.setFile f (s.file f) = s := by
  unfold State.setFile
  rw [update_eq_self]

theorem Inv.getFile (h : Inv s T own) (hf : 1 ≤ (T p).bal.frefs f) :
    Inv s (update T p { T p with bal := (T p).bal.learn f (s.file f) }) own := by
  have hlearn : (T p).bal.learn f (s.file f) = { (T p).bal with
      know := ((T p).bal.learn f (s.file f)).know } := by
    rw [learn]
    split
    · rfl
    · rfl
  have hknow : ∀ g, ((T p).bal.learn f (s.file f)).know g =
      if g = f ∧ (s.file f).type = .inode then .inode (s.file f).ip else (T p).bal.know g := by
    intro g
    rw [learn]
    by_cases ht : (s.file f).type = .inode
    · simp [ht]
    · simp [ht]
  have := h.setFile (b := (T p).bal.learn f (s.file f))
    (fun ip => by rw [hlearn]) (by rw [hlearn]) (fun g _ => by rw [hlearn])
    (fun g hg => by rw [hknow, if_neg (fun hh => hg hh.1)]) (h.refs.notype f) ?_ ?_
    (fun _ _ _ => .inl ⟨rfl, rfl⟩) (fun _ _ _ _ hi => hi) (by rw [hlearn]) (by rw [hlearn])
    (by rw [hlearn]) ?_
  · rwa [setFile_self] at this
  · intro hk
    rw [hknow] at hk
    split at hk
    · cases hk
    · rw [hlearn]
      exact h.refs.fresh p f hk
  · intro ip hk _
    rw [hknow] at hk
    split at hk
    next ht =>
      cases hk
      exact ⟨ht.2, rfl⟩
    next => exact h.refs.known p f ip hk hf
  · intro e hl
    rw [hlearn]
    refine (h.locks.secure p e hl).imp_right ?_
    rintro ⟨g, hk, hg⟩
    refine ⟨g, ?_, hg⟩
    show ((T p).bal.learn f (s.file f)).know g = _
    rw [hknow]
    split
    next hgf =>
      obtain ⟨rfl, -⟩ := hgf
      rw [(h.refs.known p g e hk hg).2]
    next => exact hk

theorem Inv.giveFile (h : Inv s T own) (hk : (T p).bal.know f = .fresh) {x : File}
    (hx : x.type = .inode → 1 ≤ (T p).bal.refs x.ip ∧ (T p).lock x.ip = .none) :
    Inv (s.setFile f { x with ref := (s.file f).ref })
      (update T p { T p with bal := (T p).bal.give f x }) own := by
  obtain ⟨hf, hr, htype⟩ := h.refs.fresh p f hk
  have honly := (h.refs.only hf.ge hr).2
  have hgive : (T p).bal.give f x = { (T p).bal with
      refs := ((T p).bal.give f x).refs, know := ((T p).bal.give f x).know } := by
    rw [give]
    split
    · rfl
    · rfl
  have hrefs : ∀ ip, ((T p).bal.give f x).refs ip =
      (T p).bal.refs ip - if x.Is ip then 1 else 0 := by
    intro ip
    rw [give]
    by_cases ht : x.type = .inode
    · rw [if_pos ht]
      show ((T p).bal.dropRef x.ip).refs ip = _
      rw [dropRef_refs]
      by_cases hip : ip = x.ip
      · rw [if_pos hip, if_pos ⟨ht, hip.symm⟩, hip]
      · rw [if_neg hip, if_neg (fun hi => hip hi.2.symm)]
        rfl
    · rw [if_neg ht, if_neg (fun hi => ht hi.1)]
      rfl
  have hknow : ∀ g, ((T p).bal.give f x).know g =
      if g = f then (if x.type = .inode then .inode x.ip else .nothing) else (T p).bal.know g := by
    intro g
    rw [give]
    by_cases ht : x.type = .inode
    · rw [if_pos ht, if_pos ht, setKnow_know]
      rfl
    · rw [if_neg ht, if_neg ht, setKnow_know]
  refine h.setFile (fun ip => ?_) ?_ (fun g _ => by rw [hgive])
    (fun g hg => by rw [hknow, if_neg hg]) ?_ ?_ ?_ ?_ ?_ (by rw [hgive]) (by rw [hgive])
    (by rw [hgive]) ?_
  · rw [if_neg (File.not_is htype ip), hrefs]
    show _ = _ + if x.Is ip then 1 else 0
    split
    next hi =>
      have := (hx hi.1).1
      rw [hi.2] at this
      omega
    next => rfl
  · rw [hgive]
  · intro h0
    have : (s.file f).ref = 0 := h0
    omega
  · intro hk'
    rw [hknow, if_pos rfl] at hk'
    split at hk'
    · cases hk'
    · cases hk'
  · intro ip hk' _
    rw [hknow, if_pos rfl] at hk'
    split at hk'
    next ht =>
      cases hk'
      exact ⟨ht, rfl⟩
    next => cases hk'
  · intro q hq hfq
    have := honly q hq
    omega
  · intro q hq hfq
    have := honly q hq
    omega
  · intro e hl
    obtain hr | ⟨g, hg, hfg⟩ := h.locks.secure p e hl
    · refine .inl ?_
      rw [hrefs]
      split
      next hi =>
        have := (hx hi.1).2
        rw [hi.2] at this
        exact absurd this hl
      next => exact hr
    · refine .inr ⟨g, ?_, ?_⟩
      · rw [hknow, if_neg]
        · exact hg
        · rintro rfl
          rw [hk] at hg
          cases hg
      · rw [hgive]
        exact hfg

theorem Inv.addOff (h : Inv s T own) (n : Nat) :
    Inv (s.setFile f { s.file f with off := n }) (update T p (T p)) own := by
  refine h.setFile (fun _ => rfl) rfl (fun _ _ => rfl) (fun _ _ => rfl)
    (h.refs.notype f) (h.refs.fresh p f) (h.refs.known p f) (fun _ _ _ => .inl ⟨rfl, rfl⟩)
    (fun _ _ _ _ hi => hi) rfl rfl rfl (h.locks.secure p)

theorem Inv.proc {r : State} (h : Inv s T own) (hin : r.inode = s.inode) (hd : r.dinode = s.dinode)
    (hb : r.block = s.block) (hm : r.bitmap = s.bitmap) (hfile : r.file = s.file)
    (hrefs : b.refs = (T p).bal.refs) (hfrefs : b.frefs = (T p).bal.frefs)
    (hknow : b.know = (T p).bal.know)
    (hops : r.outstanding + (T p).bal.ops = s.outstanding + b.ops)
    (hcwd : r.cwd = update s.cwd p b.cwd)
    (hofile : r.ofile = update s.ofile p b.ofile) :
    Inv r (update T p { T p with bal := b }) own := by
  refine h.files hin hd hb hm rfl rfl (fun e hl => ?_)
    (h.refs.update_refs (fun e => ?_) hfile hfrefs hknow hops hcwd hofile)
  · show b.Secures e
    rw [Bal.Secures, hrefs, hfrefs, hknow]
    exact h.locks.secure p e hl
  · rw [hin]
    show _ = _ + (b.refs e : Int)
    rw [hrefs]

end Files

/-! ## The step -/

section Step

variable {s s' : State} {T : Slot → Hold} {own : Nat → Owner} {p : Slot}

/-- **Every operation keeps the invariant.** -/
theorem Inv.step (h : Inv s T own) {o : Op} {r : o.Ret} (hpre : Hold.rules.pre o (T p))
    (hx : exec p s o = .ok r s') :
    ∃ t own', Hold.rules.post o (T p) r t ∧ Inv s' (update T p t) own' := by
  have hself : Inv s (update T p (T p)) own := by rwa [update_eq_self]
  cases o with
  | iget inum =>
    obtain ⟨own', h'⟩ := h.iget hx
    exact ⟨_, own', rfl, h'⟩
  | idup ip =>
    cases hx
    exact ⟨_, own, rfl, h.addRef (h.refs.pos (.inl hpre))⟩
  | ilockBusy ip =>
    have hx : execIlockBusy s ip = .ok r s' := hx
    unfold execIlockBusy at hx
    split at hx
    next => cases hx
    next =>
      split at hx
      next => cases hx
      next hbusy =>
        cases hx
        have hbusy : (s.inode ip).busy = false := by simpa using hbusy
        exact ⟨_, own, ⟨h.locks.free hbusy p, rfl⟩, h.ilockBusy hpre hbusy⟩
  | ilockRead ip =>
    obtain ⟨d, blk, own', htype, hg, h'⟩ := h.ilockRead hpre hx
    exact ⟨_, own', ⟨d, blk, rfl, htype, hg⟩, h'⟩
  | iunlock ip =>
    have hx : execIunlock s ip = .ok r s' := hx
    unfold execIunlock at hx
    obtain ⟨d, hd, htype, hmap⟩ := hpre
    split at hx
    next => cases hx
    next =>
      cases hx
      obtain ⟨blk, own', hlose, h'⟩ := h.iunlock hd htype hmap
      refine ⟨_, own', ⟨blk, rfl, fun d' hd' => ?_⟩, h'⟩
      obtain ⟨rfl, -⟩ := Lock.held.inj (hd.symm.trans hd')
      exact hlose
  | iputStart ip => exact h.iputStart hpre.1 hpre.2 hx
  | iputEnd ip =>
    cases hx
    exact ⟨_, own, rfl, h.iputEnd hpre.1 hpre.2⟩
  | getInode ip =>
    cases hx
    obtain ⟨d, dk, hl⟩ := hpre
    obtain ⟨-, hd, -⟩ := h.locks.held p ip d dk hl
    exact ⟨T p, own, ⟨⟨dk, by rw [hd]; exact hl⟩, rfl⟩, hself⟩
  | setInode ip d =>
    cases hx
    obtain ⟨d₀, dk, hl⟩ := hpre
    exact ⟨_, own, ⟨d₀, dk, hl, rfl⟩, h.setInode hl⟩
  | getInum ip =>
    cases hx
    exact ⟨T p, own, rfl, hself⟩
  | iupdate ip =>
    obtain ⟨d, dk, hl, hzero⟩ := hpre
    obtain ⟨-, lh, rfl⟩ := log_ok hx
    obtain ⟨own', h'⟩ := h.iupdate hl hzero
    exact ⟨_, own', ⟨d, dk, hl, rfl⟩, h'.setLh lh⟩
  | iallocTry inum type =>
    have hx : execIallocTry s inum type = .ok r s' := hx
    unfold execIallocTry at hx
    split at hx
    next hfree =>
      obtain ⟨-, lh, rfl⟩ := log_ok hx
      exact ⟨T p, own, rfl, (hself.iallocTry hpre hfree).setLh lh⟩
    next =>
      cases hx
      exact ⟨T p, own, rfl, hself⟩
  | ballocBit =>
    have hx : execBallocBit s = .ok r s' := hx
    unfold execBallocBit at hx
    split at hx
    next b hfree =>
      obtain ⟨rfl, lh, rfl⟩ := log_ok hx
      obtain ⟨⟨h1, h2, h3⟩, h'⟩ := h.ballocBit hfree
      exact ⟨_, _, ⟨h1, h2, h3, _, rfl⟩, h'.setLh lh⟩
    next => cases hx
  | bfree b =>
    have hx : execBfree s b = .ok r s' := hx
    unfold execBfree at hx
    split at hx
    next =>
      obtain ⟨-, lh, rfl⟩ := log_ok hx
      exact ⟨_, _, rfl, (h.bfree hpre).setLh lh⟩
    next => cases hx
  | bread b =>
    cases hx
    have hb : (T p).blk b ≠ none := hpre
    refine ⟨T p, own, ⟨?_, rfl⟩, hself⟩
    rw [h.owned.blk, if_pos (h.owned.eq_proc hb)]
  | logWrite b x =>
    obtain ⟨-, lh, rfl⟩ := log_ok hx
    exact ⟨_, own, rfl, (h.logWrite hpre x).setLh lh⟩
  | filealloc =>
    have hx : execFilealloc s = .ok r s' := hx
    unfold execFilealloc at hx
    split at hx
    next f hfree =>
      cases hx
      obtain ⟨h1, h'⟩ := h.filealloc hfree
      exact ⟨_, own, ⟨h1, rfl⟩, h'⟩
    next =>
      cases hx
      exact ⟨T p, own, rfl, hself⟩
  | filedup f =>
    have hx : execFiledup s f = .ok r s' := hx
    unfold execFiledup at hx
    split at hx
    next => cases hx
    next =>
      cases hx
      exact ⟨_, own, rfl, h.filedup hpre.1 hpre.2⟩
  | fileDrop f =>
    obtain ⟨h1, h'⟩ := h.fileDrop hpre.1 hpre.2.1 hx
    exact ⟨_, own, ⟨rfl, h1⟩, h'⟩
  | pipeclose pipe writable =>
    cases hx
    refine ⟨_, own, rfl, h.proc rfl rfl rfl rfl rfl rfl rfl rfl rfl ?_ ?_⟩
    · exact h.refs.cwd_self p
    · exact h.refs.ofile_self p
  | getFile f =>
    cases hx
    exact ⟨_, own, ⟨rfl, fun hk => (h.refs.fresh p f hk).2.2,
      fun ip hk => h.refs.known p f ip hk hpre⟩, h.getFile hpre⟩
  | setFile f x =>
    cases hx
    exact ⟨_, own, rfl, h.giveFile hpre.1 hpre.2.2⟩
  | addOff f n =>
    cases hx
    exact ⟨T p, own, rfl, h.addOff _⟩
  | fdalloc f =>
    have hx : execFdalloc p s f = .ok r s' := hx
    unfold execFdalloc at hx
    split at hx
    next fd hfree =>
      cases hx
      have hnone : s.ofile p fd = none := by
        have := List.find?_some hfree
        exact of_decide_eq_true this
      rw [h.refs.ofile] at hnone
      refine ⟨_, own, ⟨hnone, rfl⟩, h.proc rfl rfl rfl rfl rfl rfl rfl rfl rfl ?_ ?_⟩
      · exact h.refs.cwd_self p
      · rw [h.refs.ofile]
    next =>
      cases hx
      exact ⟨T p, own, rfl, hself⟩
  | getOfile fd =>
    cases hx
    exact ⟨T p, own, ⟨by rw [h.refs.ofile], rfl⟩, hself⟩
  | clearOfile fd =>
    cases hx
    refine ⟨_, own, rfl, h.proc rfl rfl rfl rfl rfl rfl rfl rfl rfl ?_ ?_⟩
    · exact h.refs.cwd_self p
    · rw [h.refs.ofile]
  | getCwd =>
    cases hx
    exact ⟨T p, own, ⟨h.refs.cwd p, rfl⟩, hself⟩
  | setCwd ip =>
    cases hx
    refine ⟨_, own, rfl, h.proc rfl rfl rfl rfl rfl rfl rfl rfl rfl rfl ?_⟩
    exact h.refs.ofile_self p
  | beginOp =>
    have hx : execBeginOp s = .ok r s' := hx
    unfold execBeginOp at hx
    split at hx
    next => cases hx
    next =>
      cases hx
      refine ⟨_, own, rfl, h.proc rfl rfl rfl rfl rfl rfl rfl rfl ?_ ?_ ?_⟩
      · show s.outstanding + 1 + _ = s.outstanding + ((T p).bal.ops + 1)
        omega
      · exact h.refs.cwd_self p
      · exact h.refs.ofile_self p
  | endOp =>
    cases hx
    have hpos : 1 ≤ (T p).bal.ops := hpre
    refine ⟨_, own, rfl, h.proc rfl rfl rfl rfl rfl rfl rfl rfl ?_ ?_ ?_⟩
    · have := le_sum (fun t => t.bal.ops) T p
      have := h.refs.ops
      show s.outstanding - 1 + _ = s.outstanding + ((T p).bal.ops - 1)
      omega
    · exact h.refs.cwd_self p
    · exact h.refs.ofile_self p
  | consoleread n =>
    have hx : execConsoleread s n = .ok r s' := hx
    unfold execConsoleread at hx
    split at hx
    next => cases hx
    next =>
      cases hx
      refine ⟨T p, own, rfl, h.proc rfl rfl rfl rfl rfl rfl rfl rfl rfl ?_ ?_⟩
      · exact h.refs.cwd_self p
      · exact h.refs.ofile_self p
  | panic why => cases hx

end Step

end Xv6.Fs
