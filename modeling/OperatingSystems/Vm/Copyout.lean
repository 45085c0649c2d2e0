import OperatingSystems.Vm.Loading

/-!
# Copying to user addresses

`uva2ka` reads the entry that `walkpgdir` returns without a look at whether there is one.
`uva2kaWith` leaves open what that read does; with the word at address zero it is `uva2ka`.
What `copyout` does can be said byte by byte: it copies up to the first page that is not for
the user.

* `Space.byte`, `overlay` — the bytes of a space by address.
* `wp_copyoutLoopWith` — **`copyout` copies to pages for the user, up to the first that is
  not**, unless it comes to a page without a page table.
-/

namespace Xv6.Vm

open Cmd

variable {K : Layout} {X : Ctx Nat Ev} {F : String → List Ev → Prop}
  {S S' S₁ : Space} {h : Heap Nat Frame} {c : Option Nat} {t : List Ev} {va : UInt32} {cur : Nat}
  {null : M UInt32} {src : Nat → UInt8}

/-! ## Programs -/

/-- The entry maps a page for the user. -/
def UserPage (pte : UInt32) : Prop := Present pte ∧ pte &&& PTE_U ≠ 0

instance decidableUserPage (pte : UInt32) : Decidable (UserPage pte) :=
  inferInstanceAs (Decidable (_ ∧ _))

/-- `uva2ka`, where reading an entry that is missing is `null`. -/
def uva2kaWith (null : M UInt32) (pgdir : Nat) (uva : UInt32) : M (Option Nat) := do
  let pte ← do
    match ← walkpgdir pgdir uva false with
    | none => null
    | some (pgtab, i) => read pgtab i
  if pte &&& PTE_P = 0 then return none
  else if pte &&& PTE_U = 0 then return none
  else if P2V (ptePage pte) = 0 then return none
  else return some (ptePage pte)

/-- The loop of `copyout`, with this `uva2ka`. -/
def copyoutLoopWith (K : Layout) (null : M UInt32) (cur pgdir : Nat) :
    Nat → UInt32 → (Nat → UInt8) → Nat → M Bool
  | 0, _, _, _ => return true
  | fuel + 1, va, src, len => do
      if len = 0 then return true
      else
        let va0 := PGROUNDDOWN va
        match ← uva2kaWith null pgdir va0 with
        | none => return false
        | some pa0 =>
          let n := min (PGSIZE - (va - va0).toNat) len
          write (← kernelPage K cur pa0) fun f => splice f (va - va0).toNat n src
          copyoutLoopWith K null cur pgdir fuel (va0 + 4096) (fun j => src (j + n)) (len - n)

/-- `copyout`, with this `uva2ka`. -/
def copyoutWith (K : Layout) (null : M UInt32) (cur pgdir : Nat) (va : UInt32) (src : Nat → UInt8)
    (len : Nat) : M Bool :=
  copyoutLoopWith K null cur pgdir len va src len

/-- The word that the null pointer points to. -/
def nullWord (cur : Nat) : M UInt32 := do read (← translate cur 0) 0

theorem uva2ka_eq (cur pgdir : Nat) (uva : UInt32) :
    uva2ka cur pgdir uva = uva2kaWith (nullWord cur) pgdir uva := by
  rw [uva2ka, uva2kaWith]
  congr 1
  funext r
  cases r with
  | none => simp only [nullWord, Cmd.bind_assoc]
  | some e => rfl

theorem copyoutLoop_eq (cur pgdir fuel : Nat) (va : UInt32) (src : Nat → UInt8) (len : Nat) :
    copyoutLoop K cur pgdir fuel va src len =
      copyoutLoopWith K (nullWord cur) cur pgdir fuel va src len := by
  induction fuel generalizing va src len with
  | zero => rfl
  | succ fuel ih =>
    simp only [copyoutLoop, copyoutLoopWith, uva2ka_eq]
    congr 2
    funext r
    cases r with
    | none => rfl
    | some pa0 => simp only [ih]

theorem copyout_eq (cur pgdir : Nat) (va : UInt32) (src : Nat → UInt8) (len : Nat) :
    copyout K cur pgdir va src len = copyoutWith K (nullWord cur) cur pgdir va src len :=
  copyoutLoop_eq cur pgdir len va src len

/-! ## Bytes -/

/-- The byte at a user address. -/
def Space.byte (S : Space) (a : Nat) : UInt8 := S.mem (a / 4096) ⟨a % 4096, Nat.mod_lt a (by decide)⟩

/-- The bytes `f`, of which `n` from `va` on are replaced. -/
def overlay (f : Nat → UInt8) (va n : Nat) (src : Nat → UInt8) (a : Nat) : UInt8 :=
  if va ≤ a ∧ a < va + n then src (a - va) else f a

section Overlay

variable {f src : Nat → UInt8} {n k a b : Nat}

theorem overlay_inside (h1 : b ≤ a) (h2 : a < b + n) : overlay f b n src a = src (a - b) :=
  if_pos ⟨h1, h2⟩

theorem overlay_outside (h : a < b ∨ b + n ≤ a) : overlay f b n src a = f a :=
  if_neg (by omega)

@[simp] theorem overlay_zero : overlay f b 0 src = f := by
  funext a
  exact overlay_outside (by omega)

/-- One copy goes on where the other has ended. -/
theorem overlay_overlay : overlay (overlay f b n src) (b + n) k (fun j => src (j + n)) =
    overlay f b (n + k) src := by
  funext a
  by_cases hin : b + n ≤ a ∧ a < b + n + k
  · rw [overlay_inside hin.1 hin.2, overlay_inside (by omega) (by omega)]
    exact congrArg src (by omega)
  · rw [overlay_outside (by omega)]
    by_cases hlow : b ≤ a ∧ a < b + n
    · rw [overlay_inside hlow.1 hlow.2, overlay_inside hlow.1 (by omega)]
    · rw [overlay_outside (by omega), overlay_outside (by omega)]

theorem Space.byte_setMem (S : Space) {v i : Nat} (hin : i + n ≤ 4096) :
    (S.setMem v (splice (S.mem v) i n src)).byte = overlay S.byte (4096 * v + i) n src := by
  funext a
  unfold Space.byte overlay Space.setMem
  by_cases hv : a / 4096 = v
  · simp only [if_pos hv, splice]
    by_cases hin : 4096 * v + i ≤ a ∧ a < 4096 * v + i + n
    · rw [if_pos hin, if_pos (by omega)]
      exact congrArg src (by omega)
    · rw [if_neg hin, if_neg (by omega), hv]
  · simp only [if_neg hv]
    rw [if_neg (by omega)]

end Overlay

/-- Bytes were copied to the addresses from `va` to `va + n`. -/
structure Copies (va n : Nat) (src : Nat → UInt8) (S S' : Space) : Prop where
  same : SameEntries S S'
  byte : S'.byte = overlay S.byte va n src

theorem Copies.nothing (va : Nat) (src : Nat → UInt8) (S : Space) : Copies va 0 src S S :=
  ⟨.refl S, overlay_zero.symm⟩

theorem Copies.trans {b n k : Nat} (h₁ : Copies b n src S S₁)
    (h₂ : Copies (b + n) k (fun j => src (j + n)) S₁ S') : Copies b (n + k) src S S' :=
  ⟨h₁.same.trans h₂.same, by rw [h₂.byte, h₁.byte, overlay_overlay]⟩

/-! ## What they do -/

/-- The kernel's part is not for the user. -/
def NoUserAbove (S : Space) : Prop := ∀ v, USERPAGES ≤ v → S.pte v &&& PTE_U = 0

/-- A page for the user is a page of the space. -/
theorem UserPage.page {v : Nat} (hU : UserPage (S.pte v)) (hflag : NoUserAbove S) :
    S.page (.user v) = some (ptePage (S.pte v)) := by
  refine Space.page_user.2 ⟨?_, hU.1, rfl⟩
  by_contra hge
  exact hU.2 (hflag v (by omega))

theorem wp_uva2kaWith {Q : Post (Option Nat)} (hR : Rep K S h) (hflag : NoUserAbove S)
    (miss : S.tab (va.toNat / 4096 / 1024) = none → wp X F null (fun _ _ => False) ⟨h, c, t⟩)
    (fail : S.tab (va.toNat / 4096 / 1024) ≠ none → ¬ UserPage (S.pte (va.toNat / 4096)) →
      Q none ⟨h, c, t⟩)
    (ok : UserPage (S.pte (va.toNat / 4096)) →
      Q (some (ptePage (S.pte (va.toNat / 4096)))) ⟨h, c, t⟩) :
    wp X F (uva2kaWith null S.dir va) Q ⟨h, c, t⟩ := by
  rw [uva2kaWith]
  simp only [wp_bind]
  refine wp_walkRead hR (.refl h) ?_ fun hT => ?_
  swap
  · rw [PDX_eq] at hT
    simp only [wp_bind]
    exact (miss hT).mono fun _ _ hfalse => hfalse.elim
  intro T hT
  have hne : S.tab (va.toNat / 4096 / 1024) ≠ none := by
    rw [PDX_eq] at hT
    simp [hT]
  simp only [wp_bind]
  refine wp_entryRead hR (.refl h) hT ?_
  by_cases hp : S.pte (va.toNat / 4096) &&& PTE_P = 0
  · rw [if_pos hp]
    exact fail hne fun hU => hU.1 hp
  by_cases hu : S.pte (va.toNat / 4096) &&& PTE_U = 0
  · rw [if_neg hp, if_pos hu]
    exact fail hne fun hU => hU.2 hu
  have hU : UserPage (S.pte (va.toNat / 4096)) := ⟨hp, hu⟩
  have hm := (hR.managed (hU.page hflag)).lt
  rw [if_neg hp, if_neg hu, if_neg (P2V_ne_zero (by omega))]
  exact ok hU

/-- **The loop of `copyout`.** -/
theorem wp_copyoutLoopWith {Q : Post Bool} (fuel : Nat)
    {len : Nat} (hfuel : len ≤ fuel) (hR : Rep K S h) (hflag : NoUserAbove S)
    (miss : ∀ n h', n < len → (∀ a, va.toNat ≤ a → a < va.toNat + n → UserPage (S.pte (a / 4096))) →
      S.tab ((va.toNat + n) / 4096 / 1024) = none → wp X F null (fun _ _ => False) ⟨h', c, t⟩)
    (ok : ∀ b n S' h', Rep K S' h' → Copies va.toNat n src S S' →
      (∀ a, va.toNat ≤ a → a < va.toNat + n → UserPage (S.pte (a / 4096))) →
      (∀ p, h' p ≠ h p → ∃ a, va.toNat ≤ a ∧ a < va.toNat + n ∧ ptePage (S.pte (a / 4096)) = p) →
      (b = true → n = len) →
      (b = false → n < len ∧ S.tab ((va.toNat + n) / 4096 / 1024) ≠ none ∧
        ¬ UserPage (S.pte ((va.toNat + n) / 4096))) → Q b ⟨h', c, t⟩) :
    wp X F (copyoutLoopWith K null cur S.dir fuel va src len) Q ⟨h, c, t⟩ := by
  induction fuel generalizing S h va src len with
  | zero =>
    exact ok true 0 S h hR (.nothing _ _ S) (fun a h1 h2 => by omega) (by simp)
      (fun _ => by omega) (by simp)
  | succ fuel ih =>
    have hnone : ∀ b, (b = true → len = 0) → (b = false → 0 < len ∧
        S.tab (va.toNat / 4096 / 1024) ≠ none ∧ ¬ UserPage (S.pte (va.toNat / 4096))) →
        Q b ⟨h, c, t⟩ := fun b htrue hfalse =>
      ok b 0 S h hR (.nothing _ _ S) (fun a h1 h2 => by omega) (by simp)
        (fun h => (htrue h).symm) hfalse
    rw [copyoutLoopWith]
    by_cases hlen : len = 0
    · rw [if_pos hlen]
      exact hnone true (fun _ => hlen) (by simp)
    have hlt := va.toNat_lt
    have hdown := toNat_PGROUNDDOWN va
    have hsub : (va - PGROUNDDOWN va).toNat = va.toNat % 4096 := by
      rw [UInt32.toNat_sub, hdown]
      omega
    have hpage : (PGROUNDDOWN va).toNat / 4096 = va.toNat / 4096 := by omega
    rw [if_neg hlen, wp_bind]
    refine wp_uva2kaWith hR hflag ?_ ?_ ?_
    · rw [hpage]
      exact miss 0 h (by omega) fun a h1 h2 => by omega
    · rw [hpage]
      exact fun hT hU => hnone false (by simp) fun _ => ⟨by omega, hT, hU⟩
    rw [hpage]
    intro hU
    have huser := hU.page hflag
    have hv := (Space.page_user.1 huser).1
    unfold USERPAGES at hv
    have hnext : (PGROUNDDOWN va + 4096).toNat = (va.toNat / 4096 + 1) * 4096 := by
      have h4 : UInt32.toNat 4096 = 4096 := rfl
      rw [UInt32.toNat_add, hdown, h4]
      omega
    simp only [wp_bind]
    refine wp_kernelPage_of_managed (hR.managed huser) (wp_write (hR.user_mem huser) ?_)
    rw [hsub]
    generalize hn : min (PGSIZE - va.toNat % 4096) len = n
    unfold PGSIZE at hn
    generalize hS₁ : S.setMem (va.toNat / 4096)
      (splice (S.mem (va.toNat / 4096)) (va.toNat % 4096) n src) = S₁
    have hcopy : Copies va.toNat n src S S₁ := by
      refine ⟨by rw [← hS₁]; exact ⟨rfl, rfl, rfl⟩, ?_⟩
      rw [← hS₁, S.byte_setMem (by omega), Nat.div_add_mod]
    have hR₁ : Rep K S₁ _ := hS₁ ▸ hR.setMem huser
    have hin : ∀ a, va.toNat ≤ a → a < va.toNat + n → UserPage (S.pte (a / 4096)) := by
      intro a h1 h2
      rwa [show a / 4096 = va.toNat / 4096 by omega]
    -- what the other turns copy comes right after, if they copy anything
    have hend : 0 < len - n → va.toNat + n = (PGROUNDDOWN va + 4096).toNat := by
      rw [hnext]
      omega
    have hall : ∀ {k}, k ≤ len - n → (∀ a, (PGROUNDDOWN va + 4096).toNat ≤ a →
        a < (PGROUNDDOWN va + 4096).toNat + k → UserPage (S₁.pte (a / 4096))) →
        ∀ a, va.toNat ≤ a → a < va.toNat + (n + k) → UserPage (S.pte (a / 4096)) := by
      intro k hk hin' a h1 h2
      by_cases ha : a < va.toNat + n
      · exact hin a h1 ha
      · rw [← hcopy.same.pte]
        exact hin' a (by omega) (by omega)
    rw [← hcopy.same.dir]
    refine ih (by omega) hR₁ ?_ ?_ ?_
    · unfold NoUserAbove
      rw [hcopy.same.pte]
      exact hflag
    · intro k h' hk hin' hT
      rw [hcopy.same.tab, ← hend (by omega), Nat.add_assoc] at hT
      exact miss (n + k) h' (by omega) (hall (by omega) hin') hT
    · intro b k S' h' hR' hcopy' hin' honly htrue hfalse
      have hk : k ≤ len - n := by
        cases b with
        | true => exact (htrue rfl).le
        | false => exact (hfalse rfl).1.le
      refine ok b (n + k) S' h' hR' ?_ (hall hk hin') ?_ (fun hb => ?_) fun hb => ?_
      · refine hcopy.trans ?_
        rcases Nat.eq_zero_or_pos k with rfl | hpos
        · exact ⟨hcopy'.same, by rw [hcopy'.byte, overlay_zero, overlay_zero]⟩
        · rwa [hend (by omega)]
      · intro p hp
        by_cases hpage : p = ptePage (S.pte (va.toNat / 4096))
        · exact ⟨va.toNat, le_rfl, by omega, hpage.symm⟩
        · rw [← Heap.put_of_ne h _ hpage] at hp
          obtain ⟨a, h1, h2, h3⟩ := honly p hp
          rw [hcopy.same.pte] at h3
          exact ⟨a, by omega, by omega, h3⟩
      · have := htrue hb
        omega
      · obtain ⟨hlt, hT, hU'⟩ := hfalse hb
        rw [hcopy.same.tab, ← hend (by omega), Nat.add_assoc] at hT
        rw [hcopy.same.pte, ← hend (by omega), Nat.add_assoc] at hU'
        exact ⟨by omega, hT, hU'⟩

/-! ## Runs -/

/-- A walk without `alloc`, and what uses it, leave the allocator alone. -/
theorem static_walkpgdir (pgdir : Nat) (va : UInt32) : (walkpgdir pgdir va false).Static := by
  refine .bind (fun _ => trivial) fun pde => .ite trivial ?_
  rw [if_pos rfl]
  trivial

theorem static_translate (cur : Nat) (va : UInt32) : (translate cur va).Static := by
  refine (static_walkpgdir cur va).bind fun r => ?_
  cases r with
  | none => trivial
  | some e => exact .bind (fun _ => trivial) fun pte => .ite trivial trivial

theorem static_kernelPage (cur p : Nat) : (kernelPage K cur p).Static := by
  unfold kernelPage
  generalize P2V p = w
  exact .ite (static_panic _) (.ite (static_pure _) (.ite (static_pure _) (.ite (static_panic _)
    (static_translate cur w))))

theorem static_uva2kaWith (hnull : null.Static) (pgdir : Nat) (uva : UInt32) :
    (uva2kaWith null pgdir uva).Static := by
  have hpte : ∀ pte : UInt32, Static  (if pte &&& PTE_P = 0 then pure none
        else if pte &&& PTE_U = 0 then pure none
        else if P2V (ptePage pte) = 0 then pure none
        else pure (some (ptePage pte)) : M (Option Nat)) := by
    intro pte
    generalize P2V (ptePage pte) = w
    exact .ite (static_pure _) (.ite (static_pure _) (.ite (static_pure _) (static_pure _)))
  refine (static_walkpgdir pgdir uva).bind fun r => ?_
  cases r with
  | none => exact hnull.bind hpte
  | some e => exact .bind (fun _ => trivial) hpte

theorem static_copyoutLoopWith (hnull : null.Static) (pgdir fuel : Nat) (va : UInt32)
    (src : Nat → UInt8) (len : Nat) : (copyoutLoopWith K null cur pgdir fuel va src len).Static := by
  induction fuel generalizing va src len with
  | zero => trivial
  | succ fuel ih =>
    rw [copyoutLoopWith]
    refine .ite trivial ?_
    refine (static_uva2kaWith hnull pgdir _).bind fun r => ?_
    cases r with
    | none => trivial
    | some pa0 =>
      refine (static_kernelPage cur pa0).bind fun p => ?_
      exact .bind trivial fun _ => ih _ _ _

/-- A read of a missing entry is a trap. -/
def nullTrap : M UInt32 := .panic "null"

/-- Where `uva2ka` reads no missing entry, it does not matter what that read would do. -/
theorem run_uva2kaWith_of_trap {pgdir : Nat} {m m' : Vm} {r : Option Nat} {t' : List Ev}
    (h : run (memory K) (uva2kaWith nullTrap pgdir va) m t = ((.ok r, m'), t')) :
    run (memory K) (uva2kaWith null pgdir va) m t = ((.ok r, m'), t') := by
  rw [uva2kaWith] at h ⊢
  obtain ⟨e, m₁, t₁, h₁, h₂⟩ := run_bind_eq_ok h
  rw [run_bind, h₁]
  cases e with
  | none => cases h₂
  | some e => exact h₂

theorem run_copyoutLoopWith_of_trap {pgdir fuel len : Nat} {m m' : Vm} {b : Bool} {t' : List Ev}
    (h : run (memory K) (copyoutLoopWith K nullTrap cur pgdir fuel va src len) m t =
      ((.ok b, m'), t')) :
    run (memory K) (copyoutLoopWith K null cur pgdir fuel va src len) m t = ((.ok b, m'), t') := by
  induction fuel generalizing va src len m t with
  | zero => exact h
  | succ fuel ih =>
    rw [copyoutLoopWith] at h ⊢
    by_cases hlen : len = 0
    · rwa [if_pos hlen] at h ⊢
    rw [if_neg hlen] at h ⊢
    obtain ⟨r, m₁, t₁, h₁, h₂⟩ := run_bind_eq_ok h
    rw [run_bind, run_uva2kaWith_of_trap h₁]
    cases r with
    | none => exact h₂
    | some pa0 =>
      obtain ⟨p, m₂, t₂, h₃, h₄⟩ := run_bind_eq_ok h₂
      obtain ⟨_, m₃, t₃, h₅, h₆⟩ := run_bind_eq_ok h₄
      simp only [run_bind, h₃, h₅]
      exact ih h₆

end Xv6.Vm
