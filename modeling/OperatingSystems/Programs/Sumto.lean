import Mathlib.Algebra.Ring.Nat
import Mathlib.Algebra.BigOperators.Group.List.Basic
import Mathlib.Logic.Function.Basic
import Mathlib.Tactic.Common

/-!
# `sumto`

The routine of `sumtofunc.S`, instruction by instruction.  Memory is read and written in
words, at addresses that are all the same modulo four; an address in the code is the number
of an instruction, and the machine stops when it leaves the routine.

* `run_sumto` — what a call does, by induction on its argument.
* `sumto_contract_iff` — **the routine keeps the contract its C caller assumes just for one,
  and for a larger argument if that is what `ebx` holds already**: for zero it returns one,
  and for a larger argument it overwrites `ebx`.
-/

namespace Xv6.Sumto

open Function UInt32 Nat

/-! ## The machine -/

inductive Reg
  | eax | ebx | esi | edi | ebp | esp

structure Cpu where
  eax : UInt32
  ebx : UInt32
  esi : UInt32
  edi : UInt32
  ebp : UInt32
  esp : UInt32
  mem : UInt32 → UInt32
  eip : Nat
  /-- What the flags say for `jg`, as `cmpl` leaves them. -/
  greater : Bool

/-- The instructions of the routine.  A label is the number of an instruction. -/
inductive Instr
  | pushl (r : Reg)
  | popl (r : Reg)
  | movl (src dst : Reg)
  | movi (i : UInt32) (dst : Reg)
  /-- `movl disp(%ebp), dst`. -/
  | load (disp : UInt32) (dst : Reg)
  | addi (i : UInt32) (dst : Reg)
  | subi (i : UInt32) (dst : Reg)
  | addl (src dst : Reg)
  /-- `cmpl $i, disp(%ebp)`. -/
  | cmpl (i : Int32) (disp : UInt32)
  | jg (label : Nat)
  | jmp (label : Nat)
  | call (label : Nat)
  | ret

namespace Cpu

def get (s : Cpu) : Reg → UInt32
  | .eax => s.eax
  | .ebx => s.ebx
  | .esi => s.esi
  | .edi => s.edi
  | .ebp => s.ebp
  | .esp => s.esp

def set (s : Cpu) (v : UInt32) : Reg → Cpu
  | .eax => { s with eax := v }
  | .ebx => { s with ebx := v }
  | .esi => { s with esi := v }
  | .edi => { s with edi := v }
  | .ebp => { s with ebp := v }
  | .esp => { s with esp := v }

def push (s : Cpu) (v : UInt32) : Cpu :=
  { s with esp := s.esp - 4, mem := update s.mem (s.esp - 4) v }

def goto (s : Cpu) (eip : Nat) : Cpu := { s with eip }

/-- One instruction. -/
def exec (s : Cpu) : Instr → Cpu
  | .pushl r => (s.push (s.get r)).goto (s.eip + 1)
  | .popl r => (Cpu.set { s with esp := s.esp + 4 } (s.mem s.esp) r).goto (s.eip + 1)
  | .movl src dst => (s.set (s.get src) dst).goto (s.eip + 1)
  | .movi i dst => (s.set i dst).goto (s.eip + 1)
  | .load disp dst => (s.set (s.mem (s.ebp + disp)) dst).goto (s.eip + 1)
  | .addi i dst => (s.set (s.get dst + i) dst).goto (s.eip + 1)
  | .subi i dst => (s.set (s.get dst - i) dst).goto (s.eip + 1)
  | .addl src dst => (s.set (s.get dst + s.get src) dst).goto (s.eip + 1)
  | .cmpl i disp =>
    { s with greater := decide (i < (s.mem (s.ebp + disp)).toInt32), eip := s.eip + 1 }
  | .jg label => s.goto (if s.greater then label else s.eip + 1)
  | .jmp label => s.goto label
  | .call label => (s.push (ofNat (s.eip + 1))).goto label
  | .ret => Cpu.goto { s with esp := s.esp + 4 } (s.mem s.esp).toNat

end Cpu

/-- `sumto`.  The labels `recurse` and `done` are 7 and 15. -/
def code : List Instr :=
  [.pushl .ebp, .movl .esp .ebp, .subi 8 .esp, .cmpl 1 8, .jg 7, .movi 1 .eax, .jmp 15,
    .load 8 .eax, .subi 1 .eax, .subi 12 .esp, .pushl .eax, .call 0, .addi 16 .esp,
    .load 8 .ebx, .addl .ebx .eax,
    .movl .ebp .esp, .popl .ebp, .ret]

/-- One step; outside the routine the machine has stopped. -/
def step (s : Cpu) : Option Cpu := code[s.eip]?.map s.exec

/-- Some steps, or as many of them as there are. -/
def run : Nat → Cpu → Cpu
  | 0, s => s
  | k + 1, s => run k ((step s).getD s)

theorem run_add (k l : Nat) (s : Cpu) : run (k + l) s = run l (run k s) := by
  induction k generalizing s with
  | zero => rw [zero_add, run]
  | succ k ih => rw [succ_add, run, run, ih]

theorem run_of_stopped {s : Cpu} (h : step s = none) (k : Nat) : run k s = s := by
  induction k with
  | zero => rfl
  | succ k ih => rw [run, h, Option.getD_none, ih]

/-- A machine stops in one state only. -/
theorem run_unique {s : Cpu} {k l : Nat} (hk : step (run k s) = none)
    (hl : step (run l s) = none) : run k s = run l s := by
  rcases le_total k l with h | h
  · rw [← Nat.add_sub_cancel' h, run_add, run_of_stopped hk]
  · rw [← Nat.add_sub_cancel' h, run_add, run_of_stopped hl]

/-! ## The blocks of the routine -/

section Blocks

variable {s : Cpu}

theorem run_prologue (h : s.eip = 0) : run 4 s = { s with
      ebp := s.esp - 4, esp := s.esp - 4 - 8, eip := 4
      mem := update s.mem (s.esp - 4) s.ebp
      greater := decide (1 < (update s.mem (s.esp - 4) s.ebp (s.esp - 4 + 8)).toInt32) } := by
  cases s
  cases h
  rfl

theorem run_base (h : s.eip = 4) (hg : s.greater = false) :
    run 3 s = { s with eax := 1, eip := 15 } := by
  cases s
  cases h
  cases hg
  rfl

theorem run_recurse (h : s.eip = 4) (hg : s.greater = true) : run 6 s = { s with
      eax := s.mem (s.ebp + 8) - 1, esp := s.esp - 12 - 4 - 4, eip := 0
      mem := update (update s.mem (s.esp - 12 - 4) (s.mem (s.ebp + 8) - 1))
        (s.esp - 12 - 4 - 4) 12 } := by
  cases s
  cases h
  cases hg
  rfl

theorem run_add_up (h : s.eip = 12) : run 3 s = { s with
      esp := s.esp + 16, ebx := s.mem (s.ebp + 8), eax := s.eax + s.mem (s.ebp + 8)
      eip := 15 } := by
  cases s
  cases h
  rfl

theorem run_epilogue (h : s.eip = 15) : run 3 s = { s with
      esp := s.ebp + 4 + 4, ebp := s.mem s.ebp, eip := (s.mem (s.ebp + 4)).toNat } := by
  cases s
  cases h
  rfl

end Blocks

/-! ## A call -/

/-- `sumto(n)` has been called, with the return address on the stack below the argument, and
the stack is deep enough. -/
structure Called (n : Nat) (s : Cpu) : Prop where
  eip : s.eip = 0
  arg : s.mem (s.esp + 4) = ofNat n
  lt : n < 2 ^ 31
  deep : 32 * n + 12 ≤ s.esp.toNat
  above : s.esp.toNat + 8 ≤ 2 ^ 32

/-- What the routine returns. -/
def result (n : Nat) : UInt32 := if n = 0 then 1 else ofNat (List.range (n + 1)).sum

/-- `sumto(n)`, called in the state `s`, has returned in the state `s'`. -/
structure Returned (n : Nat) (s s' : Cpu) : Prop where
  eip : s'.eip = (s.mem s.esp).toNat
  esp : s'.esp = s.esp + 4
  ebp : s'.ebp = s.ebp
  esi : s'.esi = s.esi
  edi : s'.edi = s.edi
  ebx : s'.ebx = if n ≤ 1 then s.ebx else ofNat n
  eax : s'.eax = result n
  mem : ∀ a, s.esp.toNat ≤ a.toNat → s'.mem a = s.mem a

theorem result_succ {n : Nat} (hn : n ≠ 0) : result (n + 1) = result n + ofNat (n + 1) := by
  rw [result, result, if_neg hn, if_neg (succ_ne_zero n), List.range_succ, List.sum_append,
    ofNat_add]
  rfl

/-- The comparison with one is of signed numbers. -/
theorem one_lt_toInt32 {n : Nat} (hn : n < 2 ^ 31) : 1 < (ofNat n).toInt32 ↔ 1 < n := by
  rw [toInt32_ofNat', Int32.lt_iff_toInt_lt, Int32.toInt_ofNat_of_lt hn]
  exact Int.ofNat_lt

theorem ne_sub {a c e : UInt32} (hc : c.toNat ≤ e.toNat) (h : e.toNat - c.toNat < a.toNat) :
    a ≠ e - c := by
  rintro rfl
  rw [UInt32.toNat_sub_of_le _ _ (UInt32.le_iff_toNat_le.2 hc)] at h
  exact lt_irrefl _ h

section Call

variable {n : Nat} {s : Cpu}

theorem Called.mem_prologue (h : Called n s) {a : UInt32} (ha : s.esp.toNat ≤ a.toNat) :
    update s.mem (s.esp - 4) s.ebp a = s.mem a := by
  have hdeep := h.deep
  have h4 : toNat 4 = 4 := rfl
  exact update_of_ne (ne_sub (by omega) (by omega)) _ _

theorem Called.toNat_arg (h : Called n s) : (s.esp + 4).toNat = s.esp.toNat + 4 := by
  have habove := h.above
  have h4 : UInt32.toNat 4 = 4 := rfl
  rw [UInt32.toNat_add, h4]
  omega

theorem Called.prologue (h : Called n s) : run 4 s = { s with
      ebp := s.esp - 4, esp := s.esp - 12, eip := 4
      mem := update s.mem (s.esp - 4) s.ebp
      greater := decide (1 < n) } := by
  have hsub : s.esp - 4 - 8 = s.esp - 12 := by grind
  have harg : s.esp - 4 + 8 = s.esp + 4 := by grind
  have hle : s.esp.toNat ≤ (s.esp + 4).toNat := by
    rw [h.toNat_arg]
    omega
  rw [run_prologue h.eip, hsub, harg, h.mem_prologue hle, h.arg, decide_eq_decide.2
    (one_lt_toInt32 h.lt)]

theorem Called.epilogue (h : Called n s) {t : Cpu} (heip : t.eip = 15) (hebp : t.ebp = s.esp - 4)
    (hmem : ∀ a, s.esp.toNat - 4 ≤ a.toNat → t.mem a = update s.mem (s.esp - 4) s.ebp a)
    (hesi : t.esi = s.esi) (hedi : t.edi = s.edi)
    (hebx : t.ebx = if n ≤ 1 then s.ebx else ofNat n) (heax : t.eax = result n) :
    Returned n s (run 3 t) := by
  have hdeep := h.deep
  have h4 : toNat 4 = 4 := rfl
  have hsub : (s.esp - 4).toNat = s.esp.toNat - 4 :=
    UInt32.toNat_sub_of_le _ _ (UInt32.le_iff_toNat_le.2 (by omega))
  have hret : s.esp - 4 + 4 = s.esp := by grind
  have hkeep : ∀ a, s.esp.toNat ≤ a.toNat → t.mem a = s.mem a := fun a ha =>
    (hmem a (by omega)).trans (h.mem_prologue ha)
  rw [run_epilogue heip, hebp, hret]
  refine ⟨?_, rfl, ?_, hesi, hedi, hebx, heax, hkeep⟩
  · show (t.mem s.esp).toNat = _
    rw [hkeep s.esp (le_refl _)]
  · show t.mem (s.esp - 4) = s.ebp
    rw [hmem _ (by omega), update_self]

/-- For zero and one the routine returns one. -/
theorem Called.base (h : Called n s) (hn : n ≤ 1) : ∃ k, Returned n s (run k s) := by
  have hone : (1 : UInt32) = result n := by
    rcases le_one_iff_eq_zero_or_eq_one.1 hn with rfl | rfl <;> rfl
  have hless : decide (1 < n) = false := by
    rw [decide_eq_false_iff_not]
    omega
  have hrun := h.prologue
  refine ⟨4 + 3 + 3, ?_⟩
  rw [run_add, run_add]
  generalize run 4 s = t at hrun ⊢
  rw [run_base (s := t) (by rw [hrun]) (by rw [hrun, hless])]
  subst hrun
  exact h.epilogue rfl rfl (fun _ _ => rfl) rfl rfl (if_pos hn).symm hone

/-- Memory when the routine has called itself. -/
def frame (n : Nat) (s : Cpu) : UInt32 → UInt32 :=
  update (update (update s.mem (s.esp - 4) s.ebp) (s.esp - 28) (ofNat n)) (s.esp - 32) 12

/-- For a larger argument the routine calls itself. -/
theorem Called.recurse (h : Called (n + 1) s) (hn : n ≠ 0) : run (4 + 6) s = { s with
      eax := ofNat n, ebp := s.esp - 4, esp := s.esp - 32, eip := 0, mem := frame n s
      greater := true } := by
  have harg : s.esp - 4 + 8 = s.esp + 4 := by grind
  have hpush : s.esp - 12 - 12 - 4 = s.esp - 28 := by grind
  have hcall : s.esp - 28 - 4 = s.esp - 32 := by grind
  have hpred : ofNat (n + 1) - 1 = ofNat n := by
    rw [ofNat_add]
    exact UInt32.add_sub_cancel _ _
  have hle : s.esp.toNat ≤ (s.esp + 4).toNat := by
    rw [h.toNat_arg]
    omega
  have hgreater : decide (1 < n + 1) = true := by
    rw [decide_eq_true_eq]
    omega
  rw [run_add, h.prologue, run_recurse rfl hgreater]
  simp only [harg, hpush, hcall, h.mem_prologue hle, h.arg, hpred, hgreater]
  rfl

/-- The call of the routine by itself has its argument, and leaves the frame alone. -/
theorem Called.frame (h : Called (n + 1) s) :
    Sumto.frame n s (s.esp - 32) = 12 ∧ Sumto.frame n s (s.esp - 28) = ofNat n ∧
      ∀ a, s.esp.toNat - 4 ≤ a.toNat → Sumto.frame n s a = update s.mem (s.esp - 4) s.ebp a := by
  have hdeep := h.deep
  have h28 : toNat 28 = 28 := rfl
  have h32 : toNat 32 = 32 := rfl
  have hsub : (s.esp - 28).toNat = s.esp.toNat - 28 :=
    UInt32.toNat_sub_of_le _ _ (UInt32.le_iff_toNat_le.2 (by omega))
  unfold Sumto.frame
  refine ⟨update_self _ _ _, ?_, fun a ha => ?_⟩
  · rw [update_of_ne (ne_sub (by omega) (by omega)), update_self]
  · rw [update_of_ne (ne_sub (by omega) (by omega)),
      update_of_ne (ne_sub (by omega) (by omega))]

/-- **What a call does.** -/
theorem run_sumto (n : Nat) {s : Cpu} (h : Called n s) : ∃ k, Returned n s (run k s) := by
  induction n generalizing s with
  | zero => exact h.base (zero_le 1)
  | succ n ih =>
    by_cases hn : n = 0
    · exact h.base (by omega)
    have hdeep := h.deep
    have habove := h.above
    have harg := h.toNat_arg
    obtain ⟨hret, hpushed, hframe⟩ := h.frame
    have hsub : (s.esp - 32).toNat = s.esp.toNat - 32 :=
      UInt32.toNat_sub_of_le _ _ (UInt32.le_iff_toNat_le.2 (by
        have h32 : toNat 32 = 32 := rfl
        omega))
    have hrun := h.recurse hn
    have hcode : ∀ k, run (4 + 6 + k) s = run k (run (4 + 6) s) := fun k => run_add _ k s
    generalize run (4 + 6) s = t at hrun hcode
    have ht : Called n t := by
      have h28 : s.esp - 32 + 4 = s.esp - 28 := by grind
      subst hrun
      exact ⟨rfl, by rw [h28]; exact hpushed, by omega, by simp only; omega, by simp only; omega⟩
    obtain ⟨k, hk⟩ := ih ht
    refine ⟨4 + 6 + k + 3 + 3, ?_⟩
    rw [run_add, run_add, hcode]
    generalize run k t = u at hk
    -- the return address that the call pushed is the instruction after it
    have heip : u.eip = 12 := by
      rw [hk.eip, hrun]
      exact congrArg toNat hret
    have hmem : ∀ a, s.esp.toNat - 4 ≤ a.toNat → u.mem a = update s.mem (s.esp - 4) s.ebp a := by
      intro a ha
      rw [hk.mem a (by rw [hrun]; simp only; omega), hrun]
      exact hframe a ha
    have hebp : u.ebp = s.esp - 4 := by rw [hk.ebp, hrun]
    have hebx : u.mem (u.ebp + 8) = ofNat (n + 1) := by
      have hat : s.esp - 4 + 8 = s.esp + 4 := by grind
      rw [hebp, hat, hmem _ (by omega), h.mem_prologue (by omega), h.arg]
    rw [run_add_up heip, hebx]
    refine h.epilogue rfl hebp hmem ?_ ?_ (if_neg (by omega)).symm ?_
    · exact hk.esi.trans (by rw [hrun])
    · exact hk.edi.trans (by rw [hrun])
    · show u.eax + _ = _
      rw [hk.eax, result_succ hn]

end Call

/-! ## The contract -/

/-- What the C caller assumes of `sumto(n)`, called in the state `s`: it returns the sum, and
the stack and the registers that a callee saves are as they were. -/
def Contract (n : Nat) (s : Cpu) : Prop :=
  ∃ k, step (run k s) = none ∧ (run k s).eip = (s.mem s.esp).toNat ∧
    (run k s).eax = ofNat (List.range (n + 1)).sum ∧
    (run k s).esp = s.esp + 4 ∧ (run k s).ebp = s.ebp ∧ (run k s).ebx = s.ebx ∧
    (run k s).esi = s.esi ∧ (run k s).edi = s.edi

/-- **When the contract is kept.**  The return address is not in the routine. -/
theorem sumto_contract_iff {n : Nat} {s : Cpu} (h : Called n s)
    (hret : code.length ≤ (s.mem s.esp).toNat) :
    Contract n s ↔ n = 1 ∨ (2 ≤ n ∧ s.ebx = ofNat n) := by
  obtain ⟨k, hk⟩ := run_sumto n h
  have hstop : step (run k s) = none := by
    rw [step, hk.eip, List.getElem?_eq_none hret]
    rfl
  have hebx := hk.ebx
  have heax := hk.eax
  constructor
  · rintro ⟨l, hl, -, heax', -, -, hebx', -⟩
    rw [← run_unique hstop hl] at heax' hebx'
    rw [heax] at heax'
    rw [hebx] at hebx'
    rcases lt_or_ge n 2 with hn | hn
    · left
      by_contra hne
      obtain rfl : n = 0 := by omega
      exact absurd heax' (by decide)
    · rw [if_neg (by omega)] at hebx'
      exact .inr ⟨hn, hebx'.symm⟩
  · intro hn
    refine ⟨k, hstop, hk.eip, ?_, hk.esp, hk.ebp, ?_, hk.esi, hk.edi⟩
    · rw [heax, result, if_neg (by omega)]
    · rw [hebx]
      split
      · rfl
      · exact (hn.resolve_left (by omega)).2.symm

/-- A machine that has called `sumto(n)` from the address 100, with nothing in `ebx`. -/
def caller (n : UInt32) : Cpu where
  eax := 0
  ebx := 0
  esi := 0
  edi := 0
  ebp := 0x3000
  esp := 0x2000
  mem a := if a = 0x2000 then 100 else n
  eip := 0
  greater := false

/-- The call for two, when `ebx` holds two. -/
theorem sumto_contract_two :
    Called 2 { caller 2 with ebx := 2 } ∧ Contract 2 { caller 2 with ebx := 2 } :=
  have h : Called 2 { caller 2 with ebx := 2 } := ⟨rfl, rfl, by decide, by decide, by decide⟩
  ⟨h, (sumto_contract_iff h (by decide)).2 (.inr ⟨le_rfl, rfl⟩)⟩

/-- The calls for zero and for two: the one returns one, and the other overwrites `ebx`. -/
theorem sumto_breaks_contract : (Called 0 (caller 0) ∧ ¬ Contract 0 (caller 0)) ∧
      (Called 2 (caller 2) ∧ ¬ Contract 2 (caller 2)) := by
  have h0 : step (run 10 (caller 0)) = none := rfl
  have h2 : step (run 26 (caller 2)) = none := rfl
  refine ⟨⟨⟨rfl, rfl, by decide, by decide, by decide⟩, ?_⟩,
    ⟨⟨rfl, rfl, by decide, by decide, by decide⟩, ?_⟩⟩
  · rintro ⟨k, hk, -, heax, -⟩
    rw [run_unique hk h0] at heax
    exact absurd heax (by decide)
  · rintro ⟨k, hk, -, -, -, -, hebx, -⟩
    rw [run_unique hk h2] at hebx
    exact absurd hebx (by decide)

end Xv6.Sumto
