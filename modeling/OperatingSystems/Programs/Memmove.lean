import Mathlib.Data.UInt
import Mathlib.Logic.Function.Basic
import Mathlib.Tactic.Common
import OperatingSystems.Lib.Window

/-!
# The two `memmove`s

`string.c` of the kernel and `ulib.c` of the user library.  The kernel's `memmove` looks how
the two ranges lie and copies from the end if it has to; the user library's always copies
from the start.

* `copyUp_apply` — what copying from the start does, however the ranges lie: it repeats the
  first bytes of the source when the destination begins inside it.
* `copyDown_eq` — copying from the end.
* `memmove_agree_iff` — **the kernel's `memmove` moves the bytes**, and the user library's
  agrees with it exactly if the bytes of an overlap above the source are the same before.
-/

namespace Xv6.Memmove

open Function UInt32 Nat

/-! ## The functions -/

/-- Memory, byte by byte. -/
abbrev Memory := UInt32 → UInt8

/-- `while(n-- > 0) *d++ = *s++`. -/
def copyUp : Nat → UInt32 → UInt32 → Memory → Memory
  | 0, _, _, m => m
  | n + 1, d, s, m => copyUp n (d + 1) (s + 1) (update m d (m s))

/-- `while(n-- > 0) *--d = *--s`. -/
def copyDown : Nat → UInt32 → UInt32 → Memory → Memory
  | 0, _, _, m => m
  | n + 1, d, s, m => copyDown n (d - 1) (s - 1) (update m (d - 1) (m (s - 1)))

/-- `memmove` of the kernel: what it returns, and the memory it leaves. -/
def kernelMemmove (m : Memory) (dst src n : UInt32) : UInt32 × Memory :=
  if src < dst ∧ src + n > dst then (dst, copyDown n.toNat (dst + n) (src + n) m)
  else (dst, copyUp n.toNat dst src m)

/-- `memmove` of the user library, whose `n` is an `int`. -/
def userMemmove (m : Memory) (vdst vsrc : UInt32) (n : Int32) : UInt32 × Memory :=
  (vdst, copyUp n.toNatClampNeg vdst vsrc m)

/-! ## What the loops do -/

/-- The `n` bytes at `dst` are those that were at `src`, and all others are as they were. -/
def moved (m : Memory) (dst src : UInt32) (n : Nat) : Memory := fun a =>
  if (a - dst).toNat < n then m (src + (a - dst)) else m a

variable {m : Memory} {d s a : UInt32} {n : Nat}

theorem succ_mod {j k : Nat} (h : j % k + 1 ≠ k) : (j + 1) % k = j % k + 1 := by
  rw [← mod_add_mod]
  cases k with
  | zero => rw [mod_zero]
  | succ k =>
    have := mod_lt j (show 0 < k + 1 by omega)
    exact mod_eq_of_lt (by omega)

/-- **Copying from the start.**  A byte of the source that has been overwritten by the time it
is read is one of the first `d - s` bytes. -/
theorem copyUp_apply (hn : n ≤ 2 ^ 32) :
    copyUp n d s m a = if (a - d).toNat < n then
      m (s + ofNat ((a - d).toNat % (d - s).toNat)) else m a := by
  induction n generalizing d s m with
  | zero => rfl
  | succ n ih =>
    have hk : d + 1 - (s + 1) = d - s := by grind
    rw [copyUp, ih (by omega), hk]
    by_cases ha : a = d
    · -- the byte written first, and not again
      subst ha
      have hlast : (a - (a + 1)).toNat = 2 ^ 32 - 1 := by
        rw [show a - (a + 1) = 0 - 1 by grind]
        rfl
      rw [if_neg (by omega), update_self, sub_self, if_pos (by simp)]
      simp
    · rw [← toNat_sub_add_one (Ne.symm ha)]
      simp only [Nat.add_lt_add_iff_right]
      generalize (a - (d + 1)).toNat = j
      split
      next hjn =>
        by_cases hj : j % (d - s).toNat + 1 = (d - s).toNat
        · -- the byte it reads is the one just written
          have hread : s + 1 + ofNat (j % (d - s).toNat) = d := by
            have hcast := congrArg ofNat hj
            rw [UInt32.ofNat_toNat, UInt32.ofNat_add] at hcast
            grind
          have hzero : (j + 1) % (d - s).toNat = 0 := by
            rw [← mod_add_mod, hj, mod_self]
          rw [hread, update_self, hzero]
          simp
        · rw [succ_mod hj, ofNat_add, update_of_ne]
          · congr 1
            grind
          · intro he
            have hle := mod_le j (d - s).toNat
            have hdist : d - s = ofNat (j % (d - s).toNat + 1) := by
              rw [ofNat_add]
              grind
            have := congrArg toNat hdist
            rw [toNat_ofNat', mod_eq_of_lt (by omega)] at this
            exact hj this.symm
      next => rw [update_of_ne ha]

theorem sub_add_ofNat (d : UInt32) {j : Nat} (hj : j < 2 ^ 32) :
    (d + ofNat j - d).toNat = j := by
  rw [add_sub_cancel_left, toNat_ofNat', mod_eq_of_lt hj]

theorem add_distance (d s : UInt32) (i : Nat) :
    s + UInt32.ofNat (i + (d - s).toNat) = d + UInt32.ofNat i := by
  rw [UInt32.ofNat_add, UInt32.ofNat_toNat]
  grind

/-- Copying from the start moves the bytes exactly if those it overwrites before it reads them
are overwritten with what they are. -/
theorem copyUp_eq_moved_iff (hn : n ≤ 2 ^ 32) :
    copyUp n d s m = moved m d s n ↔
      ∀ i, i + (d - s).toNat < n → m (s + ofNat i) = m (d + ofNat i) := by
  constructor
  · intro h i hi
    have at_ : ∀ j < n, m (s + ofNat (j % (d - s).toNat)) = m (s + ofNat j) := by
      intro j hj
      have hj' := congrFun h (d + ofNat j)
      rwa [copyUp_apply hn, moved, sub_add_ofNat d (by omega), if_pos hj, if_pos hj,
        add_sub_cancel_left] at hj'
    calc m (s + ofNat i)
      _ = m (s + ofNat (i % (d - s).toNat)) := (at_ i (by omega)).symm
      _ = m (s + ofNat ((i + (d - s).toNat) % (d - s).toNat)) := by rw [add_mod_right]
      _ = m (s + ofNat (i + (d - s).toNat)) := at_ _ hi
      _ = m (d + ofNat i) := by rw [add_distance]
  · intro h
    have repeats : ∀ j < n, m (s + ofNat (j % (d - s).toNat)) = m (s + ofNat j) := by
      intro j
      induction j using Nat.strong_induction_on with
      | _ j ih =>
        intro hj
        rcases Nat.eq_zero_or_pos (d - s).toNat with h0 | hpos
        · rw [h0, mod_zero]
        · by_cases hlt : j < (d - s).toNat
          · rw [mod_eq_of_lt hlt]
          · obtain ⟨i, rfl⟩ : ∃ i, j = i + (d - s).toNat := ⟨j - (d - s).toNat, by omega⟩
            rw [add_mod_right, ih i (by omega) (by omega), h i hj, add_distance]
    funext a
    rw [copyUp_apply hn, moved]
    split
    next ha => rw [repeats _ ha, UInt32.ofNat_toNat]
    next => rfl

/-- **Copying from the end** moves the bytes if the destination does not begin below the
source within `n` bytes. -/
theorem copyDown_eq (hn : n ≤ (s - d).toNat) :
    copyDown n (d + ofNat n) (s + ofNat n) m = moved m d s n := by
  induction n generalizing m with
  | zero =>
    funext a
    simp [copyDown, moved]
  | succ n ih =>
    have hlt := (s - d).toNat_lt
    have hback : ∀ x : UInt32, x + ofNat (n + 1) - 1 = x + ofNat n := by
      intro x
      rw [ofNat_add]
      grind
    rw [copyDown, hback, hback, ih (by omega)]
    funext a
    by_cases ha : a = d + ofNat n
    · -- the byte written first
      have hj : (a - d).toNat = n := by rw [ha, sub_add_ofNat d (by omega)]
      rw [moved, moved, if_neg (by omega), if_pos (by omega), ha, update_self,
        add_sub_cancel_left]
    · have hj : (a - d).toNat ≠ n := by
        intro he
        refine ha ?_
        rw [← he, UInt32.ofNat_toNat]
        grind
      rw [moved, moved]
      by_cases hin : (a - d).toNat < n
      · rw [if_pos hin, if_pos (by omega), update_of_ne]
        intro he
        have hdist : s - d = ofNat n - (a - d) := by grind
        have := congrArg toNat hdist
        rw [UInt32.toNat_sub (UInt32.ofNat n), UInt32.toNat_ofNat'] at this
        omega
      · rw [if_neg hin, if_neg (by omega), update_of_ne ha]

/-! ## The two functions -/

section Ranges

variable {dst src : UInt32} (hdst : dst.toNat + n ≤ 2 ^ 32) (hsrc : src.toNat + n ≤ 2 ^ 32)
include hdst hsrc

/-- Copying from the start reads bytes it has overwritten only if the destination begins
inside the source. -/
theorem copyUp_eq_moved_iff_of_fits : copyUp n dst src m = moved m dst src n ↔
    (src < dst → ∀ i, dst.toNat + i < src.toNat + n →
      m (src + ofNat i) = m (dst + ofNat i)) := by
  have hd := dst.toNat_lt
  have hsub : (dst - src).toNat = (2 ^ 32 - src.toNat + dst.toNat) % 2 ^ 32 :=
    UInt32.toNat_sub dst src
  rw [copyUp_eq_moved_iff (by omega)]
  by_cases hlt : src < dst
  · have hlt' := lt_iff_toNat_lt.1 hlt
    have hdist : (dst - src).toNat = dst.toNat - src.toNat := by omega
    rw [hdist]
    exact ⟨fun h _ i hi => h i (by omega), fun h i hi => h hlt i (by omega)⟩
  · refine iff_of_true (fun i hi => ?_) fun h => absurd h hlt
    have hle : dst.toNat ≤ src.toNat := by
      rw [lt_iff_toNat_lt] at hlt
      omega
    have heq : dst = src := UInt32.toNat_inj.1 (by omega)
    rw [heq]

/-- **The kernel's `memmove` moves the bytes**, however the ranges lie. -/
theorem kernelMemmove_eq (hn : n < 2 ^ 32) :
    kernelMemmove m dst src (ofNat n) = (dst, moved m dst src n) := by
  have hcount : (ofNat n).toNat = n := by rw [toNat_ofNat', mod_eq_of_lt hn]
  have hsum : (src + ofNat n).toNat = (src.toNat + n) % 2 ^ 32 := by
    rw [UInt32.toNat_add, hcount]
  unfold kernelMemmove
  rw [hcount]
  split
  next h =>
    -- the destination begins inside the source
    have hlt := lt_iff_toNat_lt.1 h.1
    have hdist : n ≤ (src - dst).toNat := by
      rw [UInt32.toNat_sub]
      omega
    rw [copyDown_eq hdist]
  next h =>
    rw [(copyUp_eq_moved_iff_of_fits hdst hsrc).2]
    intro hlt i hi
    have hlt' := lt_iff_toNat_lt.1 hlt
    have hend : src.toNat + n < 2 ^ 32 := by omega
    refine absurd ⟨hlt, lt_iff_toNat_lt.2 ?_⟩ h
    rw [hsum, mod_eq_of_lt hend]
    omega

end Ranges

/-- **The two `memmove`s.**  For ranges that do not wrap, the kernel's leaves the `n` bytes that
were at `src` at `dst`, and all others as they were.  The user library's leaves the same memory
exactly if `src` is not below `dst`, or every byte of the source from `dst` on is the same as
the one at the same distance from `src`. -/
theorem memmove_agree_iff (m : Memory) (dst src : UInt32) (n : Int32) (hn : 0 ≤ n)
    (hdst : dst.toNat + n.toNatClampNeg ≤ 2 ^ 32) (hsrc : src.toNat + n.toNatClampNeg ≤ 2 ^ 32) :
    kernelMemmove m dst src n.toUInt32 = (dst, moved m dst src n.toNatClampNeg) ∧
      (userMemmove m dst src n = kernelMemmove m dst src n.toUInt32 ↔
        (src < dst → ∀ i, dst.toNat + i < src.toNat + n.toNatClampNeg →
          m (src + ofNat i) = m (dst + ofNat i))) := by
  have hcast : n.toUInt32 = ofNat n.toNatClampNeg := by
    rw [← Int32.toNat_toUInt32_of_le hn, UInt32.ofNat_toNat]
  have hlt := n.toNatClampNeg_lt
  have hkernel := kernelMemmove_eq (m := m) hdst hsrc (by omega)
  rw [← hcast] at hkernel
  refine ⟨hkernel, ?_⟩
  rw [hkernel, userMemmove, Prod.mk.injEq]
  simp only [true_and]
  exact copyUp_eq_moved_iff_of_fits hdst hsrc

/-- Three bytes are moved one byte down. -/
theorem memmove_agree_down :
    userMemmove (fun a => UInt8.ofNat a.toNat) 100 101 3 =
      kernelMemmove (fun a => UInt8.ofNat a.toNat) 100 101 3 :=
  (memmove_agree_iff _ 100 101 3 (by decide) (by decide) (by decide)).2.2
    fun h => absurd h (by decide)

/-- Two bytes are moved one byte up: the user library's second byte is the first. -/
theorem memmove_disagree_up :
    userMemmove (fun a => UInt8.ofNat a.toNat) 101 100 2 ≠
      kernelMemmove (fun a => UInt8.ofNat a.toNat) 101 100 2 := by
  intro h
  have hbyte := congrArg (fun r => r.2 102) h
  revert hbyte
  decide

end Xv6.Memmove
