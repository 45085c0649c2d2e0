import Mathlib.Algebra.Ring.Int.Defs
import Mathlib.Algebra.Ring.Nat
import Mathlib.Tactic.Common

/-!
# Buffers of bytes

Buffers of a fixed number of bytes, and the integers that C code reads from and
writes to them through a cast pointer, least significant byte first.

* `get32_put32`: an integer that was written is read back.
* `get32_put32_of_disjoint`: integers beside it stay what they are.
-/

/-- A buffer of `n` bytes. -/
def Bytes (n : Nat) : Type := Fin n → UInt8

namespace Bytes

variable {n : Nat}

/-- All bytes are zero. -/
def zero : Bytes n := fun _ => 0

/-- The byte at an offset; `0` past the end. -/
def get (b : Bytes n) (i : Nat) : UInt8 := if h : i < n then b ⟨i, h⟩ else 0

/-- The 32-bit integer at an offset. -/
def get32 (b : Bytes n) (i : Nat) : UInt32 :=
  UInt32.ofNat ((b.get i).toNat + 256 * (b.get (i + 1)).toNat + 65536 * (b.get (i + 2)).toNat +
    16777216 * (b.get (i + 3)).toNat)

/-- Write a 32-bit integer at an offset. -/
def put32 (b : Bytes n) (i : Nat) (v : UInt32) : Bytes n := fun j =>
  if i ≤ j.val ∧ j.val < i + 4 then UInt8.ofNat (v.toNat / 256 ^ (j.val - i)) else b j

/-- The bytes from an offset on. -/
def slice (b : Bytes n) (i m : Nat) : List UInt8 := (List.range m).map fun k => b.get (i + k)

/-- Write bytes at an offset. -/
def blit (b : Bytes n) (i m : Nat) (src : Nat → UInt8) : Bytes n := fun j =>
  if i ≤ j.val ∧ j.val < i + m then src (j.val - i) else b j

theorem get_zero (i : Nat) : (zero : Bytes n).get i = 0 := by
  unfold get zero
  split <;> rfl

@[simp] theorem get32_zero (i : Nat) : (zero : Bytes n).get32 i = 0 := by
  simp [get32, get_zero]

theorem get_put32 (b : Bytes n) {i k : Nat} (v : UInt32) (hk : k < 4) (hi : i + 4 ≤ n) :
    (b.put32 i v).get (i + k) = UInt8.ofNat (v.toNat / 256 ^ k) := by
  have hlt : i + k < n := by omega
  have hin : i ≤ i + k ∧ i + k < i + 4 := by omega
  simp only [get, put32, dif_pos hlt, if_pos hin, Nat.add_sub_cancel_left]

theorem get_put32_of_disjoint (b : Bytes n) {i j : Nat} (v : UInt32) (h : j < i ∨ i + 4 ≤ j) :
    (b.put32 i v).get j = b.get j := by
  have hout : ¬ (i ≤ j ∧ j < i + 4) := by omega
  unfold get
  split
  · simp only [put32, if_neg hout]
  · rfl

/-- **An integer that was written is read back.** -/
theorem get32_put32 (b : Bytes n) {i : Nat} (v : UInt32) (hi : i + 4 ≤ n) :
    (b.put32 i v).get32 i = v := by
  have h0 := b.get_put32 (k := 0) v (by omega) hi
  have h1 := b.get_put32 (k := 1) v (by omega) hi
  have h2 := b.get_put32 (k := 2) v (by omega) hi
  have h3 := b.get_put32 (k := 3) v (by omega) hi
  have hv := v.toNat_lt
  apply UInt32.toNat_inj.1
  rw [Nat.add_zero] at h0
  simp only [get32, h0, h1, h2, h3, UInt8.toNat_ofNat', UInt32.toNat_ofNat']
  omega

/-- **Integers beside it stay what they are.** -/
theorem get32_put32_of_disjoint (b : Bytes n) {i j : Nat} (v : UInt32)
    (h : j + 4 ≤ i ∨ i + 4 ≤ j) : (b.put32 i v).get32 j = b.get32 j := by
  unfold get32
  rw [b.get_put32_of_disjoint v (by omega), b.get_put32_of_disjoint v (by omega),
    b.get_put32_of_disjoint v (by omega), b.get_put32_of_disjoint v (by omega)]

theorem get_blit (b : Bytes n) (i m : Nat) (src : Nat → UInt8) {j : Nat} (hj : j < n) :
    (b.blit i m src).get j = if i ≤ j ∧ j < i + m then src (j - i) else b.get j := by
  simp only [get, blit, dif_pos hj]

end Bytes
