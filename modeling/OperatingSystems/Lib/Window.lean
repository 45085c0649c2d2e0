import Mathlib.Algebra.Ring.Nat
import Mathlib.Data.List.Range
import Mathlib.Logic.Function.Basic
import Mathlib.Tactic.Common

/-!
# Buffers between two counters

A buffer of `N` cells in which two counters of 32 bits run on, as C code keeps it: a counter
`c` stands for the cell `c % N`, and it is never brought back.  What is in the buffer is
what stands between the counters, and the counters may wrap when `N` divides `2 ^ 32`.

* `window`: what is between two counters.
* `window_push`, `window_pop`, `window_back`: a counter moves by one.
* `window_append`: a counter between the two cuts it in two parts.
-/

variable {α : Type} {N : Nat} {data : Nat → α} {r m w : UInt32}

/-- The cells from the counter `r` up to the counter `w`. -/
def window (N : Nat) (data : Nat → α) (r w : UInt32) : List α :=
  (List.range (w - r).toNat).map fun k => data ((r.toNat + k) % N)

namespace UInt32

/-! ## The distance of two counters -/

theorem toNat_sub_eq (w r : UInt32) : (w - r).toNat = (2 ^ 32 - r.toNat + w.toNat) % 2 ^ 32 :=
  UInt32.toNat_sub w r

theorem toNat_succ (w : UInt32) : (w + 1).toNat = (w.toNat + 1) % 2 ^ 32 := UInt32.toNat_add w 1

theorem toNat_add_one_sub (h : (w - r).toNat < 2 ^ 32 - 1) :
    (w + 1 - r).toNat = (w - r).toNat + 1 := by
  rw [toNat_sub_eq] at h ⊢
  rw [toNat_sub_eq, toNat_succ]
  omega

theorem toNat_sub_add_one (h : r ≠ w) : (w - (r + 1)).toNat + 1 = (w - r).toNat := by
  have := w.toNat_lt
  have := r.toNat_lt
  have hne : r.toNat ≠ w.toNat := fun he => h (UInt32.toNat_inj.1 he)
  rw [toNat_sub_eq, toNat_sub_eq, toNat_succ]
  omega

theorem toNat_sub_one_sub (h : r ≠ w) : (w - 1 - r).toNat + 1 = (w - r).toNat := by
  have := w.toNat_lt
  have := r.toNat_lt
  have hne : r.toNat ≠ w.toNat := fun he => h (UInt32.toNat_inj.1 he)
  have hone : (1 : UInt32).toNat = 1 := rfl
  simp only [toNat_sub_eq, hone]
  omega

theorem toNat_sub_eq_zero : (w - r).toNat = 0 ↔ r = w := by
  have := w.toNat_lt
  have := r.toNat_lt
  rw [← UInt32.toNat_inj, toNat_sub_eq]
  omega

/-- The counter `w` is `n` ahead of `r`. -/
theorem eq_add_iff {n : UInt32} : w = r + n ↔ (w - r).toNat = n.toNat := by
  have := w.toNat_lt
  have := r.toNat_lt
  have := n.toNat_lt
  rw [← UInt32.toNat_inj, toNat_sub_eq, UInt32.toNat_add]
  omega

end UInt32

/-! ## What is in the buffer -/

@[simp] theorem length_window : (window N data r w).length = (w - r).toNat := by
  simp [window]

@[simp] theorem window_self (r : UInt32) : window N data r r = [] := by
  simp [window]

/-- The cell of a counter, counted from another one. -/
theorem mod_window (hN : N ∣ 2 ^ 32) (w r : UInt32) :
    (r.toNat + (w - r).toNat) % N = w.toNat % N := by
  have hr := r.toNat_lt
  have hmod : (r.toNat + (w - r).toNat) % 2 ^ 32 = w.toNat % 2 ^ 32 := by
    rw [UInt32.toNat_sub_eq]
    omega
  rw [← Nat.mod_mod_of_dvd _ hN, hmod, Nat.mod_mod_of_dvd _ hN]

/-- A counter in the middle cuts the window in two. -/
theorem window_append (hN : N ∣ 2 ^ 32) (h : (m - r).toNat ≤ (w - r).toNat) :
    window N data r w = window N data r m ++ window N data m w := by
  have hsum : (w - r).toNat = (m - r).toNat + (w - m).toNat := by
    have := m.toNat_lt
    simp only [UInt32.toNat_sub_eq] at h ⊢
    omega
  have hcell : ∀ k, (r.toNat + ((m - r).toNat + k)) % N = (m.toNat + k) % N := by
    intro k
    rw [← Nat.add_assoc, Nat.add_mod, mod_window hN, ← Nat.add_mod]
  simp only [window, hsum, List.range_add, List.map_append, List.map_map, Function.comp_def, hcell]

/-- **Something is put in at the end.** -/
theorem window_push (hN : N ∣ 2 ^ 32) (hlt : N < 2 ^ 32) (h : (w - r).toNat < N) (x : α) :
    window N (Function.update data (w.toNat % N) x) r (w + 1) = window N data r w ++ [x] := by
  rw [window, UInt32.toNat_add_one_sub (by omega), List.range_succ, List.map_append,
    List.map_singleton, mod_window hN, Function.update_self]
  congr 1
  refine List.map_congr_left fun k hk => Function.update_of_ne ?_ _ _
  -- there are fewer than `N` cells, so none of them is the one that is set
  have hk := List.mem_range.1 hk
  rw [← mod_window hN w r]
  intro he
  have hdvd : N ∣ (r.toNat + (w - r).toNat) - (r.toNat + k) :=
    Nat.dvd_of_mod_eq_zero (Nat.sub_mod_eq_zero_of_mod_eq he.symm)
  have := Nat.le_of_dvd (by omega) hdvd
  omega

/-- **Something is taken out at the front.** -/
theorem window_pop (hN : N ∣ 2 ^ 32) (h : r ≠ w) :
    window N data r w = data (r.toNat % N) :: window N data (r + 1) w := by
  have hcell : ∀ k, (r.toNat + (k + 1)) % N = ((r + 1).toNat + k) % N := by
    intro k
    have hone : (r + 1).toNat % N = (r.toNat + 1) % N := by
      rw [UInt32.toNat_succ, Nat.mod_mod_of_dvd _ hN]
    rw [Nat.add_mod (r + 1).toNat, hone, ← Nat.add_mod]
    congr 1
    omega
  simp only [window, ← UInt32.toNat_sub_add_one h, List.range_succ_eq_map, List.map_cons,
    List.map_map, Function.comp_def, Nat.add_zero, Nat.succ_eq_add_one, hcell]

/-- Something is taken out at the end. -/
theorem window_back (hN : N ∣ 2 ^ 32) (h : r ≠ w) :
    window N data r w = window N data r (w - 1) ++ [data ((w - 1).toNat % N)] := by
  rw [window, ← UInt32.toNat_sub_one_sub h, List.range_succ, List.map_append, List.map_singleton,
    mod_window hN]
  rfl
