import Mathlib.Logic.Function.Basic
import Mathlib.Data.List.Basic

/-!
# Lists of writes to a store

A store gives every address a value.  A list of writes is applied in order, so
that the last write to an address decides.

* `apply_of_agree`: writes that agree with a function, applied to a store that
  agrees with it elsewhere, give that function; in particular writes that change
  nothing may be repeated.
* `apply_update_of_mem`: what an address holds before does not matter if the
  writes set it.
-/

namespace Writes

open Function

variable {ι α : Type} [DecidableEq ι] {ws : List (ι × α)}

/-- Apply a list of writes to a store, first to last. -/
def apply (ws : List (ι × α)) (d : ι → α) : ι → α :=
  ws.foldl (fun d w => update d w.1 w.2) d

@[simp] theorem apply_nil (d : ι → α) : apply [] d = d := rfl

@[simp] theorem apply_cons (w : ι × α) (ws : List (ι × α)) (d : ι → α) :
    apply (w :: ws) d = apply ws (update d w.1 w.2) := rfl

theorem apply_append (ws vs : List (ι × α)) (d : ι → α) :
    apply (ws ++ vs) d = apply vs (apply ws d) := by
  simp [apply]

theorem apply_concat (ws : List (ι × α)) (a : ι) (v : α) (d : ι → α) :
    apply (ws ++ [(a, v)]) d = update (apply ws d) a v := by
  rw [apply_append]
  rfl

/-- **Writes that agree with a function** give that function wherever they write,
and wherever the store agrees with it already. -/
theorem apply_of_agree {f d : ι → α} {a : ι} (hw : ∀ w ∈ ws, w.2 = f w.1)
    (ha : a ∈ ws.map Prod.fst ∨ d a = f a) : apply ws d a = f a := by
  induction ws generalizing d with
  | nil => simpa using ha
  | cons w ws ih =>
    rw [apply_cons]
    apply ih (fun w' hw' => hw w' (List.mem_cons_of_mem _ hw'))
    by_cases h : a = w.1
    · right
      rw [h, update_self]
      exact hw w List.mem_cons_self
    · rw [update_of_ne h]
      rcases ha with ha | ha
      · rw [List.map_cons, List.mem_cons] at ha
        exact .inl (ha.resolve_left h)
      · exact .inr ha

/-- Two stores that agree where nothing is written are the same after the writes. -/
theorem apply_congr {d e : ι → α} {a : ι}
    (h : a ∈ ws.map Prod.fst ∨ d a = e a) : apply ws d a = apply ws e a := by
  induction ws generalizing d e with
  | nil => simpa using h
  | cons w ws ih =>
    rw [apply_cons, apply_cons]
    apply ih
    by_cases ha : a = w.1
    · right
      rw [ha, update_self, update_self]
    · rw [update_of_ne ha, update_of_ne ha]
      rcases h with h | h
      · rw [List.map_cons, List.mem_cons] at h
        exact .inl (h.resolve_left ha)
      · exact .inr h

/-- **What an address holds does not matter** if the writes set it. -/
theorem apply_update_of_mem {a : ι} (h : a ∈ ws.map Prod.fst) (v : α)
    (d : ι → α) : apply ws (update d a v) = apply ws d := by
  funext b
  apply apply_congr
  by_cases hb : b = a
  · exact .inl (hb ▸ h)
  · exact .inr (update_of_ne hb _ _)

end Writes
