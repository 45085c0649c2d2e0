import Mathlib.Data.List.Basic

/-!
# Texts and their lines

* `unlines` — the text of some lines, each with a newline after it.
* `flushed` — what a writer that keeps the current line back has written of a text: all of it,
  if it is empty or ends in a newline.
* `afterLines` — a text after some of its newlines.
-/

namespace Text

open List

variable {line text : List Char} {ls : List (List Char)}

def unlines (ls : List (List Char)) : List Char := (ls.map (· ++ ['\n'])).flatten

@[simp] theorem unlines_nil : unlines [] = [] := rfl

theorem unlines_cons (l : List Char) (ls : List (List Char)) :
    unlines (l :: ls) = l ++ '\n' :: unlines ls := by
  simp [unlines]

theorem count_unlines (h : ∀ l ∈ ls, '\n' ∉ l) : (unlines ls).count '\n' = ls.length := by
  induction ls with
  | nil => rfl
  | cons l ls ih =>
    rw [forall_mem_cons] at h
    rw [unlines_cons, count_append, count_cons_self, ih h.2,
      count_eq_zero.2 h.1, length_cons, Nat.zero_add]

/-- What is written of a text if each line is written at its newline; `line` is the part of the
current line that was read before. -/
def flushed : List Char → List Char → List Char
  | _, [] => []
  | line, c :: text =>
    if c = '\n' then line ++ '\n' :: flushed [] text else flushed (line ++ [c]) text

theorem flushed_append (h : text.getLast? = some '\n') (more : List Char) :
    flushed line (text ++ more) = line ++ text ++ flushed [] more := by
  induction text generalizing line with
  | nil => cases h
  | cons c text ih =>
    cases text with
    | nil =>
      obtain rfl : c = '\n' := by simpa using h
      simp [flushed]
    | cons d text =>
      rw [getLast?_cons_cons] at h
      rw [cons_append, flushed, ih h, ih h]
      split <;> simp [*]

theorem flushed_unlines_append (ls : List (List Char)) (more : List Char) :
    flushed [] (unlines ls ++ more) = unlines ls ++ flushed [] more := by
  induction ls with
  | nil => rfl
  | cons l ls ih =>
    rw [unlines_cons, append_cons l, append_assoc, flushed_append (by simp), ih]
    simp

/-- Nothing is written exactly when there is no newline. -/
theorem flushed_eq_nil_iff : flushed line text = [] ↔ '\n' ∉ text := by
  induction text generalizing line with
  | nil => simp [flushed]
  | cons c text ih =>
    rw [flushed]
    split
    · rename_i hc
      simp [hc]
    · rename_i hc
      simp [ih, Ne.symm hc]

theorem getLast?_flushed (h : '\n' ∈ text) : (flushed line text).getLast? = some '\n' := by
  induction text generalizing line with
  | nil => cases h
  | cons c text ih =>
    rw [flushed]
    split
    · rw [getLast?_append, getLast?_cons]
      by_cases ht : '\n' ∈ text
      · simp [ih ht]
      · simp [flushed_eq_nil_iff.2 ht]
    · rename_i hc
      exact ih ((mem_cons.1 h).resolve_left (Ne.symm hc))

/-- A first part is written, and nothing after it, exactly when it is empty or ends in a newline,
and no newline follows. -/
theorem flushed_append_eq_iff {more : List Char} : flushed [] (text ++ more) = text ↔
    (text = [] ∨ text.getLast? = some '\n') ∧ '\n' ∉ more := by
  constructor
  · intro h
    have hmore : '\n' ∉ more := by
      intro hmem
      obtain ⟨s, t, rfl⟩ := append_of_mem hmem
      have hlen := congrArg length h
      rw [append_cons s, ← append_assoc, flushed_append (by simp)] at hlen
      simp only [length_append, length_singleton] at hlen
      omega
    refine ⟨?_, hmore⟩
    by_cases hmem : '\n' ∈ text ++ more
    · exact .inr (h ▸ getLast?_flushed hmem)
    · exact .inl (h ▸ flushed_eq_nil_iff.2 hmem)
  · rintro ⟨rfl | h, hmore⟩
    · exact flushed_eq_nil_iff.2 hmore
    · rw [flushed_append h, flushed_eq_nil_iff.2 hmore, nil_append, append_nil]

/-- If nothing is passed over although something should be, what is written is right only if
there is nothing to write. -/
theorem flushed_append_eq_drop_iff {more : List Char} {n : Nat} (hn : 0 < n) :
    flushed [] (text ++ more) = text.drop n ↔ text.length ≤ n ∧ '\n' ∉ text ++ more := by
  by_cases hmem : '\n' ∈ text ++ more
  · refine iff_of_false (fun h => ?_) fun h => h.2 hmem
    have hlast := @getLast?_flushed [] _ hmem
    rw [h, getLast?_drop] at hlast
    split at hlast
    · cases hlast
    · have hlen := congrArg length h
      rw [flushed_append hlast, length_drop] at hlen
      simp only [nil_append, length_append] at hlen
      omega
  · rw [flushed_eq_nil_iff.2 hmem, eq_comm, drop_eq_nil_iff]
    exact (and_iff_left hmem).symm

/-- The text after its first `n` newlines. -/
def afterLines : Nat → List Char → List Char
  | 0, text => text
  | _ + 1, [] => []
  | n + 1, c :: text => if c = '\n' then afterLines n text else afterLines (n + 1) text

@[simp] theorem afterLines_zero (text : List Char) : afterLines 0 text = text := by
  cases text <;> rfl

@[simp] theorem afterLines_nil (n : Nat) : afterLines n [] = [] := by cases n <;> rfl

theorem afterLines_of_notMem {n : Nat} (hn : 0 < n) (h : '\n' ∉ line) (text : List Char) :
    afterLines n (line ++ text) = afterLines n text := by
  obtain ⟨n, rfl⟩ := Nat.exists_eq_add_one_of_ne_zero (Nat.ne_of_gt hn)
  induction line with
  | nil => rfl
  | cons c line ih =>
    rw [mem_cons, not_or] at h
    rw [cons_append, afterLines, if_neg (Ne.symm h.1), ih h.2]

theorem afterLines_unlines (h : ∀ l ∈ ls, '\n' ∉ l) (n : Nat)
    (text : List Char) : afterLines n (unlines ls ++ text) =
      unlines (ls.drop n) ++ afterLines (n - ls.length) text := by
  induction ls generalizing n with
  | nil => simp
  | cons l ls ih =>
    rw [forall_mem_cons] at h
    cases n with
    | zero => simp
    | succ n =>
      rw [unlines_cons, append_assoc, afterLines_of_notMem (Nat.succ_pos n) h.1,
        cons_append, afterLines, if_pos rfl, ih h.2, drop_succ_cons, length_cons,
        Nat.add_sub_add_right]

theorem notMem_afterLines_iff {n : Nat} : '\n' ∉ afterLines n text ↔ text.count '\n' ≤ n := by
  induction text generalizing n with
  | nil => simp
  | cons c text ih =>
    cases n with
    | zero => rw [afterLines_zero, Nat.le_zero, count_eq_zero]
    | succ n =>
      rw [afterLines, count_cons]
      split
      · rename_i hc
        simp [ih, hc]
      · rename_i hc
        simp [ih, hc]

/-- There is something after the first `n` newlines exactly when there are as many before the last
character. -/
theorem afterLines_eq_nil_iff {n : Nat} :
    afterLines n text = [] ↔ text = [] ∨ text.dropLast.count '\n' < n := by
  induction text generalizing n with
  | nil => simp
  | cons c text ih =>
    cases n with
    | zero => simp
    | succ n =>
      rw [afterLines]
      cases text with
      | nil => simp
      | cons d text =>
        rw [dropLast_cons_cons, count_cons]
        split
        · rename_i hc
          simp [ih, hc]
        · rename_i hc
          simp [ih, hc]

end Text
