import OperatingSystems.Lib.Fueled
import Mathlib.Data.List.Basic
import Mathlib.Logic.Function.Basic

/-!
# `mergeLists`

The linked lists of `linkedList.c`.  A pointer is a number, and `NULL` is zero; `malloc`
returns an address that was not in use.  Loops have fuel.

* `wp_listInsertTail` — a node is added at the end of a list.
* `mergeLists_stable` — **`mergeLists` is a stable merge**, it returns, and it leaves its two
  lists as they are.
-/

namespace Xv6.MergeLists

open Fueled Function List

/-! ## The functions -/

structure Node where
  data : Int
  next : Nat

/-- The nodes, and the last address in use.  `taken` is a record that no function reads: whether
each node that was copied is one of the second list. -/
structure Store where
  node : Nat → Node
  used : Nat
  taken : List Bool := []

abbrev StoreM := Fueled Store

/-- `malloc(sizeof(struct Node))`. -/
def malloc : StoreM Nat := fun s => .ok (s.used + 1) { s with used := s.used + 1 }

def load (p : Nat) : StoreM Node := fun s => .ok (s.node p) s

def store (p : Nat) (n : Node) : StoreM Unit :=
  modify fun s => { s with node := update s.node p n }

/-- `while (tail->next != NULL) tail = tail->next`. -/
def toTail : Nat → Nat → StoreM Nat
  | 0, _ => stuck
  | fuel + 1, tail => do
      let n ← load tail
      if n.next ≠ 0 then toTail fuel n.next else return tail

def listInsertTail (fuel head : Nat) (data : Int) : StoreM Nat := do
  let new ← malloc
  if head = 0 then
    store new ⟨data, 0⟩
    return new
  let tail ← toTail fuel head
  store new ⟨data, 0⟩
  let n ← load tail
  store tail { n with next := new }
  return head

/-- `merged = listInsertTail(merged, l->data); l = l->next`. -/
def copyHead (fuel merged l : Nat) (second : Bool) : StoreM (Nat × Nat) := do
  modify fun s => { s with taken := s.taken ++ [second] }
  let n ← load l
  let merged ← listInsertTail fuel merged n.data
  let n ← load l
  return (merged, n.next)

/-- The loop of `mergeLists`. -/
def mergeLoop (walk : Nat) : Nat → Nat → Nat → Nat → StoreM Nat
  | 0, _, _, _ => stuck
  | fuel + 1, merged, l1, l2 =>
    if l1 ≠ 0 ∧ l2 ≠ 0 then do
      let n1 ← load l1
      let n2 ← load l2
      if n1.data ≤ n2.data then
        let (merged, l1) ← copyHead walk merged l1 false
        mergeLoop walk fuel merged l1 l2
      else
        let (merged, l2) ← copyHead walk merged l2 true
        mergeLoop walk fuel merged l1 l2
    else if l1 = 0 ∧ l2 ≠ 0 then do
      let (merged, l2) ← copyHead walk merged l2 true
      mergeLoop walk fuel merged l1 l2
    else if l2 = 0 ∧ l1 ≠ 0 then do
      let (merged, l1) ← copyHead walk merged l1 false
      mergeLoop walk fuel merged l1 l2
    else return merged

def mergeLists (fuel l1 l2 : Nat) : StoreM Nat :=
  if l1 = 0 ∧ l2 = 0 then return 0
  else if l1 = 0 then return l2
  else if l2 = 0 then return l1
  else mergeLoop fuel fuel 0 l1 l2

/-! ## Lists in memory -/

/-- From `p` on the data are `xs`, in nodes above `lo` and up to `hi`. -/
def Chain (lo hi : Nat) (s : Store) : Nat → List Int → Prop
  | p, [] => p = 0
  | p, x :: xs => lo < p ∧ p ≤ hi ∧ (s.node p).data = x ∧ Chain lo hi s (s.node p).next xs

/-- `p` points to a list with the data `xs`. -/
def IsList (s : Store) (p : Nat) (xs : List Int) : Prop := Chain 0 s.used s p xs

variable {lo hi hi' p q : Nat} {s s' : Store} {xs ys : List Int} {x d : Int} {E : Store → Prop}
  {Q : Nat → Store → Prop}

theorem Chain.congr (h : Chain lo hi s p xs) (hhi : hi ≤ hi')
    (hnode : ∀ a, lo < a → a ≤ hi → s'.node a = s.node a) : Chain lo hi' s' p xs := by
  induction xs generalizing p with
  | nil => exact h
  | cons x xs ih =>
    obtain ⟨h1, h2, h3, h4⟩ := h
    rw [← hnode p h1 h2] at h3 h4
    exact ⟨h1, by omega, h3, ih h4⟩

theorem Chain.above {lo' : Nat} (h : Chain lo hi s p xs) (hlo : lo' ≤ lo) :
    Chain lo' hi s p xs := by
  induction xs generalizing p with
  | nil => exact h
  | cons x xs ih =>
    obtain ⟨h1, h2, h3, h4⟩ := h
    exact ⟨by omega, h2, h3, ih h4⟩

theorem Chain.eq_zero_iff (h : Chain lo hi s p xs) : p = 0 ↔ xs = [] := by
  cases xs with
  | nil => exact iff_of_true h rfl
  | cons x xs => exact iff_of_false (Nat.pos_iff_ne_zero.1 (Nat.zero_lt_of_lt h.1)) (by simp)

/-- The node `q` is the last one of the list, and another list may be hung on it. -/
structure Last (lo hi : Nat) (s : Store) (p q : Nat) (xs : List Int) : Prop where
  gt : lo < q
  le : q ≤ hi
  next : (s.node q).next = 0
  append : ∀ {s' : Store} {hi' : Nat} {ys : List Int}, hi ≤ hi' →
    (∀ a, lo < a → a ≤ hi → a ≠ q → s'.node a = s.node a) →
    (s'.node q).data = (s.node q).data → Chain lo hi' s' (s'.node q).next ys →
    Chain lo hi' s' p (xs ++ ys)

theorem wp_toTail {fuel : Nat} (h : Chain lo hi s p (x :: xs)) (hf : xs.length < fuel)
    (ok : ∀ q, Last lo hi s p q (x :: xs) → Q q s) : wp E (toTail fuel p) Q s := by
  induction fuel generalizing p x xs with
  | zero => omega
  | succ fuel ih =>
    obtain ⟨h1, h2, h3, h4⟩ := h
    change wp E (if (s.node p).next ≠ 0 then toTail fuel (s.node p).next else pure p) Q s
    cases xs with
    | nil =>
      have hnext : (s.node p).next = 0 := h4
      rw [if_neg (by simp [hnext])]
      refine ok p ⟨h1, h2, hnext, fun hle _ hdata hys => ⟨h1, by omega, ?_, hys⟩⟩
      rw [hdata, h3]
    | cons y xs =>
      have hne : (s.node p).next ≠ 0 := by
        have := h4.1
        omega
      rw [if_pos hne]
      refine ih h4 (by simpa using hf) fun q hq => ok q ⟨hq.gt, hq.le, hq.next, ?_⟩
      intro s' hi' ys hle hnode hdata hys
      -- the last node has no successor, and this one has
      have hpq : p ≠ q := fun heq => hne (heq ▸ hq.next)
      refine ⟨h1, by omega, ?_, ?_⟩
      · rw [hnode p h1 h2 hpq, h3]
      · rw [hnode p h1 h2 hpq]
        exact hq.append hle hnode hdata hys

/-- **`listInsertTail`** adds a node at the end, and touches no node up to `lo`. -/
theorem wp_listInsertTail {fuel : Nat}
    (h : Chain lo s.used s p xs) (hlo : lo ≤ s.used) (hf : xs.length < fuel)
    (ok : ∀ q s', Chain lo s'.used s' q (xs ++ [d]) → lo ≤ s'.used →
      (∀ a ≤ lo, s'.node a = s.node a) → s'.taken = s.taken → Q q s') :
    wp E (listInsertTail fuel p d) Q s := by
  rw [listInsertTail, wp_bind]
  change wp E _ Q { s with used := s.used + 1 }
  cases xs with
  | nil =>
    have hp : p = 0 := h
    rw [if_pos hp]
    refine ok _ _ ⟨by omega, Nat.le_refl _, ?_, ?_⟩ (Nat.le_succ_of_le hlo) (fun a ha => ?_) rfl
    · simp only [update_self]
    · simp only [update_self, Chain]
    · exact update_of_ne (by omega) _ _
  | cons x xs =>
    have hp : p ≠ 0 := fun h0 => by simpa using h.eq_zero_iff.1 h0
    have h' : Chain lo s.used { s with used := s.used + 1 } p (x :: xs) :=
      h.congr (Nat.le_refl _) fun _ _ _ => rfl
    rw [if_neg hp, wp_bind]
    refine wp_toTail h' (by simp at hf; omega) fun q hq => ?_
    have hgt := hq.gt
    have hle := hq.le
    have hself : update s.node (s.used + 1) ⟨d, 0⟩ q = s.node q :=
      update_of_ne (by omega) _ _
    have hnew : update (update s.node (s.used + 1) ⟨d, 0⟩) q
        ⟨(s.node q).data, s.used + 1⟩ (s.used + 1) = ⟨d, 0⟩ := by
      rw [update_of_ne (by omega), update_self]
    have hold : ∀ a, a ≤ s.used → a ≠ q → update (update s.node (s.used + 1)
        ⟨d, 0⟩) q ⟨(s.node q).data, s.used + 1⟩ a = s.node a := by
      intro a ha hne
      rw [update_of_ne hne, update_of_ne (by omega)]
    change Q p ⟨update (update s.node (s.used + 1) ⟨d, 0⟩) q
      ⟨(update s.node (s.used + 1) ⟨d, 0⟩ q).data, s.used + 1⟩, s.used + 1, s.taken⟩
    rw [hself]
    refine ok p _ (hq.append (Nat.le_succ _) ?_ ?_ ?_) (by simp only; omega) ?_ rfl
    · exact fun a _ h2 h3 => hold a h2 h3
    · simp only [update_self]
    · simp only [update_self]
      refine ⟨by omega, Nat.le_refl _, ?_, ?_⟩
      · exact congrArg Node.data hnew
      · exact congrArg Node.next hnew
    · exact fun a ha => hold a (by omega) (by omega)

theorem wp_copyHead {Q : Nat × Nat → Store → Prop} {fuel m l : Nat}
    {second : Bool} {acc : List Int} (hm : Chain lo s.used s m acc) (hlo : lo ≤ s.used)
    (hl : Chain 0 lo s l (x :: xs)) (hf : acc.length < fuel)
    (ok : ∀ m' s', Chain lo s'.used s' m' (acc ++ [x]) → lo ≤ s'.used →
      (∀ a ≤ lo, s'.node a = s.node a) → s'.taken = s.taken ++ [second] →
      Q (m', (s.node l).next) s') :
    wp E (copyHead fuel m l second) Q s := by
  obtain ⟨-, hle, hdata, -⟩ := hl
  have hm : Chain lo s.used { s with taken := s.taken ++ [second] } m acc :=
    hm.congr (Nat.le_refl _) fun _ _ _ => rfl
  rw [copyHead, wp_bind]
  change wp E _ Q { s with taken := s.taken ++ [second] }
  rw [wp_bind]
  change wp E _ Q { s with taken := s.taken ++ [second] }
  rw [wp_bind]
  refine wp_listInsertTail hm hlo hf fun m' s' hm' hlo' hsame htaken => ?_
  change Q (m', (s'.node l).next) s'
  rw [hsame l hle]
  exact ok m' s' (hdata ▸ hm') hlo' hsame htaken

/-! ## The merge -/

/-- The merge of two lists; `true` marks what comes from the second one. -/
def merge : List Int → List Int → List (Int × Bool)
  | [], ys => ys.map (·, true)
  | xs, [] => xs.map (·, false)
  | x :: xs, y :: ys =>
    if x ≤ y then (x, false) :: merge xs (y :: ys) else (y, true) :: merge (x :: xs) ys
termination_by xs ys => xs.length + ys.length

theorem merge_nil_right (xs : List Int) : merge xs [] = xs.map (·, false) := by
  cases xs <;> simp [merge]

/-- The loop of `mergeLists`, which has copied `acc` so far. -/
theorem wp_mergeLoop {walk fuel m l1 l2 : Nat}
    {acc : List Int} (hm : Chain lo s.used s m acc) (hlo : lo ≤ s.used)
    (h1 : Chain 0 lo s l1 xs) (h2 : Chain 0 lo s l2 ys) (hf : xs.length + ys.length < fuel)
    (hw : acc.length + xs.length + ys.length < walk)
    (ok : ∀ q s', Chain lo s'.used s' q (acc ++ (merge xs ys).map Prod.fst) → lo ≤ s'.used →
      (∀ a ≤ lo, s'.node a = s.node a) → s'.taken = s.taken ++ (merge xs ys).map Prod.snd →
      Q q s') :
    wp E (mergeLoop walk fuel m l1 l2) Q s := by
  induction fuel generalizing s m l1 l2 xs ys acc with
  | zero => omega
  | succ fuel ih =>
    have hnext : ∀ {s' : Store} {l : Nat} {zs : List Int}, (∀ a ≤ lo, s'.node a = s.node a) →
        Chain 0 lo s l zs → Chain 0 lo s' l zs :=
      fun hsame h => h.congr (Nat.le_refl lo) fun a _ ha => hsame a ha
    -- the head of a list is copied, and the loop goes on with `next` of the rest of it
    have copied : ∀ {b z xs' ys' zs l} (next : Nat → Nat × Nat), Chain 0 lo s l (z :: zs) →
        merge xs ys = (z, b) :: merge xs' ys' → xs'.length + ys'.length < xs.length + ys.length →
        (∀ s', (∀ a ≤ lo, s'.node a = s.node a) → Chain 0 lo s' (next (s.node l).next).1 xs' ∧
          Chain 0 lo s' (next (s.node l).next).2 ys') → wp E (do
          let (merged, l) ← copyHead walk m l b
          mergeLoop walk fuel merged (next l).1 (next l).2) Q s := by
      intro b z xs' ys' zs l next hl hmerge hlt hrest
      rw [wp_bind]
      refine wp_copyHead hm hlo hl (by omega) fun m' s' hm' hlo' hsame htaken => ?_
      refine ih hm' hlo' (hrest s' hsame).1 (hrest s' hsame).2 (by omega)
        (by simp only [length_append, length_singleton]; omega) fun q t hq ht hs hk => ?_
      refine ok q t ?_ ht (fun a ha => (hs a ha).trans (hsame a ha)) ?_
      · rwa [hmerge, map_cons, append_cons]
      · rw [hk, htaken, hmerge, map_cons, ← append_cons]
    have h1z := h1.eq_zero_iff
    have h2z := h2.eq_zero_iff
    rw [mergeLoop]
    cases xs with
    | nil =>
      have hl1 : l1 = 0 := h1
      cases ys with
      | nil =>
        have hl2 : l2 = 0 := h2
        rw [if_neg (by simp [hl1]), if_neg (by simp [hl2]), if_neg (by simp [hl1])]
        refine ok m s ?_ hlo (fun _ _ => rfl) ?_
        · simpa [merge] using hm
        · simp [merge]
      | cons y ys =>
        rw [if_neg (by simp [hl1]), if_pos ⟨hl1, by simp [h2z]⟩]
        exact copied (l1, ·) h2 (by simp [merge]) (by simp) fun s' hs =>
          ⟨hnext hs h1, hnext hs h2.2.2.2⟩
    | cons x xs =>
      cases ys with
      | nil =>
        have hl2 : l2 = 0 := h2
        rw [if_neg (by simp [hl2]), if_neg (by simp [hl2]), if_pos ⟨hl2, by simp [h1z]⟩]
        exact copied (·, l2) h1 (by simp [merge_nil_right]) (by simp) fun s' hs =>
          ⟨hnext hs h1.2.2.2, hnext hs h2⟩
      | cons y ys =>
        rw [if_pos (by simp [h1z, h2z]), wp_bind]
        change wp E (if (s.node l1).data ≤ (s.node l2).data then _ else _) Q s
        rw [h1.2.2.1, h2.2.2.1]
        split
        · exact copied (·, l2) h1 (by simp [merge, *]) (by simp) fun s' hs =>
            ⟨hnext hs h1.2.2.2, hnext hs h2⟩
        · exact copied (l1, ·) h2 (by simp [merge, *]) (by simp) fun s' hs =>
            ⟨hnext hs h1, hnext hs h2.2.2.2⟩

/-- What the merge takes from either list, in order. -/
theorem merge_parts (xs ys : List Int) : ((merge xs ys).filter (!·.2)).map Prod.fst = xs ∧
      ((merge xs ys).filter (·.2)).map Prod.fst = ys := by
  induction xs, ys using merge.induct with
  | case1 ys => simp [merge, filter_map, comp_def]
  | case2 xs hne => simp [merge_nil_right, filter_map, comp_def]
  | case3 x xs y ys hle ih => simpa [merge, hle] using ih
  | case4 x xs y ys hlt ih => simpa [merge, hlt] using ih

/-- Smaller data first, and of equal data those of the first list. -/
def Before (a b : Int × Bool) : Prop := a.1 < b.1 ∨ (a.1 = b.1 ∧ (a.2 = true → b.2 = true))

theorem Before.of_le {a b : Int × Bool} (h : a.1 ≤ b.1) (hb : a.2 = true → b.2 = true) :
    Before a b := by
  rcases Int.lt_or_eq_of_le h with h | h
  · exact .inl h
  · exact .inr ⟨h, hb⟩

theorem mem_merge {a : Int × Bool} (h : a ∈ merge xs ys) :
    (a.2 = false ∧ a.1 ∈ xs) ∨ (a.2 = true ∧ a.1 ∈ ys) := by
  obtain ⟨h1, h2⟩ := merge_parts xs ys
  rcases ha : a.2 with _ | _
  · exact .inl ⟨rfl, h1 ▸ mem_map_of_mem (mem_filter.2 ⟨h, by simp [ha]⟩)⟩
  · exact .inr ⟨rfl, h2 ▸ mem_map_of_mem (mem_filter.2 ⟨h, by simp [ha]⟩)⟩

/-- The head of an ascending list is a lower bound of it. -/
theorem le_of_mem {x z : Int} (h : (x :: xs).Pairwise (· ≤ ·)) (hz : z ∈ x :: xs) : x ≤ z := by
  rcases mem_cons.1 hz with rfl | hz
  · exact Int.le_refl z
  · exact rel_of_pairwise_cons h hz

theorem merge_sorted (hx : xs.Pairwise (· ≤ ·)) (hy : ys.Pairwise (· ≤ ·)) :
    (merge xs ys).Pairwise Before := by
  induction xs, ys using merge.induct with
  | case1 ys =>
    rw [merge, pairwise_map]
    exact hy.imp fun h => .of_le h id
  | case2 xs hne =>
    rw [merge_nil_right, pairwise_map]
    exact hx.imp fun h => .of_le h id
  | case3 x xs y ys hle ih =>
    rw [merge, if_pos hle, pairwise_cons]
    refine ⟨fun a ha => .of_le ?_ (by simp), ih hx.of_cons hy⟩
    rcases mem_merge ha with ⟨-, h⟩ | ⟨-, h⟩
    · exact rel_of_pairwise_cons hx h
    · exact Int.le_trans hle (le_of_mem hy h)
  | case4 x xs y ys hlt ih =>
    rw [merge, if_neg hlt, pairwise_cons]
    refine ⟨fun a ha => ?_, ih hx hy.of_cons⟩
    rcases mem_merge ha with ⟨-, h⟩ | ⟨h2, h⟩
    · exact .inl (Int.lt_of_lt_of_le (Int.not_le.1 hlt) (le_of_mem hx h))
    · exact .of_le (rel_of_pairwise_cons hy h) fun _ => h2

/-- `mergeLists` returns the merge, and no node in use before it changes; what it copies it takes
from the lists as the merge does. -/
theorem run_mergeLists {l1 l2 fuel : Nat} (h1 : IsList s l1 xs) (h2 : IsList s l2 ys)
    (hf : xs.length + ys.length < fuel) :
    ∃ l s', mergeLists fuel l1 l2 s = .ok l s' ∧ IsList s' l ((merge xs ys).map Prod.fst) ∧
      s.used ≤ s'.used ∧ (∀ a ≤ s.used, s'.node a = s.node a) ∧
      (l1 ≠ 0 → l2 ≠ 0 → s'.taken = s.taken ++ (merge xs ys).map Prod.snd) := by
  have h1z := h1.eq_zero_iff
  have h2z := h2.eq_zero_iff
  rw [mergeLists]
  cases xs with
  | nil =>
    have hl1 : l1 = 0 := h1
    have hmerge : (merge [] ys).map Prod.fst = ys := by simp [merge, comp_def]
    rw [hmerge]
    by_cases hl2 : l2 = 0
    · rw [if_pos ⟨hl1, hl2⟩]
      exact ⟨0, s, rfl, hl2 ▸ h2, Nat.le_refl _, fun _ _ => rfl, fun h => (h hl1).elim⟩
    · rw [if_neg (by simp [hl2]), if_pos hl1]
      exact ⟨l2, s, rfl, h2, Nat.le_refl _, fun _ _ => rfl, fun h => (h hl1).elim⟩
  | cons x xs =>
    have hl1 : l1 ≠ 0 := by simp [h1z]
    rw [if_neg (by simp [hl1]), if_neg hl1]
    by_cases hl2 : l2 = 0
    · have hmerge : (merge (x :: xs) ys).map Prod.fst = x :: xs := by
        simp [h2z.1 hl2, merge_nil_right, comp_def]
      rw [if_pos hl2, hmerge]
      exact ⟨l1, s, rfl, h1, Nat.le_refl _, fun _ _ => rfl, fun _ h => (h hl2).elim⟩
    · rw [if_neg hl2]
      -- the copies lie above the nodes in use
      have hm : Chain s.used s.used s 0 [] := rfl
      refine wp.exists_run (wp_mergeLoop hm (Nat.le_refl s.used) h1 h2 hf (by simpa using hf)
        fun q s' hq hle hsame htaken => ⟨?_, hle, hsame, fun _ _ => htaken⟩)
      exact hq.above (Nat.zero_le _)

/-- **`mergeLists` is a stable merge.**  `marks` says of each element of the result from which of
the lists the loop has taken it. -/
theorem mergeLists_stable {s : Store} {l1 l2 : Nat} {xs ys : List Int} (h1 : IsList s l1 xs)
    (h2 : IsList s l2 ys) {fuel : Nat} (hf : xs.length + ys.length < fuel) :
    ∃ l s' zs, mergeLists fuel l1 l2 s = .ok l s' ∧ IsList s' l zs ∧ zs.Perm (xs ++ ys) ∧
      xs.Sublist zs ∧ ys.Sublist zs ∧
      (l1 ≠ 0 → l2 ≠ 0 → ∃ marks, s'.taken = s.taken ++ marks ∧ marks.length = zs.length ∧
        ((zs.zip marks).filter (!·.2)).map Prod.fst = xs ∧
        ((zs.zip marks).filter (·.2)).map Prod.fst = ys ∧
        (xs.Pairwise (· ≤ ·) → ys.Pairwise (· ≤ ·) → (zs.zip marks).Pairwise Before)) ∧
      (xs.Pairwise (· ≤ ·) → ys.Pairwise (· ≤ ·) → zs.Pairwise (· ≤ ·)) ∧
      IsList s' l1 xs ∧ IsList s' l2 ys := by
  obtain ⟨l, s', hrun, hl, hle, hsame, htaken⟩ := run_mergeLists h1 h2 hf
  obtain ⟨hxs, hys⟩ := merge_parts xs ys
  have hzip : ((merge xs ys).map Prod.fst).zip ((merge xs ys).map Prod.snd) = merge xs ys :=
    (zip_of_prod rfl rfl).symm
  refine ⟨l, s', _, hrun, hl, ?_, ?_, ?_, fun hl1 hl2 => ⟨_, htaken hl1 hl2, by simp, ?_⟩, ?_, ?_, ?_⟩
  · have hperm := (filter_append_perm (!·.2) (merge xs ys)).map Prod.fst
    simp only [Bool.not_not, map_append, hxs, hys] at hperm
    exact hperm.symm
  · conv_lhs => rw [← hxs]
    exact filter_sublist.map _
  · conv_lhs => rw [← hys]
    exact filter_sublist.map _
  · rw [hzip]
    exact ⟨hxs, hys, merge_sorted⟩
  · refine fun hx hy => pairwise_map.2 ((merge_sorted hx hy).imp fun h => ?_)
    rcases h with h | h
    · exact Int.le_of_lt h
    · exact Int.le_of_eq h.1
  · exact h1.congr hle fun a _ ha => hsame a ha
  · exact h2.congr hle fun a _ ha => hsame a ha

/-- The two lists `1 -> 3` and `1`. -/
def three : Store where
  node
    | 1 => ⟨1, 2⟩
    | 2 => ⟨3, 0⟩
    | _ => ⟨1, 0⟩
  used := 3

theorem mergeLists_stable_three : IsList three 1 [1, 3] ∧ IsList three 3 [1] ∧
      ∃ l s' zs, mergeLists 4 1 3 three = .ok l s' ∧ IsList s' l zs ∧
        (zs.zip s'.taken).Pairwise Before ∧ IsList s' 1 [1, 3] ∧ IsList s' 3 [1] := by
  have h1 : IsList three 1 [1, 3] := by simp [IsList, Chain, three]
  have h2 : IsList three 3 [1] := by simp [IsList, Chain, three]
  obtain ⟨l, s', zs, hrun, hl, -, -, -, htaken, -, hlists⟩ :=
    @mergeLists_stable three 1 3 [1, 3] [1] h1 h2 4 (by decide)
  obtain ⟨marks, hmarks, -, -, -, hbefore⟩ := htaken (by decide) (by decide)
  rw [show three.taken = [] from rfl, nil_append] at hmarks
  exact ⟨h1, h2, l, s', zs, hrun, hl, hmarks ▸ hbefore (by decide) (by decide), hlists⟩

end Xv6.MergeLists
