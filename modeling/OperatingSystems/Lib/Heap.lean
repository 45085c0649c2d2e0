import Mathlib.Data.Finset.Card
import Mathlib.Data.Set.Finite.Basic
import Mathlib.Data.List.Infix
import Mathlib.Tactic.Common

/-!
# Programs over a memory with an allocator

A `Cmd A V ε α` is a program that reads and updates the cells of a memory (addresses
`A`, contents `V`), takes cells from an allocator and gives them back, and records
events `ε`; it returns a value of `α` or panics.

Programs are specified locally.  `wp X c F Q L` says what `c` does when it has just
the cells of `L.heap`: it touches no other cell that the allocator manages, and it
ends in `Q`, or panics in `F`, whatever cell the allocator hands out and whatever
that cell holds.  `L.credit` is what is known of the free cells: their number, or
nothing, and then every allocation may fail.  Once the trace satisfies `X.stop` the
program is not followed any further.

* `wp_bind`, `wp.mono` — sequencing and consequence.
* `wp.frame` — **the frame rule**: cells a program does not have are left alone.
* `Allocator` — memories with an allocator, and the laws they satisfy.
* `run_sound` — **soundness**: run on such a memory, a program does what its local
  specification says, keeps its cells and the free cells apart, and leaves all others
  as they are.
* `Holds.run` — the same with the cells divided among owners.
-/

/-- A part of a memory: the cells at some addresses. -/
def Heap (A V : Type) : Type := A → Option V

namespace Heap

variable {A V : Type} {h r : Heap A V}

/-- No cells. -/
def empty : Heap A V := fun _ => none

/-- Cells of either of two parts. -/
def union (h r : Heap A V) : Heap A V := fun p => (h p).or (r p)

instance : Union (Heap A V) := ⟨union⟩

/-- Two parts have no cell in common. -/
def Disjoint (h r : Heap A V) : Prop := ∀ p, h p = none ∨ r p = none

@[simp] theorem empty_apply (p : A) : (empty : Heap A V) p = none := rfl

theorem union_apply (h r : Heap A V) (p : A) : (h ∪ r) p = (h p).or (r p) := rfl

theorem union_left {p : A} {v : V} (hp : h p = some v) : (h ∪ r) p = some v := by
  simp [union_apply, hp]

@[simp] theorem empty_union (h : Heap A V) : empty ∪ h = h := by
  funext p
  simp [union_apply]

@[simp] theorem union_empty (h : Heap A V) : h ∪ empty = h := by
  funext p
  simp [union_apply]

theorem union_assoc (h k r : Heap A V) : (h ∪ k) ∪ r = h ∪ (k ∪ r) := by
  funext p
  simp [union_apply, Option.or_assoc]

theorem Disjoint.symm (hd : Disjoint h r) : Disjoint r h :=
  fun p => (hd p).symm

@[simp] theorem disjoint_empty (h : Heap A V) : Disjoint h empty := fun _ => .inr rfl

@[simp] theorem empty_disjoint (h : Heap A V) : Disjoint empty h := fun _ => .inl rfl

theorem union_comm (hd : Disjoint h r) : h ∪ r = r ∪ h := by
  funext p
  rcases hd p with hp | hp <;> simp [union_apply, hp]

theorem disjoint_union_left {h k r : Heap A V} :
    Disjoint (h ∪ k) r ↔ Disjoint h r ∧ Disjoint k r := by
  simp only [Disjoint, union_apply, Option.or_eq_none_iff]
  constructor
  · intro hd
    exact ⟨fun p => (hd p).imp And.left id, fun p => (hd p).imp And.right id⟩
  · rintro ⟨h1, h2⟩ p
    rcases h1 p with hp | hp
    · exact (h2 p).imp (⟨hp, ·⟩) id
    · exact .inr hp

theorem disjoint_union_right {h k r : Heap A V} :
    Disjoint r (h ∪ k) ↔ Disjoint r h ∧ Disjoint r k := by
  constructor
  · intro hd
    obtain ⟨h1, h2⟩ := disjoint_union_left.1 hd.symm
    exact ⟨h1.symm, h2.symm⟩
  · rintro ⟨h1, h2⟩
    exact (disjoint_union_left.2 ⟨h1.symm, h2.symm⟩).symm

theorem Disjoint.right_none (hd : Disjoint h r) {p : A} {v : V}
    (hp : h p = some v) : r p = none := by
  rcases hd p with h1 | h1
  · rw [hp] at h1
    cases h1
  · exact h1

/-- The cells of one part are cells of another. -/
def Sub (h k : Heap A V) : Prop := ∀ p v, h p = some v → k p = some v

theorem Sub.refl (h : Heap A V) : h.Sub h := fun _ _ hv => hv

theorem sub_union_right (hd : Disjoint h r) : r.Sub (h ∪ r) := by
  intro p v hv
  rw [union_comm hd]
  exact union_left hv

variable [DecidableEq A]

/-- Write a cell. -/
def put (h : Heap A V) (p : A) (v : V) : Heap A V := fun q => if q = p then some v else h q

/-- Take a cell away. -/
def erase (h : Heap A V) (p : A) : Heap A V := fun q => if q = p then none else h q

/-- One cell. -/
def single (p : A) (v : V) : Heap A V := put empty p v

@[simp] theorem put_self (h : Heap A V) (p : A) (v : V) : h.put p v p = some v := if_pos rfl

theorem put_of_ne (h : Heap A V) {p q : A} (v : V) (hq : q ≠ p) : h.put p v q = h q := if_neg hq

@[simp] theorem put_put (h : Heap A V) (p : A) (v w : V) : (h.put p v).put p w = h.put p w := by
  funext q
  by_cases hq : q = p
  · rw [hq, put_self, put_self]
  · rw [put_of_ne _ _ hq, put_of_ne _ _ hq, put_of_ne _ _ hq]

@[simp] theorem erase_self (h : Heap A V) (p : A) : h.erase p p = none := if_pos rfl

theorem erase_of_ne (h : Heap A V) {p q : A} (hq : q ≠ p) : h.erase p q = h q := if_neg hq

@[simp] theorem single_self (p : A) (v : V) : single p v p = some v := put_self _ p v

theorem single_of_ne {p q : A} (v : V) (hq : q ≠ p) : single p v q = none := put_of_ne _ v hq

theorem disjoint_single {h : Heap A V} {p : A} {v : V} : Disjoint h (single p v) ↔ h p = none := by
  refine ⟨fun hd => by simpa using hd p, fun hp q => ?_⟩
  by_cases hq : q = p
  · exact .inl (hq ▸ hp)
  · exact .inr (single_of_ne v hq)

theorem put_union (h r : Heap A V) (p : A) (v : V) : h.put p v ∪ r = (h ∪ r).put p v := by
  funext q
  by_cases hq : q = p
  · simp [union_apply, hq]
  · simp [union_apply, put_of_ne, hq]

theorem union_put {p : A} (v : V) (hp : h p = none) : h ∪ r.put p v = (h ∪ r).put p v := by
  funext q
  by_cases hq : q = p
  · simp [union_apply, hq, hp]
  · simp [union_apply, put_of_ne, hq]

theorem erase_union {p : A} (hp : r p = none) : h.erase p ∪ r = (h ∪ r).erase p := by
  funext q
  by_cases hq : q = p
  · simp [union_apply, hq, hp]
  · simp [union_apply, erase_of_ne, hq]

theorem union_single {h : Heap A V} {p : A} (v : V) (hp : h p = none) :
    h ∪ single p v = h.put p v := by
  funext q
  by_cases hq : q = p
  · simp [union_apply, hq, hp]
  · simp [union_apply, put_of_ne, single_of_ne, hq]

theorem erase_union_single {h : Heap A V} {p : A} {v : V} (hp : h p = none) :
    (h ∪ single p v).erase p = h := by
  funext q
  by_cases hq : q = p
  · rw [hq, erase_self, hp]
  · simp [union_apply, erase_of_ne, single_of_ne, hq]

theorem Disjoint.put (hd : Disjoint h r) {p : A} (v : V) (hp : r p = none) :
    Disjoint (h.put p v) r := by
  intro q
  by_cases hq : q = p
  · exact .inr (hq ▸ hp)
  · rw [put_of_ne h v hq]
    exact hd q

theorem Disjoint.erase (hd : Disjoint h r) (p : A) : Disjoint (h.erase p) r := by
  intro q
  by_cases hq : q = p
  · exact .inl (by simp [hq])
  · rw [erase_of_ne h hq]
    exact hd q

end Heap

/-- A program over a memory with an allocator. -/
inductive Cmd (A V ε α : Type) : Type
  /-- Return. -/
  | ret (a : α)
  /-- Stop with a message. -/
  | panic (msg : String)
  /-- Read a cell. -/
  | get (p : A) (k : V → Cmd A V ε α)
  /-- Update a cell. -/
  | update (p : A) (f : V → V) (k : Cmd A V ε α)
  /-- Take a cell from the allocator, if it has one. -/
  | alloc (k : Option A → Cmd A V ε α)
  /-- Give a cell back. -/
  | free (p : A) (k : Cmd A V ε α)
  /-- Record an event. -/
  | emit (e : ε) (k : Cmd A V ε α)

namespace Cmd

variable {A V ε α β σ : Type} {c : Cmd A V ε α}

/-- One program, then another. -/
def bind : Cmd A V ε α → (α → Cmd A V ε β) → Cmd A V ε β
  | .ret a, f => f a
  | .panic msg, _ => .panic msg
  | .get p k, f => .get p fun v => (k v).bind f
  | .update p g k, f => .update p g (k.bind f)
  | .alloc k, f => .alloc fun r => (k r).bind f
  | .free p k, f => .free p (k.bind f)
  | .emit e k, f => .emit e (k.bind f)

instance : Monad (Cmd A V ε) where
  pure := .ret
  bind := bind

theorem bind_assoc (c : Cmd A V ε α) (f : α → Cmd A V ε β) (g : β → Cmd A V ε σ) :
    c >>= f >>= g = c >>= fun a => f a >>= g := by
  change (c.bind f).bind g = c.bind fun a => (f a).bind g
  induction c with
  | ret a => rfl
  | panic msg => rfl
  | get p k ih | update p f k ih | alloc k ih | free p k ih | emit e k ih => simp only [bind, ih]

/-- The program leaves the allocator alone. -/
def Static : Cmd A V ε α → Prop
  | .ret _ => True
  | .panic _ => True
  | .get _ k => ∀ v, (k v).Static
  | .update _ _ k => k.Static
  | .alloc _ => False
  | .free _ _ => False
  | .emit _ k => k.Static

theorem Static.bind {f : α → Cmd A V ε β} (hc : c.Static) (hf : ∀ a, (f a).Static) :
    (c >>= f).Static := by
  induction c with
  | ret a => exact hf a
  | panic msg => trivial
  | get p k ih => exact fun v => ih v (hc v)
  | update p g k ih | emit e k ih => exact ih hc
  | alloc k ih | free p k ih => exact hc

theorem static_pure (a : α) : (pure a : Cmd A V ε α).Static := trivial

theorem static_panic (msg : String) : (.panic msg : Cmd A V ε α).Static := trivial

theorem Static.ite {p : Prop} {_ : Decidable p} {c d : Cmd A V ε α} (hc : c.Static) (hd : d.Static) :
    (if p then c else d).Static := by
  split
  · exact hc
  · exact hd

/-! ## Local specifications -/

/-- What a program has: its cells, what it knows of the free ones, and the events
so far, newest first. -/
structure Local (A V ε : Type) where
  heap : Heap A V
  credit : Option Nat
  trace : List ε

/-- An allocation may fail. -/
def Local.MayFail (L : Local A V ε) : Prop := L.credit = none ∨ L.credit = some 0

/-- What a specification takes for granted: the addresses the allocator manages, and
when to follow a program no further. -/
structure Ctx (A ε : Type) where
  managed : A → Prop
  stop : List ε → Prop

variable [DecidableEq A] {p : A}

/-- The weakest precondition. -/
def wp (X : Ctx A ε) (F : String → List ε → Prop) :
    Cmd A V ε α → (α → Local A V ε → Prop) → Local A V ε → Prop
  | .ret a, Q, L => Q a L
  | .panic msg, _, L => F msg L.trace
  | .get p k, Q, L =>
    (∃ v, L.heap p = some v ∧ wp X F (k v) Q L) ∨ (¬ X.managed p ∧ ∀ v, wp X F (k v) Q L)
  | .update p f k, Q, L =>
    (∃ v, L.heap p = some v ∧ wp X F k Q { L with heap := L.heap.put p (f v) }) ∨
      (¬ X.managed p ∧ wp X F k Q L)
  | .alloc k, Q, L =>
    (L.MayFail → wp X F (k none) Q L) ∧ (L.credit ≠ some 0 → ∀ p v, X.managed p → L.heap p = none →
        wp X F (k (some p)) Q { L with heap := L.heap.put p v, credit := L.credit.map (· - 1) })
  | .free p k, Q, L =>
    X.managed p ∧ (L.heap p).isSome ∧
      wp X F k Q { L with heap := L.heap.erase p, credit := L.credit.map (· + 1) }
  | .emit e k, Q, L =>
    X.stop (e :: L.trace) ∨ wp X F k Q { L with trace := e :: L.trace }

section Rules

variable {X : Ctx A ε} {F : String → List ε → Prop} {Q Q' : α → Local A V ε → Prop}
  {R : β → Local A V ε → Prop} {L : Local A V ε}

@[simp] theorem wp_pure (a : α) : wp X F (pure a) Q L ↔ Q a L := Iff.rfl

/-- The rule of consequence. -/
theorem wp.mono (hw : wp X F c Q L) (hQ : ∀ a L', Q a L' → Q' a L') :
    wp X F c Q' L := by
  induction c generalizing L with
  | ret a => exact hQ a L hw
  | panic msg => exact hw
  | get p k ih =>
    exact hw.imp (fun ⟨v, hv, h⟩ => ⟨v, hv, ih v h⟩) (fun ⟨hp, h⟩ => ⟨hp, fun v => ih v (h v)⟩)
  | update p f k ih =>
    exact hw.imp (fun ⟨v, hv, h⟩ => ⟨v, hv, ih h⟩) (fun ⟨hp, h⟩ => ⟨hp, ih h⟩)
  | alloc k ih =>
    exact ⟨fun hf => ih none (hw.1 hf), fun hc p v hp hn => ih (some p) (hw.2 hc p v hp hn)⟩
  | free p k ih => exact ⟨hw.1, hw.2.1, ih hw.2.2⟩
  | emit e k ih => exact hw.imp id ih

/-- The rule for one program after another. -/
@[simp] theorem wp_bind (c : Cmd A V ε α) (f : α → Cmd A V ε β) :
    wp X F (c >>= f) R L ↔ wp X F c (fun a L' => wp X F (f a) R L') L := by
  change wp X F (c.bind f) R L ↔ _
  induction c generalizing L with
  | ret a => rfl
  | panic msg => rfl
  | get p k ih | update p g k ih | alloc k ih | free p k ih | emit e k ih =>
    simp only [bind, wp, ih]

/-- **The frame rule.**  A program that needs the cells `h` only leaves others alone. -/
theorem wp.frame {h r : Heap A V} {n : Option Nat} {t : List ε} (hd : h.Disjoint r)
    (hw : wp X F c (fun a L' => L'.heap.Disjoint r → Q a { L' with heap := L'.heap ∪ r })
      ⟨h, n, t⟩) :
    wp X F c Q ⟨h ∪ r, n, t⟩ := by
  induction c generalizing h n t with
  | ret a => exact hw hd
  | panic msg => exact hw
  | get p k ih =>
    refine hw.imp (fun ⟨v, hv, hk⟩ => ⟨v, Heap.union_left hv, ih v hd hk⟩)
      (fun ⟨hp, hk⟩ => ⟨hp, fun v => ih v hd (hk v)⟩)
  | update p f k ih =>
    refine hw.imp (fun ⟨v, hv, hk⟩ => ⟨v, Heap.union_left hv, ?_⟩) (fun ⟨hp, hk⟩ => ⟨hp, ih hd hk⟩)
    have hk' := ih (hd.put (f v) (hd.right_none hv)) hk
    rwa [Heap.put_union] at hk'
  | alloc k ih =>
    refine ⟨fun hf => ih none hd (hw.1 hf), fun hc p v hp hn => ?_⟩
    obtain ⟨hhp, hrp⟩ := Option.or_eq_none_iff.1 hn
    have hk' := ih (some p) (hd.put v hrp) (hw.2 hc p v hp hhp)
    rwa [Heap.put_union] at hk'
  | free p k ih =>
    obtain ⟨hp, hs, hk⟩ := hw
    obtain ⟨v, hv⟩ := Option.isSome_iff_exists.1 hs
    have hk' := ih (hd.erase p) hk
    rw [Heap.erase_union (hd.right_none hv)] at hk'
    exact ⟨hp, by simp [Heap.union_left hv], hk'⟩
  | emit e k ih => exact hw.imp id (ih hd)

/-- Reading a cell the program has. -/
theorem wp_get {v : V} {k : V → Cmd A V ε α} (hv : L.heap p = some v)
    (hk : wp X F (k v) Q L) : wp X F (.get p k) Q L :=
  .inl ⟨v, hv, hk⟩

/-- Updating a cell the program has. -/
theorem wp_update {v : V} {f : V → V} {k : Cmd A V ε α} (hv : L.heap p = some v)
    (hk : wp X F k Q { L with heap := L.heap.put p (f v) }) : wp X F (.update p f k) Q L :=
  .inl ⟨v, hv, hk⟩

end Rules

/-! ## Memories -/

/-- A memory with an allocator, over states `σ`. -/
structure Allocator (σ A V : Type) [DecidableEq A] where
  /-- The addresses the allocator may hand out. -/
  managed : A → Prop
  read : σ → A → V
  update : σ → A → (V → V) → σ
  alloc : σ → Option A × σ
  free : σ → A → σ
  /-- The free cells are these. -/
  Free : σ → Finset A → Prop
  managed_of_free : ∀ {s E p}, Free s E → p ∈ E → managed p
  read_update : ∀ s p f q, read (update s p f) q = if q = p then f (read s p) else read s q
  free_update : ∀ {s E p} f, Free s E → p ∉ E → Free (update s p f) E
  alloc_empty : ∀ {s}, Free s ∅ → alloc s = (none, s)
  alloc_nonempty : ∀ {s E}, Free s E → E.Nonempty → ∃ p ∈ E, ∃ s', alloc s = (some p, s') ∧
    Free s' (E.erase p) ∧ ∀ q, q ∉ E → read s' q = read s q
  free_free : ∀ {s E p}, Free s E → p ∉ E → managed p → Free (free s p) (insert p E)
  read_free : ∀ {s p q}, q ≠ p → read (free s p) q = read s q

variable (M : Allocator σ A V)

/-- Run a program from a state and a trace. -/
def run : Cmd A V ε α → σ → List ε → (Except String α × σ) × List ε
  | .ret a, s, t => ((.ok a, s), t)
  | .panic msg, s, t => ((.error msg, s), t)
  | .get p k, s, t => run (k (M.read s p)) s t
  | .update p f k, s, t => run k (M.update s p f) t
  | .alloc k, s, t => run (k (M.alloc s).1) (M.alloc s).2 t
  | .free p k, s, t => run k (M.free s p) t
  | .emit e k, s, t => run k s (e :: t)

/-- The cells `O` of a state. -/
def restrict (s : σ) (O : Finset A) : Heap A V := fun p => if p ∈ O then some (M.read s p) else none

/-- A program has the cells `O`, and the cells `E` are free. -/
structure Split (s : σ) (O E : Finset A) (L : Local A V ε) : Prop where
  free : M.Free s E
  apart : Disjoint O E
  managed : ∀ p ∈ O, M.managed p
  heap : L.heap = restrict M s O
  credit : ∀ n, L.credit = some n → E.card = n

variable {M} {s : σ} {O E : Finset A} {L : Local A V ε} {Q : α → Local A V ε → Prop}
  {F : String → List ε → Prop}

section

variable (hs : Split M s O E L)

include hs

theorem Split.read {v : V} (hp : L.heap p = some v) : p ∈ O ∧ M.read s p = v := by
  rw [hs.heap] at hp
  unfold restrict at hp
  split at hp
  · exact ⟨‹_›, Option.some.inj hp⟩
  · cases hp

theorem Split.heap_eq_none (hp : p ∉ O) : L.heap p = none := by
  rw [hs.heap]
  exact if_neg hp

/-- Updating a cell of the program. -/
theorem Split.update (f : V → V) (hp : p ∈ O) :
    Split M (M.update s p f) O E { L with heap := L.heap.put p (f (M.read s p)) } where
  free := M.free_update f hs.free (Finset.disjoint_left.1 hs.apart hp)
  apart := hs.apart
  managed := hs.managed
  heap := by
    funext q
    simp only [hs.heap, Heap.put, restrict, M.read_update]
    by_cases hq : q = p
    · simp [hq, hp]
    · simp [hq]
  credit := hs.credit

/-- Updating a cell the allocator does not manage. -/
theorem Split.update_unmanaged (f : V → V) (hp : ¬ M.managed p) :
    Split M (M.update s p f) O E L where
  free := M.free_update f hs.free fun h => hp (M.managed_of_free hs.free h)
  apart := hs.apart
  managed := hs.managed
  heap := by
    funext q
    simp only [hs.heap, restrict, M.read_update]
    by_cases hq : q = p
    · have hO : p ∉ O := fun h => hp (hs.managed p h)
      simp [hq, hO]
    · simp [hq]
  credit := hs.credit

/-- Taking a free cell. -/
theorem Split.take {s' : σ} (hp : p ∈ E)
    (hfree : M.Free s' (E.erase p)) (hread : ∀ q, q ∉ E → M.read s' q = M.read s q) :
    Split M s' (insert p O) (E.erase p)
      { L with heap := L.heap.put p (M.read s' p), credit := L.credit.map (· - 1) } where
  free := hfree
  apart := by
    rw [Finset.disjoint_insert_left]
    exact ⟨Finset.notMem_erase p E, hs.apart.mono_right (Finset.erase_subset p E)⟩
  managed := by
    intro q hq
    rcases Finset.mem_insert.1 hq with rfl | hq
    · exact M.managed_of_free hs.free hp
    · exact hs.managed q hq
  heap := by
    funext q
    simp only [hs.heap, Heap.put, restrict, Finset.mem_insert]
    by_cases hq : q = p
    · simp [hq]
    · by_cases hO : q ∈ O
      · simp [hq, hO, hread q (Finset.disjoint_left.1 hs.apart hO)]
      · simp [hq, hO]
  credit := by
    intro n hn
    obtain ⟨m, hm, rfl⟩ := Option.map_eq_some_iff.1 hn
    rw [Finset.card_erase_of_mem hp, hs.credit m hm]

/-- Giving a cell back. -/
theorem Split.give (hp : p ∈ O) : Split M (M.free s p) (O.erase p) (insert p E)
      { L with heap := L.heap.erase p, credit := L.credit.map (· + 1) } where
  free := M.free_free hs.free (Finset.disjoint_left.1 hs.apart hp) (hs.managed p hp)
  apart := by
    rw [Finset.disjoint_insert_right]
    exact ⟨Finset.notMem_erase p O, hs.apart.mono_left (Finset.erase_subset p O)⟩
  managed q hq := hs.managed q (Finset.mem_of_mem_erase hq)
  heap := by
    funext q
    simp only [hs.heap, Heap.erase, restrict, Finset.mem_erase]
    by_cases hq : q = p
    · simp [hq]
    · simp [hq, M.read_free hq]
  credit := by
    intro n hn
    obtain ⟨m, hm, rfl⟩ := Option.map_eq_some_iff.1 hn
    rw [Finset.card_insert_of_notMem (Finset.disjoint_left.1 hs.apart hp), hs.credit m hm]

end

/-- Managed cells outside `B` are the same in two states. -/
def SameOutside (M : Allocator σ A V) (B : Finset A) (s s' : σ) : Prop :=
  ∀ q, M.managed q → q ∉ B → M.read s' q = M.read s q

theorem SameOutside.trans {B : Finset A} {s₁ s₂ s₃ : σ} (h₁ : SameOutside M B s₁ s₂)
    (h₂ : SameOutside M B s₂ s₃) : SameOutside M B s₁ s₃ :=
  fun q hq hB => (h₂ q hq hB).trans (h₁ q hq hB)

/-- What a run from `s` has done, with the cells `B` to work on. -/
def Ran (M : Allocator σ A V) (F : String → List ε → Prop) (Q : α → Local A V ε → Prop)
    (B : Finset A) (s : σ) : (Except String α × σ) × List ε → Prop
  | ((.error msg, _), t) => F msg t
  | ((.ok a, s'), t) => ∃ O E L, Split M s' O E L ∧ L.trace = t ∧ O ∪ E = B ∧
      SameOutside M B s s' ∧ Q a L

theorem Ran.trans {B : Finset A}
    {s₁ s₂ : σ} {r : (Except String α × σ) × List ε} (h₁ : SameOutside M B s₁ s₂)
    (h₂ : Ran M F Q B s₂ r) : Ran M F Q B s₁ r := by
  obtain ⟨⟨⟨msg⟩ | ⟨a⟩, s'⟩, t⟩ := r
  · exact h₂
  · obtain ⟨O, E, L, hs, ht, hB, hsame, hq⟩ := h₂
    exact ⟨O, E, L, hs, ht, hB, h₁.trans hsame, hq⟩

theorem trace_suffix_run (c : Cmd A V ε α) (s : σ) (t : List ε) : t <:+ (run M c s t).2 := by
  induction c generalizing s t with
  | ret a | panic msg => exact List.suffix_refl t
  | get p k ih => exact ih _ s t
  | update p f k ih | free p k ih => exact ih _ t
  | alloc k ih => exact ih _ _ t
  | emit e k ih => exact (List.suffix_cons e t).trans (ih s (e :: t))

/-- Running one program after another. -/
theorem run_bind (c : Cmd A V ε α) (f : α → Cmd A V ε β) (s : σ) (t : List ε) :
    run M (c >>= f) s t = match run M c s t with
      | ((.ok a, s'), t') => run M (f a) s' t'
      | ((.error msg, s'), t') => ((.error msg, s'), t') := by
  induction c generalizing s t with
  | ret a => rfl
  | panic msg => rfl
  | get p k ih => exact ih _ s t
  | update p g k ih | free p k ih => exact ih _ t
  | alloc k ih => exact ih _ _ t
  | emit e k ih => exact ih s (e :: t)

theorem run_bind_eq_ok {f : α → Cmd A V ε β} {s s'' : σ} {t t'' : List ε}
    {b : β} (h : run M (c >>= f) s t = ((.ok b, s''), t'')) : ∃ a s' t',
      run M c s t = ((.ok a, s'), t') ∧ run M (f a) s' t' = ((.ok b, s''), t'') := by
  rw [run_bind] at h
  rcases hr : run M c s t with ⟨⟨msg | a, s'⟩, t'⟩
  · rw [hr] at h
    cases h
  · rw [hr] at h
    exact ⟨a, s', t', rfl, h⟩

/-- What a program returns does not depend on the trace. -/
theorem run_fst_eq (c : Cmd A V ε α) (s : σ) (t t' : List ε) :
    (run M c s t).1 = (run M c s t').1 := by
  induction c generalizing s t t' with
  | ret a => rfl
  | panic msg => rfl
  | get p k ih => exact ih _ s t t'
  | update p f k ih | free p k ih => exact ih _ t t'
  | alloc k ih => exact ih _ _ t t'
  | emit e k ih => exact ih s _ _

/-- **Soundness.**  A program that meets its specification locally and is run on a
memory either comes to a point where it is not followed any further, or it does what
the specification says, with the cells it was given and the free ones, and leaves all
others as they are. -/
theorem run_sound {X : Ctx A ε}
    (hX : ∀ p, M.managed p → X.managed p) (hs : Split M s O E L) (hw : wp X F c Q L) :
    (∃ t, X.stop t ∧ t <:+ (run M c s L.trace).2) ∨ Ran M F Q (O ∪ E) s (run M c s L.trace) := by
  induction c generalizing s O E L with
  | ret a => exact .inr ⟨O, E, L, hs, rfl, rfl, fun _ _ _ => rfl, hw⟩
  | panic msg => exact .inr hw
  | get p k ih =>
    rcases hw with ⟨v, hv, hk⟩ | ⟨-, hk⟩
    · obtain ⟨-, rfl⟩ := hs.read hv
      exact ih _ hs hk
    · exact ih _ hs (hk _)
  | update p f k ih =>
    rcases hw with ⟨v, hv, hk⟩ | ⟨hp, hk⟩
    · obtain ⟨hO, rfl⟩ := hs.read hv
      refine (ih (hs.update f hO) hk).imp id (.trans fun q _ hq => ?_)
      rw [M.read_update, if_neg]
      rintro rfl
      exact hq (Finset.mem_union_left E hO)
    · have hM : ¬ M.managed p := fun hm => hp (hX p hm)
      refine (ih (hs.update_unmanaged f hM) hk).imp id (.trans fun q hm _ => ?_)
      rw [M.read_update, if_neg]
      rintro rfl
      exact hM hm
  | alloc k ih =>
    rcases E.eq_empty_or_nonempty with rfl | hne
    · have hf : L.MayFail := by
        cases hc : L.credit with
        | none => exact .inl hc
        | some n => exact .inr (by rw [hc, ← hs.credit n hc, Finset.card_empty])
      simp only [run, M.alloc_empty hs.free]
      exact ih none hs (hw.1 hf)
    · obtain ⟨p, hp, s', hrun, hfree, hread⟩ := M.alloc_nonempty hs.free hne
      have hc : L.credit ≠ some 0 := fun hc => hne.ne_empty (Finset.card_eq_zero.1 (hs.credit 0 hc))
      have hpO : p ∉ O := Finset.disjoint_right.1 hs.apart hp
      have hX' : X.managed p := hX p (M.managed_of_free hs.free hp)
      have hB : insert p O ∪ E.erase p = O ∪ E := by
        ext q
        by_cases hq : q = p
        · simp [hq, hp]
        · simp [hq]
      have hk := ih (some p) (hs.take hp hfree hread)
        (hw.2 hc p (M.read s' p) hX' (hs.heap_eq_none hpO))
      rw [hB] at hk
      simp only [run, hrun]
      refine hk.imp id (.trans fun q _ hq => hread q fun h => hq ?_)
      exact Finset.mem_union_right O h
  | free p k ih =>
    obtain ⟨-, hsome, hk⟩ := hw
    obtain ⟨v, hv⟩ := Option.isSome_iff_exists.1 hsome
    obtain ⟨hO, -⟩ := hs.read hv
    have hB : O.erase p ∪ insert p E = O ∪ E := by
      ext q
      by_cases hq : q = p
      · simp [hq, hO]
      · simp [hq]
    have hk' := ih (hs.give hO) hk
    rw [hB] at hk'
    refine hk'.imp id (.trans fun q _ hq => M.read_free ?_)
    rintro rfl
    exact hq (Finset.mem_union_left E hO)
  | emit e k ih =>
    rcases hw with hstop | hk
    · exact .inl ⟨_, hstop, trace_suffix_run k s _⟩
    · exact ih (L := { L with trace := e :: L.trace }) ⟨hs.free, hs.apart, hs.managed, hs.heap, hs.credit⟩ hk

/-- What a run of a static program from `s` has done, with the cells `h`. -/
def RanStatic (M : Allocator σ A V) (F : String → List ε → Prop) (Q : α → Local A V ε → Prop)
    (h : Heap A V) (s : σ) : (Except String α × σ) × List ε → Prop
  | ((.error msg, _), t) => F msg t
  | ((.ok a, s'), t) => ∃ L, (∀ p v, L.heap p = some v → M.read s' p = v) ∧ L.trace = t ∧
      (∀ p, h p = none → M.read s' p = M.read s p) ∧ Q a L

theorem RanStatic.update {h : Heap A V}
    {v : V} {f : V → V} {r : (Except String α × σ) × List ε} (hp : h p = some v)
    (hr : RanStatic M F Q (h.put p (f v)) (M.update s p f) r) : RanStatic M F Q h s r := by
  obtain ⟨⟨⟨msg⟩ | ⟨a⟩, s'⟩, t⟩ := r
  · exact hr
  · obtain ⟨L, hread, ht, hsame, hq⟩ := hr
    refine ⟨L, hread, ht, fun q hq' => ?_, hq⟩
    have hne : q ≠ p := by
      rintro rfl
      rw [hp] at hq'
      cases hq'
    rw [hsame q (by rwa [Heap.put_of_ne _ _ hne]), M.read_update, if_neg hne]

/-- **Soundness for static programs**, which work on the cells they have and no others. -/
theorem run_static {X : Ctx A ε} (hX : ∀ p, X.managed p) (hstop : ∀ t, ¬ X.stop t) (hc : c.Static)
    (hread : ∀ p v, L.heap p = some v → M.read s p = v) (hw : wp X F c Q L) :
    RanStatic M F Q L.heap s (run M c s L.trace) := by
  induction c generalizing s L with
  | ret a => exact ⟨L, hread, rfl, fun _ _ => rfl, hw⟩
  | panic msg => exact hw
  | get p k ih =>
    obtain ⟨v, hv, hk⟩ := hw.resolve_right fun h => h.1 (hX p)
    obtain rfl := hread p v hv
    exact ih _ (hc _) hread hk
  | update p f k ih =>
    obtain ⟨v, hv, hk⟩ := hw.resolve_right fun h => h.1 (hX p)
    refine .update hv (ih hc ?_ hk)
    intro q w (hq : L.heap.put p (f v) q = some w)
    rw [M.read_update]
    by_cases hqp : q = p
    · rw [hqp, Heap.put_self] at hq
      rw [if_pos hqp, hread p v hv]
      exact Option.some.inj hq
    · rw [Heap.put_of_ne _ _ hqp] at hq
      rw [if_neg hqp, hread q w hq]
  | alloc k ih | free p k ih => exact hc.elim
  | emit e k ih => exact ih (L := { L with trace := e :: L.trace }) hc hread (hw.resolve_left (hstop _))

/-- What a program says of its trace only. -/
theorem run_trace {X : Ctx A ε} {P : List ε → Prop}
    (hX : X.managed = M.managed) (hs : Split M s O E L)
    (hw : wp X (fun _ t => P t) c (fun _ L' => P L'.trace) L) :
    (∃ t, X.stop t ∧ t <:+ (run M c s L.trace).2) ∨ P (run M c s L.trace).2 := by
  refine (run_sound (fun p h => hX ▸ h) hs hw).imp id fun hran => ?_
  rcases hr : run M c s L.trace with ⟨⟨msg | a, s'⟩, t⟩
  · rw [hr] at hran
    exact hran
  · rw [hr] at hran
    obtain ⟨_, _, _, _, rfl, _, _, hP⟩ := hran
    exact hP

/-! ## Owners -/

/-- The cells of a state that have owners: none of them is free, and none has two. -/
structure Holds {ι : Type} (M : Allocator σ A V) (s : σ) (H : ι → Heap A V) : Prop where
  free : ∃ E, M.Free s E ∧ ∀ i p v, H i p = some v → p ∉ E
  managed : ∀ {i p v}, H i p = some v → M.managed p
  read : ∀ {i p v}, H i p = some v → M.read s p = v
  apart : ∀ {i j}, i ≠ j → (H i).Disjoint (H j)

variable {ι : Type} {H H' : ι → Heap A V}

/-- **A program that works on cells of some owners `D`.**  Afterwards the others have what
they had, and the cells the program has at the end can be given to anybody. -/
theorem Holds.run {X : Ctx A ε} {D : ι → Prop} {h : Heap A V} {s' : σ} {a : α} {t : List ε}
    (hX : X.managed = M.managed) (hstop : ∀ t, ¬ X.stop t) (hfin : {p | M.managed p}.Finite)
    (hH : Holds M s H) (hsub : ∀ p v, h p = some v → ∃ i, D i ∧ H i p = some v)
    (hw : ∀ n, wp X F c Q ⟨h, some n, []⟩) (hrun : Cmd.run M c s [] = ((.ok a, s'), t)) :
    ∃ L, Q a L ∧ (∀ i, ¬ D i → (H i).Disjoint L.heap) ∧
      ∀ (D' : ι → Prop) (H' : ι → Heap A V), (∀ i, D i → D' i) → (∀ i, ¬ D' i → H' i = H i) →
        (∀ i, D' i → (H' i).Sub L.heap) →
        (∀ i j, D' i → D' j → i ≠ j → (H' i).Disjoint (H' j)) → Holds M s' H' := by
  classical
  obtain ⟨E, hE, hne⟩ := hH.free
  let O := hfin.toFinset.filter fun p => (h p).isSome
  have hO : ∀ p, p ∈ O ↔ (h p).isSome := by
    intro p
    simp only [O, Finset.mem_filter, Set.Finite.mem_toFinset, Set.mem_ofPred_eq, and_iff_right_iff_imp]
    intro hp
    obtain ⟨v, hv⟩ := Option.isSome_iff_exists.1 hp
    obtain ⟨i, -, hi⟩ := hsub p v hv
    exact hH.managed hi
  have hsplit : Split M s O E (⟨h, some E.card, []⟩ : Local A V ε) := by
    refine ⟨hE, Finset.disjoint_left.2 fun p hp => ?_, ?_, ?_, fun n hn => Option.some.inj hn⟩
    · obtain ⟨v, hv⟩ := Option.isSome_iff_exists.1 ((hO p).1 hp)
      obtain ⟨i, -, hi⟩ := hsub p v hv
      exact hne i p v hi
    · intro p hp
      obtain ⟨v, hv⟩ := Option.isSome_iff_exists.1 ((hO p).1 hp)
      obtain ⟨i, -, hi⟩ := hsub p v hv
      exact hH.managed hi
    · funext p
      change h p = restrict M s O p
      unfold restrict
      cases hv : h p with
      | none => rw [if_neg fun hp => by simpa [hv] using (hO p).1 hp]
      | some v =>
        obtain ⟨i, -, hi⟩ := hsub p v hv
        rw [if_pos ((hO p).2 (by simp [hv])), hH.read hi]
  rcases run_sound (fun p h => hX ▸ h) hsplit (hw E.card) with ⟨t', ht', -⟩ | hran
  · exact absurd ht' (hstop t')
  rw [show Cmd.run M c s (⟨h, some E.card, []⟩ : Local A V ε).trace = _ from hrun] at hran
  obtain ⟨O', E', L, hs, -, hB, hsame, hQ⟩ := hran
  -- the cells of others are neither the program's nor free
  have hout : ∀ {i p v}, ¬ D i → H i p = some v → p ∉ O' ∪ E' := by
    intro i p v hD hv
    rw [hB, Finset.mem_union]
    rintro (hp | hp)
    · obtain ⟨w, hw⟩ := Option.isSome_iff_exists.1 ((hO p).1 hp)
      obtain ⟨j, hj, hjp⟩ := hsub p w hw
      have hij : i ≠ j := by
        rintro rfl
        exact hD hj
      have := (hH.apart hij).right_none hv
      rw [hjp] at this
      cases this
    · exact hne i p v hv hp
  have hdisj : ∀ i, ¬ D i → (H i).Disjoint L.heap := by
    intro i hD p
    by_contra! hboth
    obtain ⟨v, hv⟩ := Option.ne_none_iff_exists'.1 hboth.1
    obtain ⟨w, hw⟩ := Option.ne_none_iff_exists'.1 hboth.2
    exact hout hD hv (Finset.mem_union_left E' (hs.read hw).1)
  refine ⟨L, hQ, hdisj, fun D' H' hDD' hkeep hnew hone => ?_⟩
  have hfrom : ∀ i p v, H' i p = some v →
      (¬ D' i ∧ ¬ D i ∧ H i p = some v) ∨ (D' i ∧ L.heap p = some v) := by
    intro i p v hv
    by_cases hD' : D' i
    · exact .inr ⟨hD', hnew i hD' p v hv⟩
    · rw [hkeep i hD'] at hv
      exact .inl ⟨hD', fun hD => hD' (hDD' i hD), hv⟩
  constructor
  case free =>
    refine ⟨E', hs.free, fun i p v hv hp => ?_⟩
    rcases hfrom i p v hv with ⟨-, hD, hi⟩ | ⟨-, hL⟩
    · exact hout hD hi (Finset.mem_union_right O' hp)
    · exact Finset.disjoint_left.1 hs.apart (hs.read hL).1 hp
  case managed =>
    intro i p v hv
    rcases hfrom i p v hv with ⟨-, -, hi⟩ | ⟨-, hL⟩
    · exact hH.managed hi
    · exact hs.managed p (hs.read hL).1
  case read =>
    intro i p v hv
    rcases hfrom i p v hv with ⟨-, hD, hi⟩ | ⟨-, hL⟩
    · rw [hsame p (hH.managed hi) (hB ▸ hout hD hi)]
      exact hH.read hi
    · exact (hs.read hL).2
  case apart =>
    intro i j hij p
    by_contra! hboth
    obtain ⟨v, hv⟩ := Option.ne_none_iff_exists'.1 hboth.1
    obtain ⟨w, hw⟩ := Option.ne_none_iff_exists'.1 hboth.2
    rcases hfrom i p v hv with ⟨-, hDi, hi⟩ | ⟨hDi, hLi⟩ <;>
      rcases hfrom j p w hw with ⟨-, hDj, hj⟩ | ⟨hDj, hLj⟩
    · exact absurd ((hH.apart hij).right_none hi) (by simp [hj])
    · exact absurd ((hdisj i hDi).right_none hi) (by simp [hLj])
    · exact absurd ((hdisj j hDj).right_none hj) (by simp [hLi])
    · exact absurd ((hone i j hDi hDj hij).right_none hv) (by simp [hw])

end Cmd
