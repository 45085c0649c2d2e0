import Mathlib.Algebra.Ring.Nat
import Mathlib.Logic.Function.Basic

/-!
# The multiprocessor table

`mpinit` (mp.c) walks over the configuration table the firmware left in memory.  Physical
memory is a function from addresses to bytes.

* `mpinit_ends_iff` — **the walk ends** exactly when it meets no entry of an unknown type: the
  default branch of the `switch` does not advance.
* `mpinit_inside_iff` — **a walk that ends stays inside `cpus[]`** exactly when the table has at
  most `NCPU` processors: `ncpu` is never compared with `NCPU`.
-/

namespace Xv6.Mpinit

/-! ## The functions -/

def NCPU : Nat := 8

def MPPROC : UInt8 := 0
def MPBUS : UInt8 := 1
def MPIOAPIC : UInt8 := 2
def MPIOINTR : UInt8 := 3
def MPLINTR : UInt8 := 4

def MPBOOT : UInt8 := 2

section

variable (mem : Nat → UInt8)

def word (a : Nat) : Nat := (mem a).toNat + 256 * (mem (a + 1)).toNat

def long (a : Nat) : Nat := word mem a + 65536 * word mem (a + 2)

def sum (addr len : Nat) : UInt8 :=
  UInt8.ofNat ((List.range len).foldl (fun sum i => sum + (mem (addr + i)).toNat) 0)

def memcmp (addr : Nat) (text : List UInt8) : Bool :=
  (List.range text.length).map (fun i => mem (addr + i)) ≠ text

/-- `sizeof(struct mp)` is 16. -/
def mpsearch1 (a len : Nat) : Option Nat :=
  ((List.range (len / 16)).map (a + 16 * ·)).find? fun p =>
    !memcmp mem p [0x5F, 0x4D, 0x50, 0x5F] && sum mem p 16 = 0

def mpsearch : Option Nat :=
  let p := (256 * (mem 0x40F).toNat + (mem 0x40E).toNat) * 16
  let first :=
    if p ≠ 0 then mpsearch1 mem p 1024
    else
      let p := (256 * (mem 0x414).toNat + (mem 0x413).toNat) * 1024
      mpsearch1 mem ((p + 2 ^ 32 - 1024) % 2 ^ 32) 1024
  first <|> mpsearch1 mem 0xF0000 0x10000

/-- The floating pointer structure and the configuration table, at `mp->physaddr`. -/
def mpconfig : Option (Nat × Nat) := do
  let mp ← mpsearch mem
  let conf := long mem (mp + 4)
  if conf = 0 then none
  else if memcmp mem conf [0x50, 0x43, 0x4D, 0x50] then none
  else if mem (conf + 6) ≠ 1 ∧ mem (conf + 6) ≠ 4 then none
  else if sum mem conf (word mem (conf + 4)) ≠ 0 then none
  else some (mp, conf)

/-- What `mpinit` assigns.  `used` has the indices at which it stored into `cpus[]`. -/
structure Mp where
  ismp : Bool := false
  ncpu : Nat := 0
  bcpu : Nat := 0
  id : Nat → UInt8 := fun _ => 0
  ioapicid : UInt8 := 0
  lapic : Nat := 0
  imcr : Bool := false
  used : List Nat := []

/-- The body of the loop: the next `p`, and the assignments. -/
def entry (p : Nat) (m : Mp) : Nat × Mp :=
  if mem p = MPPROC then
    (p + 20, { m with
      ismp := m.ismp && m.ncpu = (mem (p + 1)).toNat
      bcpu := if mem (p + 3) &&& MPBOOT ≠ 0 then m.ncpu else m.bcpu
      id := Function.update m.id m.ncpu (UInt8.ofNat m.ncpu)
      ncpu := m.ncpu + 1
      used := m.ncpu :: m.used })
  else if mem p = MPIOAPIC then (p + 8, { m with ioapicid := mem (p + 1) })
  else if mem p = MPBUS ∨ mem p = MPIOINTR ∨ mem p = MPLINTR then (p + 8, m)
  else (p, { m with ismp := false })

def entries (e : Nat) : Nat → Nat → Mp → Option Mp
  | 0, _, _ => none
  | fuel + 1, p, m =>
    if p < e then entries e fuel (entry mem p m).1 (entry mem p m).2 else some m

/-- The end of `mpinit`: no multiprocessor after all, or the IMCR is set if there is one. -/
def finish (mp : Nat) (m : Mp) : Mp :=
  if !m.ismp then { m with ncpu := 1, lapic := 0, ioapicid := 0 }
  else { m with imcr := mem (mp + 12) ≠ 0 }

/-- `sizeof(struct mpconf)` is 44. -/
def mpinit (fuel : Nat) : Option Mp :=
  match mpconfig mem with
  | none => some {}
  | some (mp, conf) =>
    (entries mem (conf + word mem (conf + 4)) fuel (conf + 44)
      { ismp := true, lapic := long mem (conf + 36) }).map (finish mem mp)

end

/-! ## The table -/

/-- `sizeof` of an entry of a known type. -/
def size (t : UInt8) : Nat := if t = MPPROC then 20 else 8

/-- From `p` on the table consists of entries of the known types `ts`. -/
inductive Table (mem : Nat → UInt8) (e : Nat) : Nat → List UInt8 → Prop where
  | done {p : Nat} (h : e ≤ p) : Table mem e p []
  | entry {p : Nat} {ts : List UInt8} (h : p < e) (hk : mem p ≤ MPLINTR)
      (ht : Table mem e (p + size (mem p)) ts) : Table mem e p (mem p :: ts)

/-- From `p` on the walk meets an entry of an unknown type. -/
inductive Unknown (mem : Nat → UInt8) (e : Nat) : Nat → Prop where
  | here {p : Nat} (h : p < e) (hk : ¬mem p ≤ MPLINTR) : Unknown mem e p
  | later {p : Nat} (h : p < e) (hk : mem p ≤ MPLINTR)
      (hu : Unknown mem e (p + size (mem p))) : Unknown mem e p

theorem Unknown.lt {mem : Nat → UInt8} {e p : Nat} (h : Unknown mem e p) : p < e := by
  cases h <;> assumption

/-! ## One entry -/

variable {mem : Nat → UInt8} {e p fuel : Nat} {m m' : Mp}

theorem known_iff {t : UInt8} : t ≤ MPLINTR ↔
    t = MPPROC ∨ t = MPIOAPIC ∨ t = MPBUS ∨ t = MPIOINTR ∨ t = MPLINTR := by
  simp only [UInt8.le_iff_toNat_le, ← UInt8.toNat_inj, MPPROC, MPIOAPIC, MPBUS, MPIOINTR, MPLINTR]
  change t.toNat ≤ 4 ↔ t.toNat = 0 ∨ t.toNat = 2 ∨ t.toNat = 1 ∨ t.toNat = 3 ∨ t.toNat = 4
  omega

/-- An entry of a known type is passed over. -/
theorem entry_fst (h : mem p ≤ MPLINTR) (m : Mp) : (entry mem p m).1 = p + size (mem p) := by
  rcases known_iff.1 h with h | h | h | h | h <;>
    simp [entry, size, h, MPPROC, MPIOAPIC, MPBUS, MPIOINTR, MPLINTR]

/-- One of an unknown type is not, and only `ismp` changes. -/
theorem entry_unknown (h : ¬mem p ≤ MPLINTR) (m : Mp) :
    entry mem p m = (p, { m with ismp := false }) := by
  simp only [known_iff, not_or] at h
  rw [entry, if_neg h.1, if_neg h.2.1, if_neg (by simp [h.2.2])]

/-- What a walk over `n` processors changes. -/
structure Counted (m m' : Mp) (n : Nat) : Prop where
  ncpu : m'.ncpu = m.ncpu + n
  used : ∀ i, i ∈ m'.used ↔ i ∈ m.used ∨ (m.ncpu ≤ i ∧ i < m'.ncpu)
  bcpu : m'.bcpu = m.bcpu ∨ m'.bcpu < m'.ncpu

theorem Counted.trans {m₁ m₂ m₃ : Mp} {n k : Nat} (h : Counted m₁ m₂ n) (h' : Counted m₂ m₃ k) :
    Counted m₁ m₃ (n + k) := by
  have hn := h.ncpu
  have hk := h'.ncpu
  refine ⟨by omega, fun i => ?_, ?_⟩
  · rw [h'.used, h.used, or_assoc]
    exact or_congr_right (by omega)
  · rcases h'.bcpu with hb | hb
    · rcases h.bcpu with hb' | hb'
      · exact .inl (hb.trans hb')
      · exact .inr (by omega)
    · exact .inr hb

/-- Nothing is counted. -/
theorem Counted.same (hn : m'.ncpu = m.ncpu) (hu : m'.used = m.used) (hb : m'.bcpu = m.bcpu) :
    Counted m m' 0 := by
  refine ⟨hn, fun i => ?_, .inl hb⟩
  rw [hu, hn]
  exact (or_iff_left (by omega)).symm

theorem counted_entry (m : Mp) : Counted m (entry mem p m).2 (if mem p = MPPROC then 1 else 0) := by
  rw [entry]
  by_cases hp : mem p = MPPROC
  · simp only [if_pos hp]
    refine ⟨rfl, fun i => ?_, ?_⟩
    · rw [List.mem_cons, or_comm]
      refine or_congr_right ?_
      change i = m.ncpu ↔ m.ncpu ≤ i ∧ i < m.ncpu + 1
      omega
    · split
      · exact .inr (Nat.lt_succ_self _)
      · exact .inl rfl
  · simp only [if_neg hp]
    split
    · exact .same rfl rfl rfl
    · split <;> exact .same rfl rfl rfl

/-! ## The walk -/

/-- No walk ends at an entry of an unknown type. -/
theorem entries_of_unknown (h : Unknown mem e p) : entries mem e fuel p m = none := by
  induction h generalizing fuel m with
  | here h hk =>
    induction fuel generalizing m with
    | zero => rfl
    | succ fuel ih => rw [entries, if_pos h, entry_unknown hk, ih]
  | later h hk hu ih =>
    cases fuel with
    | zero => rfl
    | succ fuel => rw [entries, if_pos h, entry_fst hk, ih]

/-- Without one it ends: each entry brings `p` nearer to `e`. -/
theorem entries_ends (h : ¬Unknown mem e p) (hf : e - p < fuel) :
    ∃ m', entries mem e fuel p m = some m' := by
  induction fuel generalizing p m with
  | zero => omega
  | succ fuel ih =>
    rw [entries]
    by_cases hp : p < e
    · have hk : mem p ≤ MPLINTR := Decidable.byContradiction fun hk => h (.here hp hk)
      have hsize : 8 ≤ size (mem p) := by
        rw [size]
        split <;> decide
      rw [if_pos hp, entry_fst hk]
      exact ih (fun hu => h (.later hp hk hu)) (by omega)
    · exact ⟨m, if_neg hp⟩

/-- A walk that ends has passed over a table, and has counted its processors. -/
theorem table_of_entries (h : entries mem e fuel p m = some m') :
    ∃ ts, Table mem e p ts ∧ Counted m m' (ts.count MPPROC) := by
  induction fuel generalizing p m with
  | zero => simp [entries] at h
  | succ fuel ih =>
    rw [entries] at h
    by_cases hp : p < e
    · rw [if_pos hp] at h
      obtain ⟨ts, ht, hc⟩ := ih h
      by_cases hk : mem p ≤ MPLINTR
      · rw [entry_fst hk] at ht
        refine ⟨mem p :: ts, .entry hp hk ht, ?_⟩
        rw [List.count_cons, Nat.add_comm]
        simpa using (counted_entry m).trans hc
      · -- the walk is where it was
        rw [entry_unknown hk] at ht hc
        exact ⟨ts, ht, hc.ncpu, hc.used, hc.bcpu⟩
    · rw [if_neg hp] at h
      cases h
      exact ⟨[], .done (Nat.le_of_not_lt hp), .same rfl rfl rfl⟩

/-! ## `mpinit` -/

/-- **`mpinit` ends**, and falls back to one processor on an entry it does not know, exactly
when there is no such entry. -/
theorem mpinit_ends_iff {mem : Nat → UInt8} {mp conf : Nat} (h : mpconfig mem = some (mp, conf)) :
    (∃ fuel m, mpinit mem fuel = some m ∧
      (Unknown mem (conf + word mem (conf + 4)) (conf + 44) → m.ismp = false ∧ m.ncpu = 1)) ↔
      ¬Unknown mem (conf + word mem (conf + 4)) (conf + 44) := by
  simp only [mpinit, h]
  constructor
  · rintro ⟨fuel, m, hrun, -⟩ hu
    rw [entries_of_unknown hu] at hrun
    cases hrun
  · intro hu
    obtain ⟨m, hm⟩ := entries_ends hu (Nat.lt_succ_self _)
    exact ⟨_, finish mem mp m, by rw [hm]; rfl, fun h => (hu h).elim⟩

/-- A memory with a floating pointer structure in the first KB of the EBDA, at `0x9FC00`, and
the table at `0x1000`. -/
def firmware (table : List UInt8) (a : Nat) : UInt8 :=
  if 0x1000 ≤ a then
    if a < 0x9FC00 then table.getD (a - 0x1000) 0
    else [0x5F, 0x4D, 0x50, 0x5F, 0, 0x10, 0, 0, 1, 4, 0x90].getD (a - 0x9FC00) 0
  else [0xC0, 0x9F].getD (a - 0x40E) 0

/-- A header with the given length and checksum, and entries after it. -/
def confTable (length checksum : UInt8) (entries : List UInt8) : List UInt8 :=
  [0x50, 0x43, 0x4D, 0x50, length, 0, 4, checksum] ++ List.replicate 36 0 ++ entries

/-- A table with one bus. -/
def oneBus : Nat → UInt8 := firmware (confTable 52 0x97 [1, 0, 0, 0, 0, 0, 0, 0])

set_option maxRecDepth 8000 in
theorem mpinit_ends_oneBus :
    mpconfig oneBus = some (0x9FC00, 0x1000) ∧ ∃ fuel m, mpinit oneBus fuel = some m := by
  have h : mpconfig oneBus = some (0x9FC00, 0x1000) := by decide
  have hu : ¬Unknown oneBus (0x1000 + word oneBus (0x1000 + 4)) (0x1000 + 44) := by
    intro hu
    cases hu with
    | here hlt hk => exact absurd hk (by decide)
    | later hlt hk hu => exact absurd hu.lt (by decide)
  obtain ⟨fuel, m, hm, -⟩ := (mpinit_ends_iff h).2 hu
  exact ⟨h, fuel, m, hm⟩

/-- A table with an entry of type 5. -/
def strange : Nat → UInt8 := firmware (confTable 45 0x9A [5])

set_option maxRecDepth 8000 in
theorem mpinit_strange :
    mpconfig strange = some (0x9FC00, 0x1000) ∧ ∀ fuel, mpinit strange fuel = none := by
  have h : mpconfig strange = some (0x9FC00, 0x1000) := by decide
  refine ⟨h, fun fuel => ?_⟩
  have hu : Unknown strange (0x1000 + word strange (0x1000 + 4)) (0x1000 + 44) :=
    .here (by decide) (by decide)
  simp only [mpinit, h, entries_of_unknown hu, Option.map_none]

/-- **Of a walk that ends, every index into `cpus[]`** is below `NCPU` exactly when the table has
at most `NCPU` processors. -/
theorem mpinit_inside_iff {mem : Nat → UInt8} {mp conf fuel : Nat} {m : Mp}
    (h : mpconfig mem = some (mp, conf)) (hrun : mpinit mem fuel = some m) :
    ∃ ts, Table mem (conf + word mem (conf + 4)) (conf + 44) ts ∧
      (((∀ i ∈ m.used, i < NCPU) ∧ m.bcpu < NCPU ∧ m.ncpu ≤ NCPU) ↔ ts.count MPPROC ≤ NCPU) := by
  simp only [mpinit, h, Option.map_eq_some_iff] at hrun
  obtain ⟨m', hm', rfl⟩ := hrun
  obtain ⟨ts, ht, hc⟩ := table_of_entries hm'
  refine ⟨ts, ht, ?_⟩
  -- the end of `mpinit` uses no index, and gives `ncpu` up only for one processor
  have hfinish : (finish mem mp m').used = m'.used ∧ (finish mem mp m').bcpu = m'.bcpu ∧
      ((finish mem mp m').ncpu = m'.ncpu ∨ (finish mem mp m').ncpu = 1) := by
    rw [finish]
    split <;> simp
  obtain ⟨hn, hused, hb⟩ := hc
  simp only [List.not_mem_nil, false_or, Nat.zero_le, true_and, Nat.zero_add] at hn hused hb
  rw [hfinish.1, hfinish.2.1]
  constructor
  · rintro ⟨hi, -, -⟩
    refine Nat.le_of_not_lt fun hgt => ?_
    exact absurd (hi NCPU ((hused NCPU).2 (by omega))) (Nat.lt_irrefl NCPU)
  · intro hle
    have hpos : 0 < NCPU := by decide
    refine ⟨fun i hi => ?_, by omega, by omega⟩
    have := (hused i).1 hi
    omega

/-- `n` processors, the first of which boots. -/
def processors (n : Nat) : List UInt8 :=
  (List.range n).flatMap fun i =>
    [0, UInt8.ofNat i, 0, if i = 0 then 3 else 1] ++ List.replicate 16 0

/-- A table with two processors. -/
def twoProcessors : Nat → UInt8 := firmware (confTable 84 0x73 (processors 2))

set_option maxRecDepth 8000 in
theorem mpinit_inside_two : mpconfig twoProcessors = some (0x9FC00, 0x1000) ∧
      ∃ m ts, mpinit twoProcessors 3 = some m ∧
        Table twoProcessors (0x1000 + word twoProcessors (0x1000 + 4)) (0x1000 + 44) ts ∧
        (((∀ i ∈ m.used, i < NCPU) ∧ m.bcpu < NCPU ∧ m.ncpu ≤ NCPU) ↔ ts.count MPPROC ≤ NCPU) := by
  have h : mpconfig twoProcessors = some (0x9FC00, 0x1000) := by decide
  have hend : (mpinit twoProcessors 3).isSome = true := by decide
  obtain ⟨m, hm⟩ := Option.isSome_iff_exists.1 hend
  obtain ⟨ts, hts⟩ := mpinit_inside_iff h hm
  exact ⟨h, m, ts, hm, hts⟩

/-- A table with nine processors. -/
def nineProcessors : Nat → UInt8 := firmware (confTable 224 0xBD (processors 9))

set_option maxRecDepth 16000 in
theorem mpinit_nineProcessors : mpconfig nineProcessors = some (0x9FC00, 0x1000) ∧
      ∃ m, mpinit nineProcessors 10 = some m ∧ 8 ∈ m.used ∧ m.ncpu = 9 := by
  have h : mpconfig nineProcessors = some (0x9FC00, 0x1000) := by decide
  have hrun : (mpinit nineProcessors 10).map (fun m => (m.used, m.ncpu)) =
      some ([8, 7, 6, 5, 4, 3, 2, 1, 0], 9) := by
    decide
  obtain ⟨m, hm, hused⟩ := Option.map_eq_some_iff.1 hrun
  simp only [Prod.mk.injEq] at hused
  exact ⟨h, m, hm, by simp [hused.1], hused.2⟩

end Xv6.Mpinit
