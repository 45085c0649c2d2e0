import OperatingSystems.Console.Input
import OperatingSystems.Lib.Machine

/-!
# Reading from the console

The model of `consoleread`.  Any number of processes read, while characters are typed.  A
process keeps `cons.lock` for as long as it finds characters, and gives it back to sleep and
when it returns.

* `console_lines`: what readers get is the committed text, in order and once, with every
  `^D` in it as an end of file.
-/

namespace Xv6.Console

open List

variable {ι : Type}

/-! ## The readers -/

/-- Where a process is in `consoleread`.  In `dst` is what was copied so far. -/
inductive Pc
  /-- in user space, with what the last call returned -/
  | user (ret : Int) (dst : List UInt8)
  /-- before `acquire` -/
  | start (n : Int)
  /-- at the head of the loop, with the lock -/
  | loop (target n : Int) (dst : List UInt8)
  | asleep (target n : Int) (dst : List UInt8)
  /-- in `sleep`, before the lock is taken again -/
  | woken (target n : Int) (dst : List UInt8)

namespace Pc

/-- Whether the process has `cons.lock`. -/
def locked : Pc → Bool
  | loop .. => true
  | _ => false

/-- What the caller finds in its buffer. -/
def dst : Pc → List UInt8
  | user _ dst | loop _ _ dst | asleep _ _ dst | woken _ _ dst => dst
  | start _ => []

/-- What `wakeup(&input.r)` does to a process. -/
def wake : Pc → Pc
  | asleep target n dst => woken target n dst
  | q => q

/-- The caller returns with an end of file. -/
def isEof : Pc → Bool
  | user ret _ => ret = 0
  | _ => false

end Pc

/-- An iteration of the loop of `consoleread`, and what follows it. -/
def consoleread (s : Input) (killed : Bool) (target n : Int) (dst : List UInt8) : Input × Pc :=
  if n ≤ 0 then (s, .user (target - n) dst)
  else if s.r = s.w then (s, if killed then .user (-1) dst else .asleep target n dst)
  else if s.char s.r = ctrlD then
    -- the mark is left for the next call if this one has something to return
    (if n < target then s else { s with r := s.r + 1 }, .user (target - n) dst)
  else
    ({ s with r := s.r + 1 },
      if s.char s.r = newline then .user (target - (n - 1)) (dst ++ [s.char s.r])
      else .loop target (n - 1) (dst ++ [s.char s.r]))

/-- The console and those who use it. -/
structure State (ι : Type) where
  input : Input
  /-- `cons.lock` -/
  lock : Option ι
  pc : ι → Pc
  killed : ι → Bool

/-- What can happen. -/
inductive Event (ι : Type)
  /-- an interrupt of the keyboard or the serial port -/
  | intr (cs : List UInt8)
  /-- a call of `consoleread` -/
  | read (i : ι) (n : Int)
  | kill (i : ι)
  /-- the entry of the process table gets a new process -/
  | reuse (i : ι)
  | run (i : ι)

section Steps

variable [DecidableEq ι]

/-- A process takes the lock, and is then at `q`. -/
def State.acquire (s : State ι) (i : ι) (q : Pc) : Option (State ι) :=
  if s.lock.isNone then some { s with lock := some i, pc := Function.update s.pc i q } else none

/-- A process does what it does next. -/
def State.run (s : State ι) (i : ι) : Option (State ι) :=
  match s.pc i with
  | .user .. | .asleep .. => none
  | .start n => s.acquire i (.loop n n [])
  | .woken target n dst => s.acquire i (.loop target n dst)
  | .loop target n dst =>
    let x := consoleread s.input (s.killed i) target n dst
    some { s with
        input := x.1
        lock := if x.2.locked then s.lock else none
        pc := Function.update s.pc i x.2 }

/-- The state after an event. -/
def State.step (s : State ι) : Event ι → Option (State ι)
  | .intr cs =>
    if s.lock.isNone then
      let x := s.input.consoleintr cs
      some { s with input := x.1, pc := fun i => if x.2 then (s.pc i).wake else s.pc i }
    else none
  | .read i n =>
    match s.pc i with
    | .user .. => some { s with pc := Function.update s.pc i (.start n) }
    | _ => none
  | .kill i =>
    some { s with
        killed := Function.update s.killed i true
        pc := Function.update s.pc i (s.pc i).wake }
  | .reuse i =>
    match s.pc i with
    | .user .. =>
      some { s with
          killed := Function.update s.killed i false
          pc := Function.update s.pc i (.user 0 []) }
    | _ => none
  | .run i => s.run i

/-- The runs of the console. -/
def machine (ι : Type) [DecidableEq ι] : Machine (State ι) (Event ι) where
  init := fun s =>
    s.input = ⟨fun _ => 0, 0, 0, 0⟩ ∧ s.lock = none ∧ ∀ i, s.pc i = .user 0 []
  step := State.step

/-! ## What was read -/

/-- What was typed, and what became of it. -/
structure Record (ι : Type) where
  text : Text
  /-- the characters that `r` has passed -/
  taken : List UInt8
  /-- what readers got: a character, or an end of file -/
  out : List (ι × Option UInt8)

/-- What a step of `consoleread` gives to the caller: what is new in the buffer, and the end
of file if it asked for something and gets nothing. -/
def gives (target : Int) (dst : List UInt8) (q : Pc) : List (Option UInt8) :=
  (q.dst.drop dst.length).map some ++ if 0 < target ∧ q.isEof then [none] else []

/-- What `r` passes. -/
def passes (s s' : Input) : List UInt8 := if s'.r = s.r then [] else [s.char s.r]

/-- The record of what a process does next. -/
def Record.run (g : Record ι) (i : ι) (s : Input) (killed : Bool) : Pc → Record ι
  | .loop target n dst =>
    let x := consoleread s killed target n dst
    { g with
      taken := g.taken ++ passes s x.1
      out := g.out ++ (gives target dst x.2).map (Prod.mk i) }
  | _ => g

/-- What a process got. -/
def Record.of (g : Record ι) (i : ι) : List (Option UInt8) :=
  (g.out.filter (·.1 = i)).map Prod.snd

/-- The record of an event. -/
def Record.note (s : State ι) (ev : Event ι) (g : Record ι) : Record ι :=
  match ev with
  | .intr cs => { g with text := cs.foldl (Text.edit g.taken.length) g.text }
  | .run i => g.run i s.input (s.killed i) (s.pc i)
  | _ => g

/-- The runs, with what was read. -/
def recorded (ι : Type) [DecidableEq ι] : Machine (State ι × Record ι) (Event ι) :=
  (machine ι).ghost ⟨⟨[], []⟩, [], []⟩ Record.note

end Steps

/-- What a reader sees of a character. -/
def mark (c : UInt8) : Option UInt8 := if c = ctrlD then none else some c

/-! ## The invariant -/

/-- In the buffer is the last of what the process got.  A call still asks for as many
characters as are missing there, and returns with the number of those it has. -/
def Pc.Got (l : List (Option UInt8)) : Pc → Prop
  | loop target n dst | asleep target n dst | woken target n dst =>
    n + dst.length = target ∧ dst.map some <:+ l
  | user ret dst => (ret = dst.length ∨ ret = -1) ∧ dst.map some <:+ l
  | start _ => True

theorem Pc.Got.wake {l : List (Option UInt8)} {q : Pc} (h : q.Got l) : q.wake.Got l := by
  cases q with
  | asleep => exact h
  | _ => exact h

theorem Pc.got_new (l : List (Option UInt8)) : (user 0 []).Got l := ⟨.inl rfl, nil_suffix⟩

/-- A character is read. -/
theorem Shows.pop {s : Input} {t : Text} {taken : List UInt8} (h : Shows s t taken)
    (hne : s.r ≠ s.w) : Shows { s with r := s.r + 1 } t (taken ++ [s.char s.r]) := by
  have hpop : s.pending = s.char s.r :: window INPUT_BUF s.buf (s.r + 1) s.w :=
    window_pop buf_dvd hne
  have horder := h.order
  have hre : s.r ≠ s.e := by
    intro he
    rw [UInt32.toNat_sub_eq_zero.2 he, Nat.le_zero] at horder
    exact hne (UInt32.toNat_sub_eq_zero.1 horder)
  have hw := UInt32.toNat_sub_add_one hne
  have he := UInt32.toNat_sub_add_one hre
  refine ⟨?_, ?_, ?_, h.line, h.plain⟩
  · show (s.w - (s.r + 1)).toNat ≤ (s.e - (s.r + 1)).toNat
    omega
  · show (s.e - (s.r + 1)).toNat ≤ INPUT_BUF
    have := h.size
    omega
  · rw [h.committed, hpop, append_assoc]
    rfl

/-- **A step of a reader.**  What it gives is what it takes from the ring. -/
theorem consoleread_shows {s : Input} {t : Text} {taken : List UInt8} (h : Shows s t taken)
    (killed : Bool) {target n : Int} {dst : List UInt8} (hn : n + dst.length = target) :
    Shows (consoleread s killed target n dst).1 t
        (taken ++ passes s (consoleread s killed target n dst).1) ∧
      gives target dst (consoleread s killed target n dst).2 =
        (passes s (consoleread s killed target n dst).1).map mark := by
  have hstay : passes s s = [] := if_pos rfl
  have hmove : passes s { s with r := s.r + 1 } = [s.char s.r] := by
    refine if_neg fun (he : s.r + 1 = s.r) => ?_
    have hsucc := UInt32.toNat_succ s.r
    rw [he] at hsucc
    omega
  have hsame : ∀ ret, gives target dst (.user ret dst) =
      if 0 < target ∧ ret = 0 then [none] else [] := by
    intro ret
    simp [gives, Pc.dst, Pc.isEof]
  have hmore : ∀ c q, q.dst = dst ++ [c] → q.isEof = false → gives target dst q = [some c] := by
    intro c q hd he
    rw [gives, hd, he, drop_left]
    simp
  unfold consoleread
  by_cases hpos : n ≤ 0
  · -- enough was read
    rw [if_pos hpos]
    refine ⟨by rwa [hstay, append_nil], ?_⟩
    rw [hstay, hsame, if_neg (by omega)]
    rfl
  rw [if_neg hpos]
  by_cases hempty : s.r = s.w
  · rw [if_pos hempty]
    refine ⟨by rwa [hstay, append_nil], ?_⟩
    rw [hstay]
    cases killed with
    | true =>
      show gives target dst (.user (-1) dst) = _
      rw [hsame, if_neg (by omega)]
      rfl
    | false => simp [gives, Pc.dst, Pc.isEof]
  rw [if_neg hempty]
  by_cases hd : s.char s.r = ctrlD
  · rw [if_pos hd]
    refine ⟨?_, ?_⟩
    · show Shows (if n < target then s else _) t (taken ++ passes s (if n < target then s else _))
      split
      · rwa [hstay, append_nil]
      · rw [hmove]
        exact h.pop hempty
    · show gives target dst (.user (target - n) dst) =
        (passes s (if n < target then s else _)).map mark
      rw [hsame]
      by_cases hlt : n < target
      · rw [if_pos hlt, hstay, if_neg (by omega)]
        rfl
      · rw [if_neg hlt, hmove, if_pos (by omega), map_singleton, mark, if_pos hd]
  · rw [if_neg hd]
    have hmark : (passes s { s with r := s.r + 1 }).map mark = [some (s.char s.r)] := by
      rw [hmove, map_singleton, mark, if_neg hd]
    refine ⟨?_, ?_⟩
    · show Shows { s with r := s.r + 1 } t (taken ++ passes s { s with r := s.r + 1 })
      rw [hmove]
      exact h.pop hempty
    · refine Eq.trans ?_ hmark.symm
      by_cases hnl : s.char s.r = newline
      · refine hmore _ _ ?_ ?_
        · rw [if_pos hnl]
          rfl
        · rw [if_pos hnl]
          exact decide_eq_false (by omega)
      · refine hmore _ _ ?_ ?_
        · rw [if_neg hnl]
          rfl
        · rw [if_neg hnl]
          rfl

/-- What a step of a reader leaves in the buffer, and what it returns with. -/
theorem consoleread_got (s : Input) (killed : Bool) {target n : Int} {dst : List UInt8}
    {l : List (Option UInt8)} (hn : n + dst.length = target) (hl : dst.map some <:+ l) :
    (consoleread s killed target n dst).2.Got
      (l ++ gives target dst (consoleread s killed target n dst).2) := by
  have hgot : ∀ q : Pc, dst <+: q.dst → (q.isEof = true → q.dst = []) →
      q.dst.map some <:+ l ++ gives target dst q := by
    rintro q ⟨new, hnew⟩ heof
    by_cases he : 0 < target ∧ q.isEof = true
    · rw [heof he.2]
      exact nil_suffix
    · obtain ⟨t, rfl⟩ := hl
      rw [gives, if_neg he, ← hnew, drop_left, append_nil, map_append]
      exact ⟨t, by rw [append_assoc]⟩
  have hsame : ∀ ret : Int, (ret = dst.length ∨ ret = -1) →
      (Pc.user ret dst).Got (l ++ gives target dst (.user ret dst)) := by
    refine fun ret hret => ⟨hret, hgot (.user ret dst) (prefix_refl dst) fun he => ?_⟩
    have he : ret = 0 := of_decide_eq_true he
    exact eq_nil_of_length_eq_zero (show dst.length = 0 by omega)
  unfold consoleread
  split
  · exact hsame _ (.inl (by omega))
  split
  · cases killed with
    | true => exact hsame _ (.inr rfl)
    | false => exact ⟨hn, hgot (.asleep target n dst) (prefix_refl dst) nofun⟩
  split
  · exact hsame _ (.inl (by omega))
  have hlen : ((dst ++ [s.char s.r]).length : Int) = dst.length + 1 := by simp
  by_cases hnl : s.char s.r = newline
  · simp only [if_pos hnl]
    refine ⟨.inl (by omega), hgot (.user _ _) (prefix_append dst _) fun he => ?_⟩
    have he : target - (n - 1) = 0 := of_decide_eq_true he
    omega
  · simp only [if_neg hnl]
    exact ⟨by omega, hgot (.loop _ _ _) (prefix_append dst _) nofun⟩

/-- The ring shows the text, and what was taken from it was given to the readers. -/
structure Lines [DecidableEq ι] (s : State ι) (g : Record ι) : Prop where
  shows : Shows s.input g.text g.taken
  out : g.out.map Prod.snd = g.taken.map mark
  got : ∀ i, (s.pc i).Got (g.of i)

theorem map_snd_mk (i : ι) (l : List (Option UInt8)) : (l.map (Prod.mk i)).map Prod.snd = l := by
  rw [map_map]
  exact map_id l

section Runs

variable [DecidableEq ι] {s s' : State ι} {g : Record ι}

/-- What one process gets is no other's. -/
theorem Record.of_append_mk (g : Record ι) (i j : ι) (l : List (Option UInt8)) {text taken} :
    Record.of ⟨text, taken, g.out ++ l.map (Prod.mk i)⟩ j = g.of j ++ if j = i then l else [] := by
  rw [Record.of, filter_append, map_append]
  congr 1
  by_cases hji : j = i
  · rw [if_pos hji, filter_eq_self.2 (by simp [hji]), map_snd_mk]
  · rw [if_neg hji, filter_eq_nil_iff.2 (by simp [Ne.symm hji]), map_nil]

/-- Only what one process got is new. -/
theorem Lines.update (h : Lines s g) {g' : Record ι} {i : ι} {q : Pc}
    (hg : ∀ j ≠ i, g'.of j = g.of j) (hq : q.Got (g'.of i)) (j : ι) :
    (Function.update s.pc i q j).Got (g'.of j) := by
  by_cases hji : j = i
  · rw [hji, Function.update_self]
    exact hq
  · rw [Function.update_of_ne hji, hg j hji]
    exact h.got j

theorem Lines.goto (h : Lines s g) {i : ι} {q : Pc} (hq : q.Got (g.of i)) {killed : ι → Bool}
    {lock : Option ι} : Lines ⟨s.input, lock, Function.update s.pc i q, killed⟩ g :=
  ⟨h.shows, h.out, h.update (fun _ _ => rfl) hq⟩

theorem Lines.acquire (h : Lines s g) {i : ι} {q : Pc} (hq : q.Got (g.of i))
    (hs : s.acquire i q = some s') : Lines s' g := by
  unfold State.acquire at hs
  split at hs
  next =>
    cases hs
    exact h.goto hq
  next => cases hs

theorem Lines.run (h : Lines s g) {i : ι} (hs : s.run i = some s') :
    Lines s' (g.run i s.input (s.killed i) (s.pc i)) := by
  have hgot := h.got i
  unfold State.run at hs
  cases hq : s.pc i with
  | user | asleep =>
    rw [hq] at hs
    cases hs
  | start n =>
    rw [hq] at hs
    exact h.acquire (q := .loop n n []) ⟨Int.add_zero n, nil_suffix⟩ hs
  | woken target n dst =>
    rw [hq] at hs hgot
    exact h.acquire (q := .loop target n dst) hgot hs
  | loop target n dst =>
    rw [hq] at hs hgot
    cases hs
    obtain ⟨hshows, hgives⟩ := consoleread_shows h.shows (s.killed i) hgot.1
    have hnext := consoleread_got s.input (s.killed i) hgot.1 hgot.2
    refine ⟨hshows, ?_, h.update (fun j hj => ?_) ?_⟩
    · show (g.out ++ _).map Prod.snd = _
      rw [map_append, h.out, map_snd_mk, hgives]
      exact map_append.symm
    · show Record.of ⟨_, _, g.out ++ _⟩ j = _
      rw [g.of_append_mk, if_neg hj, append_nil]
    · show Pc.Got (Record.of ⟨_, _, g.out ++ _⟩ i) _
      rw [g.of_append_mk, if_pos rfl]
      exact hnext

theorem Lines.step (h : Lines s g) {ev : Event ι} (hs : s.step ev = some s') :
    Lines s' (Record.note s ev g) := by
  cases ev with
  | intr cs =>
    rw [State.step] at hs
    split at hs
    next =>
      cases hs
      refine ⟨(h.shows.consoleintr cs).1, h.out, fun i => ?_⟩
      show Pc.Got _ (if _ then (s.pc i).wake else s.pc i)
      split
      · exact (h.got i).wake
      · exact h.got i
    next => cases hs
  | read i n =>
    rw [State.step] at hs
    split at hs
    next =>
      cases hs
      exact h.goto (q := .start n) trivial
    next => cases hs
  | reuse i =>
    rw [State.step] at hs
    split at hs
    next =>
      cases hs
      exact h.goto (Pc.got_new _)
    next => cases hs
  | kill i =>
    cases hs
    exact h.goto (h.got i).wake
  | run i => exact h.run hs

theorem lines_inv {x : State ι × Record ι} (h : (recorded ι).Reachable x) : Lines x.1 x.2 := by
  refine Machine.ReachableBy.induct (I := fun x => Lines x.1 x.2) ?_ ?_ h
  · rintro ⟨s, g⟩ ⟨⟨hin, -, hpc⟩, hg⟩
    subst hg
    refine ⟨?_, rfl, fun i => ?_⟩
    · rw [hin]
      exact ⟨le_rfl, Nat.zero_le _, (window_self _).symm, (window_self _).symm, not_mem_nil⟩
    · rw [hpc]
      exact Pc.got_new _
  · intro x ev x' _ hx _ hs
    obtain ⟨hstep, hg⟩ := Machine.ghost_step hs
    rw [hg]
    exact hx.step hstep

/-- **The console gives to its readers the lines as they were edited.**  In every state the
counters are in order and the ring holds at most `INPUT_BUF` characters: those from `r` to
`w` are what was committed and not taken, and those from `w` to `e` the line being edited.
Readers have got what was taken, in that order, and for each `^D` in it an end of file; a
call that was not killed has returned with the number of characters in its buffer, which are
the last that its process got.  Whatever is typed next, the characters that are committed
stay. -/
theorem console_lines {x : State ι × Record ι} (h : (recorded ι).Reachable x) :
    ((x.1.input.w - x.1.input.r).toNat ≤ (x.1.input.e - x.1.input.r).toNat ∧
      (x.1.input.e - x.1.input.r).toNat ≤ INPUT_BUF) ∧
    (x.2.text.committed = x.2.taken ++ x.1.input.pending ∧ x.2.text.line = x.1.input.editing) ∧
    x.2.out.map Prod.snd = x.2.taken.map mark ∧
    (∀ i ret dst, x.1.pc i = .user ret dst →
      (ret = dst.length ∨ ret = -1) ∧ dst.map some <:+ x.2.of i) ∧
    ∀ cs x', (recorded ι).step x (.intr cs) = some x' →
      x'.1.input.r = x.1.input.r ∧ x.1.input.pending <+: x'.1.input.pending := by
  have hinv := lines_inv h
  refine ⟨⟨hinv.shows.order, hinv.shows.size⟩, ⟨hinv.shows.committed, hinv.shows.line⟩,
    hinv.out, fun i ret dst hq => ?_, ?_⟩
  · have hgot := hinv.got i
    rw [hq] at hgot
    exact hgot
  intro cs x' hs
  have hinv' := lines_inv (h.step hs)
  obtain ⟨hstep, hg⟩ := Machine.ghost_step hs
  have hr : x'.1.input.r = x.1.input.r := by
    have hstep : x.1.step (.intr cs) = some x'.1 := hstep
    rw [State.step] at hstep
    split at hstep
    next =>
      rw [← Option.some.inj hstep]
      exact (hinv.shows.consoleintr cs).2
    next => cases hstep
  have hkept : x.2.text.committed <+: x'.2.text.committed := by
    rw [hg]
    exact Text.committed_foldl _ cs _
  have htaken : x'.2.taken = x.2.taken := by rw [hg]; rfl
  rw [hinv.shows.committed, hinv'.shows.committed, htaken] at hkept
  exact ⟨hr, (prefix_append_right_inj _).1 hkept⟩

end Runs

/-- A line with an erased character and an end of file are typed, and read by two calls. -/
theorem console_lines_read : ∃ x, (recorded (Fin 1)).Reachable x ∧
      x.2.out.map Prod.snd = [some 97, some 99, some newline, none] ∧
      x.2.out.map Prod.snd = x.2.taken.map mark := by
  obtain ⟨x, hx, hout⟩ := Machine.reachable_of_run (M := recorded (Fin 1))
    (P := fun x => x.2.out.map Prod.snd = [some 97, some 99, some newline, none])
    (⟨⟨fun _ => 0, 0, 0, 0⟩, none, fun _ => .user 0 [], fun _ => false⟩, ⟨⟨[], []⟩, [], []⟩)
    [.read 0 10, .run 0, .run 0, .intr [97, 98, 8, 99, 13, 4], .run 0, .run 0, .run 0, .run 0,
      .read 0 10, .run 0, .run 0]
    ⟨⟨rfl, rfl, fun _ => rfl⟩, rfl⟩ (by decide)
  exact ⟨x, hx, hout, (console_lines hx).2.2.1⟩

end Xv6.Console
