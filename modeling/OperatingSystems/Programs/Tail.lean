import OperatingSystems.Lib.Text
import Mathlib.Algebra.Ring.Nat
import Mathlib.Logic.Function.Basic

/-!
# `tail`

`tail.c` copies its input to a file `destroy`, counting lines and characters, and then reads
that file and writes the lines, or the characters, that it is asked for.  What C leaves open
is a parameter: the first value of `startLine`, the memory that `malloc` returns, and what
`destroy` held before.  An access outside an array, or a number too large for an `int`, gives
no result.  No file is longer than `maxSize`, and `tail` does not see that a `write` past it fails.

* `foldlM_rest` — the second loop passes over lines and characters, and comes to write the `rest`.
* `tail_last_lines` — **`tail -n N`** writes the last lines.
* `tail_from_line_iff` — when `tail -n +K` writes the lines from `K` on.
* `tail_bytes_iff` — when `tail -c` is right.
* `tail_deterministic_iff` — when the output does not depend on `startLine` and `destroy`.
-/

namespace Xv6.Tail

open Text Function List Option

/-! ## `tail` -/

/-- A file or the standard input: what `read` returns, and whether it returns -1 at last. -/
structure Input where
  reads : List (List Char)
  failed : Bool := false

def Input.text (fd : Input) : List Char := fd.reads.flatten

/-- `MAXFILE * BSIZE`: what no file is longer than. -/
def maxSize : Nat := 140 * 512

/-- What the program starts from.  `room` is the memory from `buf2` on. -/
structure World where
  files : List Char → Option Input
  fits : ∀ name fd, files name = some fd → fd.text.length ≤ maxSize
  stdin : Input := ⟨[], false⟩
  startLine : Int := 0
  destroy : { old : List Char // old.length ≤ maxSize } := ⟨[], Nat.zero_le _⟩
  junk : Nat → Char := fun _ => '?'
  room : Nat := 4096

/-- The variables of the second loop, and the output. -/
structure Vars where
  lesser : Int
  charcount : Int
  thisC : Nat
  startLine : Int
  doubler : Nat
  eachLine : Nat → Char
  out : List Char

section

variable (junk : Nat → Char) (linenumreplace offset : Int)

def doubleSize (source : Nat → Char) (originalLength : Nat) : Nat → Char :=
  fun i => if i < originalLength then source i else junk i

/-- `write(1, eachLine, startLine)` and a new line. -/
def flush (v : Vars) : Option Vars :=
  if v.doubler < v.startLine then none
  else some { v with
    out := v.out ++ (range v.startLine.toNat).map v.eachLine ++ ['\n']
    startLine := 0, eachLine := junk, doubler := 512 }

/-- `eachLine[startLine] = c`, in an array that is doubled if it is full. -/
def insert (c : Char) (v : Vars) : Option Vars :=
  let v :=
    if v.startLine = v.doubler then
      { v with eachLine := doubleSize junk v.eachLine v.doubler, doubler := v.doubler * 2 }
    else v
  if 0 ≤ v.startLine ∧ v.startLine < v.doubler then
    some { v with
      eachLine := update v.eachLine v.startLine.toNat c
      startLine := v.startLine + 1 }
  else none

/-- The first statement of the second loop. -/
def countdown (v : Vars) : Vars :=
  if v.thisC = 2 then
    if v.charcount > offset then { v with charcount := v.charcount - 1 }
    else if v.charcount = offset then { v with thisC := 0 }
    else v
  else v

/-- The body of the second loop. -/
def char (v : Vars) (c : Char) : Option Vars :=
  let v := countdown offset v
  if v.thisC ≠ 2 ∧ v.lesser > linenumreplace then
    some (if c = '\n' then { v with lesser := v.lesser - 1 } else v)
  else if v.thisC ≠ 2 ∧ v.lesser ≤ linenumreplace then
    if c = '\n' then flush junk v else insert junk c v
  else some v

/-- The second loop, over what the reads return. -/
def print (bufs : List (List Char)) (v : Vars) : Option Vars :=
  bufs.foldlM (fun v buf2 => buf2.foldlM (char junk linenumreplace offset) v) v

end

/-- `write(fd2, buf, n)`, which fails if the file would become too long. -/
def writeBuf (file buf : List Char) : List Char :=
  if file.length + buf.length ≤ maxSize then file ++ buf else file

/-- What the first loop writes: that a `write` failed makes no difference to it. -/
def copy (bufs : List (List Char)) : List Char := bufs.foldl writeBuf []

/-- What the first loop counts: `(lesser, charcount)`. -/
def count (bufs : List (List Char)) : Int × Int :=
  bufs.foldl (fun n buf => buf.foldl (fun (lesser, charcount) c =>
    (if c = '\n' then lesser + 1 else lesser, charcount + 1)) n) (0, 0)

/-- What a file gives to `read(fd, buf, 512)`. -/
def readFile (text : List Char) : List (List Char) :=
  if text = [] then [] else text.take 512 :: readFile (text.drop 512)
termination_by text.length
decreasing_by
  have := length_pos_of_ne_nil ‹_›
  simp only [length_drop]
  omega

/-- `read(fd2, buf2, offset)` if `whichC` is one: how many characters are stored into `buf2`, if
they have room there.  The system call fails if the buffer is not in the memory of the
process. -/
def skip (room : Nat) (offset : Int) (whichC : Nat) (file : List Char) : Option Nat :=
  if whichC ≠ 1 ∨ offset < 0 ∨ room < offset then some 0
  else if min offset.toNat file.length ≤ 512 then some (min offset.toNat file.length)
  else none

def linenumreplace (lesser linenumber offset : Int) (whichC : Nat) : Int :=
  if whichC ≠ 1 ∧ whichC ≠ 2 then
    if offset ≠ 0 then lesser - offset else linenumber
  else lesser

/-- What `destroy` holds after the first loop: it is opened without truncation. -/
def World.file (w : World) (fd : Input) : List Char :=
  copy fd.reads ++ w.destroy.1.drop (copy fd.reads).length

/-- The result is the output. -/
def tail (w : World) (fd : Input) (linenumber offset : Int) (whichC : Nat) :
    Option (List Char) := do
  let (lesser, charcount) := count fd.reads
  let n ← skip w.room offset whichC (w.file fd)
  let v ← print w.junk (linenumreplace lesser linenumber offset whichC) offset
    (readFile ((w.file fd).drop n)) ⟨lesser, charcount, whichC, w.startLine, 512, w.junk, []⟩
  return v.out ++ if fd.failed then "wc: read error\n".toList else []

/-! ## `main` -/

/-- `atoi`, which has no result if the number is too large for an `int`. -/
def atoi : List Char → Nat → Option Nat
  | [], n => some n
  | c :: s, n =>
    if '0' ≤ c ∧ c ≤ '9' then
      if n * 10 + (c.toNat - 48) < 2 ^ 31 then atoi s (n * 10 + (c.toNat - 48)) else none
    else some n

/-- What `main` does: it writes a message, or it calls `tail`. -/
inductive Call where
  | message (text : List Char)
  | tail (fd : Input) (linenumber offset : Int) (whichC : Nat)

def badNumber : List Char :=
  "tail: Either you put a bad number, or you put in 0, and then whats the point then?\n".toList

/-- `atoi` of the argument, or of what follows its `+` in the array `num`; a message if it is
zero. -/
def withNumber (arg : List Char) (plain plus : Nat → Call) : Option Call :=
  if arg.head? = some '+' then
    if arg.length < 1024 then do
      let val ← atoi arg.tail 0
      return if val = 0 then .message badNumber else plus val
    else none
  else do
    let val ← atoi arg 0
    return if val = 0 then .message badNumber else plain val

def parse (w : World) (argv : List (List Char)) : Option Call :=
  if argv.length ≤ 1 then some (.tail w.stdin 10 0 0)
  else
    match argv with
    | [_, name] =>
      match w.files name with
      | none => some (.message ("tail: cannot open ".toList ++ name ++ ['\n']))
      | some fd => some (.tail fd 10 0 0)
    | [_, flag, arg, name] =>
      match w.files name with
      | none => some (.message ("tail: cannot open ".toList ++ name ++ ['\n']))
      | some fd =>
        if flag.head? = some '-' then
          if flag.tail.head? = some 'n' then
            withNumber arg (fun val => .tail fd val 0 0) fun val => .tail fd 0 (val - 1) 0
          else if flag.tail.head? = some 'c' then
            withNumber arg (fun val => .tail fd 0 val 2) fun val => .tail fd 0 (val - 1) 1
          else some (.message "tail:  not valid command\n".toList)
        else some (.message "tail: I can't work with the amount of inputs you gave :(\n".toList)
    | _ => some (.message "tail: INput INvalid IMbecile\n".toList)

def perform (w : World) : Call → Option (List Char)
  | .message text => some text
  | .tail fd linenumber offset whichC => tail w fd linenumber offset whichC

def main (w : World) (argv : List (List Char)) : Option (List Char) := do
  perform w (← parse w argv)

/-! ## The copy -/

theorem length_copy_le (bufs : List (List Char)) : (copy bufs).length ≤ maxSize := by
  have h : ∀ file : List Char, file.length ≤ maxSize →
      (bufs.foldl writeBuf file).length ≤ maxSize := by
    induction bufs with
    | nil => exact fun _ => id
    | cons buf bufs ih =>
      intro file hfile
      refine ih _ ?_
      rw [writeBuf]
      split
      · rwa [length_append]
      · exact hfile
  exact h [] (Nat.zero_le _)

/-- A text that fits is copied. -/
theorem copy_eq {fd : Input} (hfit : fd.text.length ≤ maxSize) : copy fd.reads = fd.text := by
  have h : ∀ (bufs : List (List Char)) (file : List Char),
      file.length + bufs.flatten.length ≤ maxSize →
        bufs.foldl writeBuf file = file ++ bufs.flatten := by
    intro bufs
    induction bufs with
    | nil => simp
    | cons buf bufs ih =>
      intro file hle
      rw [flatten_cons, length_append] at hle
      rw [foldl_cons, writeBuf, if_pos (by omega), flatten_cons, ← append_assoc]
      exact ih _ (by rw [length_append]; omega)
  exact h fd.reads [] (by simpa [Input.text] using hfit)

theorem file_eq {w : World} {fd : Input} (hfit : fd.text.length ≤ maxSize) :
    w.file fd = fd.text ++ w.destroy.1.drop fd.text.length := by
  rw [World.file, copy_eq hfit]

/-! ## The second loop -/

/-- `eachLine` holds this line, and `startLine` is its length. -/
structure Holds (v : Vars) (line : List Char) : Prop where
  startLine : v.startLine = line.length
  doubler : line.length ≤ v.doubler
  pos : 0 < v.doubler
  eachLine : (range line.length).map v.eachLine = line

/-- What the second loop comes to write of a text: what it does not pass over. -/
def Vars.rest (repl offset : Int) (v : Vars) (text : List Char) : List Char :=
  afterLines (v.lesser - repl).toNat <| if v.thisC = 2 then
      if v.charcount < offset then [] else text.drop (v.charcount - offset).toNat
    else text

section

variable {junk : Nat → Char} {repl offset : Int} {v : Vars} {line text : List Char} {c : Char}

theorem char_of_gt (h : v.thisC ≠ 2) (hgt : v.lesser > repl) : char junk repl offset v c =
    some (if c = '\n' then { v with lesser := v.lesser - 1 } else v) := by
  simp only [char, countdown, if_neg h]
  rw [if_pos ⟨h, hgt⟩]

theorem char_of_le (h : v.thisC ≠ 2) (hle : v.lesser ≤ repl) : char junk repl offset v c =
    if c = '\n' then flush junk v else insert junk c v := by
  simp only [char, countdown, if_neg h]
  rw [if_neg (by omega), if_pos ⟨h, hle⟩]

theorem foldlM_afterLines (h : v.thisC ≠ 2) : ∃ lesser,
    text.foldlM (char junk repl offset) v = (afterLines (v.lesser - repl).toNat text).foldlM
      (char junk repl offset) { v with lesser := lesser } ∧
    (afterLines (v.lesser - repl).toNat text ≠ [] → lesser ≤ repl) := by
  induction text generalizing v with
  | nil => exact ⟨v.lesser, by rw [afterLines_nil], by simp⟩
  | cons c text ih =>
    by_cases hgt : v.lesser > repl
    · have hn : (v.lesser - repl).toNat = (v.lesser - 1 - repl).toNat + 1 := by omega
      rw [foldlM_cons, char_of_gt h hgt, hn, afterLines]
      split
      · exact @ih { v with lesser := v.lesser - 1 } h
      · rw [← hn]
        exact ih h
    · have hn : (v.lesser - repl).toNat = 0 := by omega
      rw [hn, afterLines_zero]
      exact ⟨v.lesser, rfl, fun _ => by omega⟩

/-- The countdown of `-c N`. -/
theorem foldlM_countdown (h : v.thisC = 2) : ∃ charcount thisC,
    text.foldlM (char junk repl offset) v =
      (if v.charcount < offset then [] else text.drop (v.charcount - offset).toNat).foldlM
        (char junk repl offset) { v with charcount := charcount, thisC := thisC } ∧
    ((if v.charcount < offset then [] else text.drop (v.charcount - offset).toNat) ≠ [] →
      thisC ≠ 2) := by
  induction text generalizing v with
  | nil => exact ⟨v.charcount, v.thisC, by simp, by simp⟩
  | cons c text ih =>
    rcases Int.lt_trichotomy v.charcount offset with hlt | heq | hgt
    · have hchar : char junk repl offset v c = some v := by
        simp only [char, countdown, if_pos h, if_neg (Int.lt_asymm hlt), if_neg (Int.ne_of_lt hlt)]
        rw [if_neg (by simp [h]), if_neg (by simp [h])]
      have hv := @ih v h
      rw [if_pos hlt] at hv
      rw [foldlM_cons, hchar, if_pos hlt]
      exact hv
    · have hchar : char junk repl offset v c = char junk repl offset { v with thisC := 0 } c := by
        simp [char, countdown, h, heq]
      have hn : (v.charcount - offset).toNat = 0 := by omega
      rw [if_neg (by omega), hn, drop_zero, foldlM_cons, hchar]
      exact ⟨v.charcount, 0, rfl, fun _ => by decide⟩
    · have hchar : char junk repl offset v c = some { v with charcount := v.charcount - 1 } := by
        simp only [char, countdown, if_pos h, if_pos hgt]
        rw [if_neg (by simp [h]), if_neg (by simp [h])]
      have hn : (v.charcount - offset).toNat = (v.charcount - 1 - offset).toNat + 1 := by omega
      have hv := @ih { v with charcount := v.charcount - 1 } h
      simp only [if_neg (show ¬v.charcount - 1 < offset by omega)] at hv
      rw [foldlM_cons, hchar, if_neg (by omega), hn, drop_succ_cons]
      exact hv

/-- **The second loop** passes over what is not to be written, with the line buffer untouched. -/
theorem foldlM_rest (v : Vars) (text : List Char) : ∃ lesser charcount thisC,
    text.foldlM (char junk repl offset) v = (v.rest repl offset text).foldlM (char junk repl offset)
      { v with lesser := lesser, charcount := charcount, thisC := thisC } ∧
    (v.rest repl offset text ≠ [] → thisC ≠ 2 ∧ lesser ≤ repl) := by
  rw [Vars.rest]
  by_cases h : v.thisC = 2
  · obtain ⟨charcount, thisC, hrun, hthis⟩ := @foldlM_countdown junk repl offset v text h
    rw [if_pos h, hrun]
    generalize (if v.charcount < offset then [] else _) = text' at hthis
    by_cases hnil : text' = []
    · subst hnil
      exact ⟨v.lesser, charcount, thisC, by rw [afterLines_nil], by simp⟩
    · obtain ⟨lesser, hrun', hle⟩ := @foldlM_afterLines junk repl offset
        { v with charcount := charcount, thisC := thisC } text' (hthis hnil)
      exact ⟨lesser, charcount, thisC, hrun', fun hne => ⟨hthis hnil, hle hne⟩⟩
  · obtain ⟨lesser, hrun, hle⟩ := @foldlM_afterLines junk repl offset v text h
    rw [if_neg h, hrun]
    exact ⟨lesser, v.charcount, v.thisC, rfl, fun hne => ⟨h, hle hne⟩⟩

theorem Holds.flush (h : Holds v line) : ∃ v', flush junk v = some v' ∧ Holds v' [] ∧
    v'.thisC = v.thisC ∧ v'.lesser = v.lesser ∧ v'.out = v.out ++ line ++ ['\n'] := by
  have hle := h.doubler
  refine ⟨_, if_neg (by rw [h.startLine]; omega), ⟨rfl, ?_, ?_, rfl⟩, rfl, rfl, ?_⟩
  · exact Nat.zero_le _
  · exact Nat.zero_lt_succ _
  · simp only [h.startLine, Int.toNat_natCast, h.eachLine]

theorem Holds.insert (h : Holds v line) : ∃ v', insert junk c v = some v' ∧
    Holds v' (line ++ [c]) ∧ v'.thisC = v.thisC ∧ v'.lesser = v.lesser ∧ v'.out = v.out := by
  -- the array has room for one more, after it was doubled if it was full
  obtain ⟨w, hw, hroom, hsame, hinsert⟩ : ∃ w : Vars, Holds w line ∧ line.length < w.doubler ∧
      (w.thisC = v.thisC ∧ w.lesser = v.lesser ∧ w.out = v.out) ∧
      Tail.insert junk c v = if 0 ≤ w.startLine ∧ w.startLine < w.doubler then
        some { w with
          eachLine := update w.eachLine w.startLine.toNat c
          startLine := w.startLine + 1 }
      else none := by
    have hpos := h.pos
    have hle := h.doubler
    by_cases hfull : v.startLine = v.doubler
    · refine ⟨{ v with eachLine := doubleSize junk v.eachLine v.doubler, doubler := v.doubler * 2 },
        ?_, ?_, ⟨rfl, rfl, rfl⟩, by rw [Tail.insert, if_pos hfull]⟩
      · refine { h with doubler := by simp only; omega, pos := by simp only; omega, eachLine := ?_ }
        conv_rhs => rw [← h.eachLine]
        refine map_congr_left fun i hi => if_pos ?_
        exact Nat.lt_of_lt_of_le (mem_range.1 hi) hle
      · have := h.startLine
        simp only
        omega
    · refine ⟨v, h, ?_, ⟨rfl, rfl, rfl⟩, by rw [Tail.insert, if_neg hfull]⟩
      have := h.startLine
      omega
  have hstart := hw.startLine
  rw [hinsert, if_pos (by omega)]
  refine ⟨_, rfl, ⟨?_, ?_, hw.pos, ?_⟩, hsame⟩
  · simp [hstart]
  · simp only [length_append, length_singleton]
    omega
  · simp only [hstart, Int.toNat_natCast, length_append, length_singleton,
      range_succ, map_append, map_singleton, update_self]
    congr 1
    conv_rhs => rw [← hw.eachLine]
    refine map_congr_left fun i hi => update_of_ne ?_ _ _
    exact Nat.ne_of_lt (mem_range.1 hi)

/-- While lines are written. -/
theorem foldlM_flushed (h2 : v.thisC ≠ 2) (hle : v.lesser ≤ repl) (h : Holds v line) :
    ∃ v', text.foldlM (char junk repl offset) v = some v' ∧
      v'.out = v.out ++ flushed line text := by
  induction text generalizing v line with
  | nil => exact ⟨v, rfl, by simp [flushed]⟩
  | cons c text ih =>
    rw [foldlM_cons, char_of_le h2 hle, flushed]
    split
    · obtain ⟨v', hv', h', hthis, hless, hout⟩ := @Holds.flush junk _ _ h
      obtain ⟨v'', hrun, hout'⟩ := ih (hthis ▸ h2) (hless ▸ hle) h'
      rw [hv']
      exact ⟨v'', hrun, by simp [hout', hout]⟩
    · obtain ⟨v', hv', h', hthis, hless, hout⟩ := @Holds.insert junk _ _ c h
      obtain ⟨v'', hrun, hout'⟩ := ih (hthis ▸ h2) (hless ▸ hle) h'
      rw [hv']
      exact ⟨v'', hrun, by rw [hout', hout]⟩

/-- Whatever comes first to be written, some value of `startLine` makes an access outside the
array of it. -/
theorem exists_startLine (v : Vars) (hne : v.rest repl offset text ≠ []) :
    ∃ startLine, text.foldlM (char junk repl offset)
      { v with startLine := startLine, doubler := 512 } = none := by
  obtain ⟨c, text', hrest⟩ := exists_cons_of_ne_nil hne
  have hrun := fun startLine : Int => @foldlM_rest junk repl offset
    { v with startLine := startLine, doubler := 512 } text
  simp only [show ∀ startLine : Int, ({ v with startLine := startLine, doubler := 512 } :
    Vars).rest repl offset text = c :: text' from fun _ => hrest] at hrun
  by_cases hc : c = '\n'
  · obtain ⟨lesser, charcount, thisC, hfold, hlive⟩ := hrun 513
    obtain ⟨h2, hle⟩ := hlive (cons_ne_nil _ _)
    refine ⟨513, ?_⟩
    rw [hfold, foldlM_cons, char_of_le h2 hle, if_pos hc, flush,
      if_pos (show ((512 : Nat) : Int) < 513 by decide)]
    rfl
  · obtain ⟨lesser, charcount, thisC, hfold, hlive⟩ := hrun (-1)
    obtain ⟨h2, hle⟩ := hlive (cons_ne_nil _ _)
    refine ⟨-1, ?_⟩
    rw [hfold, foldlM_cons, char_of_le h2 hle, if_neg hc]
    rfl

/-- Where the reads end makes no difference. -/
theorem print_eq (bufs : List (List Char)) (v : Vars) :
    print junk repl offset bufs v = bufs.flatten.foldlM (char junk repl offset) v := by
  induction bufs generalizing v with
  | nil => rfl
  | cons buf bufs ih =>
    rw [flatten_cons, foldlM_append]
    exact congrArg (_ >>= ·) (funext ih)

theorem count_eq (fd : Input) :
    count fd.reads = ((fd.text.count '\n' : Int), (fd.text.length : Int)) := by
  have h : ∀ (text : List Char) (n k : Int), text.foldl (fun (n : Int × Int) c =>
      (if c = '\n' then n.1 + 1 else n.1, n.2 + 1)) (n, k) =
        (n + text.count '\n', k + text.length) := by
    intro text
    induction text with
    | nil => simp
    | cons c text ih =>
      intro n k
      rw [foldl_cons, ih, count_cons, length_cons]
      split <;> simp [*] <;> omega
  rw [count, ← foldl_flatten]
  exact (h fd.text 0 0).trans (by simp)

theorem flatten_readFile (text : List Char) : (readFile text).flatten = text := by
  fun_induction readFile text with
  | case1 => rfl
  | case2 text hne ih => rw [flatten_cons, ih, take_append_drop]

/-- The variables before the second loop. -/
def World.vars (w : World) (fd : Input) (whichC : Nat) : Vars :=
  ⟨fd.text.count '\n', fd.text.length, whichC, w.startLine, 512, w.junk, []⟩

/-- What `tail` comes to write of a text. -/
def Input.rest (fd : Input) (linenumber offset : Int) (whichC : Nat) (text : List Char) :
    List Char :=
  afterLines ((fd.text.count '\n' : Int) -
      linenumreplace (fd.text.count '\n') linenumber offset whichC).toNat <|
    if whichC = 2 then
      if fd.text.length < offset then [] else text.drop (fd.text.length - offset).toNat
    else text

def readError (fd : Input) : List Char := if fd.failed then "wc: read error\n".toList else []

theorem tail_run (w : World) (fd : Input) (linenumber : Int) (whichC : Nat) :
    tail w fd linenumber offset whichC =
      (skip w.room offset whichC (w.file fd)).bind fun n => (((w.file fd).drop n).foldlM
        (char w.junk (linenumreplace (fd.text.count '\n') linenumber offset whichC) offset)
        (w.vars fd whichC)).map fun v => v.out ++ readError fd := by
  rw [tail, count_eq]
  change (skip w.room offset whichC (w.file fd)).bind _ = _
  congr 1
  funext n
  simp only [print_eq, flatten_readFile, map_eq_bind]
  rfl

/-- **`tail`, with `startLine` zero.** -/
theorem tail_eq {w : World} (h0 : w.startLine = 0) (fd : Input) (linenumber : Int) (whichC : Nat) :
    tail w fd linenumber offset whichC = (skip w.room offset whichC (w.file fd)).map fun n =>
      flushed [] (fd.rest linenumber offset whichC ((w.file fd).drop n)) ++ readError fd := by
  rw [tail_run, map_eq_bind]
  congr 1
  funext n
  obtain ⟨lesser, charcount, thisC, hrun, hlive⟩ := @foldlM_rest w.junk
    (linenumreplace (fd.text.count '\n') linenumber offset whichC) offset (w.vars fd whichC)
    ((w.file fd).drop n)
  rw [hrun]
  change Option.map _ ((fd.rest linenumber offset whichC _).foldlM _ _) =
    some (flushed [] (fd.rest linenumber offset whichC _) ++ _)
  change fd.rest linenumber offset whichC _ ≠ [] → _ at hlive
  generalize fd.rest linenumber offset whichC ((w.file fd).drop n) = text at hlive
  cases text with
  | nil => rfl
  | cons c text =>
    obtain ⟨h2, hle⟩ := hlive (cons_ne_nil _ _)
    obtain ⟨v, hv, hout⟩ := @foldlM_flushed w.junk _ offset { w.vars fd whichC with
      lesser := lesser, charcount := charcount, thisC := thisC } [] (c :: text) h2 hle
      ⟨h0, by simp, Nat.zero_lt_succ _, rfl⟩
    rw [hv, map_some, hout]
    rfl

end

/-! ## The arguments -/

theorem withNumber_plain {num : List Char} {n : Nat} (h : atoi num 0 = some n) (hn : 1 ≤ n)
    (plain plus : Nat → Call) : withNumber num plain plus = some (plain n) := by
  have hplus : num.head? ≠ some '+' := by
    intro hhead
    obtain ⟨t, rfl⟩ := head?_eq_some_iff.1 hhead
    cases h
    omega
  rw [withNumber, if_neg hplus, h]
  change some (if n = 0 then _ else _) = _
  rw [if_neg (by omega)]

theorem withNumber_plus {num : List Char} {n : Nat} (h : atoi num 0 = some n) (hn : 1 ≤ n)
    (plain plus : Nat → Call) : withNumber ('+' :: num) plain plus =
      if num.length < 1023 then some (plus n) else none := by
  rw [withNumber, if_pos head?_cons, tail_cons, h, length_cons]
  by_cases hlen : num.length < 1023
  · rw [if_pos (by omega), if_pos hlen]
    change some (if n = 0 then _ else _) = _
    rw [if_neg (by omega)]
  · rw [if_neg (by omega), if_neg hlen]

/-! ## The results -/

section

variable {w : World} {fd : Input}

theorem skip_of_ne {room whichC : Nat} {offset : Int} {file : List Char} (h : whichC ≠ 1) :
    skip room offset whichC file = some 0 := if_pos (.inl h)

theorem tail_lines {ls : List (List Char)} (h0 : w.startLine = 0)
    (hfit : fd.text.length ≤ maxSize) (hok : fd.failed = false) (hls : ∀ l ∈ ls, '\n' ∉ l)
    (htext : fd.text = unlines ls) {linenumber offset : Int} {n : Nat}
    (hn : (ls.length - linenumreplace ls.length linenumber offset 0).toNat = n) :
    tail w fd linenumber offset 0 = some (unlines (ls.drop n) ++
      flushed [] (afterLines (n - ls.length) (w.destroy.1.drop fd.text.length))) := by
  have hcount : fd.text.count '\n' = ls.length := by rw [htext, count_unlines hls]
  rw [tail_eq h0, skip_of_ne (by decide), map_some, drop_zero, file_eq hfit,
    Input.rest, if_neg (by decide), hcount, hn, readError, hok]
  conv_lhs => rw [htext, afterLines_unlines hls, flushed_unlines_append, ← htext]
  simp

/-- Every file, and the standard input, has this text. -/
def sample (text : List Char) (h : text.length ≤ maxSize := by decide) : World where
  files := fun _ => some ⟨[text], false⟩
  fits := by
    rintro _ _ ⟨⟩
    simpa [Input.text] using h
  stdin := ⟨[text], false⟩

/-- **`tail -n N`** writes the last `N` lines, or all of them; `N` is ten if it is not given.  The
standard input is to be short enough for a file. -/
theorem tail_last_lines {w : World} {fd : Input} {ls : List (List Char)} (h0 : w.startLine = 0)
    (hd : w.destroy.1 = []) (hok : fd.failed = false) (hls : ∀ l ∈ ls, '\n' ∉ l)
    (htext : fd.text = unlines ls) :
    (∀ argv, argv.length ≤ 1 → w.stdin = fd → fd.text.length ≤ maxSize →
      main w argv = some (unlines (ls.drop (ls.length - 10)))) ∧
    (∀ program name, w.files name = some fd →
      main w [program, name] = some (unlines (ls.drop (ls.length - 10)))) ∧
    (∀ program num name n, w.files name = some fd → atoi num 0 = some n → 1 ≤ n →
      main w [program, ['-', 'n'], num, name] = some (unlines (ls.drop (ls.length - n)))) := by
  have h : fd.text.length ≤ maxSize → ∀ n : Nat,
      tail w fd n 0 0 = some (unlines (ls.drop (ls.length - n))) := by
    intro hfit n
    have hn : (ls.length - linenumreplace ls.length n 0 0).toNat = ls.length - n := by
      simp only [linenumreplace]
      omega
    rw [tail_lines h0 hfit hok hls htext hn, hd]
    simp [flushed]
  refine ⟨fun argv hargv hstdin hfit => ?_, fun program name hfile => ?_,
    fun program num name n hfile hnum hn => ?_⟩
  · rw [main, parse.eq_def, if_pos hargv, hstdin]
    exact h hfit 10
  · simp only [main, parse, hfile]
    exact h (w.fits name fd hfile) 10
  · simp only [main, parse, hfile, withNumber_plain hnum hn]
    exact h (w.fits name fd hfile) n

theorem tail_last_line : main (sample ['a', '\n', 'b', '\n']) [[], ['-', 'n'], ['1'], []] =
    some ['b', '\n'] :=
  (@tail_last_lines (sample ['a', '\n', 'b', '\n']) ⟨[['a', '\n', 'b', '\n']], false⟩
    [['a'], ['b']] rfl rfl rfl (by decide) rfl).2.2 [] ['1'] [] 1 rfl rfl (by decide)

/-- **`tail -n +K`** writes the lines from `K` on, if `K` is not one, unless it goes on to lines
that `destroy` held before.  For `K` one it writes only those. -/
theorem tail_from_line_iff {w : World} {fd : Input} {ls : List (List Char)}
    {program num name : List Char} {k : Nat} (h0 : w.startLine = 0)
    (hfile : w.files name = some fd) (hok : fd.failed = false) (hls : ∀ l ∈ ls, '\n' ∉ l)
    (htext : fd.text = unlines ls) (hnum : atoi num 0 = some k) (hk : 1 ≤ k) :
    main w [program, ['-', 'n'], '+' :: num, name] = some (unlines (ls.drop (k - 1))) ↔
      num.length < 1023 ∧ if k = 1 then flushed [] (w.destroy.1.drop fd.text.length) = unlines ls
        else (w.destroy.1.drop fd.text.length).count '\n' ≤ k - 1 - ls.length := by
  have hfit := w.fits name fd hfile
  simp only [main, parse, hfile, withNumber_plus hnum hk]
  by_cases hlen : num.length < 1023
  · simp only [hlen, true_and]
    change tail w fd 0 (k - 1) 0 = _ ↔ _
    by_cases hk1 : k = 1
    · -- the offset is zero, which stands for none, and the line number is zero
      subst hk1
      have hn : (ls.length - linenumreplace ls.length 0 0 0).toNat = ls.length := by
        simp [linenumreplace]
      rw [if_pos rfl]
      refine Iff.of_eq (congrArg (· = _) (tail_lines h0 hfit hok hls htext hn)) |>.trans ?_
      simp
    · have hn : (ls.length - linenumreplace ls.length 0 ((k : Int) - 1) 0).toNat = k - 1 := by
        rw [linenumreplace, if_pos (by decide), if_pos (by omega)]
        omega
      rw [tail_lines h0 hfit hok hls htext hn, if_neg hk1, some_inj,
        append_right_eq_self, flushed_eq_nil_iff, notMem_afterLines_iff]
  · simp [hlen]

theorem tail_from_second_line : main (sample ['a', '\n', 'b', '\n'])
    [[], ['-', 'n'], ['+', '2'], []] = some ['b', '\n'] :=
  (@tail_from_line_iff (sample ['a', '\n', 'b', '\n']) ⟨[['a', '\n', 'b', '\n']], false⟩
    [['a'], ['b']] [] ['2'] [] 2 rfl rfl rfl (by decide) rfl rfl (by decide)).2 (by decide)

/-- `tail -n +1` writes nothing. -/
theorem tail_from_first_line : main (sample ['a', '\n']) [[], ['-', 'n'], ['+', '1'], []] =
    some [] :=
  @tail_lines (sample ['a', '\n']) ⟨[['a', '\n']], false⟩ [['a']] rfl (by decide) rfl (by decide)
    rfl 0 0 1 rfl

theorem tail_from_byte (h0 : w.startLine = 0) (hok : fd.failed = false) (n : Nat) :
    tail w fd 0 n 1 = (skip w.room n 1 (w.file fd)).map fun i =>
      flushed [] ((w.file fd).drop i) := by
  rw [tail_eq h0]
  simp [Input.rest, linenumreplace, readError, hok]

theorem tail_last_bytes (h0 : w.startLine = 0) (hok : fd.failed = false) (n : Nat) :
    tail w fd 0 n 2 = some (if fd.text.length < n then [] else
      flushed [] ((w.file fd).drop (fd.text.length - n))) := by
  rw [tail_eq h0, skip_of_ne (by decide)]
  by_cases hlt : fd.text.length < n
  · simp [Input.rest, readError, hok, hlt, flushed]
  · have hsub : ((fd.text.length : Int) - n).toNat = fd.text.length - n := by omega
    simp [Input.rest, linenumreplace, readError, hok, hlt, hsub]

theorem tail_last_bytes_iff (h0 : w.startLine = 0) (hok : fd.failed = false) {n : Nat} (hn : 1 ≤ n)
    {old : List Char} (hfile : w.file fd = fd.text ++ old) :
    tail w fd 0 n 2 = some (fd.text.drop (fd.text.length - n)) ↔
      fd.text = [] ∨ (n ≤ fd.text.length ∧ fd.text.getLast? = some '\n' ∧ '\n' ∉ old) := by
  rw [tail_last_bytes h0 hok n, some_inj, hfile]
  split
  · rename_i hlt
    have hsub : fd.text.length - n = 0 := by omega
    rw [hsub, drop_zero, eq_comm]
    exact (or_iff_left fun h => absurd h.1 (by omega)).symm
  · rename_i hle
    rw [drop_append_of_le_length (by omega), flushed_append_eq_iff, getLast?_drop,
      drop_eq_nil_iff, if_neg (by omega)]
    have hne : fd.text ≠ [] := by
      rintro hnil
      simp [hnil] at hle
      omega
    simp only [hne, false_or, show ¬fd.text.length ≤ fd.text.length - n by omega,
      show n ≤ fd.text.length by omega, true_and]

theorem tail_from_byte_iff (h0 : w.startLine = 0) (hok : fd.failed = false) {n : Nat}
    {old : List Char} (hfile : w.file fd = fd.text ++ old) :
    tail w fd 0 n 1 = some (fd.text.drop n) ↔
      if n ≤ w.room then (n ≤ 512 ∨ (fd.text ++ old).length ≤ 512) ∧
          (fd.text.length ≤ n ∨ fd.text.getLast? = some '\n') ∧ '\n' ∉ old.drop (n - fd.text.length)
        else fd.text.length ≤ n ∧ '\n' ∉ fd.text ++ old := by
  rw [tail_from_byte h0 hok, skip, Int.toNat_natCast, hfile]
  by_cases hroom : n ≤ w.room
  · rw [if_neg (by omega), if_pos hroom]
    by_cases hmin : min n (fd.text ++ old).length ≤ 512
    · rw [if_pos hmin, map_some, ← drop_eq_drop_min, drop_append, some_inj, flushed_append_eq_iff,
        drop_eq_nil_iff, getLast?_drop]
      refine .trans ?_ (and_iff_right (by omega)).symm
      by_cases hle : fd.text.length ≤ n
      · simp [hle]
      · simp [hle]
    · rw [if_neg hmin]
      exact iff_of_false nofun fun h => hmin (by omega)
  · rw [if_pos (by omega), if_neg hroom, map_some, some_inj, drop_zero]
    exact flushed_append_eq_drop_iff (by omega)

/-- **The byte modes.**  `tail -c N` is right on an empty file, and on one that ends in a newline
and has `N` characters, if no newline that `destroy` held before follows.  `tail -c +N` has more
conditions: the read that passes characters over must not leave `buf2`, nor the memory of the
process. -/
theorem tail_bytes_iff {w : World} {fd : Input} {program num name : List Char} {n : Nat}
    (h0 : w.startLine = 0) (hfile : w.files name = some fd) (hok : fd.failed = false)
    (hnum : atoi num 0 = some n) (hn : 1 ≤ n) :
    let old := w.destroy.1.drop fd.text.length
    (main w [program, ['-', 'c'], num, name] = some (fd.text.drop (fd.text.length - n)) ↔
      fd.text = [] ∨ (n ≤ fd.text.length ∧ fd.text.getLast? = some '\n' ∧ '\n' ∉ old)) ∧
    (main w [program, ['-', 'c'], '+' :: num, name] = some (fd.text.drop (n - 1)) ↔
      num.length < 1023 ∧ if n - 1 ≤ w.room then (n - 1 ≤ 512 ∨ (fd.text ++ old).length ≤ 512) ∧
          (fd.text.length ≤ n - 1 ∨ fd.text.getLast? = some '\n') ∧
          '\n' ∉ old.drop (n - 1 - fd.text.length)
        else fd.text.length ≤ n - 1 ∧ '\n' ∉ fd.text ++ old) := by
  intro old
  have hfile' : w.file fd = fd.text ++ old := file_eq (w.fits name fd hfile)
  constructor
  · simp only [main, parse, hfile, withNumber_plain hnum hn]
    exact tail_last_bytes_iff h0 hok hn hfile'
  · simp only [main, parse, hfile, withNumber_plus hnum hn]
    by_cases hlen : num.length < 1023
    · simp only [hlen, true_and]
      have hoff : (n : Int) - 1 = (n - 1 : Nat) := by omega
      rw [← tail_from_byte_iff h0 hok hfile', ← hoff]
      rfl
    · simp [hlen]

theorem tail_bytes_two :
    main (sample ['a', '\n', 'b', '\n']) [[], ['-', 'c'], ['2'], []] = some ['b', '\n'] ∧
      main (sample ['a', '\n', 'b', '\n']) [[], ['-', 'c'], ['+', '2'], []] =
        some ['\n', 'b', '\n'] := by
  have h := @tail_bytes_iff (sample ['a', '\n', 'b', '\n']) ⟨[['a', '\n', 'b', '\n']], false⟩
    [] ['2'] [] 2 rfl rfl rfl rfl (by decide)
  exact ⟨h.1.2 (by decide), h.2.2 (by decide)⟩

/-- A last line without a newline is not written, and `N` may not exceed the length. -/
theorem tail_bytes_lost : main (sample ['a']) [[], ['-', 'c'], ['1'], []] = some [] ∧
      main (sample ['a']) [[], ['-', 'c'], ['+', '1'], []] = some [] ∧
      main (sample ['a', '\n']) [[], ['-', 'c'], ['3'], []] = some [] := by
  refine ⟨?_, ?_, ?_⟩
  · exact @tail_last_bytes (sample ['a']) ⟨[['a']], false⟩ rfl rfl 1
  · exact @tail_from_byte (sample ['a']) ⟨[['a']], false⟩ rfl rfl 0
  · exact @tail_last_bytes (sample ['a', '\n']) ⟨[['a', '\n']], false⟩ rfl rfl 3

/-! ## What the output depends on -/

theorem withNumber_cases {arg : List Char} {plain plus : Nat → Call} {call : Call}
    (h : withNumber arg plain plus = some call) :
    call = .message badNumber ∨ ∃ val : Nat, 0 < val ∧ (call = plain val ∨ call = plus val) := by
  have hval : ∀ {num : List Char} {f : Nat → Call}, (do
      let val ← atoi num 0
      return if val = 0 then .message badNumber else f val) = some call →
        call = .message badNumber ∨ ∃ val : Nat, 0 < val ∧ call = f val := by
    intro num f h
    obtain ⟨val, -, h⟩ := bind_eq_some_iff.1 h
    by_cases h0 : val = 0
    · rw [if_pos h0] at h
      exact .inl (some_inj.1 h).symm
    · rw [if_neg h0] at h
      exact .inr ⟨val, Nat.pos_of_ne_zero h0, (some_inj.1 h).symm⟩
  rw [withNumber] at h
  split at h
  · split at h
    · exact (hval h).imp_right fun ⟨val, h0, h⟩ => ⟨val, h0, .inr h⟩
    · cases h
  · exact (hval h).imp_right fun ⟨val, h0, h⟩ => ⟨val, h0, .inl h⟩

theorem parse_tail {argv : List (List Char)} {linenumber offset : Int} {whichC : Nat}
    (h : parse w argv = some (.tail fd linenumber offset whichC)) :
    whichC = 0 ∨ whichC = 1 ∨ (whichC = 2 ∧ 0 < offset ∧ fd.text.length ≤ maxSize) := by
  unfold parse at h
  split at h
  · cases h
    exact .inl rfl
  · split at h
    · split at h
      · cases h
      · cases h
        exact .inl rfl
    · split at h
      · cases h
      · split at h
        · split at h
          · obtain h | ⟨val, -, h | h⟩ := withNumber_cases h <;> cases h
            · exact .inl rfl
            · exact .inl rfl
          · split at h
            · obtain h | ⟨val, hpos, h | h⟩ := withNumber_cases h <;> cases h
              · exact .inr (.inr ⟨rfl, Int.natCast_pos.2 hpos, w.fits _ _ ‹_›⟩)
              · exact .inr (.inl rfl)
            · cases h
        · cases h
    · cases h

/-- How many newlines `destroy` can have before its last character: the copy, and then newlines
up to the largest size. -/
def Input.most (fd : Input) : Nat :=
  (copy fd.reads ++ replicate (maxSize - (copy fd.reads).length) '\n').dropLast.count '\n'

theorem count_file_le (w : World) (fd : Input) : (w.file fd).dropLast.count '\n' ≤ fd.most := by
  rw [World.file, Input.most]
  generalize copy fd.reads = text
  have hlen : (w.destroy.1.drop text.length).length ≤ maxSize - text.length := by
    rw [length_drop]
    exact Nat.sub_le_sub_right w.destroy.2 _
  generalize w.destroy.1.drop text.length = old at hlen
  generalize maxSize - text.length = m at hlen
  cases m with
  | zero => rw [length_eq_zero_iff.1 (Nat.le_zero.1 hlen), replicate_zero]
  | succ m =>
    rw [replicate_succ', ← append_assoc, dropLast_concat, count_append, count_replicate_self]
    by_cases hnil : old = []
    · rw [hnil, append_nil]
      exact Nat.le_add_right_of_le ((dropLast_sublist text).count_le '\n')
    · rw [dropLast_append_of_ne_nil hnil, count_append]
      have hcount := count_le_length (a := '\n') (l := old.dropLast)
      rw [length_dropLast] at hcount
      omega

/-- The longest file. -/
def World.full (w : World) : World :=
  { w with destroy := ⟨replicate maxSize '\n', by simp⟩ }

theorem file_full (w : World) (fd : Input) : w.full.file fd =
    copy fd.reads ++ replicate (maxSize - (copy fd.reads).length) '\n' := by
  rw [World.file, World.full, drop_replicate]

theorem length_file_full (w : World) (fd : Input) : (w.full.file fd).length = maxSize := by
  have := length_copy_le fd.reads
  rw [file_full, length_append, length_replicate]
  omega

/-- Where nothing is selected, nothing but an error is written. -/
theorem tail_of_rest_nil {linenumber offset : Int} {whichC : Nat} (h1 : whichC ≠ 1)
    (h : fd.rest linenumber offset whichC (w.file fd) = []) :
    tail w fd linenumber offset whichC = some (readError fd) := by
  obtain ⟨lesser, charcount, thisC, hrun, -⟩ := @foldlM_rest w.junk
    (linenumreplace (fd.text.count '\n') linenumber offset whichC) offset (w.vars fd whichC)
    (w.file fd)
  rw [show (w.vars fd whichC).rest _ _ _ = [] from h] at hrun
  rw [tail_run, skip_of_ne h1, bind_some, drop_zero, hrun]
  rfl

/-- Where something is, the output depends on `startLine`. -/
theorem exists_tail_none {linenumber offset : Int} {whichC n : Nat}
    (hskip : skip w.room offset whichC (w.file fd) = some n)
    (h : fd.rest linenumber offset whichC ((w.file fd).drop n) ≠ []) :
    ∃ startLine, tail { w with startLine := startLine } fd linenumber offset whichC = none := by
  obtain ⟨startLine, hnone⟩ := @exists_startLine w.junk
    (linenumreplace (fd.text.count '\n') linenumber offset whichC) offset _ (w.vars fd whichC) h
  refine ⟨startLine, ?_⟩
  rw [tail_run]
  change (skip w.room offset whichC (w.file fd)).bind _ = none
  rw [hskip, bind_some]
  exact congrArg (Option.map _) hnone

theorem exists_tail_none_of_skip (w : World) (fd : Input) (linenumber offset : Int) :
    ∃ startLine, tail { w.full with startLine := startLine } fd linenumber offset 1 = none := by
  cases hskip : skip w.full.room offset 1 (w.full.file fd) with
  | none =>
    refine ⟨0, ?_⟩
    rw [tail_run]
    exact congrArg (bind · _) hskip
  | some n =>
    refine exists_tail_none hskip ?_
    have hn : n ≤ 512 := by
      rw [skip] at hskip
      split at hskip
      · cases hskip
        exact Nat.zero_le _
      · split at hskip
        · cases hskip
          assumption
        · cases hskip
    have hlen := length_file_full w fd
    rw [maxSize] at hlen
    simp [Input.rest, linenumreplace]
    omega

/-- **The output depends on the arguments and the input alone** exactly when nothing but a
message is written, when `-c N` asks for more characters than there are, or when more lines are to
be passed over than `destroy` can hold. -/
theorem tail_deterministic_iff (w : World) (argv : List (List Char)) : (∃ out, ∀ startLine old,
      main { w with startLine := startLine, destroy := old } argv = some out) ↔
      (∃ text, parse w argv = some (.message text)) ∨
      (∃ fd linenumber offset, parse w argv = some (.tail fd linenumber offset 2) ∧
        (fd.text.length : Int) < offset) ∨
      ∃ fd linenumber offset, parse w argv = some (.tail fd linenumber offset 0) ∧ (fd.most : Int) <
          fd.text.count '\n' - linenumreplace (fd.text.count '\n') linenumber offset 0 := by
  have hmain : ∀ startLine old, main { w with startLine := startLine, destroy := old } argv =
      (parse w argv).bind (perform { w with startLine := startLine, destroy := old }) :=
    fun _ _ => rfl
  simp only [hmain]
  constructor
  · rintro ⟨out, hout⟩
    cases hparse : parse w argv with
    | none => exact absurd (hout 0 w.destroy) (by simp [hparse])
    | some call =>
      simp only [hparse, bind_some] at hout
      cases call with
      | message text => exact .inl ⟨text, rfl⟩
      | tail fd linenumber offset whichC =>
        have hsome : ¬∃ startLine,
            tail { w.full with startLine := startLine } fd linenumber offset whichC = none := by
          rintro ⟨startLine, hnone⟩
          cases hnone.symm.trans (hout startLine w.full.destroy)
        have hlen := length_file_full w fd
        obtain rfl | rfl | ⟨rfl, hpos, hfit⟩ := parse_tail hparse
        · refine .inr (.inr ⟨fd, linenumber, offset, rfl, ?_⟩)
          by_contra hle
          refine hsome (exists_tail_none (skip_of_ne (by decide)) fun hnil => ?_)
          rw [drop_zero, Input.rest, if_neg (by decide), afterLines_eq_nil_iff] at hnil
          obtain hnil | hlt := hnil
          · rw [hnil] at hlen
            cases hlen
          · rw [file_full] at hlt
            change fd.most < _ at hlt
            omega
        · exact (hsome (exists_tail_none_of_skip w fd linenumber offset)).elim
        · refine .inr (.inl ⟨fd, linenumber, offset, rfl, ?_⟩)
          by_contra hle
          refine hsome (exists_tail_none (skip_of_ne (by decide)) fun hnil => ?_)
          simp [Input.rest, linenumreplace, hle] at hnil
          omega
  · rintro (⟨text, htext⟩ | ⟨fd, linenumber, offset, hcall, hlt⟩ |
      ⟨fd, linenumber, offset, hcall, hlt⟩)
    · exact ⟨text, fun _ _ => by rw [htext]; rfl⟩
    · refine ⟨readError fd, fun startLine old => ?_⟩
      rw [hcall]
      refine tail_of_rest_nil (by decide) ?_
      rw [Input.rest, if_pos rfl, if_pos hlt, afterLines_nil]
    · refine ⟨readError fd, fun startLine old => ?_⟩
      rw [hcall]
      refine tail_of_rest_nil (by decide) ?_
      rw [Input.rest, if_neg (by decide), afterLines_eq_nil_iff]
      have := count_file_le { w with startLine := startLine, destroy := old } fd
      exact .inr (by omega)

/-- What `startLine` and `destroy` hold shows in the output. -/
theorem tail_depends : main { sample ['\n'] with startLine := 0 } [] = some ['\n'] ∧
      main { sample ['\n'] with startLine := 1 } [] = some ['?', '\n'] ∧
      main { sample ['\n'] with destroy := ⟨['x', 'y', '\n'], by decide⟩ } [] =
        some ['\n', 'y', '\n'] := by
  have h : ∀ w : World, w.stdin = ⟨[['\n']], false⟩ → main w [] = _ := fun w hw =>
    (congrArg (fun fd => tail w fd 10 0 0) hw).trans (tail_run w ⟨[['\n']], false⟩ 10 0)
  refine ⟨?_, ?_, ?_⟩
  · exact h _ rfl
  · exact h _ rfl
  · exact h _ rfl

end

end Xv6.Tail
