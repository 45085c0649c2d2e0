import Mathlib.Data.List.Induction
import OperatingSystems.Lib.Script
import OperatingSystems.Shell.Words

/-!
# Running a command

`runcmd` is a program over system calls that never returns.  A process has a table of
descriptors, in which `open`, `dup` and `pipe` take the lowest that is free; `fork` goes on
in two processes.  `calls` says what a call does when it succeeds.

A redirection that stands behind another one in the text is outside of it in the command, so
`runcmd` comes to it first.

* `moves_redirs` — what a process has opened when it is through with its redirections.
* `redirections_in_order_iff` — **redirections take effect in the order of the text exactly
  when they read the same backwards**.
-/

namespace Xv6.Shell

open Function List

/-! ## The calls -/

/-- The system calls of the shell, and `printf`.  A string is a pointer. -/
inductive Call
  | close (fd : Nat)
  | open (file mode : Nat)
  | dup (fd : Nat)
  | pipe
  | fork
  | wait
  | exec (path : Nat) (argv : List Nat)
  | printf (fd : Nat) (text : String)
  | exit

/-- What a call returns; `pipe` has filled in the two descriptors. -/
abbrev Call.Ret : Call → Type
  | .close _ | .open .. | .dup _ | .fork | .wait | .exec .. => Int
  | .pipe => Int × Nat × Nat
  | .printf .. => Unit
  | .exit => Empty

/-- A program of the shell. -/
abbrev Sh (α : Type) : Type := Script Call Call.Ret α

/-- Call an operation. -/
def ask (o : Call) : Sh o.Ret := Script.call o

/-- `exit`. -/
def exit {α : Type} : Sh α := .op .exit Empty.elim

/-- `panic`. -/
def panic {α : Type} (s : String) : Sh α := do
  ask (.printf 2 s)
  exit

/-- `fork1`. -/
def fork1 : Sh Int := do
  let pid : Int ← ask .fork
  if pid = -1 then panic "fork" else return pid

/-- What `runcmd` does for a `redircmd`, before the command in it. -/
def redirect (r : Redir) : Sh Unit := do
  let _ ← ask (.close r.fd)
  let fd : Int ← ask (.open r.file.q r.mode)
  if fd < 0 then
    ask (.printf 2 "open %s failed\n")
    exit
  else return ()

/-- `runcmd`. -/
def runcmd : Cmd → Sh Empty
  | .exec [] => exit
  | .exec (w :: argv) => do
      let _ ← ask (.exec w.q ((w :: argv).map Word.q))
      ask (.printf 2 "exec %s failed\n")
      exit
  | .redir cmd r => do
      redirect r
      runcmd cmd
  | .list left right => do
      if (← fork1) = 0 then runcmd left
      else
        let _ ← ask .wait
        runcmd right
  | .pipe left right => do
      let p : Int × Nat × Nat ← ask .pipe
      if p.1 < 0 then panic "pipe"
      else if (← fork1) = 0 then
        let _ ← ask (.close 1)
        let _ ← ask (.dup p.2.2)
        let _ ← ask (.close p.2.1)
        let _ ← ask (.close p.2.2)
        runcmd left
      else if (← fork1) = 0 then
        let _ ← ask (.close 0)
        let _ ← ask (.dup p.2.1)
        let _ ← ask (.close p.2.1)
        let _ ← ask (.close p.2.2)
        runcmd right
      else
        let _ ← ask (.close p.2.1)
        let _ ← ask (.close p.2.2)
        let _ ← ask .wait
        let _ ← ask .wait
        exit
  | .back cmd => do
      if (← fork1) = 0 then runcmd cmd
      else exit

/-! ## A process -/

/-- What a descriptor refers to: what the process was started with, a file, or an end of a
pipe. -/
inductive Desc
  | inherited (fd : Nat)
  | file (name : List Char) (mode : Nat)
  | readEnd (pipe : Nat)
  | writeEnd (pipe : Nat)
  deriving DecidableEq

/-- `NOFILE`. -/
def NOFILE : Nat := 16

/-- The descriptors of a process, and the files it has opened: name, mode and descriptor. -/
structure Process where
  ofile : Nat → Option Desc
  opened : List (List Char × Nat × Nat)

/-- Put something at a descriptor, or nothing. -/
def Process.set (t : Process) (fd : Nat) (d : Option Desc) : Process :=
  { t with ofile := update t.ofile fd d }

/-- `fdalloc` finds the lowest descriptor that is free. -/
def fdalloc (ofile : Nat → Option Desc) : Option Nat :=
  (range NOFILE).find? fun fd => (ofile fd).isNone

/-- What a call does if it succeeds.  `str` is the memory of the process: the string at a
pointer. -/
def calls (str : Nat → List Char) : Script.Protocol Call Call.Ret Process where
  pre _ _ := True
  post
    | .close fd, t, r, t' => r = (0 : Int) ∧ t' = t.set fd none
    | .open file mode, t, r, t' =>
      ∃ fd, fdalloc t.ofile = some fd ∧ r = (fd : Int) ∧
        t' = { t.set fd (some (.file (str file) mode)) with
          opened := t.opened ++ [(str file, mode, fd)] }
    | .dup fd, t, r, t' =>
      ∃ d fd', t.ofile fd = some d ∧ fdalloc t.ofile = some fd' ∧ r = (fd' : Int) ∧
        t' = t.set fd' (some d)
    | .pipe, t, r, t' =>
      ∃ p fd₀ fd₁, fdalloc t.ofile = some fd₀ ∧
        fdalloc (t.set fd₀ (some (.readEnd p))).ofile = some fd₁ ∧ r = ((0 : Int), fd₀, fd₁) ∧
        t' = (t.set fd₀ (some (.readEnd p))).set fd₁ (some (.writeEnd p))
    | .fork, t, r, t' => 0 ≤ (r : Int) ∧ t' = t
    | .wait, t, r, t' => 0 < (r : Int) ∧ t' = t
    | .exec .., _, _, _ => False
    | .printf .., t, _, t' => t' = t
    | .exit, _, _, _ => False

/-- The three standard descriptors are open. -/
def Process.Std (t : Process) : Prop := ∀ fd < 3, (t.ofile fd).isSome

theorem fdalloc_update {ofile : Nat → Option Desc} {fd : Nat} (hfd : fd < NOFILE)
    (hopen : ∀ g < fd, (ofile g).isSome) : fdalloc (update ofile fd none) = some fd := by
  unfold fdalloc
  rw [find?_range_eq_some]
  refine ⟨?_, mem_range.2 hfd, fun g hg => ?_⟩
  · rw [update_self, Option.isNone_none]
  · rw [update_of_ne (by omega), Bool.not_eq_true', Option.isNone_eq_false_iff]
    exact hopen g hg

/-! ## Redirections -/

/-- The tokens are a simple command, or a block, with these redirections, in the order of the
text. -/
inductive Redirected : List Tok → Cmd → List Redir → Prop
  | block {ts us : List Tok} {c : Cmd} {rs : List Redir} (h : Derives .line ts c)
      (hr : Redirs us rs) : Redirected (.sym .lpar :: (ts ++ .sym .rpar :: us)) c rs
  | simple {ts us : List Tok} {ws : List Word} {rs rs' : List Redir} (hr : Redirs ts rs)
      (ha : Args us ws rs') (hlen : ws.length < MAXARGS) :
      Redirected (ts ++ us) (.exec ws) (rs ++ rs')

/-- In the derivation of a line, a pipe or an exec, the tokens `ts` are an exec, which stands for
the part `e` of the command. -/
inductive Within (ts : List Tok) (e : Cmd) : Part → List Tok → Cmd → Prop
  | here (h : Derives .exec ts e) : Within ts e .exec ts e
  | line {us : List Tok} {c : Cmd} (n : Nat) (h : Within ts e .pipe us c) :
      Within ts e .line (us ++ replicate n (.sym .amp)) (c.backs n)
  | first {us vs : List Tok} {c d : Cmd} (n : Nat) (h : Within ts e .pipe us c)
      (hd : Derives .line vs d) : Within ts e .line
        (us ++ (replicate n (.sym .amp) ++ .sym .semi :: vs)) (.list (c.backs n) d)
  | second {us vs : List Tok} {c d : Cmd} (n : Nat) (h : Derives .pipe us c)
      (hd : Within ts e .line vs d) : Within ts e .line
        (us ++ (replicate n (.sym .amp) ++ .sym .semi :: vs)) (.list (c.backs n) d)
  | last {us : List Tok} {c : Cmd} (h : Within ts e .exec us c) : Within ts e .pipe us c
  | left {us vs : List Tok} {c d : Cmd} (h : Within ts e .exec us c) (hd : Derives .pipe vs d) :
      Within ts e .pipe (us ++ .sym .bar :: vs) (.pipe c d)
  | right {us vs : List Tok} {c d : Cmd} (h : Derives .exec us c) (hd : Within ts e .pipe vs d) :
      Within ts e .pipe (us ++ .sym .bar :: vs) (.pipe c d)
  | block {us vs : List Tok} {c : Cmd} {rs : List Redir} (h : Within ts e .line us c)
      (hr : Redirs vs rs) :
      Within ts e .exec (.sym .lpar :: (us ++ .sym .rpar :: vs)) (c.redirs rs)

theorem Within.isInfix {part : Part} {ts us : List Tok} {e c : Cmd} (h : Within ts e part us c) :
    ts <:+: us := by
  induction h with
  | here => exact infix_rfl
  | line _ _ ih | first _ _ _ ih | left _ _ ih => exact ih.trans (prefix_append _ _).isInfix
  | last _ ih => exact ih
  | second _ _ _ ih | right _ _ ih =>
    refine ih.trans (List.IsSuffix.isInfix ?_)
    simp [suffix_append_of_suffix]
  | block _ _ ih =>
    exact (ih.trans (prefix_append _ _).isInfix).trans (suffix_cons _ _).isInfix

variable {ts : List Tok}

section Redirections

variable {str : Nat → List Char} {t t' : Process} {r : Redir} {rs : List Redir} {c d : Cmd}

/-- What a redirection opens: the name of the file, the mode and the descriptor. -/
def Redir.opens (str : Nat → List Char) (r : Redir) : List Char × Nat × Nat :=
  (str r.file.q, r.mode, r.fd)

/-- The process has opened a file at a descriptor. -/
def Process.opens (t : Process) (o : List Char × Nat × Nat) : Process :=
  { t.set o.2.2 (some (.file o.1 o.2.1)) with opened := t.opened ++ [o] }

theorem Process.Std.opens (h : t.Std) (o : List Char × Nat × Nat) : (t.opens o).Std := by
  intro fd hfd
  show (update t.ofile o.2.2 (some (.file o.1 o.2.1)) fd).isSome
  by_cases heq : fd = o.2.2
  · rw [heq, update_self, Option.isSome_some]
  · rw [update_of_ne heq]
    exact h fd hfd

/-- A redirection opens its file at its descriptor. -/
theorem moves_redirect {α : Type} {n : Nat} {f : Unit → Sh α} {x : Sh α} (ht : t.Std)
    (hr : r.fd < 3) :
    Script.Moves (calls str) (n + 2) (redirect r >>= f) t x t' ↔
      Script.Moves (calls str) n (f ()) (t.opens (r.opens str)) x t' := by
  have halloc : fdalloc (t.set r.fd none).ofile = some r.fd :=
    fdalloc_update (by unfold NOFILE; omega) fun g hg => ht g (by omega)
  have hset : ∀ d, (t.set r.fd none).set r.fd d = t.set r.fd d := by
    intro d
    simp only [Process.set, update_idem]
  constructor
  · rintro (_ | ⟨⟨rfl, rfl⟩, hk⟩)
    obtain _ | ⟨⟨fd, hfd, rfl, rfl⟩, hk⟩ := hk
    cases halloc.symm.trans hfd
    rw [hset] at hk
    exact hk
  · intro h
    refine .call ⟨rfl, rfl⟩ (.call ⟨r.fd, halloc, rfl, rfl⟩ ?_)
    rw [hset]
    exact h

/-- `runcmd` comes to the last redirection first. -/
theorem moves_redirs (ht : t.Std) (hrs : ∀ r ∈ rs, r.fd < 3) {x : Sh Empty} :
    Script.Moves (calls str) (2 * rs.length) (runcmd (d.redirs rs)) t x t' ↔
      x = runcmd d ∧ t' = (rs.reverse.map (Redir.opens str)).foldl Process.opens t := by
  induction rs using reverseRecOn generalizing t with
  | nil =>
    constructor
    · rintro ⟨⟩
      exact ⟨rfl, rfl⟩
    · rintro ⟨rfl, rfl⟩
      exact .refl _ _
  | append_singleton rs r ih =>
    rw [redirs_append, length_append, length_singleton, Nat.mul_add,
      reverse_append, map_append, foldl_append]
    refine (moves_redirect ht (hrs r (by simp))).trans ?_
    exact ih (ht.opens _) fun r' hr' => hrs r' (by simp [hr'])

/-- What was opened at a descriptor last. -/
def inForce (os : List (List Char × Nat × Nat)) (fd : Nat) (d : Option Desc) : Option Desc :=
  match os.reverse.find? (·.2.2 = fd) with
  | some o => some (.file o.1 o.2.1)
  | none => d

theorem inForce_append (os : List (List Char × Nat × Nat)) (o : List Char × Nat × Nat) (fd : Nat)
    (d : Option Desc) :
    inForce (os ++ [o]) fd d = if o.2.2 = fd then some (.file o.1 o.2.1) else inForce os fd d := by
  unfold inForce
  rw [reverse_append, reverse_singleton, singleton_append, find?_cons]
  by_cases h : o.2.2 = fd <;> simp [h]

theorem foldl_opens (os : List (List Char × Nat × Nat)) (t : Process) :
    (os.foldl Process.opens t).opened = t.opened ++ os ∧
      ∀ fd, (os.foldl Process.opens t).ofile fd = inForce os fd (t.ofile fd) := by
  induction os using reverseRecOn with
  | nil => exact ⟨(append_nil _).symm, fun _ => rfl⟩
  | append_singleton os o ih =>
    rw [foldl_append, foldl_cons, foldl_nil]
    refine ⟨?_, fun fd => ?_⟩
    · show (os.foldl Process.opens t).opened ++ [o] = _
      rw [ih.1, append_assoc]
    · show update (os.foldl Process.opens t).ofile o.2.2 _ fd = _
      rw [inForce_append]
      by_cases h : o.2.2 = fd
      · rw [if_pos h, ← h, update_self]
      · rw [if_neg h, update_of_ne (fun h' => h h'.symm), ih.2]

theorem Redirs.fd_lt (h : Redirs ts rs) (hr : r ∈ rs) : r.fd < 3 := by
  induction h with
  | nil => cases hr
  | @cons x q eq mode fd ts rs hx _ ih =>
    obtain rfl | hr := mem_cons.1 hr
    · cases x <;> cases hx <;> simp
    · exact ih hr

theorem Args.fd_lt {ws : List Word} (h : Args ts ws rs) (hr : r ∈ rs) : r.fd < 3 := by
  induction h with
  | nil => cases hr
  | cons hrs _ ih =>
    obtain hr | hr := mem_append.1 hr
    · exact hrs.fd_lt hr
    · exact ih hr

theorem Redirected.fd_lt (h : Redirected ts d rs) (hr : r ∈ rs) : r.fd < 3 := by
  cases h with
  | block _ hrs => exact hrs.fd_lt hr
  | simple hrs ha _ =>
    obtain hr | hr := mem_append.1 hr
    · exact hrs.fd_lt hr
    · exact ha.fd_lt hr

theorem Redirected.derives (h : Redirected ts d rs) : Derives .exec ts (d.redirs rs) := by
  cases h with
  | block h hr => exact .block h hr
  | simple hr ha hlen => exact .simple hr ha hlen

/-- What a redirection stands for in the text. -/
def Redir.text (s : List Char) (r : Redir) : List Char × Nat × Nat :=
  (r.file.chars s, r.mode, r.fd)

/-- The strings in the buffer of the parser. -/
def strings (s : List Char) (buf : Nat → Char) (q : Nat) : List Char :=
  (cstr buf (s.length + 1) q).getD []

/-- The redirections take effect in order.  After a `close` and an `open` for each of them the
process runs the command under them; it has opened their files one after the other, and at
each descriptor the last redirection of it is in force. -/
def InOrder (str : Nat → List Char) (t : Process) (c d : Cmd)
    (os : List (List Char × Nat × Nat)) : Prop :=
  ∃ t', Script.Moves (calls str) (2 * os.length) (runcmd c) t (runcmd d) t' ∧
    t'.opened = t.opened ++ os ∧ ∀ fd, t'.ofile fd = inForce os fd (t.ofile fd)

/-- What the redirections of a part of the line open is what they stand for in the text. -/
theorem Redirected.map_opens {s : List Char} {buf : Nat → Char} {i : Nat}
    (hs : NUL ∉ s) (h : parsecmd s 0 = .ok (c, buf) i) (hts : ts <:+: lex s 0)
    (hr : Redirected ts d rs) :
    rs.map (Redir.opens (strings s buf)) = rs.map (Redir.text s) := by
  refine map_congr_left fun r hmem => ?_
  have hword : r.file ∈ (d.redirs rs).words := mem_words_redirs.2 (Or.inr (mem_map_of_mem hmem))
  have hline : Tok.word r.file.q r.file.eq ∈ lex s 0 := hts.subset (hr.derives.word_mem.2 hword)
  have hc := (derives_of_parsecmd hs h).1.word_mem.1 hline
  rw [Redir.opens, Redir.text, strings, cstr_of_parsecmd hs h hc, Option.getD_some]

/-- **Redirections take effect in the order of the text exactly when they read the same
backwards**, in every part of the command that is parsed. -/
theorem redirections_in_order_iff {s : List Char} {buf : Nat → Char} {i : Nat} {ts : List Tok}
    (hs : NUL ∉ s) (h : parsecmd s 0 = .ok (c, buf) i)
    (hin : Within ts (d.redirs rs) .line (lex s 0) c) (hr : Redirected ts d rs) (ht : t.Std) :
    InOrder (strings s buf) t (d.redirs rs) d (rs.map (Redir.text s)) ↔
      (rs.map (Redir.text s)).reverse = rs.map (Redir.text s) := by
  have hopens : rs.reverse.map (Redir.opens (strings s buf)) = (rs.map (Redir.text s)).reverse := by
    rw [map_reverse, hr.map_opens hs h hin.isInfix]
  have hfd : ∀ r ∈ rs, r.fd < 3 := fun r hmem => hr.fd_lt hmem
  unfold InOrder
  rw [length_map]
  constructor
  · rintro ⟨t', hm, hop, -⟩
    obtain ⟨-, rfl⟩ := (moves_redirs ht hfd).1 hm
    rw [hopens, (foldl_opens _ t).1] at hop
    exact append_cancel_left hop
  · intro hpal
    refine ⟨_, (moves_redirs ht hfd).2 ⟨rfl, rfl⟩, ?_⟩
    rw [hopens, hpal]
    exact foldl_opens _ t

/-- A process that the shell has forked. -/
def shellProcess : Process where
  ofile fd := if fd < 3 then some (.inherited fd) else none
  opened := []

theorem std_shellProcess : shellProcess.Std := by
  intro fd hfd
  simp [shellProcess, hfd]

/-- A redirection to the file whose name is at 2 in the line, and one to that at 4. -/
def toB : Redir := ⟨⟨2, 3⟩, O_WRONLY ||| O_CREATE, 1⟩

@[inherit_doc toB]
def toC : Redir := ⟨⟨4, 5⟩, O_WRONLY ||| O_CREATE, 1⟩

/-- `a>b>b`. -/
theorem redirections_in_order_twice :
    parsecmd ['a', '>', 'b', '>', 'b'] 0 = .ok ((Cmd.exec [⟨0, 1⟩]).redirs [toB, toC],
        nulterminate ((Cmd.exec [⟨0, 1⟩]).redirs [toB, toC]) (chr ['a', '>', 'b', '>', 'b'])) 5 ∧
      InOrder (strings ['a', '>', 'b', '>', 'b'] (nulterminate ((Cmd.exec [⟨0, 1⟩]).redirs
          [toB, toC]) (chr ['a', '>', 'b', '>', 'b'])))
        shellProcess ((Cmd.exec [⟨0, 1⟩]).redirs [toB, toC]) (.exec [⟨0, 1⟩])
        [(['b'], O_WRONLY ||| O_CREATE, 1), (['b'], O_WRONLY ||| O_CREATE, 1)] := by
  have hlex : lex ['a', '>', 'b', '>', 'b'] 0 =
      [.word 0 1, .sym .gt, .word 2 3, .sym .gt, .word 4 5] := by
    simp [lex, isWord, whitespace, symbols, Sym.ofChar]
  have hr : Redirected [.word 0 1, .sym .gt, .word 2 3, .sym .gt, .word 4 5] (.exec [⟨0, 1⟩])
      [toB, toC] := .simple .nil (.cons (.cons rfl (.cons rfl .nil)) .nil) (by decide)
  have hin : Within [.word 0 1, .sym .gt, .word 2 3, .sym .gt, .word 4 5]
      ((Cmd.exec [⟨0, 1⟩]).redirs [toB, toC]) .line (lex ['a', '>', 'b', '>', 'b'] 0)
      ((Cmd.exec [⟨0, 1⟩]).redirs [toB, toC]) := by
    rw [hlex]
    exact .line 0 (.last (.here hr.derives))
  exact ⟨rfl, (redirections_in_order_iff (by decide) rfl hin hr std_shellProcess).2 rfl⟩

/-- `a>b>c`: `c` is opened first, and the output of `a` goes to `b`. -/
theorem redirections_reversed :
    parsecmd ['a', '>', 'b', '>', 'c'] 0 = .ok ((Cmd.exec [⟨0, 1⟩]).redirs [toB, toC],
        nulterminate ((Cmd.exec [⟨0, 1⟩]).redirs [toB, toC]) (chr ['a', '>', 'b', '>', 'c'])) 5 ∧
      Redirected (lex ['a', '>', 'b', '>', 'c'] 0) (.exec [⟨0, 1⟩]) [toB, toC] ∧
      shellProcess.Std ∧
      ¬ InOrder (strings ['a', '>', 'b', '>', 'c']
          (nulterminate ((Cmd.exec [⟨0, 1⟩]).redirs [toB, toC]) (chr ['a', '>', 'b', '>', 'c'])))
        shellProcess ((Cmd.exec [⟨0, 1⟩]).redirs [toB, toC]) (.exec [⟨0, 1⟩])
        [(['b'], O_WRONLY ||| O_CREATE, 1), (['c'], O_WRONLY ||| O_CREATE, 1)] := by
  refine ⟨rfl, ?_, std_shellProcess, ?_⟩
  · have hlex : lex ['a', '>', 'b', '>', 'c'] 0 =
        [] ++ ([.word 0 1] ++ [.sym .gt, .word 2 3, .sym .gt, .word 4 5]) := by
      simp [lex, isWord, whitespace, symbols, Sym.ofChar]
    rw [hlex]
    exact .simple .nil (.cons (.cons rfl (.cons rfl .nil)) .nil) (by decide)
  · rintro ⟨t', hm, hop, -⟩
    have hfd : ∀ r ∈ [toB, toC], r.fd < 3 := by decide
    obtain ⟨-, rfl⟩ := (moves_redirs std_shellProcess hfd).1 hm
    exact absurd hop (by decide)

end Redirections

end Xv6.Shell
