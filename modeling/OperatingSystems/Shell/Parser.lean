import OperatingSystems.Lib.Fueled
import OperatingSystems.Shell.Lexer

/-!
# The parser of the shell

`parsecmd` and what it calls.  The strings in a command are pointers into the input, a word
from where it starts to where it ends; `nulterminate` writes a zero at the end of every one
of them.  The functions call each other, so they are given `fuel`.
-/

namespace Xv6.Shell

/-- `MAXARGS`. -/
def MAXARGS : Nat := 10

/-- `O_RDONLY`. -/
def O_RDONLY : Nat := 0x000

/-- `O_WRONLY`. -/
def O_WRONLY : Nat := 0x001

/-- `O_CREATE`. -/
def O_CREATE : Nat := 0x200

/-- A string that is in the input. -/
structure Word where
  q : Nat
  eq : Nat
  deriving DecidableEq

/-- What a `redircmd` has besides its command. -/
structure Redir where
  file : Word
  mode : Nat
  fd : Nat
  deriving DecidableEq

/-- `struct cmd`. -/
inductive Cmd
  | exec (argv : List Word)
  | redir (cmd : Cmd) (r : Redir)
  | pipe (left right : Cmd)
  | list (left right : Cmd)
  | back (cmd : Cmd)
  deriving DecidableEq

/-- `cmd->argv[argc] = q; cmd->eargv[argc] = eq`, where `cmd` is the `execcmd` under the
redirections that `parseexec` has made so far. -/
def Cmd.addArg (w : Word) : Cmd → Cmd
  | .exec argv => .exec (argv ++ [w])
  | .redir cmd r => .redir (cmd.addArg w) r
  | cmd => cmd

/-! ## Parsing -/

/-- A function of the parser, which moves the pointer. -/
abbrev ParseM (α : Type) : Type := Fueled Nat α

section Parse

variable (s : List Char)

/-- `gettoken`. -/
def token : ParseM Token := fun i => .ok (gettoken s i).1 (gettoken s i).2

/-- `peek`. -/
def look (toks : List Char) : ParseM Bool := fun i => .ok (peek s i toks).1 (peek s i toks).2

/-- The `redircmd` for a symbol and a file. -/
def redircmd (cmd : Cmd) (tok : Char) (file : Word) : Cmd :=
  if tok = '<' then .redir cmd ⟨file, O_RDONLY, 0⟩
  else if tok = '>' then .redir cmd ⟨file, O_WRONLY ||| O_CREATE, 1⟩
  else if tok = '+' then .redir cmd ⟨file, O_WRONLY ||| O_CREATE, 1⟩
  else cmd

/-- `parseredirs`. -/
def parseredirs : (fuel : Nat) → Cmd → ParseM Cmd
  | 0, _ => Fueled.stuck
  | fuel + 1, cmd => do
      if ← look s ['<', '>'] then
        let tok ← token s
        let file ← token s
        if file.ret ≠ 'a' then Fueled.panic "missing file for redirection"
        else parseredirs fuel (redircmd cmd tok.ret ⟨file.q, file.eq⟩)
      else return cmd

/-- The loop of `parseexec`. -/
def parseargs : (fuel : Nat) → (argc : Nat) → Cmd → ParseM Cmd
  | 0, _, _ => Fueled.stuck
  | fuel + 1, argc, ret => do
      if ← look s ['|', ')', '&', ';'] then return ret
      else
        let tok ← token s
        if tok.ret = NUL then return ret
        else if tok.ret ≠ 'a' then Fueled.panic "syntax"
        else
          let ret := ret.addArg ⟨tok.q, tok.eq⟩
          if argc + 1 ≥ MAXARGS then Fueled.panic "too many args"
          else
            let ret ← parseredirs s fuel ret
            parseargs fuel (argc + 1) ret

/-- The loop of `parseline`. -/
def parsebacks : (fuel : Nat) → Cmd → ParseM Cmd
  | 0, _ => Fueled.stuck
  | fuel + 1, cmd => do
      if ← look s ['&'] then
        let _ ← token s
        parsebacks fuel (.back cmd)
      else return cmd

mutual

/-- `parseline`. -/
def parseline : (fuel : Nat) → ParseM Cmd
  | 0 => Fueled.stuck
  | fuel + 1 => do
      let cmd ← parsepipe fuel
      let cmd ← parsebacks s fuel cmd
      if ← look s [';'] then
        let _ ← token s
        let right ← parseline fuel
        return .list cmd right
      else return cmd

/-- `parsepipe`. -/
def parsepipe : (fuel : Nat) → ParseM Cmd
  | 0 => Fueled.stuck
  | fuel + 1 => do
      let cmd ← parseexec fuel
      if ← look s ['|'] then
        let _ ← token s
        let right ← parsepipe fuel
        return .pipe cmd right
      else return cmd

/-- `parseblock`. -/
def parseblock : (fuel : Nat) → ParseM Cmd
  | 0 => Fueled.stuck
  | fuel + 1 => do
      if ← look s ['('] then
        let _ ← token s
        let cmd ← parseline fuel
        if ← look s [')'] then
          let _ ← token s
          parseredirs s fuel cmd
        else Fueled.panic "syntax - missing )"
      else Fueled.panic "parseblock"

/-- `parseexec`. -/
def parseexec : (fuel : Nat) → ParseM Cmd
  | 0 => Fueled.stuck
  | fuel + 1 => do
      if ← look s ['('] then parseblock fuel
      else
        let ret ← parseredirs s fuel (.exec [])
        parseargs s fuel 0 ret

end

/-- `nulterminate`, on the buffer that the pointers are into. -/
def nulterminate : Cmd → (Nat → Char) → (Nat → Char)
  | .exec argv, buf => argv.foldl (fun buf w => Function.update buf w.eq NUL) buf
  | .redir cmd r, buf => Function.update (nulterminate cmd buf) r.file.eq NUL
  | .pipe left right, buf => nulterminate right (nulterminate left buf)
  | .list left right, buf => nulterminate right (nulterminate left buf)
  | .back cmd, buf => nulterminate cmd buf

/-- The end of `parsecmd`: nothing may be left over, and the words are terminated. -/
def leftovers (cmd : Cmd) : ParseM (Cmd × (Nat → Char)) := fun i =>
  if i ≠ s.length then .panic "syntax" i
  else .ok (cmd, nulterminate cmd (chr s)) i

/-- `parsecmd`: the command, and the buffer. -/
def parsecmd : ParseM (Cmd × (Nat → Char)) := do
  let cmd ← parseline s (4 * s.length + 4)
  let _ ← look s []
  leftovers s cmd

end Parse

end Xv6.Shell
