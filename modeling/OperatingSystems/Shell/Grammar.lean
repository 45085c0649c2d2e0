import OperatingSystems.Shell.Parser

/-!
# The grammar of the shell

What a sequence of tokens is a command of:

    line  := pipe '&'* [';' line]
    pipe  := exec ['|' pipe]
    exec  := '(' line ')' redir* | redir* (word redir*)*
    redir := ('<' | '>' | '>>') word

`Derives` says so, with the command that the derivation stands for.  A simple command has
fewer than `MAXARGS` words.

* `parse_sound` — the parser returns commands of the grammar only, and it has fuel enough.
* `parse_complete` — it returns all of them.
* `parsecmd_accepts_grammar` — **the parser accepts exactly its grammar**.
-/

namespace Xv6.Shell

/-! ## Derivations -/

/-- The mode and the descriptor of a redirection. -/
def Sym.opens : Sym → Option (Nat × Nat)
  | .lt => some (O_RDONLY, 0)
  | .gt => some (O_WRONLY ||| O_CREATE, 1)
  | .gtgt => some (O_WRONLY ||| O_CREATE, 1)
  | _ => none

/-- `redir*`. -/
inductive Redirs : List Tok → List Redir → Prop
  | nil : Redirs [] []
  | cons {x : Sym} {q eq mode fd : Nat} {ts : List Tok} {rs : List Redir}
      (hx : x.opens = some (mode, fd)) (h : Redirs ts rs) :
      Redirs (.sym x :: .word q eq :: ts) (⟨⟨q, eq⟩, mode, fd⟩ :: rs)

/-- `(word redir*)*`. -/
inductive Args : List Tok → List Word → List Redir → Prop
  | nil : Args [] [] []
  | cons {q eq : Nat} {us ts : List Tok} {ws : List Word} {rs rs' : List Redir}
      (hr : Redirs us rs) (h : Args ts ws rs') :
      Args (.word q eq :: (us ++ ts)) (⟨q, eq⟩ :: ws) (rs ++ rs')

/-- A command with redirections, of which the last is the outermost. -/
def Cmd.redirs (c : Cmd) (rs : List Redir) : Cmd := rs.foldl .redir c

/-- `&` after a command, `n` times. -/
def Cmd.backs (c : Cmd) : Nat → Cmd
  | 0 => c
  | n + 1 => (Cmd.back c).backs n

/-- The symbols of the grammar. -/
inductive Part
  | line
  | pipe
  | exec

/-- The tokens are a line, a pipe or an exec, which stands for the command. -/
inductive Derives : Part → List Tok → Cmd → Prop
  | line {ts : List Tok} {c : Cmd} (n : Nat) (h : Derives .pipe ts c) :
      Derives .line (ts ++ List.replicate n (.sym .amp)) (c.backs n)
  | list {ts us : List Tok} {c d : Cmd} (n : Nat) (h : Derives .pipe ts c)
      (hd : Derives .line us d) :
      Derives .line (ts ++ (List.replicate n (.sym .amp) ++ .sym .semi :: us)) (.list (c.backs n) d)
  | last {ts : List Tok} {c : Cmd} (h : Derives .exec ts c) : Derives .pipe ts c
  | pipe {ts us : List Tok} {c d : Cmd} (h : Derives .exec ts c) (hd : Derives .pipe us d) :
      Derives .pipe (ts ++ .sym .bar :: us) (.pipe c d)
  | block {ts us : List Tok} {c : Cmd} {rs : List Redir} (h : Derives .line ts c)
      (hr : Redirs us rs) :
      Derives .exec (.sym .lpar :: (ts ++ .sym .rpar :: us)) (c.redirs rs)
  | simple {ts us : List Tok} {ws : List Word} {rs rs' : List Redir} (hr : Redirs ts rs)
      (ha : Args us ws rs') (hlen : ws.length < MAXARGS) :
      Derives .exec (ts ++ us) ((Cmd.exec ws).redirs (rs ++ rs'))

/-! ## Rules for the parser -/

open Fueled List

section Look

variable {E : Nat → Prop} {s : List Char} {i : Nat} {x : Sym} {t : Tok} {ts : List Tok} {toks : List Char}

/-- The next token is a symbol that starts with one of these characters. -/
def Starts (toks : List Char) : List Tok → Prop
  | .sym x :: _ => x.first ∈ toks
  | _ => False

instance decidableStarts (toks : List Char) (ts : List Tok) : Decidable (Starts toks ts) := by
  unfold Starts
  split <;> infer_instance

theorem starts_cons : Starts toks (.sym x :: ts) ↔ x.first ∈ toks := Iff.rfl

theorem not_starts_nil : ¬ Starts toks [] := id

theorem not_starts_word {q eq : Nat} : ¬ Starts toks (.word q eq :: ts) := id

section

variable (h : At s i ts) (hs : NUL ∉ s) (htoks : ∀ c ∈ toks, c ∈ symbols)

include h hs htoks

/-- `peek` looks at the next token. -/
theorem peek_eq : (peek s i toks).1 = decide (Starts toks ts) := by
  cases ts with
  | nil => exact peek_nil h hs toks
  | cons t ts =>
    cases t with
    | sym x => exact peek_sym h hs toks
    | word q eq => exact peek_word h hs htoks

theorem look_eq : ∃ j, look s toks i = .ok (decide (Starts toks ts)) j ∧ At s j ts :=
  ⟨_, by rw [look, peek_eq h hs htoks], h.peek toks⟩

theorem wp_look {Q : Bool → Nat → Prop} (hQ : ∀ j, At s j ts → Q (decide (Starts toks ts)) j) :
    wp E (look s toks) Q i := by
  obtain ⟨j, hj, hat⟩ := look_eq h hs htoks
  rw [wp, hj]
  exact hQ j hat

end

theorem wp_token_sym {Q : Token → Nat → Prop} (h : At s i (.sym x :: ts)) (hs : NUL ∉ s)
    (hQ : ∀ tok j, tok.ret = x.code → At s j ts → Q tok j) : wp E (token s) Q i := by
  obtain ⟨hret, hat, -⟩ := gettoken_sym h hs
  exact hQ _ _ hret hat

theorem wp_token {Q : Token → Nat → Prop} (h : At s i ts) (hs : NUL ∉ s)
    (nil : ∀ tok j, ts = [] → tok.ret = NUL → At s j [] → Q tok j)
    (sym : ∀ x us tok j, ts = .sym x :: us → tok.ret = x.code → At s j us → Q tok j)
    (word : ∀ q eq us j, ts = .word q eq :: us → At s j us → Q ⟨'a', q, eq⟩ j) :
    wp E (token s) Q i := by
  cases ts with
  | nil =>
    obtain ⟨hret, hat⟩ := gettoken_nil h hs
    exact nil _ _ rfl hret hat
  | cons t ts =>
    cases t with
    | sym x =>
      obtain ⟨hret, hat, -⟩ := gettoken_sym h hs
      exact sym x ts _ _ rfl hret hat
    | word q eq =>
      obtain ⟨htok, hat, -⟩ := gettoken_word h hs
      have := word q eq ts _ rfl hat
      rw [← htok] at this
      exact this

theorem Sym.code_ne (x : Sym) : x.code ≠ 'a' ∧ x.code ≠ NUL := by
  cases x <;> decide

theorem starts_redir {ts : List Tok} (h : Starts ['<', '>'] ts) :
    ∃ x us mode fd, ts = .sym x :: us ∧ x.opens = some (mode, fd) ∧
      ∀ cmd file, redircmd cmd x.code file = .redir cmd ⟨file, mode, fd⟩ := by
  unfold Starts at h
  split at h
  · rename_i x us
    cases x with
    | lt => exact ⟨.lt, us, _, _, rfl, rfl, fun _ _ => rfl⟩
    | gt => exact ⟨.gt, us, _, _, rfl, rfl, fun _ _ => rfl⟩
    | gtgt => exact ⟨.gtgt, us, _, _, rfl, rfl, fun _ _ => rfl⟩
    | bar | amp | semi | lpar | rpar => exact absurd h (by decide)
  · exact h.elim

theorem starts_sym {c : Char} (hc : ∀ y : Sym, y.first = c → y = x)
    (h : Starts [c] ts) : ∃ us, ts = .sym x :: us := by
  unfold Starts at h
  split at h
  · rename_i y us
    rw [hc y (mem_singleton.1 h)]
    exact ⟨us, rfl⟩
  · exact h.elim

theorem wp_take_sym {α : Type} {Q : α → Nat → Prop} {c : Char} {f g : ParseM α} (hs : NUL ∉ s)
    (h : At s i (.sym x :: ts)) (hc : x.first = c) (hsym : c ∈ symbols)
    (yes : ∀ j, At s j ts → wp E f Q j) :
    wp E (do if ← look s [c] then let _ ← token s; f else g) Q i := by
  have hst : Starts [c] (.sym x :: ts) := mem_singleton.2 hc
  rw [wp_bind]
  refine wp_look h hs (by simpa using hsym) fun j hj => ?_
  rw [decide_eq_true hst, if_pos rfl, wp_bind]
  exact wp_token_sym hj hs fun _ j₁ _ h₁ => yes j₁ h₁

theorem wp_pass {α : Type} {Q : α → Nat → Prop} {c : Char} {f g : ParseM α} (hs : NUL ∉ s)
    (h : At s i ts) (hsym : c ∈ symbols) (hst : ¬ Starts [c] ts)
    (no : ∀ j, At s j ts → wp E g Q j) :
    wp E (do if ← look s [c] then let _ ← token s; f else g) Q i := by
  rw [wp_bind]
  refine wp_look h hs (by simpa using hsym) fun j hj => ?_
  rw [decide_eq_false hst, if_neg (by simp)]
  exact no j hj

theorem wp_take {α : Type} {Q : α → Nat → Prop} {c : Char} {f g : ParseM α} (hs : NUL ∉ s)
    (h : At s i ts) (hc : ∀ y : Sym, y.first = c → y = x) (hsym : c ∈ symbols)
    (yes : ∀ us j, ts = .sym x :: us → At s j us → wp E f Q j)
    (no : ∀ j, At s j ts → wp E g Q j) :
    wp E (do if ← look s [c] then let _ ← token s; f else g) Q i := by
  by_cases hst : Starts [c] ts
  · obtain ⟨us, rfl⟩ := starts_sym hc hst
    exact wp_take_sym hs h (mem_singleton.1 hst) hsym fun j hj => yes us j rfl hj
  · exact wp_pass hs h hsym hst no

end Look

/-! ## What the parser returns is derived -/

variable {Q : Cmd → Nat → Prop} {rs : List Redir}

section Sound

variable {s : List Char} {i : Nat} {ts : List Tok}

theorem wp_parseredirs (hs : NUL ∉ s) (fuel : Nat) {cmd : Cmd} (h : At s i ts)
    (hf : ts.length < fuel)
    (hQ : ∀ us vs rs j, ts = us ++ vs → Redirs us rs → At s j vs → Q (cmd.redirs rs) j) :
    wp (fun _ => True) (parseredirs s fuel cmd) Q i := by
  induction fuel generalizing i ts cmd with
  | zero => omega
  | succ fuel ih =>
    rw [parseredirs, wp_bind]
    refine wp_look h hs (by decide) fun j hj => ?_
    by_cases hst : Starts ['<', '>'] ts
    · obtain ⟨x, us, mode, fd, rfl, hx, hcmd⟩ := starts_redir hst
      rw [decide_eq_true hst, if_pos rfl, wp_bind]
      refine wp_token_sym hj hs fun tok j₁ hret h₁ => ?_
      rw [wp_bind]
      refine wp_token h₁ hs ?_ ?_ ?_
      · intro tok' j₂ _ hret' _
        rw [if_pos (by rw [hret']; decide)]
        trivial
      · intro y vs tok' j₂ _ hret' _
        rw [if_pos (by rw [hret']; exact y.code_ne.1)]
        trivial
      · intro q eq vs j₂ hvs h₂
        rw [if_neg (by simp), hret, hcmd]
        subst hvs
        refine ih h₂ (by simp only [length_cons] at hf; omega) fun us' vs' rs j₃ heq hr h₃ => ?_
        exact hQ (.sym x :: .word q eq :: us') vs' (⟨⟨q, eq⟩, mode, fd⟩ :: rs) j₃ (by rw [heq]; rfl)
          (.cons hx hr) h₃
    · rw [decide_eq_false hst, if_neg (by simp)]
      exact hQ [] ts [] j rfl .nil hj

theorem addArg_redirs (cmd : Cmd) (rs : List Redir) (w : Word) :
    (cmd.redirs rs).addArg w = (cmd.addArg w).redirs rs := by
  induction rs generalizing cmd with
  | nil => rfl
  | cons r rs ih => exact ih (.redir cmd r)

theorem redirs_append (cmd : Cmd) (rs rs' : List Redir) :
    cmd.redirs (rs ++ rs') = (cmd.redirs rs).redirs rs' := foldl_append

theorem wp_parseargs (hs : NUL ∉ s) (fuel : Nat) {argc : Nat}
    {ws : List Word} (h : At s i ts) (hf : ts.length < fuel)
    (hargc : argc < MAXARGS)
    (hQ : ∀ us vs ws' rs' j, ts = us ++ vs → Args us ws' rs' → argc + ws'.length < MAXARGS →
      At s j vs → Q ((Cmd.exec (ws ++ ws')).redirs (rs ++ rs')) j) :
    wp (fun _ => True) (parseargs s fuel argc ((Cmd.exec ws).redirs rs)) Q i := by
  induction fuel generalizing i ts argc ws rs with
  | zero => omega
  | succ fuel ih =>
    have hend : ∀ us j, ts = us → At s j us → Q ((Cmd.exec ws).redirs rs) j := by
      intro us j hus hj
      have := hQ [] us [] [] j hus .nil hargc hj
      rwa [append_nil, append_nil] at this
    rw [parseargs, wp_bind]
    refine wp_look h hs (by decide) fun j hj => ?_
    by_cases hst : Starts ['|', ')', '&', ';'] ts
    · rw [decide_eq_true hst, if_pos rfl]
      exact hend ts j rfl hj
    rw [decide_eq_false hst, if_neg (by simp), wp_bind]
    refine wp_token hj hs ?_ ?_ ?_
    · intro tok j₁ hts hret h₁
      rw [if_pos hret]
      exact hend [] j₁ hts h₁
    · intro x us tok j₁ _ hret _
      rw [if_neg (by rw [hret]; exact x.code_ne.2), if_pos (by rw [hret]; exact x.code_ne.1)]
      trivial
    · intro q eq us j₁ hts h₁
      subst hts
      simp only [length_cons] at hf
      rw [if_neg (show 'a' ≠ NUL by decide), if_neg (by simp)]
      by_cases hmax : argc + 1 ≥ MAXARGS
      · rw [if_pos hmax]
        trivial
      rw [if_neg hmax, wp_bind, addArg_redirs]
      refine wp_parseredirs hs fuel h₁ (by omega) fun us₁ vs₁ rs₁ j₂ heq hr h₂ => ?_
      subst heq
      rw [← redirs_append]
      simp only [length_append] at hf
      refine ih h₂ (by omega) (by omega) fun us₂ vs₂ ws₂ rs₂ j₃ heq₂ ha hlen h₃ => ?_
      subst heq₂
      have := hQ (.word q eq :: (us₁ ++ us₂)) vs₂ (⟨q, eq⟩ :: ws₂) (rs₁ ++ rs₂) j₃ (by simp)
        (.cons hr ha) (by simp only [length_cons]; omega) h₃
      simpa using this

theorem wp_parsebacks (hs : NUL ∉ s) (fuel : Nat) {cmd : Cmd}
    (h : At s i ts) (hf : ts.length < fuel)
    (hQ : ∀ n vs j, ts = replicate n (.sym .amp) ++ vs → At s j vs → Q (cmd.backs n) j) :
    wp (fun _ => True) (parsebacks s fuel cmd) Q i := by
  induction fuel generalizing i ts cmd with
  | zero => omega
  | succ fuel ih =>
    rw [parsebacks]
    refine wp_take (x := .amp) hs h (fun y => ?_) (by decide) ?_ fun j hj => hQ 0 ts j rfl hj
    · cases y <;> decide
    · intro us j hus hj
      subst hus
      simp only [length_cons] at hf
      refine ih hj (by omega) fun n vs j₁ heq h₁ => hQ (n + 1) vs j₁ ?_ h₁
      rw [heq]
      rfl

/-- What a function of the parser returns is derived from the tokens it has taken. -/
def Sound (s : List Char) (part : Part) (x : ParseM Cmd) (i : Nat) (ts : List Tok) : Prop :=
  wp (fun _ => True) x (fun c j => ∃ us vs, ts = us ++ vs ∧ At s j vs ∧ Derives part us c) i

/-- **What the parser returns is derived.**  A function with enough fuel for the tokens to
come does not run out of it. -/
theorem parse_sound (hs : NUL ∉ s) (fuel : Nat) :
    (∀ i ts, At s i ts → 4 * ts.length + 3 < fuel → Sound s .line (parseline s fuel) i ts) ∧
    (∀ i ts, At s i ts → 4 * ts.length + 2 < fuel → Sound s .pipe (parsepipe s fuel) i ts) ∧
    (∀ i ts, At s i ts → 4 * ts.length < fuel → Sound s .exec (parseblock s fuel) i ts) ∧
    (∀ i ts, At s i ts → 4 * ts.length + 1 < fuel → Sound s .exec (parseexec s fuel) i ts) := by
  induction fuel with
  | zero => simp
  | succ fuel ih =>
    obtain ⟨ihline, ihpipe, ihblock, ihexec⟩ := ih
    refine ⟨fun i ts h hf => ?_, fun i ts h hf => ?_, fun i ts h hf => ?_, fun i ts h hf => ?_⟩
    · rw [Sound, parseline, wp_bind]
      refine (ihpipe i ts h (by omega)).mono ?_
      rintro c j ⟨us, vs, rfl, hj, hc⟩
      simp only [length_append] at hf
      rw [wp_bind]
      refine wp_parsebacks hs fuel hj (by omega) fun n vs₁ j₁ heq h₁ => ?_
      subst heq
      simp only [length_append, length_replicate] at hf
      refine wp_take (x := .semi) hs h₁ (fun y => ?_) (by decide) ?_ fun j₂ h₂ => ?_
      · cases y <;> decide
      · intro vs₂ j₂ heq h₂
        subst heq
        simp only [List.length_cons] at hf
        rw [wp_bind]
        refine (ihline j₂ vs₂ h₂ (by omega)).mono ?_
        rintro d j₃ ⟨us₃, vs₃, rfl, h₃, hd⟩
        exact ⟨_, vs₃, by simp, h₃, .list n hc hd⟩
      · exact ⟨_, vs₁, by simp, h₂, .line n hc⟩
    · rw [Sound, parsepipe, wp_bind]
      refine (ihexec i ts h (by omega)).mono ?_
      rintro c j ⟨us, vs, rfl, hj, hc⟩
      simp only [List.length_append] at hf
      refine wp_take (x := .bar) hs hj (fun y => ?_) (by decide) ?_ fun j₁ h₁ => ?_
      · cases y <;> decide
      · intro vs₁ j₁ heq h₁
        subst heq
        simp only [List.length_cons] at hf
        rw [wp_bind]
        refine (ihpipe j₁ vs₁ h₁ (by omega)).mono ?_
        rintro d j₂ ⟨us₂, vs₂, rfl, h₂, hd⟩
        exact ⟨_, vs₂, by simp, h₂, .pipe hc hd⟩
      · exact ⟨us, vs, rfl, h₁, .last hc⟩
    · rw [Sound, parseblock]
      refine wp_take (x := .lpar) hs h (fun y => ?_) (by decide) ?_ fun j _ => trivial
      · cases y <;> decide
      intro us j hus hj
      subst hus
      simp only [length_cons] at hf
      rw [wp_bind]
      refine (ihline j us hj (by omega)).mono ?_
      rintro c j₁ ⟨us₁, vs₁, rfl, h₁, hc⟩
      simp only [length_append] at hf
      refine wp_take (x := .rpar) hs h₁ (fun y => ?_) (by decide) ?_ fun j _ => trivial
      · cases y <;> decide
      intro us₂ j₂ heq h₂
      subst heq
      simp only [List.length_cons] at hf
      refine wp_parseredirs hs fuel h₂ (by omega) fun us₃ vs₃ rs j₃ heq hr h₃ => ?_
      subst heq
      exact ⟨_, vs₃, by simp, h₃, .block hc hr⟩
    · rw [Sound, parseexec, wp_bind]
      refine wp_look h hs (by decide) fun j hj => ?_
      by_cases hst : Starts ['('] ts
      · rw [decide_eq_true hst, if_pos rfl]
        exact ihblock j ts hj (by omega)
      rw [decide_eq_false hst, if_neg (by simp), wp_bind]
      refine wp_parseredirs hs fuel hj (by omega) fun us vs rs j₁ heq hr h₁ => ?_
      subst heq
      simp only [length_append] at hf
      refine wp_parseargs hs fuel h₁ (by omega) (by decide) ?_
      intro us₂ vs₂ ws rs' j₂ heq ha hlen h₂
      subst heq
      exact ⟨us ++ us₂, vs₂, by simp, h₂, .simple hr ha (by simpa using hlen)⟩

end Sound

/-! ## What is derived, the parser returns -/

section Complete

variable {E : Nat → Prop} {s : List Char} {i : Nat} {ts us vs : List Tok}

/-- How a token that may come behind a part starts. -/
def Part.follows : Part → List Char
  | .line => [')']
  | .pipe => [')', ';', '&']
  | .exec => [')', ';', '&', '|']

/-- The tokens may come behind a part. -/
def Part.Follow (part : Part) (ts : List Tok) : Prop := ts = [] ∨ Starts part.follows ts

theorem Starts.mono {toks toks' : List Char} (h : Starts toks ts) (hd : toks ⊆ toks') :
    Starts toks' ts := by
  unfold Starts at h ⊢
  split at h
  · exact hd h
  · exact h.elim

theorem Part.Follow.mono {part part' : Part} (h : part.Follow vs)
    (hd : part.follows ⊆ part'.follows) : part'.Follow vs := h.imp_right fun h => h.mono hd

/-- A symbol that may come next is not another one. -/
theorem Part.Follow.not_starts {part : Part} {toks : List Char} (h : part.Follow vs)
    (hd : ∀ c ∈ part.follows, c ∉ toks) : ¬ Starts toks vs := by
  obtain rfl | h := h
  · exact not_starts_nil
  · unfold Starts at h ⊢
    split at h
    · exact hd _ h
    · exact h.elim

theorem follow_replicate (n : Nat) (h : Part.Follow .pipe vs) :
    Part.Follow .pipe (replicate n (.sym .amp) ++ vs) := by
  cases n with
  | zero => exact h
  | succ n =>
    exact .inr (starts_cons.2 (by decide))

theorem Args.not_starts {ws : List Word} {toks : List Char} (ha : Args us ws rs)
    (hvs : ¬ Starts toks vs) : ¬ Starts toks (us ++ vs) := by
  cases ha with
  | nil => exact hvs
  | cons => exact not_starts_word

theorem Sym.first_of_opens {x : Sym} {p : Nat × Nat} (hx : x.opens = some p) :
    x.first ∈ ['<', '>'] := by
  cases x with
  | lt | gt | gtgt => decide
  | bar | amp | semi | lpar | rpar => cases hx

theorem Redirs.not_starts {c : Char} (hr : Redirs us rs) (hc : c ∉ ['<', '>'])
    (hvs : ¬ Starts [c] vs) : ¬ Starts [c] (us ++ vs) := by
  cases hr with
  | nil => exact hvs
  | cons hx =>
    rw [cons_append, starts_cons, mem_singleton]
    rintro rfl
    exact hc (Sym.first_of_opens hx)

theorem run_parseredirs (hs : NUL ∉ s)
    (hr : Redirs us rs) (hvs : ¬ Starts ['<', '>'] vs) {fuel : Nat} {cmd : Cmd}
    (h : At s i (us ++ vs)) (hf : (us ++ vs).length < fuel)
    (hQ : ∀ j, At s j vs → Q (cmd.redirs rs) j) : wp E (parseredirs s fuel cmd) Q i := by
  induction hr generalizing i fuel cmd with
  | nil =>
    rw [nil_append] at h hf
    obtain ⟨fuel, rfl⟩ := Nat.exists_eq_add_of_lt hf
    rw [parseredirs, wp_bind]
    refine wp_look h hs (by decide) fun j hj => ?_
    rw [decide_eq_false hvs, if_neg (by simp)]
    exact hQ j hj
  | @cons x q eq mode fd ts rs hx hr ih =>
    obtain ⟨fuel, rfl⟩ := Nat.exists_eq_add_of_lt hf
    have hst : Starts ['<', '>'] (.sym x :: .word q eq :: (ts ++ vs)) := Sym.first_of_opens hx
    obtain ⟨y, us, mode', fd', heq, hy, hcmd⟩ := starts_redir hst
    cases heq
    cases hx.symm.trans hy
    rw [parseredirs, wp_bind]
    refine wp_look h hs (by decide) fun j hj => ?_
    rw [cons_append, cons_append, decide_eq_true hst, if_pos rfl, wp_bind]
    refine wp_token_sym hj hs fun tok j₁ hret h₁ => ?_
    rw [wp_bind]
    refine wp_token h₁ hs (fun _ _ h' => absurd h' (by simp)) (fun _ _ _ _ h' => absurd h' (by simp)) ?_
    intro q' eq' us j₂ heq h₂
    cases heq
    rw [if_neg (by simp), hret, hcmd]
    exact ih h₂ (by simp only [length_cons]; omega) hQ

theorem run_parseargs (hs : NUL ∉ s) {ws : List Word}
    (ha : Args us ws rs) (hvs : Part.Follow .exec vs) {fuel argc : Nat} {ws₀ : List Word}
    {rs₀ : List Redir} (h : At s i (us ++ vs)) (hf : (us ++ vs).length < fuel)
    (hargc : argc + ws.length < MAXARGS)
    (hQ : ∀ j, At s j vs → Q ((Cmd.exec (ws₀ ++ ws)).redirs (rs₀ ++ rs)) j) :
    wp E (parseargs s fuel argc ((Cmd.exec ws₀).redirs rs₀)) Q i := by
  induction ha generalizing i fuel argc ws₀ rs₀ with
  | nil =>
    obtain ⟨fuel, rfl⟩ := Nat.exists_eq_add_of_lt hf
    rw [append_nil, append_nil] at hQ
    rw [parseargs, wp_bind]
    refine wp_look h hs (by decide) fun j hj => ?_
    obtain rfl | hst := hvs
    · rw [append_nil, decide_eq_false not_starts_nil, if_neg (by simp), wp_bind]
      refine wp_token hj hs ?_ (fun _ _ _ _ h' => absurd h' (by simp))
        fun _ _ _ _ h' => absurd h' (by simp)
      intro tok j₁ _ hret h₁
      rw [if_pos hret]
      exact hQ j₁ h₁
    · rw [nil_append, decide_eq_true (hst.mono (by decide)), if_pos rfl]
      exact hQ j hj
  | @cons q eq us ts ws rs rs' hr ha ih =>
    obtain ⟨fuel, rfl⟩ := Nat.exists_eq_add_of_lt hf
    simp only [length_cons, cons_append, append_assoc] at hf hargc h ⊢
    rw [parseargs, wp_bind]
    refine wp_look h hs (by decide) fun j hj => ?_
    rw [decide_eq_false not_starts_word, if_neg (by simp), wp_bind]
    refine wp_token hj hs (fun _ _ h' => absurd h' (by simp)) (fun _ _ _ _ h' => absurd h' (by simp)) ?_
    intro q' eq' us' j₁ heq h₁
    cases heq
    rw [if_neg (show 'a' ≠ NUL by decide), if_neg (by simp), if_neg (by omega), wp_bind,
      addArg_redirs]
    refine run_parseredirs hs hr (ha.not_starts (hvs.not_starts (by decide))) h₁ (by omega)
      fun j₂ h₂ => ?_
    rw [← redirs_append]
    refine ih h₂ ?_ (by omega) fun j₃ h₃ => ?_
    · simp only [length_append] at hf ⊢
      omega
    have := hQ j₃ h₃
    simpa using this

theorem run_parsebacks (hs : NUL ∉ s) (n : Nat) {fuel : Nat} {cmd : Cmd}
    (hvs : ¬ Starts ['&'] vs) (h : At s i (replicate n (.sym .amp) ++ vs))
    (hf : n + vs.length < fuel) (hQ : ∀ j, At s j vs → Q (cmd.backs n) j) :
    wp E (parsebacks s fuel cmd) Q i := by
  induction n generalizing i fuel cmd with
  | zero =>
    obtain ⟨fuel, rfl⟩ := Nat.exists_eq_add_of_lt hf
    rw [parsebacks]
    exact wp_pass hs h (by decide) hvs hQ
  | succ n ih =>
    obtain ⟨fuel, rfl⟩ := Nat.exists_eq_add_of_lt hf
    rw [parsebacks]
    exact wp_take_sym hs h rfl (by decide) fun j hj => ih hj (by omega) hQ

/-- The function of the parser for a part. -/
def Part.parse (s : List Char) : Part → Nat → ParseM Cmd
  | .line => parseline s
  | .pipe => parsepipe s
  | .exec => parseexec s

/-- How much more fuel than for its tokens a part needs. -/
def Part.depth : Part → Nat
  | .line => 3
  | .pipe => 2
  | .exec => 1

/-- **The parser returns what is derived.** -/
theorem parse_complete (hs : NUL ∉ s) {part : Part} {c : Cmd} (hc : Derives part us c)
    (hvs : part.Follow vs) {fuel : Nat} (h : At s i (us ++ vs))
    (hf : 4 * (us ++ vs).length + part.depth < fuel)
    (hQ : ∀ j, At s j vs → Q c j) : wp E (part.parse s fuel) Q i := by
  induction hc generalizing i vs fuel Q with
  | @line ts c n _ ih =>
    obtain ⟨fuel, rfl⟩ := Nat.exists_eq_add_of_lt hf
    rw [append_assoc] at h
    simp only [Part.parse, Part.depth, length_append, length_replicate] at hf ih ⊢
    rw [parseline, wp_bind]
    refine ih (follow_replicate n (hvs.mono (by decide))) h ?_ fun j hj => ?_
    · simp only [length_append, length_replicate]
      omega
    rw [wp_bind]
    refine run_parsebacks hs n (hvs.not_starts (by decide)) hj (by omega) fun j₁ h₁ => ?_
    exact wp_pass hs h₁ (by decide) (hvs.not_starts (by decide)) hQ
  | @list ts us c d n _ _ ih ihd =>
    obtain ⟨fuel, rfl⟩ := Nat.exists_eq_add_of_lt hf
    rw [append_assoc, append_assoc, cons_append] at h
    simp only [Part.parse, Part.depth, length_append, length_cons, length_replicate] at hf ih ihd ⊢
    rw [parseline, wp_bind]
    refine ih (follow_replicate n (.inr (starts_cons.2 (by decide)))) h ?_ fun j hj => ?_
    · simp only [length_append, length_cons, length_replicate]
      omega
    rw [wp_bind]
    refine run_parsebacks hs n (starts_cons.not.2 (by decide)) hj ?_ fun j₁ h₁ => ?_
    · simp only [length_append, length_cons]
      omega
    refine wp_take_sym hs h₁ rfl (by decide) fun j₂ h₂ => ?_
    rw [wp_bind]
    exact ihd hvs h₂ (by omega) hQ
  | @last ts c _ ih =>
    obtain ⟨fuel, rfl⟩ := Nat.exists_eq_add_of_lt hf
    simp only [Part.parse, Part.depth] at hf ih ⊢
    rw [parsepipe, wp_bind]
    refine ih (hvs.mono (by decide)) h (by omega) fun j hj => ?_
    exact wp_pass hs hj (by decide) (hvs.not_starts (by decide)) hQ
  | @pipe ts us c d _ _ ih ihd =>
    obtain ⟨fuel, rfl⟩ := Nat.exists_eq_add_of_lt hf
    rw [append_assoc, cons_append] at h
    simp only [Part.parse, Part.depth, length_append, length_cons] at hf ih ihd ⊢
    rw [parsepipe, wp_bind]
    refine ih (.inr (starts_cons.2 (by decide))) h ?_ fun j hj => ?_
    · simp only [length_append, length_cons]
      omega
    refine wp_take_sym hs hj rfl (by decide) fun j₁ h₁ => ?_
    rw [wp_bind]
    exact ihd hvs h₁ (by omega) hQ
  | @block ts us c rs _ hr ih =>
    rw [cons_append, append_assoc, cons_append] at h
    simp only [Part.parse, Part.depth, length_append, length_cons] at hf ih ⊢
    obtain ⟨fuel, rfl⟩ : ∃ f, fuel = f + 2 := ⟨fuel - 2, by omega⟩
    rw [parseexec, wp_bind]
    refine wp_look h hs (by decide) fun j hj => ?_
    rw [decide_eq_true (starts_cons.2 (by decide)), if_pos rfl, parseblock]
    refine wp_take_sym hs hj rfl (by decide) fun j₁ h₁ => ?_
    rw [wp_bind]
    refine ih (.inr (starts_cons.2 (by decide))) h₁ ?_ fun j₂ h₂ => ?_
    · simp only [length_append, length_cons]
      omega
    refine wp_take_sym hs h₂ rfl (by decide) fun j₃ h₃ => ?_
    refine run_parseredirs hs hr (hvs.not_starts (by decide)) h₃ ?_ hQ
    simp only [length_append]
    omega
  | @simple ts us ws rs rs' hr ha hlen =>
    obtain ⟨fuel, rfl⟩ := Nat.exists_eq_add_of_lt hf
    rw [append_assoc] at h
    simp only [Part.parse, Part.depth, length_append] at hf ⊢
    rw [parseexec, wp_bind]
    refine wp_look h hs (by decide) fun j hj => ?_
    have hpar : ¬ Starts ['('] (ts ++ (us ++ vs)) :=
      hr.not_starts (by decide) (ha.not_starts (hvs.not_starts (by decide)))
    rw [decide_eq_false hpar, if_neg (by simp), wp_bind]
    refine run_parseredirs hs hr (ha.not_starts (hvs.not_starts (by decide))) hj ?_ fun j₁ h₁ => ?_
    · simp only [length_append]
      omega
    refine run_parseargs hs ha hvs h₁ ?_ (by omega) hQ
    simp only [length_append]
    omega

end Complete

/-! ## The whole input -/

section Input

variable {s : List Char} {c : Cmd}

theorem at_zero (s : List Char) : At s 0 (lex s 0) := ⟨Nat.zero_le _, rfl⟩

theorem length_lex_le (hs : NUL ∉ s) : (lex s 0).length ≤ s.length := by
  have := (at_zero s).length_le hs
  omega

/-- Something is left over unless the tokens are at their end. -/
theorem wp_leftovers {E : Nat → Prop} {cmd : Cmd} {j : Nat} {vs : List Tok} (hs : NUL ∉ s)
    (h : At s j vs) {Q : Cmd × (Nat → Char) → Nat → Prop}
    (nil : vs = [] → Q (cmd, nulterminate cmd (chr s)) s.length) (more : vs ≠ [] → ∀ i, E i) :
    wp E (do let _ ← look s []; leftovers s cmd) Q j := by
  rw [wp_bind]
  show wp E (leftovers s cmd) Q (skip s j)
  unfold wp leftovers
  by_cases hvs : vs = []
  · subst hvs
    rw [h.skip_eq hs, if_neg (by simp)]
    exact nil rfl
  · have hne : skip s j ≠ s.length := by
      intro heq
      have hat := h.skip
      rw [heq] at hat
      exact hvs (hat.rest.symm.trans (rest_nil (drop_length ..)))
    rw [if_pos hne]
    exact more hvs _

theorem wp_parsecmd (hs : NUL ∉ s) : wp (fun _ => True) (parsecmd s)
      (fun r _ => Derives .line (lex s 0) r.1 ∧ r.2 = nulterminate r.1 (chr s)) 0 := by
  have hlen := length_lex_le hs
  rw [parsecmd, wp_bind]
  refine ((parse_sound hs _).1 0 _ (at_zero s) (by omega)).mono ?_
  rintro c j ⟨us, vs, heq, hj, hc⟩
  refine wp_leftovers hs hj ?_ fun _ _ => trivial
  rintro rfl
  rw [heq, List.append_nil]
  exact ⟨hc, rfl⟩

theorem run_parsecmd (hs : NUL ∉ s) (hc : Derives .line (lex s 0) c) :
    parsecmd s 0 = .ok (c, nulterminate c (chr s)) s.length := by
  have hlen := length_lex_le hs
  have hwp : wp (fun _ => False) (parsecmd s)
      (fun r j => r = (c, nulterminate c (chr s)) ∧ j = s.length) 0 := by
    rw [parsecmd, wp_bind]
    change wp (fun _ => False) (Part.parse s .line (4 * s.length + 4)) _ 0
    refine parse_complete hs hc (.inl rfl : Part.Follow .line []) ?_ ?_ fun j hj => ?_
    · rw [append_nil]
      exact at_zero s
    · rw [append_nil, Part.depth]
      omega
    · exact wp_leftovers hs hj (fun _ => ⟨rfl, rfl⟩) fun h _ => h rfl
  unfold wp at hwp
  split at hwp
  · rename_i r j heq
    rw [heq, hwp.1, hwp.2]
  · exact hwp.elim
  · exact hwp.elim

/-- **The parser accepts exactly its grammar.**  For every string without a zero, `parsecmd`
returns the command of the derivation of the tokens, which is the only one; if there is none,
it panics. -/
theorem parsecmd_accepts_grammar (s : List Char) (hs : NUL ∉ s) :
    (∀ c, (∃ buf i, parsecmd s 0 = .ok (c, buf) i) ↔ Derives .line (lex s 0) c) ∧
    (∀ c d, Derives .line (lex s 0) c → Derives .line (lex s 0) d → c = d) ∧
    ((∀ c, ¬ Derives .line (lex s 0) c) → ∃ why i, parsecmd s 0 = .panic why i) := by
  have hwp := wp_parsecmd hs
  unfold wp at hwp
  refine ⟨fun c => ⟨?_, fun hc => ⟨_, _, run_parsecmd hs hc⟩⟩, fun c d hc hd => ?_, fun hnone => ?_⟩
  · rintro ⟨buf, i, heq⟩
    rw [heq] at hwp
    exact hwp.1
  · have heq := (run_parsecmd hs hc).symm.trans (run_parsecmd hs hd)
    cases heq
    rfl
  · split at hwp
    · exact (hnone _ hwp.1).elim
    · exact ⟨_, _, by assumption⟩
    · exact hwp.elim

/-- `a | b > c`. -/
theorem parsecmd_accepts_pipe : NUL ∉ ['a', ' ', '|', 'b', '>', 'c'] ∧
      Derives .line (lex ['a', ' ', '|', 'b', '>', 'c'] 0)
        (.pipe (.exec [⟨0, 1⟩]) (.redir (.exec [⟨3, 4⟩]) ⟨⟨5, 6⟩, O_WRONLY ||| O_CREATE, 1⟩)) :=
  have hs : NUL ∉ ['a', ' ', '|', 'b', '>', 'c'] := by decide
  ⟨hs, ((parsecmd_accepts_grammar _ hs).1 _).1 ⟨_, _, rfl⟩⟩

end Input

end Xv6.Shell
