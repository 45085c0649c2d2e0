import OperatingSystems.Shell.Grammar

/-!
# The strings of a command

The strings of a command are pointers into the one buffer that holds the line, and
`nulterminate` writes a zero behind each of them.  A word of a command is a word of the line,
so the character behind it belongs to no word: the zeros are outside all of them.

* `nulterminate_apply` — where `nulterminate` writes.
* `Derives.word_mem` — the words of a command are the words of the line.
* `words_survive_nulterminate` — **every string of a command is the word it was parsed from**.
-/

namespace Xv6.Shell

open Function List

/-- The strings of a command: its arguments and the files of its redirections. -/
def Cmd.words : Cmd → List Word
  | .exec argv => argv
  | .redir cmd r => r.file :: cmd.words
  | .pipe left right => left.words ++ right.words
  | .list left right => left.words ++ right.words
  | .back cmd => cmd.words

/-- The characters of a word. -/
def Word.chars (s : List Char) (w : Word) : List Char := (s.drop w.q).take (w.eq - w.q)

/-- The string at a pointer: what is there up to the zero, if it is among the first `n`
characters. -/
def cstr (buf : Nat → Char) : (n : Nat) → (q : Nat) → Option (List Char)
  | 0, _ => none
  | n + 1, q => if buf q = NUL then some [] else (cstr buf n (q + 1)).map (buf q :: ·)

/-! ## Where the zeros are -/

theorem foldl_update (argv : List Word) (buf : Nat → Char) (j : Nat) :
    argv.foldl (fun buf w => update buf w.eq NUL) buf j =
      if j ∈ argv.map Word.eq then NUL else buf j := by
  induction argv generalizing buf with
  | nil => rfl
  | cons w argv ih =>
    rw [foldl_cons, ih, map_cons]
    by_cases hj : j ∈ argv.map Word.eq
    · rw [if_pos hj, if_pos (mem_cons_of_mem _ hj)]
    · by_cases hw : j = w.eq
      · subst hw
        rw [if_neg hj, update_self, if_pos mem_cons_self]
      · rw [if_neg hj, update_of_ne hw, if_neg (by simp [hw, hj])]

/-- **`nulterminate` writes a zero behind every word**, and nothing else. -/
theorem nulterminate_apply (cmd : Cmd) (buf : Nat → Char) (j : Nat) :
    nulterminate cmd buf j = if j ∈ cmd.words.map Word.eq then NUL else buf j := by
  induction cmd generalizing buf with
  | exec argv => exact foldl_update argv buf j
  | redir cmd r ih =>
    rw [nulterminate, Cmd.words, map_cons]
    by_cases hj : j = r.file.eq
    · subst hj
      rw [update_self, if_pos mem_cons_self]
    · rw [update_of_ne hj, ih]
      simp [hj]
  | pipe left right ihl ihr | list left right ihl ihr =>
    rw [nulterminate, ihr, ihl, Cmd.words, map_append]
    by_cases hl : j ∈ left.words.map Word.eq <;> by_cases hr : j ∈ right.words.map Word.eq <;>
      simp only [mem_append, hl, hr, if_true, if_false, or_true, or_false, or_self]
  | back cmd ih => exact ih buf

/-! ## The words of a command are words of the line -/

section Derived

variable {ts : List Tok} {c : Cmd} {w : Word}

theorem mem_words_redirs {rs : List Redir} :
    w ∈ (c.redirs rs).words ↔ w ∈ c.words ∨ w ∈ rs.map Redir.file := by
  induction rs generalizing c with
  | nil => simp [Cmd.redirs]
  | cons r rs ih =>
    show w ∈ ((Cmd.redir c r).redirs rs).words ↔ _
    rw [ih, Cmd.words, map_cons, mem_cons, mem_cons, or_assoc]
    exact or_left_comm

theorem words_backs (c : Cmd) (n : Nat) : (c.backs n).words = c.words := by
  induction n generalizing c with
  | zero => rfl
  | succ n ih => exact ih (.back c)

theorem word_eq_iff {q eq : Nat} : Tok.word w.q w.eq = .word q eq ↔ w = ⟨q, eq⟩ := by
  cases w
  simp

theorem Redirs.word_mem {rs : List Redir} (h : Redirs ts rs) :
    .word w.q w.eq ∈ ts ↔ w ∈ rs.map Redir.file := by
  induction h with
  | nil => simp
  | cons _ _ ih =>
    simp only [mem_cons, map_cons, ih, word_eq_iff, reduceCtorEq, false_or]

theorem Args.word_mem {ws : List Word} {rs : List Redir} (h : Args ts ws rs) :
    .word w.q w.eq ∈ ts ↔ w ∈ ws ∨ w ∈ rs.map Redir.file := by
  induction h with
  | nil => simp
  | cons hr _ ih =>
    rw [mem_cons, mem_append, mem_cons, hr.word_mem, ih, word_eq_iff, map_append,
      mem_append, or_assoc]
    exact or_congr_right or_left_comm

/-- **The words of a command are the words of the line.** -/
theorem Derives.word_mem {part : Part} (h : Derives part ts c) :
    .word w.q w.eq ∈ ts ↔ w ∈ c.words := by
  induction h with
  | line n _ ih =>
    rw [words_backs, ← ih]
    simp
  | list n _ _ ih ihd =>
    simp [Cmd.words, words_backs, ih, ihd]
  | last _ ih => exact ih
  | pipe _ _ ih ihd =>
    simp [Cmd.words, ih, ihd]
  | block _ hr ih =>
    rw [mem_words_redirs, ← ih, ← hr.word_mem]
    simp
  | simple hr ha _ =>
    rw [mem_words_redirs, mem_append, hr.word_mem, ha.word_mem, map_append, mem_append, Cmd.words]
    exact or_left_comm

end Derived

/-! ## The strings -/

section Strings

variable {s : List Char} {buf : Nat → Char} {c : Cmd} {i : Nat}

theorem Delimited.not_inside {q eq q' eq' : Nat} (h : Delimited s q eq) (h' : Delimited s q' eq') :
    ¬ (q' ≤ eq ∧ eq < eq') := by
  rintro ⟨hle, hlt⟩
  have hin := h'.inside eq hle hlt
  obtain heq | hout := h.after
  · have := h'.le
    omega
  · rw [hin] at hout
    cases hout

theorem cstr_eq {q len n : Nat} (hin : ∀ j, q ≤ j → j < q + len → buf j = chr s j ∧ chr s j ≠ NUL)
    (hend : buf (q + len) = NUL) (hle : q + len ≤ s.length) (hn : len < n) :
    cstr buf n q = some ((s.drop q).take len) := by
  induction len generalizing q n with
  | zero =>
    obtain ⟨n, rfl⟩ := Nat.exists_eq_add_of_lt hn
    rw [Nat.add_zero] at hend
    rw [cstr, if_pos hend, take_zero]
  | succ len ih =>
    obtain ⟨n, rfl⟩ : ∃ m, n = m + 1 := ⟨n - 1, by omega⟩
    obtain ⟨hbuf, hne⟩ := hin q (Nat.le_refl q) (by omega)
    have hlt : q < s.length := by omega
    have hdrop : s.drop q = chr s q :: s.drop (q + 1) := by
      rw [drop_eq_getElem_cons hlt, chr, getD_eq_getElem?_getD,
        getElem?_eq_getElem hlt, Option.getD_some]
    rw [cstr, if_neg (by rw [hbuf]; exact hne), ih (fun j h₁ h₂ => hin j (by omega) (by omega))
      (by rw [← hend]; congr 1; omega) (by omega) (by omega), hdrop, take_succ_cons,
      Option.map_some, hbuf]

section

variable (hs : NUL ∉ s) (h : parsecmd s 0 = .ok (c, buf) i)

include hs h

theorem derives_of_parsecmd : Derives .line (lex s 0) c ∧ buf = nulterminate c (chr s) := by
  have hwp := wp_parsecmd hs
  unfold Fueled.wp at hwp
  rwa [h] at hwp

/-- The words of a command are delimited, and none of them ends in another one. -/
theorem delimited_of_parsecmd {w : Word} (hw : w ∈ c.words) : Delimited s w.q w.eq :=
  delimited_of_mem (at_zero s) hs ((derives_of_parsecmd hs h).1.word_mem.2 hw)

theorem cstr_of_parsecmd {w : Word}
    (hw : w ∈ c.words) : cstr buf (s.length + 1) w.q = some (w.chars s) := by
  have hd := delimited_of_parsecmd hs h hw
  have hlt := hd.lt
  have hle := hd.le
  obtain ⟨-, rfl⟩ := derives_of_parsecmd hs h
  refine cstr_eq (fun j h₁ h₂ => ⟨?_, ?_⟩) ?_ (by omega) (by omega)
  · rw [nulterminate_apply, if_neg]
    intro hmem
    obtain ⟨v, hv, rfl⟩ := mem_map.1 hmem
    exact (delimited_of_parsecmd hs h hv).not_inside hd ⟨h₁, by omega⟩
  · have hj : j < s.length := by omega
    rw [chr, getD_eq_getElem?_getD, getElem?_eq_getElem hj, Option.getD_some]
    intro heq
    exact hs (heq ▸ getElem_mem hj)
  · rw [nulterminate_apply, if_pos]
    exact mem_map.2 ⟨w, hw, by omega⟩

end

/-- **Every string of a command is the word it was parsed from.**  For every line that
`parsecmd` accepts, a string of the command, read from the buffer, has exactly the characters
of a word of the line, and no zero is written inside or at the start of one. -/
theorem words_survive_nulterminate (hs : NUL ∉ s) (h : parsecmd s 0 = .ok (c, buf) i) {w : Word}
    (hw : w ∈ c.words) :
    Tok.word w.q w.eq ∈ lex s 0 ∧ Delimited s w.q w.eq ∧
      cstr buf (s.length + 1) w.q = some (w.chars s) ∧
      ∀ v ∈ c.words, ¬ (w.q ≤ v.eq ∧ v.eq < w.eq) :=
  ⟨(derives_of_parsecmd hs h).1.word_mem.2 hw, delimited_of_parsecmd hs h hw,
    cstr_of_parsecmd hs h hw,
    fun _ hv => (delimited_of_parsecmd hs h hv).not_inside (delimited_of_parsecmd hs h hw)⟩

/-- `a>b`: the zero behind `a` is at the symbol. -/
theorem words_survive_redirection : parsecmd ['a', '>', 'b'] 0 =
        .ok (.redir (.exec [⟨0, 1⟩]) ⟨⟨2, 3⟩, O_WRONLY ||| O_CREATE, 1⟩,
          nulterminate (.redir (.exec [⟨0, 1⟩]) ⟨⟨2, 3⟩, O_WRONLY ||| O_CREATE, 1⟩)
            (chr ['a', '>', 'b'])) 3 ∧
      cstr (nulterminate (.redir (.exec [⟨0, 1⟩]) ⟨⟨2, 3⟩, O_WRONLY ||| O_CREATE, 1⟩)
        (chr ['a', '>', 'b'])) 4 2 = some ['b'] :=
  ⟨rfl, (words_survive_nulterminate (s := ['a', '>', 'b']) (by decide) rfl mem_cons_self).2.2.1⟩

end Strings

end Xv6.Shell
