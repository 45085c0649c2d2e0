import Mathlib.Data.List.TakeWhile
import Mathlib.Tactic.Common

/-!
# The tokens of the shell

`gettoken` and `peek` of `sh.c`.  A pointer into the input is an offset; the string ends at
its length, where the terminating zero is.  `rest s i` is the sequence of tokens from an
offset on, said without the two functions: words, which are separated by white space, and
symbols.

* `gettoken_word`, `gettoken_sym`, `gettoken_nil` — `gettoken` takes the next token.
* `peek_eq` — `peek` looks at it.
* `delimited_of_mem` — **a word is a maximal run of characters that are neither white space
  nor symbols**.
-/

namespace Xv6.Shell

open List

/-! ## The functions -/

/-- The zero at the end of a string. -/
def NUL : Char := Char.ofNat 0

/-- `whitespace`. -/
def whitespace : List Char := [' ', '\t', '\r', '\n', Char.ofNat 11]

/-- `symbols`. -/
def symbols : List Char := ['<', '|', '>', '&', ';', '(', ')']

-- What holds of the characters of a list is decided by going through the list, not through all
-- characters.
instance (priority := high) decidableForallMem {p : Char → Prop} [DecidablePred p]
    (l : List Char) : Decidable (∀ c ∈ l, p c) :=
  decidableBAll p l

/-- A character of a word. -/
def isWord (c : Char) : Bool := decide (c ∉ whitespace) && decide (c ∉ symbols)

/-- `s[i]`. -/
def chr (s : List Char) (i : Nat) : Char := s.getD i NUL

/-- `while(s < es && strchr(whitespace, *s)) s++`. -/
def skip (s : List Char) (i : Nat) : Nat :=
  i + ((s.drop i).takeWhile fun c => decide (c ∈ whitespace)).length

/-- The loop of `gettoken` over a word. -/
def wordEnd (s : List Char) (i : Nat) : Nat := i + ((s.drop i).takeWhile isWord).length

/-- What `gettoken` returns, and where the token starts and ends. -/
structure Token where
  ret : Char
  q : Nat
  eq : Nat

/-- The `switch` of `gettoken`. -/
def tokenAt (s : List Char) (q : Nat) : Token :=
  if chr s q = NUL then ⟨NUL, q, q⟩
  else if chr s q ∈ ['|', '(', ')', ';', '&', '<'] then ⟨chr s q, q, q + 1⟩
  else if chr s q = '>' then
    if chr s (q + 1) = '>' then ⟨'+', q, q + 2⟩ else ⟨'>', q, q + 1⟩
  else ⟨'a', q, wordEnd s q⟩

/-- `gettoken`: the token, and the pointer behind it. -/
def gettoken (s : List Char) (i : Nat) : Token × Nat :=
  (tokenAt s (skip s i), skip s (tokenAt s (skip s i)).eq)

/-- `peek`. -/
def peek (s : List Char) (i : Nat) (toks : List Char) : Bool × Nat :=
  (decide (chr s (skip s i) ≠ NUL ∧ chr s (skip s i) ∈ toks), skip s i)

/-! ## Tokens -/

/-- The symbols of the shell. -/
inductive Sym
  | lt
  | gt
  | gtgt
  | bar
  | amp
  | semi
  | lpar
  | rpar
  deriving DecidableEq

/-- A token; a word is what is between two offsets. -/
inductive Tok
  | sym (x : Sym)
  | word (q eq : Nat)
  deriving DecidableEq

/-- What `gettoken` returns for a symbol. -/
def Sym.code : Sym → Char
  | .lt => '<'
  | .gt => '>'
  | .gtgt => '+'
  | .bar => '|'
  | .amp => '&'
  | .semi => ';'
  | .lpar => '('
  | .rpar => ')'

/-- The first character of a symbol. -/
def Sym.first : Sym → Char
  | .gtgt => '>'
  | x => x.code

/-- The symbol that is a character on its own. -/
def Sym.ofChar : Char → Option Sym
  | '<' => some .lt
  | '>' => some .gt
  | '|' => some .bar
  | '&' => some .amp
  | ';' => some .semi
  | '(' => some .lpar
  | ')' => some .rpar
  | _ => none

/-- The tokens of a string that starts at offset `i`. -/
def lex : List Char → Nat → List Tok
  | [], _ => []
  | c :: cs, i =>
    if c ∈ whitespace then lex cs (i + 1)
    else if c = '>' ∧ cs.head? = some '>' then .sym .gtgt :: lex cs.tail (i + 2)
    else
      match Sym.ofChar c with
      | some x => .sym x :: lex cs (i + 1)
      | none =>
        .word i (i + 1 + (cs.takeWhile isWord).length) ::
          lex (cs.dropWhile isWord) (i + 1 + (cs.takeWhile isWord).length)
termination_by s => s.length
decreasing_by
  · simp
  · simp only [length_tail, length_cons]
    omega
  · simp
  · have := (dropWhile_suffix isWord (l := cs)).length_le
    simp only [length_cons]
    omega

/-- The tokens from offset `i` of the input on. -/
def rest (s : List Char) (i : Nat) : List Tok := lex (s.drop i) i

section Cursor

variable {s cs : List Char} {i q : Nat} {c : Char}

theorem drop_length_takeWhile (p : Char → Bool) (l : List Char) :
    l.drop (l.takeWhile p).length = l.dropWhile p := by
  induction l with
  | nil => rfl
  | cons c l ih =>
    by_cases hc : p c = true
    · rw [takeWhile_cons_of_pos hc, dropWhile_cons_of_pos hc]
      exact ih
    · rw [takeWhile_cons_of_neg hc, dropWhile_cons_of_neg hc]
      rfl

theorem drop_skip : s.drop (skip s i) = (s.drop i).dropWhile fun c => decide (c ∈ whitespace) := by
  rw [skip, ← drop_drop, drop_length_takeWhile]

theorem drop_wordEnd : s.drop (wordEnd s i) = (s.drop i).dropWhile isWord := by
  rw [wordEnd, ← drop_drop, drop_length_takeWhile]

theorem chr_eq_headD (s : List Char) (i : Nat) : chr s i = (s.drop i).headD NUL := by
  rw [chr, headD_eq_head?_getD, head?_drop, getD_eq_getElem?_getD]

theorem chr_of_drop (h : s.drop q = c :: cs) : chr s q = c := by
  rw [chr_eq_headD, h]
  rfl

theorem drop_succ (h : s.drop q = c :: cs) : s.drop (q + 1) = cs := by
  rw [← drop_drop, h]
  rfl

theorem lex_white {cs : List Char} (h : ∀ c ∈ cs, c ∈ whitespace) (ds : List Char) (i : Nat) :
    lex (cs ++ ds) i = lex ds (i + cs.length) := by
  induction cs generalizing i with
  | nil => rfl
  | cons c cs ih =>
    rw [cons_append, lex, if_pos (h c (by simp)), ih fun d hd => h d (by simp [hd]), length_cons]
    congr 1
    omega

/-- White space between tokens does not matter. -/
theorem rest_skip : rest s (skip s i) = rest s i := by
  unfold rest
  rw [drop_skip, skip, ← lex_white, takeWhile_append_dropWhile]
  intro c hc
  simpa using mem_takeWhile_imp hc

theorem skip_cases (s : List Char) (i : Nat) :
    s.drop (skip s i) = [] ∨ ∃ c cs, s.drop (skip s i) = c :: cs ∧ c ∉ whitespace := by
  cases h : s.drop (skip s i) with
  | nil => exact .inl rfl
  | cons c cs =>
    refine .inr ⟨c, cs, rfl, ?_⟩
    rw [drop_skip] at h
    have hc := head_dropWhile_not (p := fun c => decide (c ∈ whitespace)) (l := s.drop i)
      (by simp [h])
    simpa [h] using hc

theorem rest_nil (h : s.drop q = []) : rest s q = [] := by
  rw [rest, h, lex]

theorem Sym.ofChar_eq_some {x : Sym} (h : Sym.ofChar c = some x) :
    x.code = c ∧ x.first = c ∧ c ∈ symbols := by
  unfold Sym.ofChar at h
  split at h <;> cases h <;> decide

theorem Sym.ofChar_eq_none (h : Sym.ofChar c = none) : c ∉ symbols := by
  intro hc
  simp only [symbols, mem_cons, not_mem_nil, or_false] at hc
  rcases hc with rfl | rfl | rfl | rfl | rfl | rfl | rfl <;> cases h

theorem tokenAt_cases (h : s.drop q = c :: cs) (hw : c ∉ whitespace) (h0 : c ≠ NUL) :
    (∃ x, x.first = c ∧ (tokenAt s q).ret = Sym.code x ∧ q < (tokenAt s q).eq ∧
      (tokenAt s q).eq ≤ s.length ∧ rest s q = .sym x :: rest s (tokenAt s q).eq) ∨
    (c ∉ symbols ∧ tokenAt s q = ⟨'a', q, wordEnd s q⟩ ∧
      rest s q = .word q (wordEnd s q) :: rest s (wordEnd s q)) := by
  have hchr := chr_of_drop h
  have hnext := drop_succ h
  have hlen : s.length - q = cs.length + 1 := by
    rw [← length_drop, h, length_cons]
  have hlex : rest s q = lex (c :: cs) q := by rw [rest, h]
  rw [lex, if_neg hw] at hlex
  unfold tokenAt
  rw [hchr, if_neg h0]
  by_cases hgt : c = '>' ∧ cs.head? = some '>'
  · obtain ⟨rfl, hcs⟩ := hgt
    have hchr' : chr s (q + 1) = '>' := by
      rw [chr_eq_headD, hnext, headD_eq_head?_getD, hcs]
      rfl
    left
    rw [if_neg (by decide), if_pos rfl, if_pos hchr']
    have hpos : 0 < cs.length := by
      cases cs with
      | nil => cases hcs
      | cons d ds => simp
    refine ⟨.gtgt, rfl, rfl, show q < q + 2 by omega, show q + 2 ≤ s.length by omega, ?_⟩
    rw [hlex, if_pos ⟨rfl, hcs⟩, rest, show q + 2 = q + 1 + 1 from rfl, ← drop_drop, hnext,
      drop_one]
  rw [if_neg hgt] at hlex
  cases hx : Sym.ofChar c with
  | some x =>
    obtain ⟨hcode, hfirst, hsym⟩ := Sym.ofChar_eq_some hx
    have hrest : rest s q = .sym x :: rest s (q + 1) := by
      rw [hlex, hx, rest, hnext]
    have hlt : q < q + 1 := Nat.lt_succ_self q
    have hle : q + 1 ≤ s.length := by omega
    left
    refine ⟨x, hfirst, ?_⟩
    by_cases hc : c = '>'
    · have hchr' : ¬ chr s (q + 1) = '>' := by
        intro h1
        refine hgt ⟨hc, ?_⟩
        rw [chr_eq_headD, hnext] at h1
        cases cs with
        | nil => exact absurd h1 (by decide)
        | cons d ds => exact congrArg some h1
      rw [if_neg (by rw [hc]; decide), if_pos hc, if_neg hchr']
      exact ⟨hc.symm.trans hcode.symm, hlt, hle, hrest⟩
    · rw [if_pos]
      · exact ⟨hcode.symm, hlt, hle, hrest⟩
      · simp only [symbols, mem_cons, not_mem_nil, or_false] at hsym ⊢
        tauto
  | none =>
    have hsym := Sym.ofChar_eq_none hx
    have hword : isWord c = true := by simp [isWord, hw, hsym]
    have hend : wordEnd s q = q + 1 + (cs.takeWhile isWord).length := by
      rw [wordEnd, h, takeWhile_cons_of_pos hword, length_cons]
      omega
    have hlist : c ∉ ['|', '(', ')', ';', '&', '<'] := by
      intro hc
      refine hsym ?_
      simp only [symbols, mem_cons, not_mem_nil, or_false] at hc ⊢
      tauto
    have hgt' : ¬ c = '>' := by
      rintro rfl
      exact hsym (by decide)
    right
    rw [if_neg hlist, if_neg hgt']
    refine ⟨hsym, rfl, ?_⟩
    rw [hlex, hx, rest, drop_wordEnd, h, dropWhile_cons_of_pos hword, hend]

end Cursor

/-! ## The functions take tokens -/

/-- The pointer is in the string, and these tokens are to come. -/
structure At (s : List Char) (i : Nat) (ts : List Tok) : Prop where
  le : i ≤ s.length
  rest : rest s i = ts

/-- A word ends where there is no more character of a word. -/
structure Delimited (s : List Char) (q eq : Nat) : Prop where
  lt : q < eq
  le : eq ≤ s.length
  inside : ∀ j, q ≤ j → j < eq → isWord (chr s j) = true
  after : eq = s.length ∨ isWord (chr s eq) = false

section Functions

variable {s : List Char} {i q eq : Nat} {x : Sym} {t : Tok} {ts : List Tok}

theorem skip_le (h : i ≤ s.length) : skip s i ≤ s.length := by
  have := ( takeWhile_prefix (fun c => decide (c ∈ whitespace)) (l := s.drop i)).length_le
  rw [length_drop] at this
  rw [skip]
  omega

theorem le_skip : i ≤ skip s i := Nat.le_add_right _ _

theorem At.skip (h : At s i ts) : At s (skip s i) ts := ⟨skip_le h.le, rest_skip.trans h.rest⟩

theorem getD_takeWhile {p : Char → Bool} {l : List Char} {j : Nat} (hj : j < (l.takeWhile p).length) :
    p (l.getD j NUL) = true := by
  have hmem := getElem_mem hj
  rw [( takeWhile_prefix p).getElem hj] at hmem
  have hlt : j < l.length := hj.trans_le ( takeWhile_prefix p).length_le
  rw [getD_eq_getElem?_getD, getElem?_eq_getElem hlt]
  exact mem_takeWhile_imp hmem

theorem delimited_wordEnd {c : Char} {cs : List Char} (h : s.drop q = c :: cs)
    (hc : isWord c = true) : Delimited s q (wordEnd s q) := by
  have hlen := ( takeWhile_prefix isWord (l := s.drop q)).length_le
  have hpos : 0 < ((s.drop q).takeWhile isWord).length := by
    rw [h, takeWhile_cons_of_pos hc]
    simp
  rw [length_drop] at hlen
  refine ⟨by rw [wordEnd]; omega, by rw [wordEnd]; omega, fun j h1 h2 => ?_, ?_⟩
  · have := getD_takeWhile (p := isWord) (l := s.drop q) (j := j - q) (by rw [wordEnd] at h2; omega)
    rw [getD_eq_getElem?_getD, getElem?_drop, Nat.add_sub_cancel' h1] at this
    rwa [chr, getD_eq_getElem?_getD]
  · cases hd : s.drop (wordEnd s q) with
    | nil =>
      left
      have := drop_eq_nil_iff.1 hd
      rw [wordEnd] at this ⊢
      omega
    | cons d ds =>
      right
      rw [chr_of_drop hd]
      rw [drop_wordEnd] at hd
      have hnot := head_dropWhile_not (p := isWord) (l := s.drop q) (by simp [hd])
      simpa [hd] using hnot

theorem ne_NUL_of_drop {c : Char} {cs : List Char} (hs : NUL ∉ s) (h : s.drop q = c :: cs) :
    c ≠ NUL := by
  rintro rfl
  exact hs (mem_of_mem_drop (h ▸ mem_cons_self))

/-- Without tokens, the rest of the string is white space. -/
theorem At.skip_eq (h : At s i []) (hs : NUL ∉ s) : Shell.skip s i = s.length := by
  obtain hd | ⟨c, cs, hd, hw⟩ := skip_cases s i
  · have := drop_eq_nil_iff.1 hd
    have := skip_le h.le
    omega
  · have hrest := h.skip.rest
    obtain ⟨x, -, -, -, -, hx⟩ | ⟨-, -, hx⟩ := tokenAt_cases hd hw (ne_NUL_of_drop hs hd)
    · rw [hx] at hrest
      cases hrest
    · rw [hx] at hrest
      cases hrest

theorem chr_length (s : List Char) : chr s s.length = NUL := by
  rw [chr_eq_headD, drop_length]
  rfl

theorem At.exists_drop (h : At s i (t :: ts)) :
    ∃ c cs, s.drop (Shell.skip s i) = c :: cs ∧ c ∉ whitespace := by
  refine (skip_cases s i).resolve_left fun hd => ?_
  have hrest := h.skip.rest
  rw [rest_nil hd] at hrest
  cases hrest

theorem gettoken_nil (h : At s i []) (hs : NUL ∉ s) :
    (gettoken s i).1.ret = NUL ∧ At s (gettoken s i).2 [] := by
  have hchr : chr s (skip s i) = NUL := by rw [h.skip_eq hs, chr_length]
  have htok : tokenAt s (skip s i) = ⟨NUL, skip s i, skip s i⟩ := if_pos hchr
  rw [gettoken, htok]
  exact ⟨rfl, h.skip.skip⟩

theorem gettoken_sym (h : At s i (.sym x :: ts)) (hs : NUL ∉ s) :
    (gettoken s i).1.ret = x.code ∧ At s (gettoken s i).2 ts ∧ i < (gettoken s i).2 := by
  obtain ⟨c, cs, hd, hw⟩ := h.exists_drop
  have hrest := h.skip.rest
  obtain ⟨y, -, hret, hlt, hle, hy⟩ | ⟨-, -, hy⟩ := tokenAt_cases hd hw (ne_NUL_of_drop hs hd)
  · rw [hy] at hrest
    cases hrest
    have h1 := le_skip (s := s) (i := i)
    have h2 := le_skip (s := s) (i := (tokenAt s (skip s i)).eq)
    exact ⟨hret, .skip ⟨hle, rfl⟩, by rw [gettoken]; omega⟩
  · rw [hy] at hrest
    cases hrest

theorem gettoken_word (h : At s i (.word q eq :: ts)) (hs : NUL ∉ s) :
    (gettoken s i).1 = ⟨'a', q, eq⟩ ∧ At s (gettoken s i).2 ts ∧ i < (gettoken s i).2 ∧
      Delimited s q eq := by
  obtain ⟨c, cs, hd, hw⟩ := h.exists_drop
  have hrest := h.skip.rest
  obtain ⟨y, -, -, -, -, hy⟩ | ⟨hsym, htok, hy⟩ := tokenAt_cases hd hw (ne_NUL_of_drop hs hd)
  · rw [hy] at hrest
    cases hrest
  · rw [hy] at hrest
    cases hrest
    have hdel := delimited_wordEnd hd (by simp [isWord, hw, hsym])
    have hlt := hdel.lt
    have h1 := le_skip (s := s) (i := i)
    have h2 := le_skip (s := s) (i := wordEnd s (skip s i))
    rw [gettoken, htok]
    exact ⟨rfl, .skip ⟨hdel.le, rfl⟩, show i < skip s (wordEnd s (skip s i)) by omega, hdel⟩

theorem At.peek (h : At s i ts) (toks : List Char) : At s (Shell.peek s i toks).2 ts := h.skip

theorem peek_nil (h : At s i []) (hs : NUL ∉ s) (toks : List Char) : (peek s i toks).1 = false := by
  have hchr : chr s (skip s i) = NUL := by rw [h.skip_eq hs, chr_length]
  simp [Shell.peek, hchr]

theorem peek_sym (h : At s i (.sym x :: ts)) (hs : NUL ∉ s) (toks : List Char) :
    (peek s i toks).1 = decide (x.first ∈ toks) := by
  obtain ⟨c, cs, hd, hw⟩ := h.exists_drop
  have hrest := h.skip.rest
  have h0 := ne_NUL_of_drop hs hd
  obtain ⟨y, hfirst, -, -, -, hy⟩ | ⟨-, -, hy⟩ := tokenAt_cases hd hw h0
  · rw [hy] at hrest
    cases hrest
    simp [Shell.peek, chr_of_drop hd, h0, hfirst]
  · rw [hy] at hrest
    cases hrest

theorem peek_word (h : At s i (.word q eq :: ts)) (hs : NUL ∉ s) {toks : List Char}
    (htoks : ∀ c ∈ toks, c ∈ symbols) : (peek s i toks).1 = false := by
  obtain ⟨c, cs, hd, hw⟩ := h.exists_drop
  have hrest := h.skip.rest
  have h0 := ne_NUL_of_drop hs hd
  obtain ⟨y, -, -, -, -, hy⟩ | ⟨hsym, -, -⟩ := tokenAt_cases hd hw h0
  · rw [hy] at hrest
    cases hrest
  · have hc : c ∉ toks := fun hc => hsym (htoks c hc)
    simp [Shell.peek, chr_of_drop hd, hc]

theorem At.exists_next (h : At s i (t :: ts)) (hs : NUL ∉ s) : ∃ j, At s j ts ∧ i < j := by
  cases t with
  | sym x => exact ⟨_, (gettoken_sym h hs).2⟩
  | word q eq => exact ⟨_, (gettoken_word h hs).2.1, (gettoken_word h hs).2.2.1⟩

theorem At.length_le (h : At s i ts) (hs : NUL ∉ s) : i + ts.length ≤ s.length := by
  induction ts generalizing i with
  | nil => exact h.le
  | cons t ts ih =>
    obtain ⟨j, hj, hlt⟩ := h.exists_next hs
    have := ih hj
    rw [length_cons]
    omega

/-- **Words are delimited.** -/
theorem delimited_of_mem (h : At s i ts) (hs : NUL ∉ s) (hw : .word q eq ∈ ts) :
    Delimited s q eq := by
  induction ts generalizing i with
  | nil => cases hw
  | cons t ts ih =>
    rcases mem_cons.1 hw with rfl | hw
    · exact (gettoken_word h hs).2.2.2
    · obtain ⟨j, hj, -⟩ := h.exists_next hs
      exact ih hj hw

end Functions

end Xv6.Shell
