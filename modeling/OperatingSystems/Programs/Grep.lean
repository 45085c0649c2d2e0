import OperatingSystems.Lib.Text
import Mathlib.Computability.Language
import Mathlib.Tactic.Common

/-!
# `grep`

The matcher and the loop of `grep.c`.  A string is the list of its characters before the
terminating zero, and a pointer into it is what is left of it.

* `match_iff_lang` — **`match` decides whether a part of the text is in the language of the
  pattern**.
* `grep_right_iff` — `grep` writes the lines that match, whatever the pattern is, just if
  every piece of the input that `read` returns has a newline in it: if there is none in its
  buffer, `grep` forgets what it has read.
-/

namespace Xv6.Grep

open Computability Text List

/-! ## The matcher -/

mutual

/-- `matchhere`: search for `re` at the beginning of the text. -/
def matchhere : List Char → List Char → Bool
  | [], _ => true
  | c :: '*' :: re, text => matchstar c re text
  | ['$'], text => text.isEmpty
  | _ :: _, [] => false
  | c :: re, t :: text => (c == '.' || c == t) && matchhere re text
termination_by re text => (re.length, text.length, 0)

/-- `matchstar`: search for `c*re` at the beginning of the text. -/
def matchstar (c : Char) (re : List Char) : List Char → Bool
  | [] => matchhere re []
  | t :: text => matchhere re (t :: text) || ((t == c || c == '.') && matchstar c re text)
termination_by text => (re.length, text.length, 1)

end

/-- The loop of `match`, which looks at the empty rest of the text too. -/
def matchLoop (re : List Char) : List Char → Bool
  | [] => matchhere re []
  | t :: text => matchhere re (t :: text) || matchLoop re text

/-- `match`. -/
def matchRe : List Char → List Char → Bool
  | '^' :: re, text => matchhere re text
  | re, text => matchLoop re text

/-! ## The language of a pattern -/

/-- The character `c` of a pattern stands for the character `x`. -/
def Stands (c x : Char) : Prop := c = '.' ∨ c = x

/-- The strings of one character that `c` stands for. -/
def sym (c : Char) : Language Char := {u | ∃ x, Stands c x ∧ u = [x]}

/-- The language of a pattern without its `^`. -/
def lang : List Char → Language Char
  | [] => 1
  | c :: '*' :: re => (sym c)∗ * lang re
  | ['$'] => 1
  | c :: re => sym c * lang re

/-- The pattern ends in a `$` without a star. -/
def final : List Char → Bool
  | [] => false
  | _ :: '*' :: re => final re
  | ['$'] => true
  | _ :: re => final re

/-- The pattern without its `^`. -/
def body : List Char → List Char
  | '^' :: re => re
  | re => re

theorem mem_kstar_sym {c : Char} {u : List Char} : u ∈ (sym c)∗ ↔ ∀ x ∈ u, Stands c x := by
  rw [Language.mem_kstar]
  constructor
  · rintro ⟨L, rfl, hL⟩ x hx
    obtain ⟨y, hy, hxy⟩ := mem_flatten.1 hx
    obtain ⟨z, hz, rfl⟩ := hL y hy
    rwa [mem_singleton.1 hxy]
  · intro h
    refine ⟨u.map fun x => [x], (flatMap_singleton' u).symm, fun y hy => ?_⟩
    obtain ⟨x, hx, rfl⟩ := mem_map.1 hy
    exact ⟨x, h x hx, rfl⟩

theorem stands_of_here {c x : Char} : (c == '.' || c == x) = true ↔ Stands c x := by
  rw [Bool.or_eq_true, beq_iff_eq, beq_iff_eq]
  rfl

theorem stands_of_star {c x : Char} : (x == c || c == '.') = true ↔ Stands c x := by
  rw [Bool.or_eq_true, beq_iff_eq, beq_iff_eq, or_comm, eq_comm (a := x)]
  rfl

/-- A text begins with a string of the language, and ends there if the pattern says so. -/
def Begins (re text : List Char) : Prop :=
  ∃ u v, text = u ++ v ∧ u ∈ lang re ∧ (final re = true → v = [])

theorem matchstar_iff {c : Char} {re text : List Char} : matchstar c re text = true ↔
      ∃ u v, text = u ++ v ∧ (∀ x ∈ u, Stands c x) ∧ matchhere re v = true := by
  induction text with
  | nil =>
    rw [matchstar]
    constructor
    · exact fun h => ⟨[], [], rfl, by simp, h⟩
    · rintro ⟨u, v, h, -, hv⟩
      obtain ⟨rfl, rfl⟩ := append_eq_nil_iff.1 h.symm
      exact hv
  | cons t text ih =>
    rw [matchstar, Bool.or_eq_true, Bool.and_eq_true, stands_of_star, ih]
    constructor
    · rintro (h | ⟨ht, u, v, rfl, hu, hv⟩)
      · exact ⟨[], t :: text, rfl, by simp, h⟩
      · refine ⟨t :: u, v, rfl, ?_, hv⟩
        rw [forall_mem_cons]
        exact ⟨ht, hu⟩
    · rintro ⟨u, v, htext, hu, hv⟩
      cases u with
      | nil =>
        exact .inl (htext ▸ hv)
      | cons x u =>
        obtain ⟨rfl, rfl⟩ := cons_eq_cons.1 htext
        rw [forall_mem_cons] at hu
        exact .inr ⟨hu.1, u, v, rfl, hu.2, hv⟩

/-- **`matchhere`** searches at the beginning of the text. -/
theorem matchhere_iff (re text : List Char) : matchhere re text = true ↔ Begins re text := by
  unfold Begins
  induction re using lang.induct generalizing text with
  | case1 | case3 => simp [matchhere, lang, final, Language.mem_one]
  | case2 c re ih =>
    rw [matchhere, matchstar_iff, lang, final]
    constructor
    · rintro ⟨u, v, rfl, hu, hv⟩
      obtain ⟨u', w, rfl, hu', hw⟩ := (ih v).1 hv
      exact ⟨u ++ u', w, by simp, ⟨u, mem_kstar_sym.2 hu, u', hu', rfl⟩, hw⟩
    · rintro ⟨-, w, rfl, ⟨u, hu, u', hu', rfl⟩, hw⟩
      exact ⟨u, u' ++ w, by simp, mem_kstar_sym.1 hu, (ih _).2 ⟨u', w, rfl, hu', hw⟩⟩
  | case4 c re hstar hend ih =>
    have hlang : lang (c :: re) = sym c * lang re := lang.eq_4 c re hstar hend
    have hfinal : final (c :: re) = final re := final.eq_4 c re hstar hend
    rw [hlang, hfinal]
    cases text with
    | nil =>
      rw [matchhere.eq_4 c re hstar hend]
      refine iff_of_false (by simp) ?_
      rintro ⟨u, v, h, ⟨-, ⟨x, -, rfl⟩, y, -, rfl⟩, -⟩
      simp at h
    | cons t text =>
      rw [matchhere.eq_5 c re t text hstar hend, Bool.and_eq_true, stands_of_here, ih]
      constructor
      · rintro ⟨ht, u, v, rfl, hu, hv⟩
        exact ⟨t :: u, v, rfl, ⟨[t], ⟨t, ht, rfl⟩, u, hu, rfl⟩, hv⟩
      · rintro ⟨-, v, h, ⟨-, ⟨x, hx, rfl⟩, u, hu, rfl⟩, hv⟩
        obtain ⟨rfl, rfl⟩ := cons_eq_cons.1 h
        exact ⟨hx, u, v, rfl, hu, hv⟩

theorem matchLoop_iff (re text : List Char) :
    matchLoop re text = true ↔ ∃ u v, text = u ++ v ∧ Begins re v := by
  induction text with
  | nil =>
    rw [matchLoop, matchhere_iff]
    constructor
    · exact fun h => ⟨[], [], rfl, h⟩
    · rintro ⟨u, v, h, hv⟩
      obtain ⟨rfl, rfl⟩ := append_eq_nil_iff.1 h.symm
      exact hv
  | cons t text ih =>
    rw [matchLoop, Bool.or_eq_true, matchhere_iff, ih]
    constructor
    · rintro (h | ⟨u, v, rfl, hv⟩)
      · exact ⟨[], t :: text, rfl, h⟩
      · exact ⟨t :: u, v, rfl, hv⟩
    · rintro ⟨u, v, htext, hv⟩
      cases u with
      | nil => exact .inl (htext ▸ hv)
      | cons x u =>
        obtain ⟨rfl, rfl⟩ := cons_eq_cons.1 htext
        exact .inr ⟨u, v, rfl, hv⟩

/-- **`match` decides the language of the pattern**: some part of the text is in it, which is
at the beginning if the pattern starts with `^`, and at the end if it ends in an unstarred
`$`. -/
theorem match_iff_lang (re text : List Char) :
    matchRe re text = true ↔ ∃ u v w, text = u ++ v ++ w ∧ v ∈ lang (body re) ∧
      (re.head? = some '^' → u = []) ∧ (final (body re) = true → w = []) := by
  by_cases hre : ∃ re', re = '^' :: re'
  · obtain ⟨re', rfl⟩ := hre
    rw [matchRe, matchhere_iff]
    constructor
    · rintro ⟨v, w, rfl, hv, hw⟩
      exact ⟨[], v, w, rfl, hv, fun _ => rfl, hw⟩
    · rintro ⟨u, v, w, rfl, hv, hu, hw⟩
      rw [hu rfl]
      exact ⟨v, w, rfl, hv, hw⟩
  · have hnot : ∀ re', re = '^' :: re' → False := fun re' h => hre ⟨re', h⟩
    have hhead : re.head? ≠ some '^' := by
      intro h
      obtain ⟨re', h'⟩ := head?_eq_some_iff.1 h
      exact hnot re' h'
    rw [matchRe.eq_2 re text hnot, body.eq_2 re hnot, matchLoop_iff]
    constructor
    · rintro ⟨u, -, rfl, v, w, rfl, hv, hw⟩
      exact ⟨u, v, w, by simp, hv, fun h => absurd h hhead, hw⟩
    · rintro ⟨u, v, w, rfl, hv, -, hw⟩
      exact ⟨u, v ++ w, by simp, v, w, rfl, hv, hw⟩

/-! ## The loop -/

/-- What the inner loop of `grep` writes, one string for each call of `write`.  `line` are the
characters from `p` on that are not a newline. -/
def writes (pattern : List Char) : List Char → List Char → List (List Char)
  | _, [] => []
  | line, c :: buf =>
    if c = '\n' then
      if matchRe pattern line then (line ++ ['\n']) :: writes pattern [] buf
      else writes pattern [] buf
    else writes pattern (line ++ [c]) buf

/-- What is in the buffer from `p` on when the inner loop ends. -/
def rest : List Char → List Char → List Char
  | line, [] => line
  | line, c :: buf => if c = '\n' then rest [] buf else rest (line ++ [c]) buf

/-- The characters that stay in the buffer for the next `read`.  If `p` is at the start of
the buffer there are none. -/
def keep (buf : List Char) : List Char :=
  if (rest [] buf).length = buf.length then [] else rest [] buf

/-- `grep`, when `read` returns these pieces and then the end of the file.  `kept` are the
first `m` characters of the buffer. -/
def grep (pattern : List Char) : List Char → List (List Char) → List (List Char)
  | _, [] => []
  | kept, piece :: pieces =>
    writes pattern [] (kept ++ piece) ++ grep pattern (keep (kept ++ piece)) pieces

/-- `read` may return these pieces: none is empty, and each has room in the buffer of 1024
characters. -/
def Reads : List Char → List (List Char) → Prop
  | _, [] => True
  | kept, piece :: pieces =>
    piece ≠ [] ∧ piece.length ≤ 1024 - kept.length - 1 ∧ Reads (keep (kept ++ piece)) pieces

/-- A line that `grep` has room for. -/
structure Line (l : List Char) : Prop where
  newline : '\n' ∉ l
  nul : Char.ofNat 0 ∉ l
  length_le : l.length ≤ 1022

section Loop

variable {pattern line buf more kept : List Char} {pieces : List (List Char)}

theorem rest_of_notMem (h : '\n' ∉ buf) : rest line buf = line ++ buf := by
  induction buf generalizing line with
  | nil => simp [rest]
  | cons c buf ih =>
    rw [mem_cons, not_or] at h
    rw [rest, if_neg (Ne.symm h.1), ih h.2, append_assoc]
    rfl

theorem notMem_rest (h : '\n' ∉ line) : '\n' ∉ rest line buf := by
  induction buf generalizing line with
  | nil => exact h
  | cons c buf ih =>
    rw [rest]
    split
    · exact ih (by simp)
    · exact ih (by simpa [h] using Ne.symm ‹_›)

theorem length_rest_le : (rest line buf).length ≤ line.length + buf.length := by
  induction buf generalizing line with
  | nil => simp [rest]
  | cons c buf ih =>
    rw [rest]
    split
    · exact ih.trans (by simp; omega)
    · exact ih.trans (by simp; omega)

/-- The inner loop finds a newline if there is one. -/
theorem length_rest_lt (h : '\n' ∈ buf) : (rest line buf).length < line.length + buf.length := by
  induction buf generalizing line with
  | nil => cases h
  | cons c buf ih =>
    rw [rest]
    split
    · have := @length_rest_le [] buf
      simp only [length_nil, length_cons] at this ⊢
      omega
    · have hmem : '\n' ∈ buf := (mem_cons.1 h).resolve_left (Ne.symm ‹_›)
      have := @ih (line ++ [c]) hmem
      simp only [length_append, length_cons, length_nil] at this ⊢
      omega

theorem keep_of_mem (h : '\n' ∈ buf) : keep buf = rest [] buf := by
  have := @length_rest_lt [] _ h
  rw [length_nil] at this
  rw [keep, if_neg (by omega)]

theorem keep_of_notMem (h : '\n' ∉ buf) : keep buf = [] := by
  rw [keep, rest_of_notMem h, nil_append, if_pos rfl]

theorem writes_of_notMem (h : '\n' ∉ buf) :
    writes pattern line (buf ++ more) = writes pattern (line ++ buf) more := by
  induction buf generalizing line with
  | nil => simp
  | cons c buf ih =>
    rw [mem_cons, not_or] at h
    rw [cons_append, writes, if_neg (Ne.symm h.1), ih h.2, append_assoc]
    rfl

theorem writes_append : writes pattern line (buf ++ more) =
    writes pattern line buf ++ writes pattern (rest line buf) more := by
  induction buf generalizing line with
  | nil => rfl
  | cons c buf ih =>
    rw [cons_append, writes, writes, rest]
    split
    · split <;> simp [ih]
    · exact ih

/-- **Where the input is cut makes no difference** as long as every piece has a newline. -/
theorem grep_eq (hkept : '\n' ∉ kept) (h : ∀ piece ∈ pieces, '\n' ∈ piece) :
    grep pattern kept pieces = writes pattern kept pieces.flatten := by
  induction pieces generalizing kept with
  | nil => simp [grep, writes]
  | cons piece pieces ih =>
    have hmem : '\n' ∈ kept ++ piece := mem_append_right _ (h piece mem_cons_self)
    rw [grep, keep_of_mem hmem, ih (notMem_rest (by simp)) fun q hq => h q (by simp [hq]),
      ← writes_append, append_assoc, writes_of_notMem hkept, flatten_cons,
      nil_append]

theorem writes_unlines {ls : List (List Char)} (h : ∀ l ∈ ls, '\n' ∉ l) :
    writes pattern [] (unlines ls) = (ls.filter (matchRe pattern)).map (· ++ ['\n']) := by
  induction ls with
  | nil => rfl
  | cons l ls ih =>
    rw [forall_mem_cons] at h
    rw [unlines_cons, writes_of_notMem h.1, nil_append, writes, if_pos rfl, ih h.2, filter_cons]
    split <;> simp

theorem matchRe_nil (text : List Char) : matchRe [] text = true := by
  cases text with
  | nil | cons t text => simp [matchRe, matchLoop, matchhere]

/-- With the empty pattern everything is written, up to the last newline. -/
theorem flatten_writes_nil : (writes [] line buf).flatten ++ rest line buf = line ++ buf := by
  induction buf generalizing line with
  | nil => simp [writes, rest]
  | cons c buf ih =>
    rw [writes, rest]
    split
    · rename_i hc
      rw [if_pos (matchRe_nil line), flatten_cons, append_assoc, ih, hc]
      simp
    · rw [ih, append_assoc]
      rfl

/-- With the empty pattern no more is written than there was, and less if there is a piece
without a newline: it is forgotten. -/
theorem length_grep_nil (hkept : '\n' ∉ kept) (hr : Reads kept pieces) :
    (grep [] kept pieces).flatten.length ≤ kept.length + pieces.flatten.length ∧
      ((∃ piece ∈ pieces, '\n' ∉ piece) →
        (grep [] kept pieces).flatten.length < kept.length + pieces.flatten.length) := by
  induction pieces generalizing kept with
  | nil => simp [grep]
  | cons piece pieces ih =>
    obtain ⟨hne, -, hr⟩ := hr
    have hpos := length_pos_of_ne_nil hne
    have hall := congrArg length (@flatten_writes_nil [] (kept ++ piece))
    simp only [length_append, nil_append] at hall
    rw [grep, flatten_append, flatten_cons, length_append, length_append]
    by_cases hmem : '\n' ∈ piece
    · have hk := keep_of_mem (mem_append_right kept hmem)
      obtain ⟨hle, hlt⟩ := ih (hk ▸ notMem_rest (by simp)) hr
      rw [hk] at hle hlt ⊢
      refine ⟨by omega, ?_⟩
      rintro ⟨q, hq, hnot⟩
      have := hlt ⟨q, (mem_cons.1 hq).resolve_left fun h => hnot (h ▸ hmem), hnot⟩
      omega
    · have hnot : '\n' ∉ kept ++ piece := by simp [hkept, hmem]
      have hle := (ih (by simp [keep_of_notMem hnot]) hr).1
      rw [rest_of_notMem hnot] at hall
      rw [keep_of_notMem hnot] at hle ⊢
      simp only [length_append, length_nil, nil_append] at hle hall
      exact ⟨by omega, fun _ => by omega⟩

end Loop

/-- **`grep` is right just if every piece has a newline.**  The input is some lines, and `read`
returns it in some pieces. -/
theorem grep_right_iff {ls pieces : List (List Char)} (hls : ∀ l ∈ ls, Line l)
    (hinput : pieces.flatten = unlines ls) (hr : Reads [] pieces) :
    (∀ pattern, (grep pattern [] pieces).flatten = unlines (ls.filter (matchRe pattern))) ↔
      ∀ piece ∈ pieces, '\n' ∈ piece := by
  constructor
  · intro h
    by_contra hnot
    simp only [not_forall, exists_prop] at hnot
    have hlt := (length_grep_nil (by simp) hr).2 hnot
    have hall : ls.filter (matchRe []) = ls := filter_eq_self.2 fun l _ => matchRe_nil l
    rw [h, hall, hinput, length_nil, Nat.zero_add] at hlt
    exact lt_irrefl _ hlt
  · intro h pattern
    rw [grep_eq (by simp) h, hinput, writes_unlines fun l hl => (hls l hl).newline, unlines]

/-- The lines `a` and `bc`, the second of which begins in one piece and ends in another. -/
theorem grep_right_straddling : (∀ l ∈ [['a'], ['b', 'c']], Line l) ∧
      (grep ['c'] [] [['a', '\n', 'b'], ['c', '\n']]).flatten =
        unlines ([['a'], ['b', 'c']].filter (matchRe ['c'])) := by
  have hls : ∀ l ∈ [['a'], ['b', 'c']], Line l := by
    simpa using ⟨⟨by decide, by decide, by decide⟩, ⟨by decide, by decide, by decide⟩⟩
  exact ⟨hls, (@grep_right_iff [['a'], ['b', 'c']] [['a', '\n', 'b'], ['c', '\n']] hls (by decide)
    ⟨by decide, by decide, by decide, by decide, trivial⟩).2 (by decide) ['c']⟩

/-- The line `ab`, when `read` returns its two characters and its newline one by one: with the
pattern `ab`, nothing is written. -/
theorem grep_forgets : (∀ l ∈ [['a', 'b']], Line l) ∧ Reads [] [['a'], ['b'], ['\n']] ∧
    [['a'], ['b'], ['\n']].flatten = unlines [['a', 'b']] ∧
    (grep ['a', 'b'] [] [['a'], ['b'], ['\n']]).flatten ≠
      unlines ([['a', 'b']].filter (matchRe ['a', 'b'])) := by
  refine ⟨by simpa using ⟨by decide, by decide, by decide⟩, ⟨by decide, by decide, by decide,
    by decide, by decide, by decide, trivial⟩, by decide, ?_⟩
  have hab : matchRe ['a', 'b'] ['a', 'b'] = true := by simp [matchRe, matchLoop, matchhere]
  have hnil : matchRe ['a', 'b'] [] = false := by simp [matchRe, matchLoop, matchhere]
  simp [grep, writes, keep, rest, unlines, hab, hnil]

end Xv6.Grep
