import OperatingSystems.Lib.Window

/-!
# What is typed at the console

The model of `consoleintr`, which edits a line and commits it.  The characters stand in a
ring with three counters: up to `w` they are committed, and up to `e` they can still be
erased.

What the code is for is said by `Text.edit`, on the text without a ring: a character is put
at the end of the line, or erases from it, and a line that ends is committed.

* `Shows.intr`: the ring shows the text, and every character typed keeps it so.
-/

namespace Xv6.Console

open List UInt32

/-! ## The ring -/

/-- `INPUT_BUF`. -/
def INPUT_BUF : Nat := 128

/-- `'\n'`. -/
def newline : UInt8 := 10

/-- `C('D')`. -/
def ctrlD : UInt8 := 4

/-- `C('H')`. -/
def ctrlH : UInt8 := 8

/-- `C('P')`. -/
def ctrlP : UInt8 := 16

/-- `C('U')`. -/
def ctrlU : UInt8 := 21

/-- `'\x7f'`. -/
def delete : UInt8 := 127

/-- `(c == '\r') ? '\n' : c`. -/
def cooked (c : UInt8) : UInt8 := if c = 13 then newline else c

/-- The variable `input`. -/
structure Input where
  buf : Nat → UInt8
  r : UInt32
  w : UInt32
  e : UInt32

namespace Input

/-- `input.buf[c % INPUT_BUF]`. -/
def char (s : Input) (c : UInt32) : UInt8 := s.buf (c.toNat % INPUT_BUF)

/-- `input.buf[input.e++ % INPUT_BUF] = c`. -/
def put (s : Input) (c : UInt8) : Input :=
  { s with buf := Function.update s.buf (s.e.toNat % INPUT_BUF) c, e := s.e + 1 }

/-- The loop that kills the line.  It goes back to `w` at most, so the number of characters
that are not committed is enough for the count. -/
def killLine : Nat → Input → Input
  | 0, s => s
  | k + 1, s =>
    if s.e ≠ s.w ∧ s.char (s.e - 1) ≠ newline then killLine k { s with e := s.e - 1 } else s

/-- A character is stored, and commits the line if it ends it or fills the ring. -/
def store (s : Input) (c : UInt8) : Input × Bool :=
  if c = newline ∨ c = ctrlD ∨ (s.put c).e = (s.put c).r + ofNat INPUT_BUF then
    ({ s.put c with w := (s.put c).e }, true)
  else (s.put c, false)

/-- An iteration of the loop of `consoleintr`, and whether it wakes the readers. -/
def intr (s : Input) (c : UInt8) : Input × Bool :=
  if c = ctrlP then (s, false)
  else if c = ctrlU then (s.killLine (s.e - s.w).toNat, false)
  else if c = ctrlH ∨ c = delete then (if s.e ≠ s.w then { s with e := s.e - 1 } else s, false)
  else if c ≠ 0 ∧ s.e - s.r < ofNat INPUT_BUF then
    s.store (cooked c)
  else (s, false)

/-- `consoleintr`, for the characters that `getc` gives. -/
def consoleintr : Input → List UInt8 → Input × Bool
  | s, [] => (s, false)
  | s, c :: cs =>
    let rest := consoleintr (s.intr c).1 cs
    (rest.1, (s.intr c).2 || rest.2)

/-- The characters that are committed and not read. -/
def pending (s : Input) : List UInt8 := window INPUT_BUF s.buf s.r s.w

/-- The characters that are not committed. -/
def editing (s : Input) : List UInt8 := window INPUT_BUF s.buf s.w s.e

end Input

/-! ## The text -/

/-- What was committed, and the line that is edited. -/
structure Text where
  committed : List UInt8
  line : List UInt8

/-- A character is put at the end of the line. -/
def Text.store (taken : Nat) (t : Text) (c : UInt8) : Text :=
  if c = newline ∨ c = ctrlD ∨ t.committed.length - taken + (t.line ++ [c]).length = INPUT_BUF then
    ⟨t.committed ++ (t.line ++ [c]), []⟩
  else { t with line := t.line ++ [c] }

/-- A character is typed, when `taken` of the committed characters were read. -/
def Text.edit (taken : Nat) (t : Text) (c : UInt8) : Text :=
  if c = ctrlP then t
  else if c = ctrlU then { t with line := [] }
  else if c = ctrlH ∨ c = delete then { t with line := t.line.dropLast }
  else if c ≠ 0 ∧ t.committed.length - taken + t.line.length < INPUT_BUF then
    t.store taken (cooked c)
  else t

/-- The ring shows the text, of which `taken` was read. -/
structure Shows (s : Input) (t : Text) (taken : List UInt8) : Prop where
  order : (s.w - s.r).toNat ≤ (s.e - s.r).toNat
  size : (s.e - s.r).toNat ≤ INPUT_BUF
  committed : t.committed = taken ++ s.pending
  line : t.line = s.editing
  plain : newline ∉ t.line

/-! ## Editing -/

theorem buf_dvd : INPUT_BUF ∣ 2 ^ 32 := by decide

section Edit

variable {s : Input} {t : Text} {taken : List UInt8}

section

variable (h : Shows s t taken)

include h

/-- The line lies between the other two distances. -/
theorem Shows.line_size : (s.e - s.w).toNat = (s.e - s.r).toNat - (s.w - s.r).toNat := by
  have horder := h.order
  have := s.w.toNat_lt
  simp only [toNat_sub_eq] at horder ⊢
  omega

theorem Shows.length_pending : t.committed.length - taken.length = (s.w - s.r).toNat := by
  rw [h.committed, length_append, Nat.add_sub_cancel_left]
  exact length_window

theorem Shows.length_line : t.line.length = (s.e - s.w).toNat := by
  rw [h.line]
  exact length_window

theorem Shows.length : t.committed.length - taken.length + t.line.length = (s.e - s.r).toNat := by
  rw [h.length_pending, h.length_line, h.line_size]
  have := h.order
  omega

theorem Shows.back (hne : s.e ≠ s.w) :
    Shows { s with e := s.e - 1 } { t with line := t.line.dropLast } taken := by
  have hback : s.editing = window INPUT_BUF s.buf s.w (s.e - 1) ++ [s.char (s.e - 1)] :=
    window_back buf_dvd hne.symm
  have hdrop : t.line.dropLast = window INPUT_BUF s.buf s.w (s.e - 1) := by
    rw [h.line, hback, dropLast_concat]
  have hsize := h.line_size
  have hlt : (s.w - s.r).toNat < (s.e - s.r).toNat := by
    have hpos : (s.e - s.w).toNat ≠ 0 := fun h0 => hne (toNat_sub_eq_zero.1 h0).symm
    omega
  have hre : s.r ≠ s.e := fun he => by
    have := toNat_sub_eq_zero.2 he
    omega
  have hone := toNat_sub_one_sub hre
  refine ⟨?_, ?_, h.committed, hdrop, fun hm => h.plain (dropLast_subset _ hm)⟩
  · show (s.w - s.r).toNat ≤ (s.e - 1 - s.r).toNat
    omega
  · show (s.e - 1 - s.r).toNat ≤ INPUT_BUF
    have := h.size
    omega

/-- **The kill character erases the line, and nothing that was committed.** -/
theorem Shows.kill : Shows (s.killLine (s.e - s.w).toNat) { t with line := [] } taken ∧
      (s.killLine (s.e - s.w).toNat).r = s.r := by
  -- by induction on the number of characters of the line
  generalize hk : (s.e - s.w).toNat = k
  induction k generalizing s t with
  | zero =>
    have hnil : t.line = [] := eq_nil_of_length_eq_zero (h.length_line.trans hk)
    refine ⟨?_, rfl⟩
    rw [← hnil]
    exact h
  | succ k ih =>
    have hne : s.e ≠ s.w := by
      intro he
      rw [toNat_sub_eq_zero.2 he.symm] at hk
      cases hk
    have hback : s.editing = window INPUT_BUF s.buf s.w (s.e - 1) ++ [s.char (s.e - 1)] :=
      window_back buf_dvd hne.symm
    have hchar : s.char (s.e - 1) ≠ newline := by
      intro he
      apply h.plain
      rw [h.line, hback, he]
      exact mem_append_right _ (mem_singleton.2 rfl)
    have hlen : (s.e - 1 - s.w).toNat = k := by
      have := toNat_sub_one_sub hne.symm
      omega
    rw [Input.killLine, if_pos ⟨hne, hchar⟩]
    exact ih (t := { t with line := t.line.dropLast }) (h.back hne) hlen

theorem Shows.put (hlt : (s.e - s.r).toNat < INPUT_BUF) (c : UInt8) :
    (s.put c).pending = s.pending ∧ (s.put c).editing = s.editing ++ [c] ∧
      ((s.put c).e - s.r).toNat = (s.e - s.r).toNat + 1 := by
  have hbound : INPUT_BUF < 2 ^ 32 - 1 := by decide
  have hle := h.line_size
  have hed : (s.put c).editing = s.editing ++ [c] :=
    window_push (r := s.w) buf_dvd (by decide) (by omega) c
  have hone : (s.e + 1 - s.r).toNat = (s.e - s.r).toNat + 1 :=
    toNat_add_one_sub (by omega)
  have hall : window INPUT_BUF (s.put c).buf s.r (s.e + 1) =
      window INPUT_BUF s.buf s.r s.e ++ [c] :=
    window_push buf_dvd (by decide) hlt c
  have horder := h.order
  rw [window_append (m := s.w) buf_dvd (by omega), window_append buf_dvd horder,
    append_assoc] at hall
  have hed' : window INPUT_BUF (s.put c).buf s.w (s.e + 1) = s.editing ++ [c] := hed
  rw [hed'] at hall
  exact ⟨append_cancel_right hall, hed, hone⟩

theorem Shows.store (hlt : (s.e - s.r).toNat < INPUT_BUF) (d : UInt8) :
    Shows (s.store d).1 (t.store taken.length d) taken ∧ (s.store d).1.r = s.r := by
  obtain ⟨hpend, hedit, hlen⟩ := h.put hlt d
  have hfull : (s.put d).e = (s.put d).r + ofNat INPUT_BUF ↔
      t.committed.length - taken.length + (t.line ++ [d]).length = INPUT_BUF := by
    have hsize : (ofNat INPUT_BUF).toNat = INPUT_BUF := rfl
    have hsum := h.length
    rw [eq_add_iff, hsize, length_append, length_singleton]
    show ((s.put d).e - s.r).toNat = _ ↔ _
    omega
  have horder := h.order
  have hw : ((s.put d).w - (s.put d).r).toNat = (s.w - s.r).toNat := rfl
  have he : ((s.put d).e - (s.put d).r).toNat = (s.e - s.r).toNat + 1 := hlen
  by_cases hend : d = newline ∨ d = ctrlD ∨ (s.put d).e = (s.put d).r + ofNat INPUT_BUF
  · -- the line is committed
    rw [Input.store, Text.store, if_pos hend, if_pos (by rwa [hfull] at hend)]
    refine ⟨⟨le_rfl, ?_, ?_, (window_self _).symm, not_mem_nil⟩, rfl⟩
    · show ((s.put d).e - (s.put d).r).toNat ≤ _
      omega
    · show t.committed ++ (t.line ++ [d]) = taken ++ window INPUT_BUF (s.put d).buf s.r (s.put d).e
      rw [window_append buf_dvd (hw.symm.trans_le (by omega))]
      show _ = taken ++ ((s.put d).pending ++ (s.put d).editing)
      rw [hpend, hedit, h.committed, h.line, append_assoc]
  · rw [Input.store, Text.store, if_neg hend, if_neg (by rwa [hfull] at hend)]
    refine ⟨⟨?_, ?_, ?_, ?_, ?_⟩, rfl⟩
    · rw [hw, he]
      omega
    · rw [he]
      omega
    · rw [hpend]
      exact h.committed
    · rw [hedit, ← h.line]
    · intro hm
      obtain hm | hm := mem_append.1 hm
      · exact h.plain hm
      · exact hend (.inl (mem_singleton.1 hm).symm)

/-- **The ring keeps showing the text.** -/
theorem Shows.intr (c : UInt8) :
    Shows (s.intr c).1 (t.edit taken.length c) taken ∧ (s.intr c).1.r = s.r := by
  unfold Input.intr Text.edit
  by_cases hp : c = ctrlP
  · rw [if_pos hp, if_pos hp]
    exact ⟨h, rfl⟩
  rw [if_neg hp, if_neg hp]
  by_cases hu : c = ctrlU
  · rw [if_pos hu, if_pos hu]
    exact h.kill
  rw [if_neg hu, if_neg hu]
  by_cases hb : c = ctrlH ∨ c = delete
  · rw [if_pos hb, if_pos hb]
    by_cases hne : s.e ≠ s.w
    · rw [if_pos hne]
      exact ⟨h.back hne, rfl⟩
    · rw [if_neg hne]
      have hnil : t.line = [] := by
        refine eq_nil_of_length_eq_zero (h.length_line.trans ?_)
        exact toNat_sub_eq_zero.2 (not_not.1 hne).symm
      refine ⟨?_, rfl⟩
      rw [hnil, dropLast_nil, ← hnil]
      exact h
  rw [if_neg hb, if_neg hb]
  have hroom : s.e - s.r < ofNat INPUT_BUF ↔
      t.committed.length - taken.length + t.line.length < INPUT_BUF := by
    rw [h.length, lt_iff_toNat_lt]
    rfl
  by_cases hc : c ≠ 0 ∧ s.e - s.r < ofNat INPUT_BUF
  · rw [if_pos hc, if_pos ⟨hc.1, hroom.1 hc.2⟩]
    have hlt : (s.e - s.r).toNat < INPUT_BUF := by
      rw [← h.length]
      exact hroom.1 hc.2
    exact h.store hlt _
  · rw [if_neg hc, if_neg fun hc' => hc ⟨hc'.1, hroom.2 hc'.2⟩]
    exact ⟨h, rfl⟩

theorem Shows.consoleintr (cs : List UInt8) :
    Shows (s.consoleintr cs).1 (cs.foldl (Text.edit taken.length) t) taken ∧
      (s.consoleintr cs).1.r = s.r := by
  induction cs generalizing s t with
  | nil => exact ⟨h, rfl⟩
  | cons c cs ih =>
    obtain ⟨h1, hr⟩ := h.intr c
    obtain ⟨h2, hr'⟩ := ih h1
    exact ⟨h2, hr'.trans hr⟩

end

theorem Text.committed_store (taken : Nat) (t : Text) (c : UInt8) :
    t.committed <+: (t.store taken c).committed := by
  unfold Text.store
  split
  · exact prefix_append _ _
  · exact prefix_rfl

/-- What is committed stays. -/
theorem Text.committed_edit (taken : Nat) (t : Text) (c : UInt8) :
    t.committed <+: (t.edit taken c).committed := by
  unfold Text.edit
  split
  · exact prefix_rfl
  · split
    · exact prefix_rfl
    · split
      · exact prefix_rfl
      · split
        · exact t.committed_store taken _
        · exact prefix_rfl

theorem Text.committed_foldl (taken : Nat) (cs : List UInt8) (t : Text) :
    t.committed <+: (cs.foldl (Text.edit taken) t).committed := by
  induction cs generalizing t with
  | nil => exact prefix_rfl
  | cons c cs ih => exact (t.committed_edit taken c).trans (ih _)

end Edit

end Xv6.Console
