import ServiceInjection.Edit.Batch
import ServiceInjection.Proofs.Text.Units

/-!
# Edit.Position

Positions as places of a text. `Position.behind before` is the position that is
reached when the characters `before` have been read, so the positions *inside* a
text are those behind its prefixes, except that none lies between the two
characters of a line end.

The main fact is `offsetOf_behind`: the index computed for the position behind
`before` is the length of `before`, *whatever text follows*. This is what lets
edits be applied one after the other from the end of a text to its start: a
pending position only looks at characters that no applied edit has touched.
-/

namespace ServiceInjection

open Text List

variable {a b c : Position} {before : List Char}

/-! ### Order -/

namespace Position

instance : LE Position := ⟨fun a b => a.le b = true⟩

instance : LT Position := ⟨fun a b => a ≤ b ∧ a ≠ b⟩

instance (a b : Position) : Decidable (a ≤ b) := inferInstanceAs (Decidable (a.le b = true))

instance (a b : Position) : Decidable (a < b) := inferInstanceAs (Decidable (a ≤ b ∧ a ≠ b))

theorem le_def : a ≤ b ↔ a.line < b.line ∨ (a.line = b.line ∧ a.column ≤ b.column) := by
  show a.le b = true ↔ _
  simp [Position.le]

theorem eq_def : a = b ↔ a.line = b.line ∧ a.column = b.column := by
  cases a; cases b; simp

theorem lt_def : a < b ↔ a.line < b.line ∨ (a.line = b.line ∧ a.column < b.column) := by
  show a ≤ b ∧ a ≠ b ↔ _
  rw [le_def, Ne, eq_def]
  omega

theorem le_refl (a : Position) : a ≤ a := by rw [le_def]; omega

theorem le_of_lt (h : a < b) : a ≤ b := h.1

theorem le_trans (hab : a ≤ b) (hbc : b ≤ c) : a ≤ c := by
  rw [le_def] at *; omega

theorem lt_of_lt_of_le (hab : a < b) (hbc : b ≤ c) : a < c := by
  rw [le_def] at hbc; rw [lt_def] at *; omega

theorem not_le : ¬ a ≤ b ↔ b < a := by
  rw [le_def, lt_def]; omega

theorem not_lt : ¬ a < b ↔ b ≤ a := by
  rw [le_def, lt_def]; omega

theorem le_antisymm (hab : a ≤ b) (hba : b ≤ a) : a = b := by
  rw [le_def] at *; rw [eq_def]; omega

theorem ne_of_lt (h : a < b) : a ≠ b := h.2

end Position

/-! ### The position behind a prefix -/

/-- The characters behind the last line feed. -/
def lastLine (before : List Char) : List Char :=
  (before.reverse.takeWhile (· != '\n')).reverse

namespace Position

/-- The position that is reached when `before` has been read: the number of line
feeds in it, and the width of what follows the last one. -/
def behind (before : List Char) : Position := ⟨before.count '\n', width16 (lastLine before)⟩

/-- A position inside a text: the one behind some prefix of it that does not end
between the two characters of a line end. -/
def Inside (text : List Char) (position : Position) : Prop :=
  ∃ n, n ≤ text.length ∧ position = behind (text.take n) ∧
    ¬ ((text.take n).getLast? = some '\r' ∧ (text.drop n).head? = some '\n')

instance (text : List Char) (position : Position) : Decidable (Inside text position) :=
  inferInstanceAs (Decidable (∃ n, n ≤ text.length ∧ _))

end Position

theorem lastLine_append_of_mem (front : List Char) {back : List Char} (h : '\n' ∈ back) :
    lastLine (front ++ back) = lastLine back := by
  unfold lastLine
  rw [reverse_append, takeWhile_append, if_neg]
  intro hlen
  have hself := List.IsPrefix.eq_of_length (List.takeWhile_prefix (· != '\n')) hlen
  have hall := all_takeWhile (p := (· != '\n')) (l := back.reverse)
  rw [hself, all_eq_true] at hall
  simpa using hall '\n' (by simpa using h)

theorem lastLine_append_of_not_mem (front : List Char) {back : List Char} (h : '\n' ∉ back) :
    lastLine (front ++ back) = lastLine front ++ back := by
  have hall : ∀ c ∈ back.reverse, (c != '\n') = true := by
    intro c hc
    rw [bne_iff_ne]
    rintro rfl
    exact h (by simpa using hc)
  unfold lastLine
  rw [reverse_append, takeWhile_append_of_pos hall, reverse_append,
    reverse_reverse]

theorem lastLine_of_not_mem (h : '\n' ∉ before) : lastLine before = before := by
  simpa [lastLine] using lastLine_append_of_not_mem [] h

/-- A line in front adds one to the line of a position and leaves its column. -/
theorem Position.behind_line_append {line : List Char} (rest : List Char) (h : '\n' ∉ line) :
    behind (line ++ '\n' :: rest) = ⟨(behind rest).line + 1, (behind rest).column⟩ := by
  have hcount : (line ++ '\n' :: rest).count '\n' = rest.count '\n' + 1 := by
    rw [count_append, count_eq_zero.mpr h, count_cons_self]
    omega
  have hlast : lastLine (line ++ '\n' :: rest) = lastLine rest := by
    rw [lastLine_append_of_mem line (by simp)]
    by_cases hrest : '\n' ∈ rest
    · exact lastLine_append_of_mem ['\n'] hrest
    · rw [show '\n' :: rest = ['\n'] ++ rest from rfl, lastLine_append_of_not_mem _ hrest,
        lastLine_of_not_mem hrest]
      rfl
  simp only [behind, hcount, hlast]

/-- Reading one more character moves the position on. -/
theorem Position.behind_lt_snoc (before : List Char) (c : Char) :
    behind before < behind (before ++ [c]) := by
  rw [lt_def]
  by_cases hc : c = '\n'
  · left
    subst hc
    simp [behind]
  · right
    have hne : '\n' ∉ [c] := by simpa using fun h => hc h.symm
    have hcount : ([c] : List Char).count '\n' = 0 := count_eq_zero.mpr hne
    have hpos := units16_pos c
    simp only [behind, count_append, hcount, lastLine_append_of_not_mem _ hne,
      width16_append,
      width16]
    omega

theorem Position.behind_le_append (before more : List Char) :
    behind before ≤ behind (before ++ more) := by
  induction more generalizing before with
  | nil => simpa using le_refl _
  | cons c cs ih =>
    rw [show before ++ c :: cs = before ++ [c] ++ cs by simp]
    exact le_trans (le_of_lt (behind_lt_snoc before c)) (ih (before ++ [c]))

theorem Position.behind_lt_append {more : List Char} (h : more ≠ []) :
    behind before < behind (before ++ more) := by
  cases more with
  | nil => exact absurd rfl h
  | cons c cs =>
    rw [show before ++ c :: cs = before ++ [c] ++ cs by simp]
    exact lt_of_lt_of_le (behind_lt_snoc before c) (behind_le_append _ cs)

/-- Of two prefixes of a text, the one with the smaller position is a prefix of the
other. -/
theorem Position.prefix_of_behind_le {before' after after' : List Char}
    (htext : before ++ after = before' ++ after') (hle : behind before ≤ behind before') :
    before <+: before' := by
  rcases append_eq_append_iff.mp htext with ⟨more, hbefore', -⟩ | ⟨more, hbefore, -⟩
  · exact ⟨more, hbefore'.symm⟩
  · by_cases hmore : more = []
    · subst hmore
      simp [hbefore]
    · have hlt : behind before' < behind before := by
        rw [hbefore]
        exact behind_lt_append hmore
      exact absurd hle (not_le.mpr hlt)

/-! ### Offsets -/

namespace Batch

/-- Carriage returns are dropped only behind a prefix that ends with none. -/
theorem dropReturns_append {front back : List Char} (h : front.getLast? ≠ some '\r') :
    dropReturns (front ++ back) = front ++ dropReturns back := by
  unfold dropReturns
  rw [reverse_append, dropWhile_append]
  by_cases hall : (back.reverse.dropWhile (· == '\r')).isEmpty
  · have hfront : front.reverse.dropWhile (· == '\r') = front.reverse := by
      cases hrev : front.reverse with
      | nil => rfl
      | cons c cs =>
        have hlast : front.getLast? = some c := by
          rw [← head?_reverse, hrev, head?_cons]
        have hc : c ≠ '\r' := fun hc => h (hc ▸ hlast)
        rw [dropWhile_cons_of_neg (by simpa using hc)]
    rw [if_pos hall, hfront, isEmpty_iff.mp hall]
    simp
  · rw [if_neg hall]
    simp

/-- The index of the position behind `before` is the length of `before`, whatever
follows it. -/
theorem offsetOf_behind (after : List Char) (h : before.getLast? ≠ some '\r') :
    offsetOf (Position.behind before).column (Position.behind before).line (before ++ after) =
      before.length := by
  -- Induction on the number of line feeds; each step passes one line.
  induction hn : before.count '\n' generalizing before with
  | zero =>
    have hmem : '\n' ∉ before := count_eq_zero.mp hn
    have htake : (before ++ after).takeWhile (· != '\n') =
        before ++ after.takeWhile (· != '\n') := by
      rw [takeWhile_append_of_pos]
      intro c hc
      rw [bne_iff_ne]
      rintro rfl
      exact hmem hc
    simp only [Position.behind, hn, offsetOf, lastLine_of_not_mem hmem, htake,
      dropReturns_append h, upToColumn_width16_append]
  | succ n ih =>
    have hmem : '\n' ∈ before := count_pos_iff.mp (by omega)
    obtain ⟨line, rest, rfl, hline⟩ := eq_append_cons_of_mem hmem
    have hrest : rest.count '\n' = n := by
      rw [count_append, count_eq_zero.mpr hline, count_cons_self] at hn
      omega
    have hlast : rest.getLast? ≠ some '\r' := by
      intro hr
      apply h
      rw [getLast?_append, getLast?_cons, hr]
      rfl
    have hall : ∀ c ∈ line, (c != '\n') = true := by
      intro c hc
      rw [bne_iff_ne]
      rintro rfl
      exact hline hc
    have htake : (line ++ '\n' :: (rest ++ after)).takeWhile (· != '\n') = line := by
      rw [takeWhile_append_of_pos hall]
      simp
    have hdrop : (line ++ '\n' :: (rest ++ after)).dropWhile (· != '\n') =
        '\n' :: (rest ++ after) := by
      rw [dropWhile_append_of_pos hall]
      simp
    rw [Position.behind_line_append rest hline, append_assoc, cons_append, offsetOf,
      htake, hdrop]
    dsimp only
    rw [ih hlast hrest]
    simp only [length_append, length_cons]
    omega

end Batch

end ServiceInjection
