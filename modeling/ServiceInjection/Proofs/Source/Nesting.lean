import ServiceInjection.Proofs.Source.Stream
import ServiceInjection.Source.Commas

/-!
# Source.Nesting

Code with nested brackets. The search for the bracket that closes another passes over
nested code, whatever the kind of bracket, and nested code leaves the depth at which
lists are split as it was.
-/

namespace ServiceInjection

open List

variable {depth : Nat} {code : List Char}

namespace Text

/-- Whether the brackets of one kind are nested in code, with `depth` of them open in
front. -/
def NestedIn (opening closing : Char) (depth : Nat) : List Char → Bool
  | [] => depth == 0
  | c :: cs =>
    if c == opening then NestedIn opening closing (depth + 1) cs
    else if c == closing then
      match depth with
      | 0 => false
      | depth + 1 => NestedIn opening closing depth cs
    else NestedIn opening closing depth cs

/-- Whether the brackets of each kind are nested in code. -/
def Nested (code : List Char) : Prop :=
  NestedIn '(' ')' 0 code = true ∧ NestedIn '[' ']' 0 code = true ∧ NestedIn '{' '}' 0 code = true

instance (code : List Char) : Decidable (Nested code) := inferInstanceAs (Decidable (_ ∧ _ ∧ _))

variable {opening closing : Char}

/-- Nested code leaves the brackets open that were open in front of it. -/
theorem nestedIn_append_eq {a : List Char} (ha : NestedIn opening closing depth a = true)
    (outer : Nat) (b : List Char) :
    NestedIn opening closing (depth + outer) (a ++ b) = NestedIn opening closing outer b := by
  induction a generalizing depth with
  | nil =>
    obtain rfl : depth = 0 := by simpa [NestedIn] using ha
    rw [Nat.zero_add, nil_append]
  | cons c a ih =>
    simp only [cons_append, NestedIn] at ha ⊢
    split at ha
    · rw [if_pos ‹_›, Nat.add_right_comm]
      exact ih ha
    · rw [if_neg ‹_›]
      split at ha
      · rw [if_pos ‹_›]
        split at ha
        · cases ha
        · rw [Nat.succ_add]
          exact ih ha
      · rw [if_neg ‹_›]
        exact ih ha

theorem nestedIn_append {a b : List Char} (ha : NestedIn opening closing depth a = true)
    (hb : NestedIn opening closing 0 b = true) :
    NestedIn opening closing depth (a ++ b) = true := by
  have h := nestedIn_append_eq ha 0 b
  rwa [hb, Nat.add_zero] at h

theorem nestedIn_of_not_mem (hopen : opening ∉ code) (hclose : closing ∉ code) :
    NestedIn opening closing 0 code = true := by
  induction code with
  | nil => rfl
  | cons c code ih =>
    simp only [mem_cons, not_or] at hopen hclose
    rw [NestedIn, if_neg (by simpa using Ne.symm hopen.1), if_neg (by simpa using Ne.symm hclose.1)]
    exact ih hopen.2 hclose.2

/-- Only the brackets themselves count. -/
theorem nestedIn_filter (depth : Nat) (code : List Char) :
    NestedIn opening closing depth (code.filter fun c => c == opening || c == closing) =
      NestedIn opening closing depth code := by
  induction code generalizing depth with
  | nil => rfl
  | cons c code ih =>
    by_cases hopen : (c == opening) = true
    · rw [filter_cons_of_pos (by simp [hopen])]
      simp only [NestedIn, hopen, if_true, ih]
    · by_cases hclose : (c == closing) = true
      · rw [filter_cons_of_pos (by simp [hclose])]
        cases depth <;> simp only [NestedIn, hopen, hclose, if_true, ih]
      · rw [filter_cons_of_neg (by simp [hopen, hclose])]
        simp only [NestedIn, hopen, hclose, ih]
        rfl

theorem Nested.append {a b : List Char} (ha : Nested a) (hb : Nested b) : Nested (a ++ b) :=
  ⟨nestedIn_append ha.1 hb.1, nestedIn_append ha.2.1 hb.2.1, nestedIn_append ha.2.2 hb.2.2⟩

theorem nested_of_no_bracket (h : ∀ c ∈ code, depthChange c = 0) : Nested code := by
  have hnot : ∀ c : Char, depthChange c ≠ 0 → c ∉ code := fun c hc hmem => hc (h c hmem)
  exact ⟨nestedIn_of_not_mem (hnot _ (by decide)) (hnot _ (by decide)),
    nestedIn_of_not_mem (hnot _ (by decide)) (hnot _ (by decide)),
    nestedIn_of_not_mem (hnot _ (by decide)) (hnot _ (by decide))⟩

theorem count_of_nestedIn (hne : opening ≠ closing) (h : NestedIn opening closing depth code = true) :
    code.count opening + depth = code.count closing := by
  induction code generalizing depth with
  | nil => simpa [NestedIn] using h
  | cons c code ih =>
    simp only [NestedIn] at h
    split at h
    · obtain rfl : c = opening := by simpa using ‹(c == opening) = true›
      have := ih h
      rw [count_cons_self, count_cons_of_ne hne]
      omega
    · rename_i hopen
      have hopen : c ≠ opening := by simpa using hopen
      split at h
      · obtain rfl : c = closing := by simpa using ‹(c == closing) = true›
        split at h
        · cases h
        · have := ih h
          rw [count_cons_self, count_cons_of_ne hopen]
          omega
      · rename_i hclose
        have hclose : c ≠ closing := by simpa using hclose
        have := ih h
        rw [count_cons_of_ne hclose, count_cons_of_ne hopen]
        omega

end Text

open Text

/-! ### Searches -/

/-- The bracket that closes an earlier one lies behind nested code. -/
theorem Source.closeIn_nested {opening closing : Char} {glyphs : List Glyph} (more : List Glyph)
    {outer : Int} (houter : 0 < outer)
    (h : NestedIn opening closing depth (glyphs.map (·.char)) = true) :
    closeIn opening closing (outer + depth) (glyphs ++ more) =
      closeIn opening closing outer more := by
  induction glyphs generalizing depth with
  | nil =>
    obtain rfl : depth = 0 := by simpa [NestedIn] using h
    simp
  | cons glyph glyphs ih =>
    simp only [map_cons, cons_append, NestedIn, closeIn] at h ⊢
    split at h
    · rw [if_pos ‹_›, show outer + (depth : Int) + 1 = outer + ((depth + 1 : Nat) : Int) by omega]
      exact ih h
    · rw [if_neg ‹_›]
      split at h
      · rw [if_pos ‹_›]
        split at h
        · cases h
        · rename_i depth
          rw [if_neg (by simp; omega),
            show outer + ((depth + 1 : Nat) : Int) - 1 = outer + (depth : Int) by omega]
          exact ih h
      · rw [if_neg ‹_›]
        exact ih h

/-- The same for cells. -/
theorem Line.closeIndex_append {opening closing : Char} {depth : Nat} {a : Line} (b : Line)
    {outer : Int} (houter : 0 < outer) (h : NestedIn opening closing depth a.code = true) :
    closeIndex opening closing (outer + depth) (a ++ b) =
      (closeIndex opening closing outer b).map (· + a.length) := by
  let place : Nat → Spot := fun k => ⟨0, k⟩
  have hchars : (Source.placed place a).map (·.char) = a.code :=
    ext_getElem? fun k => by simp [Source.placed, Line.code, Function.comp_def]
  have hnested := Source.closeIn_nested (Source.placed (fun k => place (k + a.length)) b) houter
    (hchars ▸ h)
  rw [Source.placed, Source.placed, ← mapIdx_append, ← Source.placed, ← Source.placed,
    Source.closeIn_placed, Source.closeIn_placed] at hnested
  exact Option.map_injective (fun _ _ => congrArg Spot.col)
    (hnested.trans (Option.map_map ..).symm)

/-- In front of the bracket that closes an earlier one the brackets are nested. -/
theorem Line.of_closeIndex {opening closing : Char} {depth : Nat} {cells : Line} {k : Nat}
    (h : closeIndex opening closing (depth + 1) cells = some k) :
    ∃ inner cell back, cells = inner ++ cell :: back ∧ inner.length = k ∧ cell.code = closing ∧
      NestedIn opening closing depth (Line.code inner) = true := by
  induction cells generalizing depth k with
  | nil => cases h
  | cons cell cells ih =>
    rw [closeIndex] at h
    by_cases hopen : (cell.code == opening) = true
    · rw [if_pos hopen] at h
      obtain ⟨k, hk, rfl⟩ := Option.map_eq_some_iff.mp h
      obtain ⟨inner, last, back, rfl, rfl, hlast, hinner⟩ := @ih (depth + 1) k hk
      exact ⟨cell :: inner, last, back, rfl, rfl, hlast, by simpa [Line.code, NestedIn, hopen] using hinner⟩
    · rw [if_neg hopen] at h
      by_cases hclose : (cell.code == closing) = true
      · rw [if_pos hclose] at h
        cases depth with
        | zero =>
          cases h
          exact ⟨[], cell, cells, rfl, rfl, by simpa using hclose, rfl⟩
        | succ depth =>
          rw [if_neg (by simp; omega), Int.add_sub_cancel] at h
          obtain ⟨k, hk, rfl⟩ := Option.map_eq_some_iff.mp h
          obtain ⟨inner, last, back, rfl, rfl, hlast, hinner⟩ := @ih depth k hk
          exact ⟨cell :: inner, last, back, rfl, rfl, hlast,
            by simpa [Line.code, NestedIn, hopen, hclose] using hinner⟩
      · rw [if_neg hclose] at h
        obtain ⟨k, hk, rfl⟩ := Option.map_eq_some_iff.mp h
        obtain ⟨inner, last, back, rfl, rfl, hlast, hinner⟩ := ih hk
        exact ⟨cell :: inner, last, back, rfl, rfl, hlast,
          by simpa [Line.code, NestedIn, hopen, hclose] using hinner⟩

/-! ### The depth of lists -/

namespace Line

/-- The bracket depth behind cells that start at depth `depth`. -/
def depthAfter (depth : Int) : Line → Int
  | [] => depth
  | cell :: rest => depthAfter (depth + depthChange cell.code) rest

theorem depthChange_eq (c : Char) :
    depthChange c = ((if c = '(' then 1 else 0 : Nat) : Int) - (if c = ')' then 1 else 0 : Nat) +
      ((if c = '[' then 1 else 0 : Nat) - (if c = ']' then 1 else 0 : Nat)) +
      ((if c = '{' then 1 else 0 : Nat) - (if c = '}' then 1 else 0 : Nat)) := by
  by_cases hbracket : c ∈ ['(', ')', '[', ']', '{', '}']
  · simp only [mem_cons, not_mem_nil, or_false] at hbracket
    rcases hbracket with rfl | rfl | rfl | rfl | rfl | rfl <;> decide
  · simp only [mem_cons, not_mem_nil, or_false, not_or] at hbracket
    simp [depthChange, hbracket]

theorem depthAfter_eq (depth : Int) (cells : Line) :
    depthAfter depth cells = depth +
      (cells.code.count '(' - cells.code.count ')') +
      (cells.code.count '[' - cells.code.count ']') +
      (cells.code.count '{' - cells.code.count '}') := by
  induction cells generalizing depth with
  | nil => simp [depthAfter, Line.code]
  | cons cell cells ih =>
    have hcode : Line.code (cell :: cells) = cell.code :: Line.code cells := rfl
    rw [depthAfter, ih, hcode]
    simp only [count_cons, depthChange_eq, beq_iff_eq]
    omega

/-- Nested code leaves the depth as it was. -/
theorem depthAfter_of_nested {cells : Line} (h : Nested cells.code) (depth : Int) :
    depthAfter depth cells = depth := by
  have hround := count_of_nestedIn (by decide) h.1
  have hsquare := count_of_nestedIn (by decide) h.2.1
  have hcurly := count_of_nestedIn (by decide) h.2.2
  rw [depthAfter_eq]
  omega

end Line

end ServiceInjection
