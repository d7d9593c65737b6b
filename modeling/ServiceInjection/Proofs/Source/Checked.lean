import ServiceInjection.Proofs.Source.Aligned
import ServiceInjection.Proofs.Text.Checked

/-!
# Source.Checked

Searching a source by byte offsets. An offset found in the mask of a line cuts the line too
(`Line.View.cut`). The checked searches cut the masked text of every line they come to and turn
the offset that they find back into a place; from any place they succeed and find what the
searches on code characters find (`Checked.firstOf_eq`, `Checked.matchingClose_eq`). An offset is
moved by one only across a bracket, which is a character of one byte (`Checked.next_eq`,
`Checked.back_eq`).
-/

namespace ServiceInjection

open Text List

variable {i : Nat} {cell : Cell} {targets : List Char} {source : Source}

/-! ### Offsets in masked text -/

/-- Offsets of cells cut the text and its mask. -/
theorem Line.View.cut {view : Line → List Char} (h : Line.View view) (line : Line) {j : Nat}
    (hle : i ≤ j) : Checked.cut (view line) (line.byteAt i) (line.byteAt j) =
      .ok (view ((line.take j).drop i)) := by
  rw [Checked.cut, h.bytesBetween? line hle]

theorem Line.cut_masked_from (line : Line) (i : Nat) :
    Checked.cut line.masked (line.byteAt i) (width8 line.raw) = .ok (Line.masked (line.drop i)) := by
  have hcut := view_masked.cut line (Nat.le_max_left i line.length)
  have hall : line.take (max i line.length) = line := take_of_length_le (Nat.le_max_right _ _)
  rwa [byteAt.eq_def line (max _ _), hall] at hcut

/-! ### The first of some characters -/

/-- A cell whose code is one of some characters is shown. -/
theorem Cell.masked_eq (hspace : ' ' ∉ targets) (h : cell.code ∈ targets) :
    cell.masked = [cell.code] := by
  have hne : cell.code ≠ ' ' := fun heq => hspace (heq ▸ h)
  exact congrArg Cell.masked (eq_show_of_code rfl hne)

/-- The first of some characters on a line, by bytes and by code characters. -/
theorem Line.indexOfFirst_masked (hspace : ' ' ∉ targets) (n col : Nat) (cells : Line) :
    indexOfFirst targets cells.masked =
      ((lineGlyphs n col cells.code).find? (targets.contains ·.char)).map fun glyph =>
        (cells.byteAt (glyph.spot.col - col), glyph.char) := by
  induction cells generalizing col with
  | nil => rfl
  | cons cell cells ih =>
    have hmasked : Line.masked (cell :: cells) = cell.masked ++ Line.masked cells := rfl
    have hglyphs : lineGlyphs n col (Line.code (cell :: cells)) =
        ⟨⟨n, col⟩, cell.code⟩ :: lineGlyphs n (col + 1) (Line.code cells) := rfl
    rw [hmasked, hglyphs, find?_cons]
    by_cases hcode : cell.code ∈ targets
    · rw [Cell.masked_eq hspace hcode, singleton_append, indexOfFirst]
      simp [hcode, Line.byteAt, Line.raw, width8]
    · rw [indexOfFirst_append fun c hc => Cell.mem_masked.mp hc ▸ hcode, ih (col + 1), cell.width8_masked]
      have hcontains : targets.contains cell.code = false := by simpa using hcode
      rw [hcontains]
      cases hfound : (lineGlyphs n (col + 1) (Line.code cells)).find? (targets.contains ·.char) with
      | none => rfl
      | some glyph =>
        have hcol := (of_mem_lineGlyphs (mem_of_find?_eq_some hfound)).2.1
        rw [Option.map_some, Option.map_some, Option.map_some,
          show glyph.spot.col - col = glyph.spot.col - (col + 1) + 1 by omega, byteAt_cons]

/-! ### Places -/

namespace Source

theorem byteAt_eq_head (source : Source) (spot : Spot) :
    source.byteAt spot = ((source.lines.drop spot.line).headD []).byteAt spot.col := by
  rw [byteAt, line, headD_eq_head?_getD, head?_drop, getD_eq_getElem?_getD]

theorem getD_drop_line {n m : Nat} (h : n ≤ m) :
    (source.lines.drop n).getD (m - n) [] = source.line m := by
  rw [line, getD_eq_getElem?_getD, getElem?_drop, Nat.add_sub_cancel' h,
    getD_eq_getElem?_getD]

/-- The masked texts of the lines from a number on. -/
def maskedFrom (source : Source) (n : Nat) : List (List Char) := (source.lines.drop n).map Line.masked

end Source

namespace Checked

/-- The place at a byte offset of a line. -/
def spotAt (source : Source) (n offset : Nat) : Checked Spot := do
  let front ← cut (source.raw n) 0 offset
  .ok ⟨n, front.length⟩

theorem spotAt_byteAt {source : Source} {spot : Spot}
    (h : spot.col ≤ (source.line spot.line).length) :
    spotAt source spot.line (source.byteAt spot) = .ok spot := by
  have hcut := Line.view_raw.cut (source.line spot.line) (Nat.zero_le spot.col)
  rw [show Line.byteAt (source.line spot.line) 0 = 0 from rfl] at hcut
  rw [spotAt, Source.raw, Source.byteAt, hcut, ok_bind, drop_zero, Line.raw, length_map, length_take,
    Nat.min_eq_left h]

/-- The place one byte behind another. -/
def next (source : Source) (spot : Spot) : Checked Spot :=
  spotAt source spot.line (source.byteAt spot + 1)

/-- The place one byte in front of another. -/
def back (source : Source) (spot : Spot) : Checked Spot := do
  let offset ← sub (source.byteAt spot) 1
  spotAt source spot.line offset

variable {source : Source} {spot : Spot} {c : Char}

theorem next_eq (h : source.Holds spot c) (hspace : c ≠ ' ') (hsize : c.utf8Size = 1) :
    next source spot = .ok spot.next := by
  rw [next, ← h.byteAt_next hspace hsize]
  exact @spotAt_byteAt source spot.next h.col_lt

theorem back_eq (h : source.Holds spot c) (hspace : c ≠ ' ') (hsize : c.utf8Size = 1) :
    back source spot.next = .ok spot := by
  rw [back, h.byteAt_next hspace hsize, sub_add_right, ok_bind]
  exact spotAt_byteAt (Nat.le_of_lt h.col_lt)

/-! ### Searches for a character -/

/-- Looks for one of some characters on masked lines, the first of which has the given number
and is read from a byte offset on. Every line is cut before it is read. -/
def firstIn (targets : List Char) : Nat → Nat → List (List Char) → Checked (Option (Nat × Nat × Char))
  | _, _, [] => .ok none
  | n, first, code :: rest => do
    let start := min first (width8 code)
    let tail ← cut code start (width8 code)
    match indexOfFirst targets tail with
    | some (index, c) => .ok (some (n, start + index, c))
    | none => firstIn targets (n + 1) 0 rest

theorem firstIn_eq (hspace : ' ' ∉ targets) (n col : Nat) (lines : List Line) :
    firstIn targets n ((lines.headD []).byteAt col) (lines.map Line.masked) =
      .ok (((Source.glyphsBehind n col lines).find? (targets.contains ·.char)).map fun glyph =>
        (glyph.spot.line, (lines.getD (glyph.spot.line - n) []).byteAt glyph.spot.col, glyph.char)) := by
  induction lines generalizing n col with
  | nil => rfl
  | cons line rest ih =>
    have hcode : Line.code (line.drop col) = line.code.drop col := map_drop
    rw [map_cons, firstIn, headD_cons, line.width8_masked, Nat.min_eq_left (line.byteAt_le col),
      line.cut_masked_from, ok_bind, Line.indexOfFirst_masked hspace n col, hcode, Source.glyphsBehind,
      find?_append]
    cases hfound : (lineGlyphs n col (line.code.drop col)).find? (targets.contains ·.char) with
    | some glyph =>
      obtain ⟨hline, hcol, -⟩ := of_mem_lineGlyphs (mem_of_find?_eq_some hfound)
      simp [hline, Line.byteAt_add_drop, Nat.add_sub_cancel' hcol]
    | none =>
      have hnext := ih (n + 1) 0
      have hglyphs : Source.glyphsBehind (n + 1) 0 rest = glyphsOf (n + 1) rest := by
        cases rest <;> rfl
      rw [hglyphs, show Line.byteAt (rest.headD []) 0 = 0 from rfl] at hnext
      simp only [Option.map_none, Option.none_or]
      rw [hnext]
      cases hlater : (glyphsOf (n + 1) rest).find? (targets.contains ·.char) with
      | none => rfl
      | some glyph =>
        have hle := (of_mem_glyphsOf (mem_of_find?_eq_some hlater)).1
        rw [Option.map_some, Option.map_some,
          show glyph.spot.line - n = glyph.spot.line - (n + 1) + 1 by omega, getD_cons_succ]

/-- The first of some characters at or behind a place. -/
def firstOf (source : Source) (spot : Spot) (targets : List Char) : Checked (Option Glyph) := do
  let found ← firstIn targets spot.line (source.byteAt spot) (source.maskedFrom spot.line)
  match found with
  | none => .ok none
  | some (n, offset, c) =>
    let spot ← spotAt source n offset
    .ok (some ⟨spot, c⟩)

/-- **Searches for a character succeed.** -/
theorem firstOf_eq (source : Source) (spot : Spot) (hspace : ' ' ∉ targets) :
    firstOf source spot targets = .ok (source.firstOf spot targets) := by
  rw [firstOf, source.byteAt_eq_head, Source.maskedFrom, firstIn_eq hspace, ← Source.glyphsFrom_eq,
    ← Source.firstOf, ok_bind]
  cases hfound : source.firstOf spot targets with
  | none => rfl
  | some glyph =>
    obtain ⟨hholds, hbehind, -⟩ := Source.firstOf_spec hfound
    have hspot := spotAt_byteAt (Nat.le_of_lt hholds.col_lt)
    rw [Source.byteAt] at hspot
    rw [Option.map_some, Source.getD_drop_line (Source.line_le_of_not_before hbehind)]
    simp only [hspot, ok_bind]

/-- The line of the first character of a kind at or behind the start of a line. -/
def lineOfFirst (source : Source) (n : Nat) (target : Char) : Checked Nat := do
  let found ← firstOf source ⟨n, 0⟩ [target]
  .ok (found.elim n (·.spot.line))

theorem lineOfFirst_eq (source : Source) (n : Nat) {target : Char} (hspace : ' ' ≠ target) :
    lineOfFirst source n target = .ok (source.lineOfFirst n target) := by
  rw [lineOfFirst, firstOf_eq source _ (by simpa using hspace), ok_bind, Source.lineOfFirst]
  cases source.firstOf ⟨n, 0⟩ [target] <;> rfl

end Checked

/-! ### The bracket that closes another -/

/-- The byte offset at which the brackets opened so far, `depth` of them, are all closed, or
their number at the end of the text. -/
def Text.closeOf (opening closing : Char) : Int → List Char → Nat ⊕ Int
  | depth, [] => .inr depth
  | depth, c :: cs =>
    if c == opening then (closeOf opening closing (depth + 1) cs).map (c.utf8Size + ·) id
    else if c == closing then
      if depth - 1 == 0 then .inl 0
      else (closeOf opening closing (depth - 1) cs).map (c.utf8Size + ·) id
    else (closeOf opening closing depth cs).map (c.utf8Size + ·) id

section

variable {opening closing : Char}

theorem Text.closeOf_append {piece : List Char} (h : ∀ c ∈ piece, c ∉ [opening, closing]) (depth : Int)
    (cs : List Char) :
    closeOf opening closing depth (piece ++ cs) =
      (closeOf opening closing depth cs).map (width8 piece + ·) id := by
  induction piece with
  | nil => cases hclose : closeOf opening closing depth cs <;> simp [hclose, width8]
  | cons c piece ih =>
    obtain ⟨hc, hpiece⟩ := forall_mem_cons.mp h
    rw [mem_cons, mem_singleton, not_or] at hc
    rw [cons_append, closeOf, if_neg (by simpa using hc.1), if_neg (by simpa using hc.2), ih hpiece]
    cases closeOf opening closing depth cs <;> simp [width8, Nat.add_assoc]

/-- What a search by bytes finds in the masked text of cells, the first of which stands at
column `col` of line `n`. -/
def Source.Closes (opening closing : Char) (n col : Nat) (depth : Int) (cells : Line) : Nat ⊕ Int → Prop
  | .inl index => ∃ k, col ≤ k ∧ index = cells.byteAt (k - col) ∧
      ∀ later, closeIn opening closing depth (lineGlyphs n col cells.code ++ later) = some ⟨n, k⟩
  | .inr depth' => ∀ later, closeIn opening closing depth (lineGlyphs n col cells.code ++ later) =
      closeIn opening closing depth' later

/-- A cell that changes the depth and no more. -/
theorem Source.Closes.cons {n col : Nat} {depth depth' : Int} {cell : Cell} {cells : Line} {found : Nat ⊕ Int}
    (h : Closes opening closing n (col + 1) depth' cells found)
    (hcell : ∀ later, closeIn opening closing depth (⟨⟨n, col⟩, cell.code⟩ :: later) =
      closeIn opening closing depth' later) :
    Closes opening closing n col depth (cell :: cells) (found.map (cell.char.utf8Size + ·) id) := by
  have hglyphs : ∀ later, closeIn opening closing depth
      (lineGlyphs n col (Line.code (cell :: cells)) ++ later) =
        closeIn opening closing depth' (lineGlyphs n (col + 1) (Line.code cells) ++ later) :=
    fun later => hcell _
  cases found with
  | inl index =>
    obtain ⟨k, hk, hindex, hclose⟩ := h
    refine ⟨k, by omega, ?_, fun later => (hglyphs later).trans (hclose later)⟩
    rw [hindex, show k - col = k - (col + 1) + 1 by omega]
    rfl
  | inr depth'' => exact fun later => (hglyphs later).trans (h later)

theorem Source.closes_closeOf (hopening : opening ≠ ' ') (hclosing : closing ≠ ' ') (n col : Nat)
    (depth : Int) (cells : Line) :
    Closes opening closing n col depth cells (closeOf opening closing depth cells.masked) := by
  have hspace : ' ' ∉ [opening, closing] := by simp [hopening.symm, hclosing.symm]
  induction cells generalizing col depth with
  | nil => exact fun _ => rfl
  | cons cell cells ih =>
    have hmasked : Line.masked (cell :: cells) = cell.masked ++ Line.masked cells := rfl
    rw [hmasked]
    by_cases hcode : cell.code ∈ [opening, closing]
    · have hpiece := Cell.masked_eq hspace hcode
      have hsize : cell.code.utf8Size = cell.char.utf8Size := by
        have hwidth := cell.width8_masked
        rwa [hpiece] at hwidth
      rw [hpiece, singleton_append, closeOf, hsize]
      split
      · rename_i hopen
        exact (ih (col + 1) (depth + 1)).cons fun later => by rw [closeIn, if_pos hopen]
      · rename_i hopen
        have hclose : (cell.code == closing) = true := by
          rw [mem_cons, mem_singleton] at hcode
          simpa using hcode.resolve_left (by simpa using hopen)
        rw [if_pos hclose]
        split
        · rename_i hlast
          refine ⟨col, Nat.le_refl _, by simp [Line.byteAt, Line.raw, width8], fun later => ?_⟩
          show closeIn opening closing depth (⟨⟨n, col⟩, cell.code⟩ :: _) = _
          rw [closeIn, if_neg hopen, if_pos hclose, if_pos hlast]
        · rename_i hlast
          exact (ih (col + 1) (depth - 1)).cons fun later => by
            rw [closeIn, if_neg hopen, if_pos hclose, if_neg hlast]
    · rw [closeOf_append fun c hc => Cell.mem_masked.mp hc ▸ hcode, cell.width8_masked]
      rw [mem_cons, mem_singleton, not_or] at hcode
      exact (ih (col + 1) depth).cons fun later => by
        rw [closeIn, if_neg (by simpa using hcode.1), if_neg (by simpa using hcode.2)]

end

namespace Checked

variable {opening closing : Char}

/-- Looks for the closing bracket on masked lines, as `firstIn` looks for a character. -/
def closeIn (opening closing : Char) :
    Int → Nat → Nat → List (List Char) → Checked (Option (Nat × Nat))
  | _, _, _, [] => .ok none
  | depth, n, first, code :: rest => do
    let start := min first (width8 code)
    let tail ← cut code start (width8 code)
    match closeOf opening closing depth tail with
    | .inl index => .ok (some (n, start + index))
    | .inr depth => closeIn opening closing depth (n + 1) 0 rest

theorem closeIn_eq (hopening : opening ≠ ' ') (hclosing : closing ≠ ' ') (depth : Int) (n col : Nat)
    (lines : List Line) :
    closeIn opening closing depth n ((lines.headD []).byteAt col) (lines.map Line.masked) =
      .ok ((Source.closeIn opening closing depth (Source.glyphsBehind n col lines)).map fun spot =>
        (spot.line, (lines.getD (spot.line - n) []).byteAt spot.col)) := by
  induction lines generalizing depth n col with
  | nil => rfl
  | cons line rest ih =>
    have hcode : Line.code (line.drop col) = line.code.drop col := map_drop
    have hcloses := Source.closes_closeOf hopening hclosing n col depth (line.drop col)
    rw [map_cons, closeIn, headD_cons, line.width8_masked, Nat.min_eq_left (line.byteAt_le col),
      line.cut_masked_from, ok_bind, Source.glyphsBehind, ← hcode]
    generalize closeOf opening closing depth (Line.masked (line.drop col)) = found at hcloses ⊢
    cases found with
    | inl index =>
      obtain ⟨k, hk, rfl, hclose⟩ := hcloses
      rw [hclose]
      simp [Line.byteAt_add_drop, Nat.add_sub_cancel' hk]
    | inr depth' =>
      have hnext := ih depth' (n + 1) 0
      have hglyphs : Source.glyphsBehind (n + 1) 0 rest = glyphsOf (n + 1) rest := by
        cases rest <;> rfl
      rw [hglyphs, show Line.byteAt (rest.headD []) 0 = 0 from rfl] at hnext
      rw [hcloses]
      refine hnext.trans ?_
      cases hlater : Source.closeIn opening closing depth' (glyphsOf (n + 1) rest) with
      | none => rfl
      | some spot =>
        obtain ⟨glyph, hmem, rfl, -⟩ := Source.of_closeIn hlater
        have hle := (of_mem_glyphsOf hmem).1
        rw [Option.map_some, Option.map_some,
          show glyph.spot.line - n = glyph.spot.line - (n + 1) + 1 by omega, getD_cons_succ]

/-- The bracket that closes the one at a place. -/
def matchingClose (source : Source) (spot : Spot) (opening closing : Char) :
    Checked (Option Spot) := do
  let found ← closeIn opening closing 0 spot.line (source.byteAt spot) (source.maskedFrom spot.line)
  match found with
  | none => .ok none
  | some (n, offset) =>
    let spot ← spotAt source n offset
    .ok (some spot)

/-- **Searches for a closing bracket succeed.** -/
theorem matchingClose_eq (source : Source) (spot : Spot) (hopening : opening ≠ ' ')
    (hclosing : closing ≠ ' ') :
    matchingClose source spot opening closing = .ok (source.matchingClose spot opening closing) := by
  rw [matchingClose, source.byteAt_eq_head, Source.maskedFrom, closeIn_eq hopening hclosing,
    ← Source.glyphsFrom_eq, ← Source.matchingClose, ok_bind]
  cases hfound : source.matchingClose spot opening closing with
  | none => rfl
  | some close =>
    obtain ⟨hholds, hbehind⟩ := Source.matchingClose_spec hfound
    have hspot := spotAt_byteAt (Nat.le_of_lt hholds.col_lt)
    rw [Source.byteAt] at hspot
    rw [Option.map_some, Source.getD_drop_line (Source.line_le_of_not_before hbehind)]
    simp only [hspot, ok_bind]

end Checked

end ServiceInjection
