import ServiceInjection.Outline.Methods
import ServiceInjection.Proofs.Source.Stream

/-!
# Source.Local

Lines in a larger source. What a search finds within some lines, it finds at the same
place of every source that these lines stand in: `front` lines may come before them,
and any lines behind them. The pieces of text between two places of the lines are the
same as well. Between a brace and the one that closes it, every line
starts deeper than the brace stands (`Source.depthAt_lt_depthBefore`).
-/

namespace ServiceInjection

open List

/-- The place `k` lines further down. -/
def Spot.down (k : Nat) (spot : Spot) : Spot := ⟨k + spot.line, spot.col⟩

@[simp] theorem Spot.down_line (k : Nat) (spot : Spot) : (spot.down k).line = k + spot.line := rfl

@[simp] theorem Spot.down_col (k : Nat) (spot : Spot) : (spot.down k).col = spot.col := rfl

theorem Spot.down_before (k : Nat) (a b : Spot) : (a.down k).before (b.down k) = a.before b := by
  rw [Bool.eq_iff_iff, before_def, before_def]
  simp only [down_line, down_col]
  omega

/-- The glyph `k` lines further down. -/
def Glyph.down (k : Nat) (glyph : Glyph) : Glyph := ⟨glyph.spot.down k, glyph.char⟩

theorem lineGlyphs_down (k n col : Nat) (code : List Char) :
    lineGlyphs (k + n) col code = (lineGlyphs n col code).map (.down k) := by
  induction code generalizing col with
  | nil => rfl
  | cons c code ih => simp [lineGlyphs, ih, Glyph.down, Spot.down]

theorem glyphsOf_down (k n : Nat) (lines : List Line) :
    glyphsOf (k + n) lines = (glyphsOf n lines).map (.down k) := by
  induction lines generalizing n with
  | nil => rfl
  | cons line lines ih =>
    rw [glyphsOf, glyphsOf, map_append, lineGlyphs_down, Nat.add_assoc, ih]

namespace Source

/-- The source of some lines with others around them. -/
def around (front lines back : List Line) : Source := .ofLines (front ++ (lines ++ back))

variable {front lines back : List Line}

theorem line_around {i : Nat} (h : i < lines.length) :
    (around front lines back).line (front.length + i) = (ofLines lines).line i := by
  show (front ++ (lines ++ back)).getD (front.length + i) [] = lines.getD i []
  simp [getD_eq_getElem?_getD, getElem?_append_right, getElem?_append_left h]

/-- The code characters from a place of the lines on. -/
theorem glyphsFrom_around {spot : Spot} (h : spot.line < lines.length) :
    (around front lines back).glyphsFrom (spot.down front.length) =
      ((ofLines lines).glyphsFrom spot).map (.down front.length) ++
        glyphsOf (front.length + lines.length) back := by
  have hglyphs : (around front lines back).glyphs = glyphsOf 0 front ++
      ((glyphsOf 0 lines).map (.down front.length) ++
        glyphsOf (front.length + lines.length) back) := by
    show glyphsOf 0 (front ++ (lines ++ back)) = _
    rw [glyphsOf_append, glyphsOf_append, Nat.zero_add, ← glyphsOf_down, Nat.add_zero]
  have hfront : ∀ glyph ∈ glyphsOf 0 front,
      glyph.spot.before (spot.down front.length) = true := by
    intro glyph hglyph
    obtain ⟨-, line, hline, -⟩ := of_mem_glyphsOf hglyph
    have := (List.getElem?_eq_some_iff.mp hline).1
    rw [Spot.before_def, Spot.down_line]
    omega
  have hback : ∀ glyph ∈ glyphsOf (front.length + lines.length) back,
      ¬ glyph.spot.before (spot.down front.length) = true := by
    intro glyph hglyph
    have := (of_mem_glyphsOf hglyph).1
    rw [Spot.before_def, Spot.down_line]
    omega
  have hinner : ((glyphsOf 0 lines).map (Glyph.down front.length)).filter
      (!·.spot.before (spot.down front.length)) =
        ((ofLines lines).glyphsFrom spot).map (.down front.length) := by
    rw [filter_map, glyphsFrom_eq_filter]
    refine congrArg (map _) (filter_congr fun glyph _ => ?_)
    exact congrArg (!·) (Spot.down_before front.length glyph.spot spot)
  rw [glyphsFrom_eq_filter, hglyphs, filter_append, filter_append, hinner,
    filter_eq_nil_iff.mpr (by simpa using hfront), filter_eq_self.mpr (by simpa using hback), nil_append]

/-- The number of open brackets behind code characters. -/
def depthBehind (opening closing : Char) : Int → List Glyph → Int
  | depth, [] => depth
  | depth, glyph :: rest =>
    if glyph.char == opening then depthBehind opening closing (depth + 1) rest
    else if glyph.char == closing then depthBehind opening closing (depth - 1) rest
    else depthBehind opening closing depth rest

theorem closeIn_append (opening closing : Char) (depth : Int) (glyphs more : List Glyph) :
    closeIn opening closing depth (glyphs ++ more) = (closeIn opening closing depth glyphs).or
      (closeIn opening closing (depthBehind opening closing depth glyphs) more) := by
  induction glyphs generalizing depth with
  | nil => rfl
  | cons glyph glyphs ih =>
    simp only [cons_append, closeIn, depthBehind, ih]
    split
    · rfl
    · split
      · split <;> rfl
      · rfl

theorem closeIn_down (opening closing : Char) (k : Nat) (depth : Int) (glyphs : List Glyph) :
    closeIn opening closing depth (glyphs.map (.down k)) =
      (closeIn opening closing depth glyphs).map (.down k) := by
  induction glyphs generalizing depth with
  | nil => rfl
  | cons glyph glyphs ih =>
    simp only [map_cons, closeIn, ih]
    rw [show (glyph.down k).char = glyph.char from rfl]
    split
    · rfl
    · split
      · split <;> rfl
      · rfl

/-- A bracket that is closed within the lines is closed there in every source around
them. -/
theorem matchingClose_around {spot close : Spot} {opening closing : Char}
    (h : (ofLines lines).matchingClose spot opening closing = some close)
    (hspot : spot.line < lines.length) :
    (around front lines back).matchingClose (spot.down front.length) opening closing =
      some (close.down front.length) := by
  rw [matchingClose, glyphsFrom_around hspot]
  rw [closeIn_append, closeIn_down,
    show closeIn opening closing 0 ((ofLines lines).glyphsFrom spot) = some close from h]
  rfl

/-- A character that is found within the lines is found there in every source around
them. -/
theorem firstOf_around {spot : Spot} {targets : List Char} {glyph : Glyph}
    (h : (ofLines lines).firstOf spot targets = some glyph) (hspot : spot.line < lines.length) :
    (around front lines back).firstOf (spot.down front.length) targets =
      some (glyph.down front.length) := by
  rw [firstOf, glyphsFrom_around hspot, find?_append, find?_map,
    show find? ((fun x => targets.contains x.char) ∘ Glyph.down front.length)
      ((ofLines lines).glyphsFrom spot) = some glyph from h]
  rfl

/-! ### Pieces of text -/

theorem Holds.line_lt {source : Source} {spot : Spot} {c : Char} (h : source.Holds spot c) :
    spot.line < source.lines.length := by
  refine Nat.lt_of_not_le fun hle => h.raw_ne_nil ?_
  rw [raw, line, getD_eq_getElem?_getD, getElem?_eq_none hle]
  rfl

theorem map_span_around {α : Type} (f : Line → α) {first last : Nat} (h : last < lines.length) :
    (span (front.length + first) (front.length + last)).map
        (fun n => f ((around front lines back).line n)) =
      (span first last).map fun n => f ((ofLines lines).line n) := by
  have hcount : front.length + last + 1 - (front.length + first) = last + 1 - first := by omega
  rw [span, hcount, ← map_add_range', map_map, span]
  refine map_congr_left fun n hn => ?_
  obtain ⟨hle, hlt⟩ := mem_range'_1.mp hn
  exact congrArg f (line_around (by omega))

/-- The lines strictly between two lines. -/
theorem map_inner_around {α : Type} (f : Line → α) {first last : Nat} (h : last < lines.length) :
    (span (front.length + first + 1) (front.length + last - 1)).map
        (fun n => f ((around front lines back).line n)) =
      (span (first + 1) (last - 1)).map fun n => f ((ofLines lines).line n) := by
  by_cases hzero : last = 0
  · have hempty : ∀ k : Nat, span (k + first + 1) (k + last - 1) = [] := by
      intro k
      rw [span, show k + last - 1 + 1 - (k + first + 1) = 0 by omega]
      rfl
    have hinner := hempty 0
    rw [Nat.zero_add, Nat.zero_add] at hinner
    rw [hempty, hinner]
    rfl
  · have := @map_span_around front lines back _ f (first + 1) (last - 1) (by omega)
    rwa [← Nat.add_assoc, show front.length + (last - 1) = front.length + last - 1 by omega] at this

theorem beq_down (k a b : Nat) : (k + a == k + b) = (a == b) := by
  rw [Bool.eq_iff_iff, beq_iff_eq, beq_iff_eq]
  omega

theorem slice_around {first last : Spot} (hfirst : first.line < lines.length)
    (hlast : last.line < lines.length) :
    (around front lines back).slice (first.down front.length) (last.down front.length) =
      (ofLines lines).slice first last := by
  simp only [slice, Spot.down_line, Spot.down_col, beq_down, line_around hfirst, line_around hlast]
  split
  · rfl
  · have hmap := @map_inner_around front lines back _ id first.line last.line hlast
    simp only [id_eq] at hmap
    rw [hmap]

theorem between_around {opening closing : Spot} (hopening : opening.line < lines.length)
    (hclosing : closing.line < lines.length) :
    (around front lines back).between (opening.down front.length) (closing.down front.length) =
      (ofLines lines).between opening closing :=
  slice_around (show opening.next.line < _ from hopening) hclosing

end Source

/-! ### Depth -/

/-- The brace depth at the start of a line. -/
def Source.depthBefore (source : Source) : Nat → Int
  | 0 => 0
  | n + 1 => source.depthBefore n + source.braceBalance n

/-- The brace depth in front of a place. -/
def Source.depthAt (source : Source) (spot : Spot) : Int :=
  source.depthBefore spot.line + Line.braceBalance ((source.line spot.line).take spot.col)

theorem Line.code_take (line : Line) (col : Nat) : Line.code (line.take col) = line.code.take col :=
  map_take ..

theorem Line.code_drop (line : Line) (col : Nat) : Line.code (line.drop col) = line.code.drop col :=
  map_drop ..

theorem Line.code_flatten (lines : List Line) :
    Line.code lines.flatten = lines.flatMap Line.code :=
  map_flatten.trans (flatMap_def ..).symm

theorem Line.braceBalance_append (front back : Line) :
    Line.braceBalance (front ++ back) = Line.braceBalance front + Line.braceBalance back := by
  simp only [braceBalance, code, map_append, count_append]
  omega

namespace Source

/-! ### Brackets that are closed later -/

theorem depthBehind_pos {opening closing : Char} {depth : Int} {glyphs : List Glyph}
    (hdepth : 0 < depth) (h : closeIn opening closing depth glyphs = none) :
    0 < depthBehind opening closing depth glyphs := by
  induction glyphs generalizing depth with
  | nil => exact hdepth
  | cons glyph glyphs ih =>
    simp only [closeIn, depthBehind] at h ⊢
    split at h
    · rw [if_pos ‹_›]
      exact ih (by omega) h
    · rw [if_neg ‹_›]
      split at h
      · rw [if_pos ‹_›]
        split at h
        · cases h
        · rename_i hne
          have hne : depth - 1 ≠ 0 := by simpa using hne
          exact ih (by omega) h
      · rw [if_neg ‹_›]
        exact ih hdepth h

theorem depthBehind_down (opening closing : Char) (k : Nat) (depth : Int) (glyphs : List Glyph) :
    depthBehind opening closing depth (glyphs.map (.down k)) =
      depthBehind opening closing depth glyphs := by
  induction glyphs generalizing depth with
  | nil => rfl
  | cons glyph glyphs ih =>
    simp only [map_cons, depthBehind, ih]
    rfl

theorem map_char_lineGlyphs (n col : Nat) (code : List Char) :
    (lineGlyphs n col code).map (·.char) = code := by
  induction code generalizing col with
  | nil => rfl
  | cons c code ih => simp [lineGlyphs, ih]

theorem map_char_glyphsOf (n : Nat) (lines : List Line) :
    (glyphsOf n lines).map (·.char) = lines.flatMap Line.code := by
  induction lines generalizing n with
  | nil => rfl
  | cons line lines ih =>
    rw [glyphsOf, map_append, map_char_lineGlyphs, ih, flatMap_cons]

/-- The number of open brackets behind code characters counts these. -/
theorem depthBehind_eq {opening closing : Char} (hne : opening ≠ closing) (depth : Int)
    (glyphs : List Glyph) :
    depthBehind opening closing depth glyphs = depth +
      (((glyphs.map (·.char)).count opening : Int) - (glyphs.map (·.char)).count closing) := by
  induction glyphs generalizing depth with
  | nil => simp [depthBehind]
  | cons glyph glyphs ih =>
    simp only [depthBehind, map_cons, count_cons, ih]
    by_cases hopening : glyph.char = opening
    · have hclosing : glyph.char ≠ closing := fun h => hne (hopening.symm.trans h)
      simp [hopening, hne]
      omega
    · by_cases hclosing : glyph.char = closing
      · simp [hclosing, hne.symm]
        omega
      · simp [hopening, hclosing]

/-- The braces of successive lines add up. -/
theorem depthBefore_add (source : Source) (n k : Nat) :
    source.depthBefore (n + k) = source.depthBefore n +
      Line.braceBalance ((source.lines.drop n).take k).flatten := by
  induction k with
  | zero => simp [Line.braceBalance, Line.code]
  | succ k ih =>
    have hline : Line.braceBalance (source.lines[n + k]?.toList).flatten =
        source.braceBalance (n + k) := by
      rw [braceBalance, line, getD_eq_getElem?_getD]
      cases source.lines[n + k]? with
      | none => rfl
      | some line => simp
    rw [← Nat.add_assoc, depthBefore, ih, take_add_one, flatten_append,
      Line.braceBalance_append, getElem?_drop, hline]
    omega

theorem glyphsOf_cut (n k : Nat) (lines : List Line) :
    glyphsOf n lines = glyphsOf n (lines.take k) ++ glyphsOf (n + k) (lines.drop k) := by
  by_cases hk : k ≤ lines.length
  · have hcut := glyphsOf_append n (lines.take k) (lines.drop k)
    rwa [take_append_drop, length_take, Nat.min_eq_left hk] at hcut
  · rw [take_of_length_le (Nat.le_of_not_le hk), drop_eq_nil_of_le (Nat.le_of_not_le hk),
      glyphsOf, append_nil]

/-- The code from a brace on, cut at the start of a line behind it. -/
theorem Holds.glyphsFrom_cut {source : Source} {opening : Spot} (h : source.Holds opening '{')
    (k : Nat) :
    ∃ rest : List Glyph,
      source.glyphsFrom opening = ⟨opening, '{'⟩ :: (rest ++
        glyphsOf (opening.line + 1 + k) (source.lines.drop (opening.line + 1 + k))) ∧
      (∀ glyph ∈ rest, glyph.spot.line < opening.line + 1 + k) ∧
      '{' :: rest.map (·.char) = Line.code ((source.line opening.line).drop opening.col ++
        ((source.lines.drop (opening.line + 1)).take k).flatten) := by
  have hlines : source.lines.drop opening.line =
      source.line opening.line :: source.lines.drop (opening.line + 1) := by
    rw [List.drop_eq_getElem_cons h.line_lt, line, List.getD_eq_getElem?_getD,
      List.getElem?_eq_getElem h.line_lt, Option.getD_some]
  obtain ⟨hcol, hchar⟩ := List.getElem?_eq_some_iff.mp
    (show (source.code opening.line)[opening.col]? = some '{' from h)
  have hcode : Line.code (source.line opening.line) = source.code opening.line := rfl
  have hdrop : (source.code opening.line).drop opening.col =
      '{' :: (source.code opening.line).drop (opening.col + 1) := by
    rw [List.drop_eq_getElem_cons hcol, hchar]
  refine ⟨lineGlyphs opening.line (opening.col + 1) ((source.code opening.line).drop (opening.col + 1)) ++
    glyphsOf (opening.line + 1) ((source.lines.drop (opening.line + 1)).take k), ?_, ?_, ?_⟩
  · rw [glyphsFrom_eq, hlines, glyphsBehind, hcode, hdrop, lineGlyphs, List.cons_append,
      List.append_assoc, glyphsOf_cut (opening.line + 1) k, List.drop_drop]
  · intro glyph hmem
    rcases List.mem_append.mp hmem with hmem | hmem
    · have := (of_mem_lineGlyphs hmem).1
      omega
    · obtain ⟨hle, line, hline, -⟩ := of_mem_glyphsOf hmem
      have hlt := (List.getElem?_eq_some_iff.mp hline).1
      have := List.length_take_le k (source.lines.drop (opening.line + 1))
      omega
  · rw [List.map_append, map_char_lineGlyphs, map_char_glyphsOf, ← List.cons_append, ← hdrop, ← hcode,
      Line.code_append, Line.code_drop, Line.code_flatten]

/-- Between a brace and the one that closes it, lines start deeper than the brace stands. -/
theorem depthAt_lt_depthBefore {source : Source} {opening close : Spot} {n : Nat}
    (hbrace : source.Holds opening '{') (h : source.matchingClose opening '{' '}' = some close)
    (hopen : opening.line < n) (hclose : n ≤ close.line) :
    source.depthAt opening < source.depthBefore n := by
  obtain ⟨k, rfl⟩ : ∃ k, n = opening.line + 1 + k := Nat.exists_eq_add_of_le hopen
  obtain ⟨rest, hsplit, hrest, hchars⟩ := hbrace.glyphsFrom_cut k
  rw [matchingClose, hsplit, closeIn, if_pos (by rfl)] at h
  have hnone : closeIn '{' '}' 1 rest = none := by
    cases hcase : closeIn '{' '}' 1 rest with
    | none => rfl
    | some spot =>
      rw [closeIn_append, Int.zero_add, hcase] at h
      cases h
      obtain ⟨glyph, hmem, rfl, -⟩ := of_closeIn hcase
      have := hrest glyph hmem
      omega
  have hpos := depthBehind_pos (by decide) hnone
  rw [depthBehind_eq (by decide)] at hpos
  have hline : source.braceBalance opening.line =
      Line.braceBalance ((source.line opening.line).take opening.col) +
        Line.braceBalance ((source.line opening.line).drop opening.col) := by
    rw [← Line.braceBalance_append, take_append_drop]
    rfl
  have hbehind := Line.braceBalance_append ((source.line opening.line).drop opening.col)
    ((source.lines.drop (opening.line + 1)).take k).flatten
  rw [Line.braceBalance, ← hchars, count_cons_self, count_cons_of_ne (by decide)] at hbehind
  rw [depthBefore_add, depthBefore, depthAt, hline]
  omega

end Source

end ServiceInjection
