import ServiceInjection.Source.Basic

/-!
# Source.Stream

The stream of code characters is in text order (`Source.pairwise_glyphs`), so a search that
starts at a place finds only characters at or behind that place (`Source.Holds`). The text
behind a place is one list of cells: `Source.rest source spot` holds the cells from `spot` to
the end of the source, with a cell for each line end in between, and
`Source.advance source spot k` is the place `k` cells further on. In these terms the searches
of a source are searches in a list: the bracket that closes another (`matchingClose_eq`), the
first of some characters (`firstOf_eq`) and the piece between two places (`slice_advance`).
-/

namespace ServiceInjection

open List

variable {a b spot : Spot} {c : Char} {glyph : Glyph}

theorem Spot.before_def :
    a.before b = true ↔ a.line < b.line ∨ a.line = b.line ∧ a.col < b.col := by
  simp [Spot.before]

theorem Spot.before_trans {c : Spot} (hab : a.before b = true) (hbc : b.before c = true) :
    a.before c = true := by
  rw [before_def] at *
  omega

/-! ### The stream -/

theorem Cell.eq_show_of_code {cell : Cell} (h : cell.code = c) (hblank : c ≠ ' ') :
    cell = .show c := by
  obtain ⟨char, shown⟩ := cell
  cases shown with
  | true => rw [← h]; rfl
  | false => exact absurd h.symm hblank

theorem of_mem_lineGlyphs {n col : Nat} {cs : List Char} (h : glyph ∈ lineGlyphs n col cs) :
    glyph.spot.line = n ∧ col ≤ glyph.spot.col ∧ cs[glyph.spot.col - col]? = some glyph.char := by
  induction cs generalizing col with
  | nil => simp [lineGlyphs] at h
  | cons c cs ih =>
    rw [lineGlyphs] at h
    rcases mem_cons.mp h with rfl | h
    · simp
    · obtain ⟨hline, hle, hchar⟩ := ih h
      refine ⟨hline, by omega, ?_⟩
      rw [show glyph.spot.col - col = glyph.spot.col - (col + 1) + 1 by omega,
        getElem?_cons_succ, hchar]

theorem pairwise_lineGlyphs (n col : Nat) (cs : List Char) :
    (lineGlyphs n col cs).Pairwise fun a b => a.spot.before b.spot = true := by
  induction cs generalizing col with
  | nil => exact .nil
  | cons c cs ih =>
    refine pairwise_cons.mpr ⟨fun glyph h => ?_, ih (col + 1)⟩
    obtain ⟨hline, hle, -⟩ := of_mem_lineGlyphs h
    exact Spot.before_def.mpr (.inr ⟨hline.symm, hle⟩)

theorem of_mem_glyphsOf {n : Nat} {lines : List Line} (h : glyph ∈ glyphsOf n lines) :
    n ≤ glyph.spot.line ∧ ∃ line, lines[glyph.spot.line - n]? = some line ∧
      line.code[glyph.spot.col]? = some glyph.char := by
  induction lines generalizing n with
  | nil => simp [glyphsOf] at h
  | cons line rest ih =>
    rw [glyphsOf] at h
    rcases mem_append.mp h with h | h
    · obtain ⟨hline, -, hchar⟩ := of_mem_lineGlyphs h
      exact ⟨by omega, line, by simp [hline], by simpa using hchar⟩
    · obtain ⟨hle, other, hother, hchar⟩ := ih h
      refine ⟨by omega, other, ?_, hchar⟩
      rw [show glyph.spot.line - n = glyph.spot.line - (n + 1) + 1 by omega,
        getElem?_cons_succ, hother]

theorem mem_lineGlyphs {n col i : Nat} {cs : List Char} {c : Char} (h : cs[i]? = some c) :
    ⟨⟨n, col + i⟩, c⟩ ∈ lineGlyphs n col cs := by
  induction cs generalizing col i with
  | nil => simp at h
  | cons d cs ih =>
    rw [lineGlyphs]
    cases i with
    | zero =>
      obtain rfl : d = c := by simpa using h
      exact .head _
    | succ i =>
      rw [show col + (i + 1) = col + 1 + i by omega]
      exact .tail _ (ih (by simpa using h))

theorem mem_glyphsOf {n i j : Nat} {lines : List Line} {line : Line} {c : Char}
    (hline : lines[i]? = some line) (h : line.code[j]? = some c) :
    ⟨⟨n + i, j⟩, c⟩ ∈ glyphsOf n lines := by
  induction lines generalizing n i with
  | nil => simp at hline
  | cons first rest ih =>
    rw [glyphsOf]
    cases i with
    | zero =>
      obtain rfl : first = line := by simpa using hline
      have hmem := @mem_lineGlyphs n 0 j _ _ h
      rw [Nat.zero_add] at hmem
      exact mem_append_left _ hmem
    | succ i =>
      rw [show n + (i + 1) = n + 1 + i by omega]
      exact mem_append_right _ (ih (by simpa using hline))

theorem pairwise_glyphsOf (n : Nat) (lines : List Line) :
    (glyphsOf n lines).Pairwise fun a b => a.spot.before b.spot = true := by
  induction lines generalizing n with
  | nil => exact .nil
  | cons line rest ih =>
    refine pairwise_append.mpr ⟨pairwise_lineGlyphs n 0 line.code, ih (n + 1), ?_⟩
    intro a ha b hb
    obtain ⟨hline, -⟩ := of_mem_lineGlyphs ha
    obtain ⟨hle, -⟩ := of_mem_glyphsOf hb
    exact Spot.before_def.mpr (.inl (by omega))

namespace Source

variable {source : Source}

theorem pairwise_glyphs (source : Source) :
    source.glyphs.Pairwise fun a b => a.spot.before b.spot = true :=
  source.glyphs_eq ▸ pairwise_glyphsOf 0 source.lines

/-- Whether a place is the place of the code character `c`. -/
def Holds (source : Source) (spot : Spot) (c : Char) : Prop :=
  (source.code spot.line)[spot.col]? = some c

theorem holds_of_mem_glyphs (h : glyph ∈ source.glyphs) : source.Holds glyph.spot glyph.char := by
  rw [source.glyphs_eq] at h
  obtain ⟨-, line, hline, hchar⟩ := of_mem_glyphsOf h
  rw [Holds, code, Source.line, getD_eq_getElem?_getD, show source.lines[glyph.spot.line]? =
    some line from hline]
  exact hchar

theorem Holds.mem_glyphs (h : source.Holds spot c) : ⟨spot, c⟩ ∈ source.glyphs := by
  rw [Holds, code, Source.line, getD_eq_getElem?_getD] at h
  cases hline : source.lines[spot.line]? with
  | none => simp [hline, Line.code] at h
  | some line =>
    have hmem := @mem_glyphsOf 0 spot.line spot.col _ _ _ hline (by simpa [hline] using h)
    rw [Nat.zero_add] at hmem
    rwa [source.glyphs_eq]

/-- The cell of a code character shows that character. -/
theorem Holds.cell (h : source.Holds spot c) (hc : c ≠ ' ') :
    (source.line spot.line)[spot.col]? = some (.show c) := by
  rw [Holds, code, Line.code, getElem?_map] at h
  obtain ⟨cell, hcell, hcode⟩ := Option.map_eq_some_iff.mp h
  rw [hcell, Cell.eq_show_of_code hcode hc]

/-- A line that holds a code character is not empty. -/
theorem Holds.raw_ne_nil (h : source.Holds spot c) : source.raw spot.line ≠ [] := by
  intro hnil
  have hline : source.line spot.line = [] := map_eq_nil_iff.mp hnil
  simp [Holds, code, hline, Line.code] at h

theorem dropWhile_eq_filter {α : Type} {p : α → Bool} {xs : List α}
    (h : xs.Pairwise fun a b => p b = true → p a = true) : xs.dropWhile p = xs.filter (!p ·) := by
  induction xs with
  | nil => rfl
  | cons x xs ih =>
    obtain ⟨hx, hxs⟩ := pairwise_cons.mp h
    by_cases hp : p x = true
    · rw [dropWhile_cons_of_pos hp, filter_cons_of_neg (by simp [hp]), ih hxs]
    · rw [dropWhile_cons_of_neg hp, filter_eq_self.mpr]
      simpa [hp] using hx

/-- A search from a place sees what does not come before it. -/
theorem glyphsFrom_eq_filter (source : Source) (spot : Spot) :
    source.glyphsFrom spot = source.glyphs.filter (!·.spot.before spot) :=
  dropWhile_eq_filter (source.pairwise_glyphs.imp Spot.before_trans)

theorem of_mem_glyphsFrom (h : glyph ∈ source.glyphsFrom spot) :
    source.Holds glyph.spot glyph.char ∧ glyph.spot.before spot = false := by
  rw [glyphsFrom_eq_filter] at h
  obtain ⟨hmem, hbehind⟩ := mem_filter.mp h
  exact ⟨holds_of_mem_glyphs hmem, by simpa using hbehind⟩

theorem line_le_of_not_before (h : a.before b = false) : b.line ≤ a.line := by
  rw [Bool.eq_false_iff, ne_eq, Spot.before_def] at h
  omega

/-! ### Searches -/

theorem firstOf_spec {targets : List Char} (h : source.firstOf spot targets = some glyph) :
    source.Holds glyph.spot glyph.char ∧ glyph.spot.before spot = false ∧
      glyph.char ∈ targets := by
  obtain ⟨hholds, hbehind⟩ := of_mem_glyphsFrom (mem_of_find?_eq_some h)
  exact ⟨hholds, hbehind, by simpa using find?_some h⟩

theorem le_lineOfFirst (source : Source) (n : Nat) (target : Char) :
    n ≤ source.lineOfFirst n target := by
  unfold lineOfFirst
  split
  · rename_i glyph h
    exact line_le_of_not_before (firstOf_spec h).2.1
  · exact Nat.le_refl n

theorem of_closeIn {opening closing : Char} {depth : Int} {glyphs : List Glyph}
    (h : closeIn opening closing depth glyphs = some spot) :
    ∃ glyph ∈ glyphs, glyph.spot = spot ∧ glyph.char = closing := by
  induction glyphs generalizing depth with
  | nil => simp [closeIn] at h
  | cons glyph rest ih =>
    have hlater : ∀ {depth}, closeIn opening closing depth rest = some spot →
        ∃ other ∈ glyph :: rest, other.spot = spot ∧ other.char = closing := fun h => by
      obtain ⟨other, hmem, hother⟩ := ih h
      exact ⟨other, .tail _ hmem, hother⟩
    rw [closeIn] at h
    split at h
    · exact hlater h
    · split at h
      · rename_i hclosing
        split at h
        · exact ⟨glyph, .head _, Option.some.inj h, by simpa using hclosing⟩
        · exact hlater h
      · exact hlater h

theorem matchingClose_spec {close : Spot} {opening closing : Char}
    (h : source.matchingClose spot opening closing = some close) :
    source.Holds close closing ∧ close.before spot = false := by
  obtain ⟨glyph, hmem, rfl, rfl⟩ := of_closeIn h
  exact of_mem_glyphsFrom hmem

end Source

variable {n k : Nat} {lines : List Line} {opening closing : Char} {targets : List Char}

namespace Line

/-- The index of the bracket that closes the ones opened so far, `depth` of them. -/
def closeIndex (opening closing : Char) : Int → Line → Option Nat
  | _, [] => none
  | depth, cell :: rest =>
    if cell.code == opening then (closeIndex opening closing (depth + 1) rest).map (· + 1)
    else if cell.code == closing then
      if depth - 1 == 0 then some 0 else (closeIndex opening closing (depth - 1) rest).map (· + 1)
    else (closeIndex opening closing depth rest).map (· + 1)

/-- The index of the first cell whose code is one of `targets`. -/
def firstIndex (targets : List Char) (cells : Line) : Option Nat :=
  cells.findIdx? (targets.contains ·.code)

end Line

theorem Line.code_append (a b : Line) : Line.code (a ++ b) = a.code ++ b.code := map_append

namespace Source

/-- The cells of lines, with a cell for each line end in between. -/
def streamOf : List Line → Line
  | [] => []
  | [line] => line
  | line :: rest => line ++ lineEnd :: streamOf rest

/-- The place of the cell with index `k` in the stream of lines, the first of which
has number `n`. -/
def spotIn (n : Nat) : List Line → Nat → Spot
  | [], k => ⟨n, k⟩
  | [_], k => ⟨n, k⟩
  | line :: rest, k =>
    if k ≤ line.length then ⟨n, k⟩ else spotIn (n + 1) rest (k - (line.length + 1))

/-- The cells from a place to the end of the source. -/
def rest (source : Source) (spot : Spot) : Line :=
  (streamOf (source.lines.drop spot.line)).drop spot.col

/-- The place `k` cells behind a place. -/
def advance (source : Source) (spot : Spot) (k : Nat) : Spot :=
  spotIn spot.line (source.lines.drop spot.line) (spot.col + k)

theorem streamOf_cons (line : Line) {rest : List Line} (h : rest ≠ []) :
    streamOf (line :: rest) = line ++ lineEnd :: streamOf rest := by
  cases rest with
  | nil => exact absurd rfl h
  | cons next rest => rfl

theorem spotIn_cons (n : Nat) (line : Line) {rest : List Line} (h : rest ≠ []) (k : Nat) :
    spotIn n (line :: rest) k =
      if k ≤ line.length then ⟨n, k⟩ else spotIn (n + 1) rest (k - (line.length + 1)) := by
  cases rest with
  | nil => exact absurd rfl h
  | cons next rest => rfl

theorem spotIn_of_le (h : ∀ line ∈ lines.head?, k ≤ line.length) : spotIn n lines k = ⟨n, k⟩ := by
  match lines with
  | [] => rfl
  | [_] => rfl
  | line :: next :: rest =>
    rw [spotIn_cons n line (cons_ne_nil next rest), if_pos (h line rfl)]

/-! ### Searches in the stream of lines -/

/-- The glyphs of lines from a column of the first one on. -/
def glyphsBehind (n col : Nat) : List Line → List Glyph
  | [] => []
  | line :: rest => lineGlyphs n col (line.code.drop col) ++ glyphsOf (n + 1) rest

/-- The glyphs of cells whose places are given by their index. -/
def placed (place : Nat → Spot) (cells : Line) : List Glyph :=
  cells.mapIdx fun k cell => ⟨place k, cell.code⟩

theorem placed_cons (place : Nat → Spot) (cell : Cell) (cells : Line) : placed place (cell :: cells) =
    ⟨place 0, cell.code⟩ :: placed (fun k => place (k + 1)) cells := mapIdx_cons

theorem lineGlyphs_eq (n col : Nat) (line : Line) (place : Nat → Spot)
    (h : ∀ k, k < line.length → place k = ⟨n, col + k⟩) :
    lineGlyphs n col line.code = placed place line := by
  induction line generalizing col place with
  | nil => rfl
  | cons cell line ih =>
    have hlater : ∀ k, k < line.length → place (k + 1) = ⟨n, col + 1 + k⟩ := fun k hk => by
      rw [h (k + 1) (by simpa using hk), show col + (k + 1) = col + 1 + k by omega]
    rw [Line.code, map_cons, lineGlyphs, placed_cons, h 0 (by simp), ← Line.code, ih _ _ hlater]
    rfl

/-- Line ends apart, the glyphs of lines are those of their stream. -/
theorem filter_glyphsBehind (n col : Nat) (lines : List Line)
    (hcol : ∀ line ∈ lines.head?, col ≤ line.length) :
    (glyphsBehind n col lines).filter (·.char != '\n') =
      (placed (fun k => spotIn n lines (col + k)) ((streamOf lines).drop col)).filter
        (·.char != '\n') := by
  induction lines generalizing n col with
  | nil => simp [glyphsBehind, streamOf, placed]
  | cons line rest ih =>
    have hcol : col ≤ line.length := hcol line rfl
    rw [glyphsBehind, Line.code, ← map_drop, ← Line.code]
    by_cases hrest : rest = []
    · subst hrest
      rw [lineGlyphs_eq n col _ _ fun k _ => rfl]
      exact congrArg _ (append_nil _)
    · have hbehind : glyphsOf (n + 1) rest = glyphsBehind (n + 1) 0 rest := by
        cases rest <;> simp [glyphsOf, glyphsBehind]
      rw [streamOf_cons line hrest, drop_append_of_le_length hcol, placed, mapIdx_append, mapIdx_cons,
        filter_append, filter_append, hbehind, ih (n + 1) 0 (by simp), filter_cons_of_neg (by simp [lineEnd, Cell.show, Cell.code]),
        lineGlyphs_eq n col (line.drop col) (fun k => spotIn n (line :: rest) (col + k)) fun k hk => by
          rw [length_drop] at hk
          rw [spotIn_cons n line hrest, if_pos (by omega)]]
      refine congrArg _ (congrArg _ (mapIdx_eq_mapIdx_iff.mpr fun k _ => ?_))
      rw [length_drop, spotIn_cons n line hrest, if_neg (by omega),
        show col + (k + 1 + (line.length - col)) - (line.length + 1) = 0 + k by omega]

theorem closeIn_filter (hopening : opening ≠ '\n') (hclosing : closing ≠ '\n') (depth : Int)
    (glyphs : List Glyph) : closeIn opening closing depth (glyphs.filter (·.char != '\n')) =
      closeIn opening closing depth glyphs := by
  induction glyphs generalizing depth with
  | nil => rfl
  | cons glyph glyphs ih =>
    rw [filter_cons]
    split
    · rw [closeIn, closeIn, ih, ih, ih]
    · rename_i hend
      have hend : glyph.char = '\n' := by simpa using hend
      rw [ih, closeIn, hend, if_neg (by simpa using hopening.symm), if_neg (by simpa using hclosing.symm)]

theorem closeIn_placed (place : Nat → Spot) (depth : Int) (cells : Line) :
    closeIn opening closing depth (placed place cells) =
      (Line.closeIndex opening closing depth cells).map place := by
  induction cells generalizing place depth with
  | nil => rfl
  | cons cell cells ih =>
    have hshift : ∀ found : Option Nat, (found.map fun k => place (k + 1)) =
        (found.map (· + 1)).map place := fun found => (Option.map_map ..).symm
    rw [placed_cons, closeIn, Line.closeIndex]
    simp only [ih, hshift]
    split
    · rfl
    · split
      · split <;> rfl
      · rfl

/-- The glyph of the first target among cells whose places are given by their index. -/
def firstGlyph (targets : List Char) (place : Nat → Spot) (cells : Line) : Option Glyph :=
  (Line.firstIndex targets cells).bind fun k => cells[k]?.map fun cell => ⟨place k, cell.code⟩

theorem firstGlyph_cons (targets : List Char) (place : Nat → Spot) (cell : Cell) (cells : Line) :
    firstGlyph targets place (cell :: cells) =
      if targets.contains cell.code then some ⟨place 0, cell.code⟩
      else firstGlyph targets (fun k => place (k + 1)) cells := by
  rw [firstGlyph, Line.firstIndex, findIdx?_cons]
  cases targets.contains cell.code with
  | true => simp
  | false =>
    rw [firstGlyph, Line.firstIndex]
    cases cells.findIdx? (targets.contains ·.code) <;> simp

theorem find?_placed (targets : List Char) (place : Nat → Spot) (cells : Line) :
    (placed place cells).find? (targets.contains ·.char) = firstGlyph targets place cells := by
  induction cells generalizing place with
  | nil => rfl
  | cons cell cells ih =>
    rw [placed_cons, find?_cons, firstGlyph_cons, ih]
    cases targets.contains cell.code <;> rfl

/-! ### Searches from a place -/

variable {source : Source} {spot : Spot}

/-- Whether a place lies on a line of the source, behind its last cell at most. -/
def Valid (source : Source) (spot : Spot) : Prop :=
  ∃ line, source.lines[spot.line]? = some line ∧ spot.col ≤ line.length

theorem glyphsOf_append (n : Nat) (front back : List Line) :
    glyphsOf n (front ++ back) = glyphsOf n front ++ glyphsOf (n + front.length) back := by
  induction front generalizing n with
  | nil => simp [glyphsOf]
  | cons line front ih =>
    rw [cons_append, glyphsOf, glyphsOf, ih, append_assoc, length_cons,
      show n + 1 + front.length = n + (front.length + 1) by omega]

theorem filter_lineGlyphs (n col k : Nat) (cs : List Char) :
    (lineGlyphs n col cs).filter (!·.spot.before ⟨n, col + k⟩) = lineGlyphs n (col + k) (cs.drop k) := by
  induction cs generalizing col k with
  | nil => simp [lineGlyphs]
  | cons c cs ih =>
    cases k with
    | zero =>
      refine filter_eq_self.mpr fun glyph hmem => ?_
      obtain ⟨hline, hcol, -⟩ := of_mem_lineGlyphs hmem
      rw [Bool.not_eq_true', Bool.eq_false_iff, ne_eq, Spot.before_def]
      dsimp only
      omega
    | succ k =>
      rw [lineGlyphs, filter_cons_of_neg (by simp [Spot.before]), drop_succ_cons,
        show col + (k + 1) = col + 1 + k by omega, ih]

theorem filter_glyphsOf (n k col : Nat) (lines : List Line) :
    (glyphsOf n lines).filter (!·.spot.before ⟨n + k, col⟩) =
      glyphsBehind (n + k) col (lines.drop k) := by
  induction lines generalizing n k with
  | nil => simp [glyphsOf, glyphsBehind]
  | cons line rest ih =>
    rw [glyphsOf, filter_append]
    cases k with
    | zero =>
      have hhere := filter_lineGlyphs n 0 col line.code
      rw [Nat.zero_add] at hhere
      rw [Nat.add_zero, hhere, filter_eq_self.mpr fun glyph hmem => ?_]
      · rfl
      · have := (of_mem_glyphsOf hmem).1
        rw [Bool.not_eq_true', Bool.eq_false_iff, ne_eq, Spot.before_def]
        dsimp only
        omega
    | succ k =>
      rw [filter_eq_nil_iff.mpr fun glyph hmem => ?_, nil_append,
        show n + (k + 1) = n + 1 + k by omega, ih, drop_succ_cons]
      have := (of_mem_lineGlyphs hmem).1
      rw [Bool.not_eq_true', Bool.not_eq_false, Spot.before_def]
      dsimp only
      omega

/-- The code characters at or behind a place are the ones of the lines from there on. -/
theorem glyphsFrom_eq (source : Source) (spot : Spot) :
    source.glyphsFrom spot = glyphsBehind spot.line spot.col (source.lines.drop spot.line) := by
  have hfilter := filter_glyphsOf 0 spot.line spot.col source.lines
  rwa [Nat.zero_add, ← source.glyphs_eq, ← glyphsFrom_eq_filter] at hfilter

theorem head?_drop_of_valid (h : source.Valid spot) :
    ∀ line ∈ (source.lines.drop spot.line).head?, spot.col ≤ line.length := by
  obtain ⟨line, hline, hcol⟩ := h
  intro other hother
  rw [head?_drop, hline] at hother
  exact Option.some.inj hother ▸ hcol

/-- The stream of the lines from a place on starts with the cells in front of the place. -/
theorem Valid.stream (h : source.Valid spot) : ∃ line, source.lines[spot.line]? = some line ∧
    spot.col ≤ line.length ∧
    source.lines.drop spot.line = line :: source.lines.drop (spot.line + 1) ∧
    streamOf (source.lines.drop spot.line) = line.take spot.col ++ source.rest spot := by
  obtain ⟨line, hline, hcol⟩ := h
  obtain ⟨hlt, hget⟩ := List.getElem?_eq_some_iff.mp hline
  have hdrop := hget ▸ drop_eq_getElem_cons hlt
  refine ⟨line, hline, hcol, hdrop, ?_⟩
  rw [rest, hdrop]
  by_cases hrest : source.lines.drop (spot.line + 1) = []
  · rw [hrest]
    exact (take_append_drop ..).symm
  · rw [streamOf_cons _ hrest, drop_append_of_le_length hcol, ← append_assoc, take_append_drop]

/-- The bracket that closes another, found in the cells behind it. -/
theorem matchingClose_eq (h : source.Valid spot) (hopening : opening ≠ '\n')
    (hclosing : closing ≠ '\n') : source.matchingClose spot opening closing =
      (Line.closeIndex opening closing 0 (source.rest spot)).map (source.advance spot) := by
  rw [matchingClose, glyphsFrom_eq, ← closeIn_filter hopening hclosing,
    filter_glyphsBehind _ _ _ (head?_drop_of_valid h), closeIn_filter hopening hclosing,
    closeIn_placed]
  rfl

/-- The first of some characters, found in the cells behind a place. -/
theorem firstOf_eq (h : source.Valid spot) (htargets : '\n' ∉ targets) :
    source.firstOf spot targets = firstGlyph targets (source.advance spot) (source.rest spot) := by
  have hskip : ∀ glyphs : List Glyph, (glyphs.filter (·.char != '\n')).find?
      (targets.contains ·.char) = glyphs.find? (targets.contains ·.char) := fun glyphs => by
    rw [find?_filter]
    refine congrArg (find? · glyphs) (funext fun glyph => ?_)
    by_cases hend : glyph.char = '\n' <;> simp [hend, htargets]
  rw [firstOf, glyphsFrom_eq, ← hskip, filter_glyphsBehind _ _ _ (head?_drop_of_valid h), hskip,
    find?_placed]
  rfl

/-! ### Moving on -/

theorem streamOf_spotIn {n : Nat} {lines : List Line} {k : Nat} (h : k ≤ (streamOf lines).length) :
    ∃ i, (spotIn n lines k).line = n + i ∧
      (streamOf (lines.drop i)).drop (spotIn n lines k).col = (streamOf lines).drop k ∧
      ((lines ≠ []) → ∃ line, lines[i]? = some line ∧ (spotIn n lines k).col ≤ line.length) ∧
      ∀ k', spotIn (n + i) (lines.drop i) ((spotIn n lines k).col + k') = spotIn n lines (k + k') := by
  induction lines generalizing n k with
  | nil => exact ⟨0, rfl, rfl, fun hnil => absurd rfl hnil, fun _ => rfl⟩
  | cons line rest ih =>
    by_cases hrest : rest = []
    · subst hrest
      exact ⟨0, rfl, rfl, fun _ => ⟨line, rfl, h⟩, fun _ => rfl⟩
    · rw [streamOf_cons line hrest] at h
      rw [spotIn_cons n line hrest]
      split
      · rename_i hk
        exact ⟨0, rfl, rfl, fun _ => ⟨line, rfl, hk⟩, fun _ => rfl⟩
      · rename_i hk
        rw [length_append, length_cons] at h
        obtain ⟨i, hline, hdrop, hvalid, hadd⟩ :=
          ih (n := n + 1) (k := k - (line.length + 1)) (by omega)
        refine ⟨i + 1, by omega, ?_, fun _ => hvalid hrest, fun k' => ?_⟩
        · rw [drop_succ_cons, hdrop, streamOf_cons line hrest]
          rw [show k = line.length + (k - (line.length + 1) + 1) by omega,
            drop_length_add_append, drop_succ_cons]
          congr 1
          omega
        · rw [drop_succ_cons, show n + (i + 1) = n + 1 + i by omega, hadd,
            spotIn_cons n line hrest, if_neg (by omega)]
          congr 1
          omega

theorem advance_spec (h : source.Valid spot) (hk : k ≤ (source.rest spot).length) :
    source.Valid (source.advance spot k) ∧
      source.rest (source.advance spot k) = (source.rest spot).drop k ∧
      ∀ j, source.advance (source.advance spot k) j = source.advance spot (k + j) := by
  obtain ⟨line, -, hcol, hcons, hstream⟩ := h.stream
  obtain ⟨i, hi, hdrop, hvalid, hadd⟩ :=
    @streamOf_spotIn spot.line (source.lines.drop spot.line) (spot.col + k) (by
      rw [hstream, length_append, length_take_of_le hcol]
      omega)
  obtain ⟨line', hline', hcol'⟩ := hvalid (hcons ▸ cons_ne_nil _ _)
  rw [getElem?_drop] at hline'
  have hadvance : (source.advance spot k).line = spot.line + i := hi
  refine ⟨⟨line', by rw [hadvance, hline'], hcol'⟩, ?_, fun j => ?_⟩
  · rw [rest, hadvance, ← drop_drop]
    rw [drop_drop] at hdrop ⊢
    rw [rest, drop_drop]
    exact hdrop
  · rw [advance, hadvance]
    rw [drop_drop] at hadd
    exact (hadd j).trans (by rw [advance, Nat.add_assoc])

/-- The cells of the lines up to a place of the stream. -/
theorem take_streamOf (h : k ≤ (streamOf lines).length) : (streamOf lines).take k =
      (lines.take ((spotIn n lines k).line - n)).flatMap (· ++ [lineEnd]) ++
        (lines.getD ((spotIn n lines k).line - n) []).take (spotIn n lines k).col := by
  induction lines generalizing n k with
  | nil => simp [streamOf]
  | cons line rest ih =>
    by_cases hrest : rest = []
    · subst hrest
      simp [streamOf, spotIn]
    · rw [streamOf_cons line hrest] at h ⊢
      rw [spotIn_cons n line hrest]
      split
      · rename_i hk
        simp [take_append_of_le_length hk]
      · rename_i hk
        rw [length_append, length_cons] at h
        have hle : k - (line.length + 1) ≤ (streamOf rest).length := by omega
        obtain ⟨i, hi, -⟩ := streamOf_spotIn (n := n + 1) hle
        have ih := ih (n := n + 1) hle
        rw [hi, show n + 1 + i - (n + 1) = i by omega] at ih
        rw [hi, show n + 1 + i - n = i + 1 by omega, take_succ_cons, flatMap_cons,
          getD_cons_succ, append_assoc, ← ih]
        have hcut : k = (line ++ [lineEnd]).length + (k - (line.length + 1)) := by
          rw [length_append, length_singleton]
          omega
        rw [append_cons, hcut, take_length_add_append, ← hcut]

theorem map_line_range' (source : Source) {a j : Nat} (h : a + j ≤ source.lines.length) :
    (range' a j).map source.line = (source.lines.drop a).take j := by
  refine ext_getElem? fun i => ?_
  rw [getElem?_map, getElem?_take, getElem?_drop]
  split
  · rename_i hi
    rw [getElem?_range' hi, Option.map_some, Nat.one_mul, Source.line, getD_eq_getElem?_getD,
      getElem?_eq_getElem (show a + i < source.lines.length by omega)]
    rfl
  · rename_i hi
    rw [getElem?_eq_none (by rw [length_range']; omega)]
    rfl

/-- The piece between a place and one further on. -/
theorem slice_advance (h : source.Valid spot) (hk : k ≤ (source.rest spot).length) :
    source.slice spot (source.advance spot k) = (source.rest spot).take k := by
  obtain ⟨line, hline, hcol, hdrop, hstream⟩ := h.stream
  have hhere : source.line spot.line = line := by
    rw [Source.line, getD_eq_getElem?_getD, hline]
    rfl
  have hle : spot.col + k ≤ (streamOf (source.lines.drop spot.line)).length := by
    rw [hstream, length_append, length_take_of_le hcol]
    omega
  obtain ⟨i, hi, -, hvalid, -⟩ := streamOf_spotIn (n := spot.line) hle
  obtain ⟨line', hline', -⟩ := hvalid (hdrop ▸ cons_ne_nil _ _)
  have htake := take_streamOf (n := spot.line) hle
  rw [hi, Nat.add_sub_cancel_left, getD_eq_getElem?_getD, hline'] at htake
  rw [rest, take_drop, htake]
  have hadvance : (source.advance spot k).line = spot.line + i := hi
  rw [getElem?_drop] at hline'
  have hbound := (List.getElem?_eq_some_iff.mp hline').1
  have hlast : source.line (spot.line + i) = line' := by
    rw [Source.line, getD_eq_getElem?_getD, hline']
    rfl
  cases i with
  | zero =>
    have heq : line' = line := by rw [← hlast, ← hhere, Nat.add_zero]
    rw [slice, hadvance, Nat.add_zero, beq_self_eq_true, if_pos rfl, hhere, heq]
    simp [advance]
  | succ j =>
    have hne : (spot.line == spot.line + (j + 1)) = false := by
      rw [beq_eq_false_iff_ne]
      omega
    rw [slice, hadvance, hne, if_neg (by simp), hlast, hhere]
    dsimp only
    rw [span, show spot.line + (j + 1) - 1 + 1 - (spot.line + 1) = j by omega,
      map_line_range' source (by omega), hdrop, take_succ_cons, flatMap_cons,
      append_assoc, append_assoc, append_assoc,
      drop_append_of_le_length hcol]
    simp [advance, hdrop]

theorem spotIn_next {cell : Cell} (h : (streamOf lines)[k]? = some cell) (hcell : cell.char ≠ '\n') :
    (spotIn n lines k).next = spotIn n lines (k + 1) := by
  induction lines generalizing n k with
  | nil => cases h
  | cons line rest ih =>
    by_cases hrest : rest = []
    · subst hrest
      rfl
    · rw [streamOf_cons line hrest] at h
      rw [spotIn_cons n line hrest, spotIn_cons n line hrest]
      rcases Nat.lt_trichotomy k line.length with hlt | heq | hgt
      · rw [if_pos (Nat.le_of_lt hlt), if_pos (Nat.succ_le_of_lt hlt)]
        rfl
      · -- The cell behind the line is its line end.
        rw [heq, getElem?_append_right (Nat.le_refl _), Nat.sub_self] at h
        exact absurd (congrArg Cell.char (Option.some.inj h)).symm hcell
      · rw [getElem?_append_right (Nat.le_of_lt hgt),
          show k - line.length = (k - (line.length + 1)) + 1 by omega, getElem?_cons_succ] at h
        rw [if_neg (by omega), if_neg (by omega), ih h]
        congr 1
        omega

/-- The place behind a cell is one cell further, if no line ends there. -/
theorem advance_next {k : Nat} {cell : Cell} (h : (source.rest spot)[k]? = some cell)
    (hcell : cell.char ≠ '\n') : (source.advance spot k).next = source.advance spot (k + 1) := by
  rw [rest, getElem?_drop] at h
  rw [advance, advance, spotIn_next h hcell, Nat.add_assoc]

/-- The cells between two places behind a third one. -/
theorem between_advance (h : source.Valid spot) {k : Nat} {front inner back : Line} {cell : Cell}
    (hrest : source.rest spot = front ++ cell :: (inner ++ back)) (hk : front.length = k)
    (hcell : cell.char ≠ '\n') :
    source.between (source.advance spot k) (source.advance spot (k + 1 + inner.length)) = inner := by
  have hlength := congrArg length hrest
  simp only [length_append, length_cons] at hlength
  have hget : (source.rest spot)[k]? = some cell := by
    rw [hrest, ← hk, getElem?_append_right (Nat.le_refl _), Nat.sub_self]
    rfl
  obtain ⟨hvalid, hdrop, hadd⟩ := advance_spec h (show k + 1 ≤ (source.rest spot).length by omega)
  rw [between, advance_next hget hcell, ← hadd, slice_advance hvalid (by rw [hdrop, length_drop]; omega),
    hdrop, hrest, ← hk]
  simp

/-- The line of a place is counted by the line ends in front of it. -/
theorem line_spotIn (hlines : ∀ line ∈ lines, '\n' ∉ line.raw) (h : k ≤ (streamOf lines).length) :
    (spotIn n lines k).line = n + ((streamOf lines).raw.take k).count '\n' := by
  induction lines generalizing n k with
  | nil => simp [streamOf, spotIn, Line.raw]
  | cons line rest ih =>
    obtain ⟨hline, hothers⟩ := forall_mem_cons.mp hlines
    have hnone : ∀ j, (line.raw.take j).count '\n' = 0 := fun j =>
      count_eq_zero.mpr fun hmem => hline (mem_of_mem_take hmem)
    by_cases hrest : rest = []
    · subst hrest
      rw [show streamOf [line] = line from rfl, hnone]
      rfl
    · rw [streamOf_cons line hrest] at h ⊢
      have hlength : line.raw.length = line.length := length_map _
      rw [spotIn_cons n line hrest, Line.raw, map_append, map_cons, ← Line.raw,
        ← Line.raw]
      split
      · rename_i hk
        rw [take_append_of_le_length (by omega), hnone]
        rfl
      · rename_i hk
        rw [length_append, length_cons] at h
        rw [ih hothers (by omega), take_append, count_append, hnone, hlength,
          show k - line.length = (k - (line.length + 1)) + 1 by omega, take_succ_cons,
          show lineEnd.char = '\n' from rfl, count_cons_self]
        omega

theorem line_advance (hlines : ∀ line ∈ source.lines, '\n' ∉ line.raw) (h : source.Valid spot)
    (hk : k ≤ (source.rest spot).length) :
    (source.advance spot k).line = spot.line + ((source.rest spot).raw.take k).count '\n' := by
  obtain ⟨line, hline, hcol, -, hstream⟩ := h.stream
  have hlater : ∀ other ∈ source.lines.drop spot.line, '\n' ∉ other.raw :=
    fun other hother => hlines other (mem_of_mem_drop hother)
  have hcol' : (line.take spot.col).length = spot.col := length_take_of_le hcol
  -- The cells in front of the place on its own line hold no line end.
  have hnone : ((line.take spot.col).map Cell.char).count '\n' = 0 := by
    rw [count_eq_zero, map_take]
    exact fun hin => hlines line (mem_of_getElem? hline) (mem_of_mem_take hin)
  rw [advance, line_spotIn hlater (by rw [hstream, length_append]; omega), hstream, Line.raw,
    map_append, take_append, take_of_length_le (by rw [length_map]; omega), length_map, hcol',
    Nat.add_sub_cancel_left, count_append, hnone, Nat.zero_add]
  rfl

end Source

end ServiceInjection
