import Mathlib.Data.List.TakeWhile
import ServiceInjection.Proofs.Source.Aligned
import ServiceInjection.Proofs.Source.Nesting

/-!
# Source.Lists

Lists in source text, read and written. Each piece of a list between brackets starts
and ends in code, so an entry can be masked on its own; without the blanks around it,
it still ends in code unless a line comment closes it. A list that is written from entries
that end in code is read back as these entries (`reads_listText`).
-/

namespace ServiceInjection

open Text List

variable {cs a : List Char} {c : Char} {depth : Int} {cells piece : Line} {next : Option Char}

/-! ### Trimming -/

namespace Text

/-- A text of blanks only. -/
def Blank (cs : List Char) : Prop := ∀ c ∈ cs, isBlank c = true

instance (cs : List Char) : Decidable (Blank cs) := inferInstanceAs (Decidable (∀ c ∈ cs, _))

theorem Blank.not_mem (h : Blank cs) (hc : isBlank c = false) : c ∉ cs := by
  intro hmem
  rw [h c hmem] at hc
  cases hc

theorem Blank.isPlain (h : Blank cs) : ∀ c ∈ cs, IsPlain c := by
  intro c hc
  have hblank := h c hc
  refine ⟨?_, ?_, ?_⟩
  · rintro (rfl | rfl) <;> exact absurd hblank (by decide)
  · rintro rfl
    exact absurd hblank (by decide)
  · rintro rfl
    exact absurd hblank (by decide)

theorem Blank.append {a b : List Char} (ha : Blank a) (hb : Blank b) : Blank (a ++ b) := by
  exact forall_mem_append.mpr ⟨ha, hb⟩

theorem trim_append_left (b : List Char) (h : Blank a) : trim (a ++ b) = trim b := by
  rw [trim, trimStart, dropWhile_append_of_pos h]
  rfl

theorem Blank.reverse (h : Blank a) : Blank a.reverse :=
  fun c hc => h c (mem_reverse.mp hc)

theorem trimEnd_append_right (a : List Char) {b : List Char} (h : Blank b) :
    trimEnd (a ++ b) = trimEnd a := by
  rw [trimEnd, reverse_append, dropWhile_append_of_pos h.reverse]
  rfl

theorem trimEnd_append_cons (front : List Char) {c : Char} (hc : isBlank c = false) (cs : List Char) :
    trimEnd (front ++ c :: cs) = front ++ c :: trimEnd cs := by
  have hreverse : (front ++ c :: cs).reverse = cs.reverse ++ c :: front.reverse := by simp
  rw [trimEnd, hreverse, dropWhile_append]
  split
  · rename_i hempty
    rw [dropWhile_cons_of_neg (by simp [hc]), trimEnd, isEmpty_iff.mp hempty]
    simp
  · simp [trimEnd]

theorem blank_takeWhile (cs : List Char) : Blank (cs.takeWhile isBlank) :=
  all_eq_true.mp all_takeWhile

theorem trim_eq_nil_iff : trim cs = [] ↔ Blank cs := by
  rw [trim, trimEnd, trimStart, reverse_eq_nil_iff, dropWhile_eq_nil_iff]
  refine ⟨fun h => ?_, fun h c hc => h c ((dropWhile_suffix _).subset (mem_reverse.mp hc))⟩
  rw [← takeWhile_append_dropWhile (p := isBlank) (l := cs)]
  exact (blank_takeWhile cs).append fun c hc => h c (mem_reverse.mpr hc)

theorem trim_append_right (a : List Char) {b : List Char} (h : Blank b) :
    trim (a ++ b) = trim a := by
  by_cases ha : Blank a
  · rw [trim_eq_nil_iff.mpr ha, trim_eq_nil_iff.mpr (ha.append h)]
  · have hne : ¬ (a.dropWhile isBlank).isEmpty = true := by
      rwa [List.isEmpty_iff, dropWhile_eq_nil_iff]
    rw [trim, trim, trimStart, trimStart, dropWhile_append, if_neg hne, trimEnd_append_right _ h]

theorem exists_trimEnd (cs : List Char) : ∃ tail, Blank tail ∧ cs = trimEnd cs ++ tail := by
  refine ⟨(cs.reverse.takeWhile isBlank).reverse, (blank_takeWhile _).reverse, ?_⟩
  rw [trimEnd, ← reverse_append, takeWhile_append_dropWhile, reverse_reverse]

/-- A text is its trimmed text between blanks. -/
theorem exists_trim (cs : List Char) :
    ∃ lead tail, Blank lead ∧ Blank tail ∧ cs = lead ++ (trim cs ++ tail) := by
  obtain ⟨tail, htail, heq⟩ := exists_trimEnd (trimStart cs)
  refine ⟨cs.takeWhile isBlank, tail, blank_takeWhile cs, htail, ?_⟩
  rw [trim, ← heq, trimStart, takeWhile_append_dropWhile]

theorem trimStart_append {e : List Char} (x : List Char) (hne : e ≠ []) (h : trimStart e = e) :
    trimStart (e ++ x) = e ++ x := by
  rw [trimStart] at h ⊢
  rw [dropWhile_append, h, if_neg (by simpa using hne)]

theorem trim_eq_self_iff : trim cs = cs ↔ trimStart cs = cs ∧ trimEnd cs = cs := by
  constructor
  · intro h
    have hstart := (dropWhile_suffix isBlank (l := cs))
    have hend := (dropWhile_suffix isBlank (l := (trimStart cs).reverse)).length_le
    have hlen := congrArg length h
    rw [trim, trimEnd, length_reverse] at hlen
    rw [length_reverse] at hend
    have heq : trimStart cs = cs := hstart.eq_of_length_le (by simp only [trimStart] at hend hlen ⊢; omega)
    exact ⟨heq, by rw [trim, heq] at h; exact h⟩
  · rintro ⟨hstart, hend⟩
    rw [trim, hstart, hend]

theorem trim_between {e f : List Char} (m : List Char) (he : trim e = e) (hne : e ≠ [])
    (hf : trim f = f) (hfne : f ≠ []) : trim (e ++ m ++ f) = e ++ m ++ f := by
  refine trim_eq_self_iff.mpr ⟨?_, ?_⟩
  · rw [append_assoc]
    exact trimStart_append _ hne (trim_eq_self_iff.mp he).1
  · have hend : trimStart f.reverse = f.reverse := by
      rw [← reverse_inj, reverse_reverse]
      exact (trim_eq_self_iff.mp hf).2
    rw [trimEnd, reverse_append]
    have := trimStart_append (e ++ m).reverse (by simpa using hfne) hend
    rw [trimStart] at this
    rw [this, ← reverse_append, reverse_reverse]

end Text

/-! ### Commas and brackets -/

namespace Line

/-- Whether no comma of depth zero divides the cells, which start at depth `depth`. -/
def Whole (depth : Int) (cells : Line) : Prop := splitCommasAt depth cells = [cells]

instance (depth : Int) (cells : Line) : Decidable (cells.Whole depth) :=
  inferInstanceAs (Decidable (_ = _))

theorem splitCommasAt_ne_nil (depth : Int) (cells : Line) : splitCommasAt depth cells ≠ [] := by
  cases cells with
  | nil => exact cons_ne_nil _ _
  | cons cell rest =>
    rw [splitCommasAt]
    split
    · exact cons_ne_nil _ _
    · split <;> exact cons_ne_nil _ _

theorem splitCommasAt_cons {cell : Cell} (rest : Line) (h : ¬ (cell.code = ',' ∧ depth = 0)) :
    splitCommasAt depth (cell :: rest) =
      (splitCommasAt (depth + depthChange cell.code) rest).modifyHead (cell :: ·) := by
  rw [splitCommasAt, if_neg (by simpa using h)]
  split
  · exact absurd ‹_› (splitCommasAt_ne_nil _ _)
  · rename_i heq
    rw [heq]
    rfl

theorem whole_cons {cell : Cell} {rest : Line} : Whole depth (cell :: rest) ↔
      ¬ (cell.code = ',' ∧ depth = 0) ∧ Whole (depth + depthChange cell.code) rest := by
  by_cases h : cell.code = ',' ∧ depth = 0
  · have hnot : ¬ Whole depth (cell :: rest) := by
      intro hwhole
      rw [Whole, splitCommasAt, if_pos (by simpa using h)] at hwhole
      exact absurd (cons.inj hwhole).1 (cons_ne_nil _ _).symm
    exact ⟨fun hw => absurd hw hnot, fun hw => absurd h hw.1⟩
  · rw [Whole, splitCommasAt_cons rest h, Whole]
    cases hs : splitCommasAt (depth + depthChange cell.code) rest with
    | nil => exact absurd hs (splitCommasAt_ne_nil _ _)
    | cons piece pieces => simp [h]

/-- Splitting behind cells that no comma divides. -/
theorem splitCommasAt_append (rest : Line) (h : Whole depth cells) :
    splitCommasAt depth (cells ++ rest) =
      (splitCommasAt (depthAfter depth cells) rest).modifyHead (cells ++ ·) := by
  induction cells generalizing depth with
  | nil =>
    rw [nil_append, depthAfter]
    cases splitCommasAt depth rest <;> rfl
  | cons cell cells ih =>
    obtain ⟨hcell, hcells⟩ := whole_cons.mp h
    rw [cons_append, splitCommasAt_cons _ hcell, ih hcells, depthAfter]
    cases splitCommasAt (depthAfter (depth + depthChange cell.code) cells) rest <;> rfl

/-- Cells that are no commas divide nothing. -/
theorem whole_of_no_comma (h : ∀ cell ∈ cells, cell.code ≠ ',') : Whole depth cells := by
  induction cells generalizing depth with
  | nil => rfl
  | cons cell cells ih =>
    exact whole_cons.mpr ⟨fun hc => h cell mem_cons_self hc.1,
      ih fun cell hcell => h cell (mem_cons_of_mem _ hcell)⟩

/-- A list is one piece, or a piece, a comma of depth zero, and the rest. -/
theorem splitCommasAt_cases (depth : Int) (cells : Line) :
    Whole depth cells ∨ ∃ piece rest, cells = piece ++ .show ',' :: rest ∧ Whole depth piece ∧
      depthAfter depth piece = 0 ∧ splitCommasAt depth cells = piece :: splitCommasAt 0 rest := by
  induction cells generalizing depth with
  | nil => exact .inl rfl
  | cons cell cells ih =>
    by_cases h : cell.code = ',' ∧ depth = 0
    · obtain ⟨hcode, rfl⟩ := h
      have hcell := Cell.eq_show_of_code hcode (by decide)
      refine .inr ⟨[], cells, by rw [hcell]; rfl, rfl, rfl, ?_⟩
      rw [splitCommasAt, if_pos (by simp [hcode])]
    · rcases ih (depth + depthChange cell.code) with hwhole | ⟨piece, rest, heq, hwhole, hdepth, hsplit⟩
      · exact .inl (whole_cons.mpr ⟨h, hwhole⟩)
      · refine .inr ⟨cell :: piece, rest, by rw [heq]; rfl, whole_cons.mpr ⟨h, hwhole⟩, hdepth, ?_⟩
        rw [splitCommasAt_cons _ h, hsplit]
        rfl

theorem whole_append {a b : Line} :
    Whole depth (a ++ b) ↔ Whole depth a ∧ Whole (depthAfter depth a) b := by
  induction a generalizing depth with
  | nil => exact ⟨fun h => ⟨rfl, h⟩, fun h => h.2⟩
  | cons cell a ih => rw [cons_append, whole_cons, whole_cons, ih, and_assoc, depthAfter]

end Line

/-! ### Entries on their own -/

/-- The cells of a text that starts in code. -/
def Line.ofCode (cs : List Char) : Line := Lex.code.cells cs none

/-- The entry that a text without blanks around it makes. -/
def Entry.ofText (cs : List Char) : Entry := ⟨cs, trim (Line.ofCode cs).masked⟩

namespace Text

/-- Whether a text that starts in code ends in a line comment. -/
def EndsInComment (cs : List Char) : Prop := Lex.code.after cs none = .lineComment

instance (cs : List Char) : Decidable (EndsInComment cs) :=
  inferInstanceAs (Decidable (Lex.code.after cs none = .lineComment))

/-- Whether a text that starts in code ends in code, but for a line comment. -/
def Ends (cs : List Char) : Prop := Lex.code.after cs none = .code ∨ EndsInComment cs

instance (cs : List Char) : Decidable (Ends cs) := inferInstanceAs (Decidable (_ ∨ _))

/-- Whether the brackets of a text that starts in code are balanced. -/
def Balanced (cs : List Char) : Prop := Nested (Line.ofCode cs).code

instance (cs : List Char) : Decidable (Balanced cs) :=
  inferInstanceAs (Decidable (Nested (Line.ofCode cs).code))

theorem inert_of_isBlank (h : isBlank c = true) : Lex.Inert (some c) := by
  refine ⟨?_, ?_, ?_⟩ <;> rintro ⟨⟩ <;> exact absurd h (by decide)

theorem inert_head (h : Blank cs) (hnext : Lex.Inert next) : Lex.Inert (cs.head?.or next) := by
  cases cs with
  | nil => exact hnext
  | cons c cs => exact inert_of_isBlank (h c mem_cons_self)

theorem blank_code (h : Blank cells.raw) : Blank cells.code := by
  intro c hc
  obtain ⟨cell, hcell, rfl⟩ := mem_map.mp hc
  rw [Cell.code]
  split
  · exact h _ (mem_map_of_mem hcell)
  · decide

theorem blank_masked (h : Blank cells.raw) : Blank cells.masked :=
  fun c hc => blank_code h c (Line.mem_masked.mp hc)

/-- Blanks around a text do not count in its masked text. -/
theorem trim_masked_cells {lead tail : List Char} (hlead : Blank lead) (htail : Blank tail)
    (hends : Ends cs) (hnext : Lex.Inert next) :
    trim (Lex.code.cells (lead ++ (cs ++ tail)) next).masked = trim (Line.ofCode cs).masked := by
  obtain ⟨-, hcode⟩ := Lex.cells_plain ((cs ++ tail).head?.or next) hlead.isPlain
  obtain ⟨hcells, -⟩ := @Lex.cells_inert .code cs none _ ⟨nofun, nofun, nofun⟩
    (inert_head htail hnext) hends
  have hblank : ∀ (state : Lex) (ds : List Char) (next : Option Char), Blank ds →
      Blank (state.cells ds next).masked := by
    intro state ds next hds
    exact blank_masked (by rwa [Lex.raw_cells])
  rw [Lex.cells_append, Line.masked_append, trim_append_left _ (hblank _ _ _ hlead), hcode,
    Lex.cells_append, Line.masked_append, trim_append_right _ (hblank _ _ _ htail), hcells]
  rfl

end Text

/-- Blanks around an entry do not count. -/
theorem Entry.ofCells_cells {lead cs tail : List Char} {next : Option Char} (hlead : Blank lead)
    (htail : Blank tail) (htrim : trim cs = cs) (hends : Ends cs) (hnext : Lex.Inert next) :
    Entry.ofCells (Lex.code.cells (lead ++ (cs ++ tail)) next) = Entry.ofText cs := by
  rw [ofCells, ofText, trim_masked_cells hlead htail hends hnext, Lex.raw_cells,
    trim_append_left _ hlead, trim_append_right _ htail, htrim]

/-! ### Entries of a list that is read -/

/-- Blanks leave a comment or a literal only at the end of a line comment. -/
theorem Lex.step_blank {state : Lex} (next : Option Char) (hc : isBlank c = true)
    (hvalid : state.Valid) (h : ¬ (state = .code ∨ state = .lineComment ∨ state = .closing)) :
    ¬ ((state.step c next).2 = .code ∨ (state.step c next).2 = .lineComment ∨
      (state.step c next).2 = .closing) := by
  have hstar : c ≠ '*' := by
    rintro rfl
    exact absurd hc (by decide)
  cases state with
  | literal quote =>
    have hquote : c ≠ quote := by
      rintro rfl
      rcases hvalid with rfl | rfl <;> exact absurd hc (by decide)
    simp only [Lex.step]
    (repeat' split) <;> simp_all
  | _ =>
    simp only [Lex.step]
    (repeat' split) <;> simp_all

theorem Lex.of_after_blank {state : Lex} (hvalid : state.Valid) (hblank : Blank cs)
    (h : state.after cs next = .code) :
    state = .code ∨ state = .lineComment ∨ state = .closing := by
  refine Classical.byContradiction fun hnot => ?_
  induction cs generalizing state with
  | nil => exact hnot (.inl h)
  | cons c cs ih =>
    obtain ⟨hc, hcs⟩ := forall_mem_cons.mp hblank
    exact ih (valid_step c _ hvalid) hcs h (step_blank _ hc hvalid hnot)

/-- Whether cells are a text of their own that starts and ends in code. -/
def Line.Closed (cells : Line) : Prop :=
  cells = Line.ofCode cells.raw ∧ Lex.code.after cells.raw none = .code

theorem Line.Closed.of_inert (hnext : Lex.Inert next) (h : cells = Lex.code.cells cells.raw next)
    (hend : Lex.code.after cells.raw next = .code) : cells.Closed := by
  obtain ⟨hcells, hafter⟩ := Lex.cells_inert (q := none) hnext ⟨nofun, nofun, nofun⟩ (.inl hend)
  exact ⟨by rw [ofCode, hcells, ← h], hafter.trans hend⟩

/-- The pieces of a closed list are closed. -/
theorem closed_of_mem_splitCommas {depth : Int} {cells : Line} (h : cells.Closed) {piece : Line}
    (hmem : piece ∈ splitCommasAt depth cells) : piece.Closed := by
  rcases Line.splitCommasAt_cases depth cells with hwhole | ⟨front, rest, heq, -, -, hsplit⟩
  · rw [hwhole] at hmem
    exact mem_singleton.mp hmem ▸ h
  · obtain ⟨hlexed, hend⟩ := h
    obtain ⟨hfront, hcode, hrest⟩ := @Lex.of_shown_cell .code _ _ _ _ _ trivial
      (hlexed.symm.trans heq) (by decide) (by rintro (h | h) <;> exact absurd h (by decide))
    have hraw : cells.raw = front.raw ++ ',' :: Line.raw rest := by
      rw [heq, Line.raw, map_append]
      rfl
    rw [hsplit] at hmem
    rcases mem_cons.mp hmem with rfl | hpiece
    · exact .of_inert (by simp [Lex.Inert]) hfront hcode
    · refine closed_of_mem_splitCommas ⟨hrest, ?_⟩ hpiece
      rw [hraw, Lex.after_append, head?_cons, Option.some_or, hcode] at hend
      exact hend
termination_by cells.length
decreasing_by
  rw [heq, length_append, length_cons]
  omega

/-- Each piece of a list is whole. -/
theorem whole_of_mem_splitCommas {cells piece : Line} (hmem : piece ∈ splitCommas cells) :
    piece.Whole 0 := by
  rw [splitCommas] at hmem
  rcases Line.splitCommasAt_cases 0 cells with hwhole | ⟨front, rest, heq, hwhole, -, hsplit⟩
  · rw [hwhole] at hmem
    exact mem_singleton.mp hmem ▸ hwhole
  · rw [hsplit] at hmem
    rcases mem_cons.mp hmem with rfl | hpiece
    · exact hwhole
    · exact whole_of_mem_splitCommas hpiece
termination_by cells.length
decreasing_by
  rw [heq, length_append, length_cons]
  omega

theorem depthChange_of_isBlank (h : isBlank c = true) : depthChange c = 0 := by
  have hne : ∀ d ∈ ['(', '[', '\x7b', ')', ']', '\x7d'], c ≠ d := by
    intro d hd
    rintro rfl
    simp only [mem_cons, not_mem_nil, or_false] at hd
    rcases hd with rfl | rfl | rfl | rfl | rfl | rfl <;> exact absurd h (by decide)
  simp only [forall_mem_cons] at hne
  simp [depthChange, hne]

/-- Cells whose code is blank neither divide a list nor hold brackets. -/
theorem Line.blank_spec (h : Blank cells.code) : cells.Whole 0 ∧ Nested cells.code := by
  refine ⟨whole_of_no_comma fun cell hcell heq => ?_,
    nested_of_no_bracket fun c hc => depthChange_of_isBlank (h c hc)⟩
  have hblank := h _ (mem_map_of_mem hcell)
  rw [heq] at hblank
  cases hblank

theorem code_map_show (cs : List Char) : Line.code (cs.map .show) = cs := by
  rw [Line.code, map_map, show Cell.code ∘ Cell.show = id from rfl, map_id]

theorem Line.code_ofCode (h : ∀ c ∈ cs, IsPlain c) : (Line.ofCode cs).code = cs := by
  rw [Line.ofCode, (Lex.cells_plain none h).1, code_map_show]

theorem Line.raw_ofCode (cs : List Char) : (Line.ofCode cs).raw = cs := Lex.raw_cells ..

theorem Text.Blank.spec_map_show (h : Blank cs) :
    Line.Whole 0 (cs.map .show) ∧ Nested (Line.code (cs.map .show)) := by
  refine Line.blank_spec ?_
  rwa [code_map_show]

theorem Text.trim_trim (cs : List Char) : trim (trim cs) = trim cs := by
  obtain ⟨lead, tail, hlead, htail, heq⟩ := exists_trim cs
  rw [← trim_append_right (trim cs) htail, ← trim_append_left _ hlead, ← heq]

namespace Line.Closed

variable {piece : Line}

/-- The text of a closed piece without the blanks around it is read as it is on its own. -/
theorem exists_trim (h : piece.Closed) :
    ∃ lead tail, Blank lead ∧ Blank tail ∧ piece.raw = lead ++ (trim piece.raw ++ tail) ∧
      Ends (trim piece.raw) ∧
      piece = lead.map .show ++ (Line.ofCode (trim piece.raw) ++
        (Lex.code.after (trim piece.raw) none).cells tail none) ∧
      (Lex.code.after (trim piece.raw) none).after tail none = .code := by
  obtain ⟨hlexed, hend⟩ := h
  obtain ⟨lead, tail, hlead, htail, heq⟩ := Text.exists_trim piece.raw
  generalize trim piece.raw = entry at heq
  have hinert : Lex.Inert (tail.head?.or none) := inert_head htail ⟨nofun, nofun, nofun⟩
  obtain ⟨hleadCells, hcode⟩ := Lex.cells_plain ((entry ++ tail).head?.or none) hlead.isPlain
  rw [heq, Lex.after_append, hcode, Lex.after_append] at hend
  have hstate : Lex.code.after entry (tail.head?.or none) = .code ∨
      Lex.code.after entry (tail.head?.or none) = .lineComment := by
    have hvalid := @Lex.valid_after .code entry (tail.head?.or none) trivial
    rcases Lex.of_after_blank hvalid htail hend with h | h | h
    · exact .inl h
    · exact .inr h
    · exact absurd h (Lex.after_ne_closing _ hinert)
  obtain ⟨hcells, hafter⟩ := Lex.cells_inert (q := none) hinert ⟨nofun, nofun, nofun⟩ hstate
  refine ⟨lead, tail, hlead, htail, heq, ?_, ?_, hafter ▸ hend⟩
  · rw [Ends, EndsInComment, hafter]
    exact hstate
  · rw [hlexed, heq, ofCode, Lex.cells_append, hleadCells, hcode, Lex.cells_append, ← hcells, hafter,
      ofCode]

theorem ends (h : piece.Closed) : Ends (trim piece.raw) :=
  h.exists_trim.elim fun _ h => h.elim fun _ h => h.2.2.2.1

/-- The entry of a closed piece can be read on its own. -/
theorem entry (h : piece.Closed) : Entry.ofCells piece = Entry.ofText (trim piece.raw) := by
  obtain ⟨lead, tail, hlead, htail, heq, hends, -, -⟩ := h.exists_trim
  have hcells := h.1
  generalize htrim : trim piece.raw = entry at heq hends
  rw [hcells, heq]
  exact Entry.ofCells_cells hlead htail (by rw [← htrim, trim_trim]) hends ⟨nofun, nofun, nofun⟩

theorem whole_trim (h : piece.Closed) (hwhole : piece.Whole 0) :
    (Line.ofCode (trim piece.raw)).Whole 0 := by
  obtain ⟨lead, tail, hlead, -, -, -, hcells, -⟩ := h.exists_trim
  rw [hcells, whole_append, depthAfter_of_nested hlead.spec_map_show.2, whole_append] at hwhole
  exact hwhole.2.1

/-- On one line, an entry that ends in a line comment would be the end of the line. -/
theorem not_endsInComment (h : piece.Closed) (hline : '\n' ∉ piece.raw) :
    ¬ EndsInComment (trim piece.raw) := by
  obtain ⟨lead, tail, -, -, heq, -, -, hcode⟩ := h.exists_trim
  intro hcomment
  rw [heq, mem_append, mem_append, not_or, not_or] at hline
  rw [hcomment, (Lex.cells_lineComment hline.2.2).2] at hcode
  cases hcode

end Line.Closed

theorem subset_of_mem_splitCommasAt (h : piece ∈ splitCommasAt depth cells) : piece ⊆ cells := by
  induction cells generalizing depth piece with
  | nil =>
    rw [mem_singleton.mp h]
    exact nil_subset _
  | cons cell cells ih =>
    by_cases hcut : cell.code = ',' ∧ depth = 0
    · rw [splitCommasAt, if_pos (by simpa using hcut)] at h
      rcases mem_cons.mp h with rfl | h
      · exact nil_subset _
      · exact subset_cons_of_subset _ (ih h)
    · rw [Line.splitCommasAt_cons _ hcut] at h
      cases hsplit : splitCommasAt (depth + depthChange cell.code) cells with
      | nil => exact absurd hsplit (Line.splitCommasAt_ne_nil _ _)
      | cons first others =>
        rw [hsplit, modifyHead_cons] at h
        rcases mem_cons.mp h with rfl | h
        · exact cons_subset_cons _ (ih (hsplit ▸ mem_cons_self))
        · exact subset_cons_of_subset _ (ih (hsplit ▸ mem_cons_of_mem _ h))

/-- What makes a text an entry of a list: it has no blanks around it, holds code, ends in
code or a line comment, and no comma divides it. -/
structure Text.IsEntry (entry : List Char) : Prop where
  trimmed : trim entry = entry
  holdsCode : ¬ Blank (Line.ofCode entry).masked
  ends : Ends entry
  whole : (Line.ofCode entry).Whole 0

theorem Text.IsEntry.of_mem_entries (h : cells.Closed) {entry : Entry}
    (hmem : entry ∈ (EntryList.ofCells cells).entries) :
    IsEntry entry.text ∧ entry = Entry.ofText entry.text := by
  obtain ⟨hentry, hcode⟩ := mem_filter.mp hmem
  obtain ⟨piece, hpiece, rfl⟩ := mem_map.mp hentry
  have hclosed := closed_of_mem_splitCommas h hpiece
  have htext : (Entry.ofCells piece).text = trim piece.raw := rfl
  rw [htext]
  refine ⟨⟨trim_trim _, fun hblank => ?_, hclosed.ends,
    hclosed.whole_trim (whole_of_mem_splitCommas hpiece)⟩, hclosed.entry⟩
  rw [hclosed.entry, Entry.ofText, trim_eq_nil_iff.mpr hblank] at hcode
  simp at hcode

/-- An entry whose brackets are nested. -/
structure Listable (entry : List Char) : Prop extends IsEntry entry where
  balanced : Balanced entry

/-- Whether the entry behind a text is read as if the text were not there: the text ends
in code, no comma divides it, and its brackets are nested. -/
structure Text.LeadsIn (lead : List Char) : Prop where
  ends : ∀ next, Lex.code.after lead next = .code
  whole : ∀ next, (Lex.code.cells lead next).Whole 0
  nested : ∀ next, Nested (Lex.code.cells lead next).code

theorem Text.Blank.leadsIn {lead : List Char} (h : Blank lead) : LeadsIn lead := by
  have hplain := fun next => Lex.cells_plain next h.isPlain
  refine ⟨fun next => (hplain next).2, fun next => ?_, fun next => ?_⟩
  · rw [(hplain next).1]
    exact h.spec_map_show.1
  · rw [(hplain next).1]
    exact h.spec_map_show.2

/-! ### Lists that are written -/

/-- A list with `gap` between each comma and the next entry. -/
def listText (gap : List Char) (entries : List (List Char)) : List Char :=
  (',' :: gap).intercalate entries

theorem listText_cons {gap entry : List Char} {rest : List (List Char)} (h : rest ≠ []) :
    listText gap (entry :: rest) = entry ++ ',' :: (gap ++ listText gap rest) := by
  cases rest with
  | nil => exact absurd rfl h
  | cons second rest => simp [listText, intercalate]

theorem listText_singleton (gap entry : List Char) : listText gap [entry] = entry := by
  simp [listText, intercalate]

namespace Listable

variable {entry lead : List Char} {next : Option Char}

/-- How an entry is left that nothing in front of it concerns. -/
theorem append_spec (h : Listable entry) (hlead : LeadsIn lead) (hnext : Lex.Inert next) :
    Lex.code.after (lead ++ entry) next = Lex.code.after entry none ∧
      (Lex.code.cells (lead ++ entry) next).Whole 0 ∧
      Nested (Lex.code.cells (lead ++ entry) next).code := by
  obtain ⟨hcells, hafter⟩ := @Lex.cells_inert .code entry none next ⟨nofun, nofun, nofun⟩ hnext h.ends
  rw [Lex.after_append, Lex.cells_append, hlead.ends, hcells, hafter, Line.whole_append,
    Line.depthAfter_of_nested (hlead.nested _), Line.code_append]
  exact ⟨rfl, ⟨hlead.whole _, h.whole⟩, (hlead.nested _).append h.balanced⟩

/-- An entry with the comma behind it that ends it. -/
theorem cut (h : Listable entry) (hclosed : ¬ EndsInComment entry) (hlead : LeadsIn lead)
    (rest : List Char) :
    let cells := Lex.code.cells (lead ++ (entry ++ ',' :: rest)) next
    cells = Lex.code.cells (lead ++ entry) (some ',') ++ .show ',' :: Lex.code.cells rest next ∧
      Lex.code.after (lead ++ (entry ++ ',' :: rest)) next = Lex.code.after rest next ∧
      splitCommas cells =
        Lex.code.cells (lead ++ entry) (some ',') :: splitCommas (Lex.code.cells rest next) := by
  intro cells
  obtain ⟨hafter, hwhole, hnested⟩ := h.append_spec hlead (by simp [Lex.Inert] : Lex.Inert (some ','))
  rw [h.ends.resolve_right hclosed] at hafter
  have hcells : cells =
      Lex.code.cells (lead ++ entry) (some ',') ++ .show ',' :: Lex.code.cells rest next := by
    show Lex.code.cells (lead ++ (entry ++ ',' :: rest)) next = _
    rw [← append_assoc, Lex.cells_append, head?_cons, Option.some_or, hafter]
    rfl
  refine ⟨hcells, ?_, ?_⟩
  · rw [← append_assoc, Lex.after_append, head?_cons, Option.some_or, hafter]
    rfl
  · rw [hcells, splitCommas, Line.splitCommasAt_append _ hwhole, Line.depthAfter_of_nested hnested,
      splitCommasAt]
    simp [splitCommas, Cell.code, Cell.show]

/-- The last entry of a list. -/
theorem last (h : Listable entry) (hclosed : ¬ EndsInComment entry) (hlead : LeadsIn lead)
    {tail : List Char} (htail : Blank tail) (hnext : Lex.Inert next) :
    (Lex.code.cells (lead ++ (entry ++ tail)) next).Whole 0 ∧
      Lex.code.after (lead ++ (entry ++ tail)) next = .code ∧
      Nested (Lex.code.cells (lead ++ (entry ++ tail)) next).code := by
  obtain ⟨hcode, hwhole, hnested⟩ := h.append_spec hlead (inert_head htail hnext)
  rw [h.ends.resolve_right hclosed] at hcode
  obtain ⟨hcells, hafter⟩ := Lex.cells_plain next htail.isPlain
  have hend : Lex.code.after (lead ++ entry ++ tail) next = .code := by
    rw [Lex.after_append, hcode, hafter]
  rw [← append_assoc, Lex.cells_append, hcode, hcells, hend, Line.whole_append,
    Line.depthAfter_of_nested hnested, Line.code_append]
  exact ⟨⟨hwhole, htail.spec_map_show.1⟩, rfl, hnested.append htail.spec_map_show.2⟩

/-- Behind the comma, code goes on as code. -/
theorem reads_cut (h : Listable entry) (hclosed : ¬ EndsInComment entry) (hlead : LeadsIn lead)
    {rest : List Char} (hrest : Lex.code.after rest next = .code ∧ Nested (Lex.code.cells rest next).code) :
    Lex.code.after (lead ++ (entry ++ ',' :: rest)) next = .code ∧
      Nested (Lex.code.cells (lead ++ (entry ++ ',' :: rest)) next).code := by
  obtain ⟨hcells, hafter, -⟩ := @cut _ _ next h hclosed hlead rest
  have hfront := (h.append_spec hlead (by simp [Lex.Inert] : Lex.Inert (some ','))).2.2
  rw [hafter, hcells, Line.code_append, ← singleton_append, Line.code_append]
  exact ⟨hrest.1, hfront.append (.append (by decide) hrest.2)⟩

theorem masked_ne_nil (h : Listable entry) : (Entry.ofText entry).masked.isEmpty = false := by
  rw [isEmpty_eq_false_iff]
  exact fun hnil => h.holdsCode (trim_eq_nil_iff.mp hnil)

/-- The first entry of a list, with the comma behind it that ends it. -/
theorem entries_cut (h : Listable entry) (hclosed : ¬ EndsInComment entry) (hlead : Blank lead)
    (rest : List Char) :
    (EntryList.ofCells (Lex.code.cells (lead ++ (entry ++ ',' :: rest)) next)).entries =
      Entry.ofText entry :: (EntryList.ofCells (Lex.code.cells rest next)).entries := by
  have hentry : Entry.ofCells (Lex.code.cells (lead ++ entry) (some ',')) = Entry.ofText entry := by
    have := @Entry.ofCells_cells lead entry [] (some ',') hlead nofun h.trimmed h.ends
      (by simp [Lex.Inert])
    rwa [append_nil] at this
  simp only [EntryList.ofCells]
  rw [(h.cut hclosed hlead.leadsIn rest).2.2, map_cons, hentry, filter_cons_of_pos]
  rw [h.masked_ne_nil]
  rfl

/-- The only entry of a list. -/
theorem entries_last (h : Listable entry) (hclosed : ¬ EndsInComment entry) (hlead : Blank lead)
    {tail : List Char} (htail : Blank tail) (hnext : Lex.Inert next) :
    (EntryList.ofCells (Lex.code.cells (lead ++ (entry ++ tail)) next)).entries =
      [Entry.ofText entry] := by
  have hone : splitCommas (Lex.code.cells (lead ++ (entry ++ tail)) next) = [_] :=
    (h.last hclosed hlead.leadsIn htail hnext).1
  simp only [EntryList.ofCells]
  rw [hone, map_singleton, Entry.ofCells_cells hlead htail h.trimmed h.ends hnext,
    filter_cons_of_pos (by rw [h.masked_ne_nil]; rfl)]
  rfl

end Listable

/-- What may stand behind the last entry of a list: blanks, or a comma and blanks. -/
def ListEnd (tail : List Char) : Prop := Blank tail ∨ ∃ blanks, Blank blanks ∧ tail = ',' :: blanks

theorem entries_blank {cs : List Char} {next : Option Char} (h : Blank cs) :
    (EntryList.ofCells (Lex.code.cells cs next)).entries = [] ∧
      Lex.code.after cs next = .code ∧ Nested (Lex.code.cells cs next).code := by
  obtain ⟨hcells, hcode⟩ := Lex.cells_plain next h.isPlain
  have hone : splitCommas (Lex.code.cells cs next) = [Lex.code.cells cs next] := by
    rw [hcells]
    exact h.spec_map_show.1
  refine ⟨?_, hcode, ?_⟩
  · have hmasked : (Entry.ofCells (Lex.code.cells cs next)).masked = [] :=
      trim_eq_nil_iff.mpr (blank_masked (by rwa [Lex.raw_cells]))
    simp [EntryList.ofCells, hone, hmasked]
  · rw [hcells]
    exact h.spec_map_show.2

section

variable {gap tail lead : List Char} {next : Option Char} {entries : List (List Char)}

theorem listText_cons_append (gap lead tail entry : List Char) {rest : List (List Char)}
    (h : rest ≠ []) :
    lead ++ (listText gap (entry :: rest) ++ tail) =
      lead ++ (entry ++ ',' :: (gap ++ (listText gap rest ++ tail))) := by
  rw [listText_cons h]
  simp

/-- A list written from entries that end in code is read back as these entries. -/
theorem reads_listText (hgap : Blank gap) (htail : ListEnd tail) (hnext : Lex.Inert next)
    (hne : entries ≠ []) (h : ∀ entry ∈ entries, Listable entry ∧ ¬ EndsInComment entry)
    (hlead : Blank lead) :
    (EntryList.ofCells (Lex.code.cells (lead ++ (listText gap entries ++ tail)) next)).entries =
        entries.map Entry.ofText ∧
      Lex.code.after (lead ++ (listText gap entries ++ tail)) next = .code ∧
      Nested (Lex.code.cells (lead ++ (listText gap entries ++ tail)) next).code := by
  induction entries generalizing lead with
  | nil => exact absurd rfl hne
  | cons entry rest ih =>
    obtain ⟨⟨hentry, hclosed⟩, hothers⟩ := forall_mem_cons.mp h
    -- Behind the comma, the list goes on with what is read from the rest.
    have hcut : ∀ {behind : List Char} {others : List Entry},
        (EntryList.ofCells (Lex.code.cells behind next)).entries = others ∧
          Lex.code.after behind next = .code ∧ Nested (Lex.code.cells behind next).code →
        let text := lead ++ (entry ++ ',' :: behind)
        (EntryList.ofCells (Lex.code.cells text next)).entries = Entry.ofText entry :: others ∧
          Lex.code.after text next = .code ∧ Nested (Lex.code.cells text next).code := by
      rintro behind others ⟨rfl, hbehind⟩
      exact ⟨hentry.entries_cut hclosed hlead behind, hentry.reads_cut hclosed hlead.leadsIn hbehind⟩
    by_cases hrest : rest = []
    · subst hrest
      rw [listText_singleton]
      rcases htail with htail | ⟨blanks, hblanks, rfl⟩
      · exact ⟨hentry.entries_last hclosed hlead htail hnext,
          (hentry.last hclosed hlead.leadsIn htail hnext).2⟩
      · exact hcut (entries_blank hblanks)
    · rw [listText_cons_append _ _ _ _ hrest]
      exact hcut (ih hrest hothers hgap)

end

end ServiceInjection
