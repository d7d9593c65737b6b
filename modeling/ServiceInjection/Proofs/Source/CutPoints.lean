import ServiceInjection.Proofs.Source.Lists

/-!
# Source.CutPoints

Cutting a list by the commas of its mask. The commas outside of all brackets are looked up in the
mask alone (`commaOffsets`), and any text of the same bytes can be cut there (`piecesAt`); the text
and the mask of a list then fall into the texts and the masks of the same pieces
(`Line.View.piecesAt_commaOffsets`).
-/

namespace ServiceInjection

open Text List

variable {cells : Line} {depth : Int} {offset x : Nat}

/-- The byte offsets of the commas of depth zero, where the text starts at a depth and an offset. -/
def commaOffsets (depth : Int) (offset : Nat) : List Char → List Nat
  | [] => []
  | c :: cs =>
    if c = ',' ∧ depth = 0 then offset :: commaOffsets depth (offset + c.utf8Size) cs
    else commaOffsets (depth + depthChange c) (offset + c.utf8Size) cs

/-- The pieces of a text from an offset on, cut at other offsets and without the byte at each. -/
def piecesAt (text : List Char) (first : Nat) : List Nat → List (List Char)
  | [] => [pieceBetween text first (width8 text)]
  | cut :: cuts => pieceBetween text first cut :: piecesAt text (cut + 1) cuts

/-- The parts of a text between the commas of a mask, without the blanks around them. -/
def partsOf (text mask : List Char) : List (List Char) :=
  (piecesAt text 0 (commaOffsets 0 0 mask)).map trim

/-! ### The commas of a mask -/

theorem le_of_mem_commaOffsets {mask : List Char} (h : x ∈ commaOffsets depth offset mask) :
    offset ≤ x := by
  induction mask generalizing depth offset with
  | nil => cases h
  | cons c cs ih =>
    rw [commaOffsets] at h
    split at h
    · rcases mem_cons.mp h with rfl | h
      · exact Nat.le_refl _
      · exact Nat.le_trans (Nat.le_add_right _ _) (ih h)
    · exact Nat.le_trans (Nat.le_add_right _ _) (ih h)

theorem pairwise_commaOffsets (depth : Int) (offset : Nat) (mask : List Char) :
    (commaOffsets depth offset mask).Pairwise (· < ·) := by
  induction mask generalizing depth offset with
  | nil => exact .nil
  | cons c cs ih =>
    rw [commaOffsets]
    split
    · refine pairwise_cons.mpr ⟨fun x hx => ?_, ih _ _⟩
      exact Nat.lt_of_lt_of_le (Nat.lt_add_of_pos_right c.utf8Size_pos) (le_of_mem_commaOffsets hx)
    · exact ih _ _

/-- The number of brackets that a text opens and does not close. -/
def openBrackets (text : List Char) : Int :=
  text.countP (['(', '[', '{'].contains ·) - text.countP ([')', ']', '}'].contains ·)

theorem openBrackets_cons (c : Char) (cs : List Char) :
    openBrackets (c :: cs) = depthChange c + openBrackets cs := by
  have hchange : depthChange c = (if ['(', '[', '{'].contains c then 1 else 0 : Nat) -
      (if [')', ']', '}'].contains c then 1 else 0 : Nat) := by
    rw [depthChange]
    grind
  rw [openBrackets, openBrackets, countP_cons, countP_cons, hchange]
  omega

/-- The commas are those in front of which as many brackets are closed as opened. -/
theorem mem_commaOffsets {mask : List Char} : x ∈ commaOffsets depth offset mask ↔
    ∃ before after, mask = before ++ ',' :: after ∧ x = offset + width8 before ∧
      depth + openBrackets before = 0 := by
  induction mask generalizing depth offset with
  | nil => simp [commaOffsets]
  | cons c cs ih =>
    -- The comma is the first character, or stands in the rest.
    have hsplit : (∃ before after, c :: cs = before ++ ',' :: after ∧ x = offset + width8 before ∧
          depth + openBrackets before = 0) ↔ c = ',' ∧ x = offset ∧ depth = 0 ∨
        x ∈ commaOffsets (depth + depthChange c) (offset + c.utf8Size) cs := by
      rw [ih]
      constructor
      · rintro ⟨_ | ⟨d, before⟩, after, hmask, hx, hdepth⟩
        · exact .inl ⟨(cons.inj hmask).1, hx, by simpa [openBrackets] using hdepth⟩
        · cases hmask
          rw [openBrackets_cons] at hdepth
          exact .inr ⟨before, after, rfl, by rw [hx, width8]; omega, by omega⟩
      · rintro (⟨rfl, rfl, rfl⟩ | ⟨before, after, rfl, hx, hdepth⟩)
        · exact ⟨[], cs, rfl, rfl, rfl⟩
        · exact ⟨c :: before, after, rfl, by rw [hx, width8]; omega, by
            rw [openBrackets_cons]; omega⟩
    rw [hsplit, commaOffsets]
    split
    case isTrue h =>
      obtain ⟨rfl, rfl⟩ := h
      simp [show depthChange ',' = 0 from rfl]
    case isFalse h => exact ⟨.inr, fun hx => hx.resolve_left fun hfirst => h ⟨hfirst.1, hfirst.2.2⟩⟩

/-! ### Pieces of a list -/

theorem commaOffsets_spaces (n : Nat) (tail : List Char) :
    commaOffsets depth offset (replicate n ' ' ++ tail) = commaOffsets depth (offset + n) tail := by
  induction n generalizing offset with
  | zero => rfl
  | succ n ih =>
    rw [replicate_succ, cons_append, commaOffsets, if_neg (fun h => absurd h.1 (by decide)),
      show depthChange ' ' = 0 from rfl, Int.add_zero, ih, show ' '.utf8Size = 1 from rfl,
      Nat.add_assoc, Nat.add_comm 1]

/-- A cell that does not divide the list. -/
theorem commaOffsets_cell {cell : Cell} (h : ¬ (cell.code = ',' ∧ depth = 0)) (tail : List Char) :
    commaOffsets depth offset (cell.masked ++ tail) =
      commaOffsets (depth + depthChange cell.code) (offset + cell.char.utf8Size) tail := by
  obtain ⟨c, _ | _⟩ := cell
  · exact (commaOffsets_spaces _ _).trans (by simp [Cell.code, show depthChange ' ' = 0 from rfl])
  · exact if_neg h

namespace Line.View

variable {view : Line → List Char} (h : View view)

include h

/-- **Cutting at the commas of the mask.** The piece that is read starts behind the cells of the
pieces in front of it. -/
theorem piecesAt_commaOffsets (depth : Int) (done piece cells : Line) :
    piecesAt (view (done ++ (piece ++ cells))) (Text.width8 done.raw)
      (commaOffsets depth (Text.width8 (raw (done ++ piece))) cells.masked) =
        ((splitCommasAt depth cells).modifyHead (piece ++ ·)).map view := by
  induction cells generalizing depth done piece with
  | nil =>
    have hlast := h.pieceBetween_append done piece []
    rw [append_nil] at hlast ⊢
    rw [masked, flatMap_nil, commaOffsets, piecesAt, h.width8, hlast, splitCommasAt, modifyHead_cons,
      append_nil]
    rfl
  | cons cell cells ih =>
    have hmasked : masked (cell :: cells) = cell.masked ++ masked cells := rfl
    have hnext : Text.width8 (raw (done ++ (piece ++ [cell]))) =
        Text.width8 (raw (done ++ piece)) + cell.char.utf8Size := by
      rw [← append_assoc, raw, map_append, width8_append]
      rfl
    by_cases hcut : cell.code = ',' ∧ depth = 0
    · -- The piece ends here, and the next one is read behind the comma.
      obtain ⟨hcode, rfl⟩ := hcut
      obtain rfl := Cell.eq_show_of_code hcode (by decide)
      have hlater := ih 0 (done ++ (piece ++ [.show ','])) []
      rw [append_nil, nil_append, hnext] at hlater
      simp only [append_assoc, singleton_append] at hlater
      rw [hmasked, show Cell.masked (.show ',') = [','] from rfl, singleton_append, commaOffsets,
        if_pos ⟨rfl, rfl⟩, piecesAt, h.pieceBetween_append,
        show splitCommasAt 0 (.show ',' :: cells) = [] :: splitCommasAt 0 cells from rfl,
        modifyHead_cons, map_cons, append_nil]
      refine congrArg (_ :: ·) (hlater.trans ?_)
      cases splitCommasAt 0 cells <;> rfl
    · have hlater := ih (depth + depthChange cell.code) done (piece ++ [cell])
      rw [hnext, append_assoc, singleton_append] at hlater
      rw [hmasked, commaOffsets_cell hcut, hlater, splitCommasAt_cons _ hcut]
      cases splitCommasAt (depth + depthChange cell.code) cells <;> simp

/-- The pieces of a list and the commas between them give back the list. -/
theorem intercalate_splitCommasAt (depth : Int) (cells : Line) :
    [','].intercalate ((splitCommasAt depth cells).map view) = view cells := by
  rcases splitCommasAt_cases depth cells with hwhole | ⟨piece, rest, heq, -, -, hsplit⟩
  · rw [hwhole, map_singleton, intercalate_singleton]
  · have hrest := intercalate_splitCommasAt 0 rest
    rw [hsplit, map_cons, intercalate_cons_of_ne_nil (by simp [splitCommasAt_ne_nil]), hrest,
      heq, h.append, h.cons_show, append_assoc, singleton_append]
termination_by cells.length
decreasing_by
  rw [heq, length_append, length_cons]
  omega

end Line.View

theorem length_piecesAt (text : List Char) (first : Nat) (cuts : List Nat) :
    (piecesAt text first cuts).length = cuts.length + 1 := by
  induction cuts generalizing first with
  | nil => rfl
  | cons cut cuts ih => rw [piecesAt, length_cons, ih, length_cons]

/-- **Lists are cut by their masks.** The cuts are the commas of the mask in front of which as many
brackets are closed as opened. Cut there, the text falls into the texts of the pieces, which the
commas join again, and the mask into as many masks, each that of the piece in its place; so the
entries are the parts of the text, each paired with its own mask. -/
theorem splitCommas_aligned (cells : Line) :
    let cuts := commaOffsets 0 0 cells.masked
    (cuts.Pairwise (· < ·) ∧ ∀ x, x ∈ cuts ↔ ∃ before after,
      cells.masked = before ++ ',' :: after ∧ x = width8 before ∧ openBrackets before = 0) ∧
    [','].intercalate (piecesAt cells.raw 0 cuts) = cells.raw ∧
    (∀ view ∈ [Line.raw, Line.masked], piecesAt (view cells) 0 cuts = (splitCommas cells).map view ∧
      (partsOf (view cells) cells.masked).length = cuts.length + 1) ∧
    (EntryList.ofCells cells).entries =
      (zipWith Entry.mk (partsOf cells.raw cells.masked) (partsOf cells.masked cells.masked)).filter
        (!·.masked.isEmpty) := by
  intro cuts
  have hpieces : ∀ {view}, Line.View view →
      piecesAt (view cells) 0 cuts = (splitCommas cells).map view := by
    intro view h
    have hcut := h.piecesAt_commaOffsets 0 [] [] cells
    rw [show modifyHead ([] ++ ·) (splitCommasAt 0 cells) = splitCommas cells by
      rw [splitCommas]; cases splitCommasAt 0 cells <;> rfl] at hcut
    exact hcut
  have hparts : ∀ text, (partsOf text cells.masked).length = cuts.length + 1 := by
    intro text
    rw [partsOf, length_map, length_piecesAt]
  refine ⟨⟨pairwise_commaOffsets _ _ _, fun x => ?_⟩, ?_, ?_, ?_⟩
  · simp only [cuts, mem_commaOffsets, Nat.zero_add, Int.zero_add]
  · rw [hpieces Line.view_raw]
    exact Line.view_raw.intercalate_splitCommasAt 0 cells
  · simp [hpieces Line.view_raw, hpieces Line.view_masked, hparts]
  · rw [partsOf, partsOf, hpieces Line.view_raw, hpieces Line.view_masked, map_map, map_map,
      zipWith_map, zipWith_self]
    rfl

end ServiceInjection
