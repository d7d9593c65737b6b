import Mathlib.Data.List.Forall2
import ServiceInjection.Proofs.Source.Lex
import ServiceInjection.Proofs.Text.Units

/-!
# Source.Aligned

A text and its mask, byte by byte. Both are views of the same cells in which each cell takes the
same bytes (`Line.View`), so the offset of a cell cuts both in front of it (`View.bytesBetween?`).
An offset in the mask may fall into a character of the text, but that of a code character does not,
and the one behind it falls into a character of both or of none: the pieces of a source between two
code characters are as long in the mask as in the text.
-/

namespace ServiceInjection

open Text List

variable {cells : Line} {cell : Cell} {c : Char} {i j : Nat}

/-! ### Masked text -/

theorem Cell.mem_masked : c ∈ cell.masked ↔ c = cell.code := by
  rw [Cell.masked, Cell.code]
  split
  · exact mem_singleton
  · rw [mem_replicate]
    exact and_iff_right (Nat.pos_iff_ne_zero.mp cell.char.utf8Size_pos)

theorem Cell.width8_masked (cell : Cell) : width8 cell.masked = cell.char.utf8Size := by
  have hspaces : ∀ n, width8 (replicate n ' ') = n := by
    intro n
    induction n with
    | zero => rfl
    | succ n ih =>
      rw [replicate_succ, width8, ih, show ' '.utf8Size = 1 from rfl, Nat.add_comm]
  rw [Cell.masked]
  split
  · rfl
  · exact hspaces _

namespace Line

theorem mem_masked : c ∈ cells.masked ↔ c ∈ cells.code := by
  simp only [masked, code, mem_flatMap, mem_map, Cell.mem_masked, eq_comm]

theorem masked_append (a b : Line) : masked (a ++ b) = a.masked ++ b.masked := flatMap_append

/-- Masked text has the bytes of the text itself. -/
theorem width8_masked (cells : Line) : width8 cells.masked = width8 cells.raw := by
  induction cells with
  | nil => rfl
  | cons cell cells ih =>
    have hmasked : masked (cell :: cells) = cell.masked ++ masked cells := rfl
    have hraw : raw (cell :: cells) = cell.char :: raw cells := rfl
    rw [hmasked, hraw, width8_append, cell.width8_masked, ih, width8]

/-- A character of masked text that is no space is a code character of the line. -/
theorem exists_of_masked {before after : List Char} (hc : c ≠ ' ')
    (h : cells.masked = before ++ c :: after) :
    ∃ front back, cells = front ++ .show c :: back ∧ masked front = before := by
  induction cells generalizing before with
  | nil => simp [masked] at h
  | cons cell cells ih =>
    obtain ⟨d, _ | _⟩ := cell
    · obtain ⟨more, rfl, hrest⟩ : ∃ more, before = Cell.masked ⟨d, false⟩ ++ more ∧
          masked cells = more ++ c :: after := by
        rcases append_eq_append_iff.mp h with hfirst | ⟨_ | ⟨e, more⟩, hcell, hmore⟩
        · exact hfirst
        · exact ⟨[], by rw [hcell, append_nil, append_nil], hmore.symm⟩
        · rw [← (cons.inj hmore).1] at hcell
          exact absurd (Cell.mem_masked.mp (show c ∈ Cell.masked ⟨d, false⟩ by simp [hcell])) hc
      obtain ⟨front, back, rfl, rfl⟩ := ih hrest
      exact ⟨⟨d, false⟩ :: front, back, rfl, rfl⟩
    · cases before with
      | nil => exact ⟨[], cells, congrArg (Cell.show · :: cells) (cons.inj h).1, rfl⟩
      | cons e before =>
        obtain ⟨front, back, rfl, rfl⟩ := ih (cons.inj h).2
        exact ⟨.show d :: front, back, rfl, congrArg (· :: _) (cons.inj h).1⟩

/-- A masked byte is the byte of the text or a space. -/
theorem forall₂_bytes (cells : Line) :
    Forall₂ (fun masked raw => masked = raw ∨ masked = 32)
      (cells.masked.flatMap String.utf8EncodeChar) (cells.raw.flatMap String.utf8EncodeChar) := by
  have hcell : ∀ cell : Cell, Forall₂ (fun masked raw => masked = raw ∨ masked = 32)
      (cell.masked.flatMap String.utf8EncodeChar) (String.utf8EncodeChar cell.char) := by
    intro cell
    rw [Cell.masked]
    split
    · simp [forall₂_same]
    · rw [flatMap_replicate, show String.utf8EncodeChar ' ' = [32] from rfl,
        flatten_replicate_singleton, ← String.length_utf8EncodeChar]
      induction String.utf8EncodeChar cell.char with
      | nil => exact .nil
      | cons byte more ih => exact .cons (.inr rfl) ih
  induction cells with
  | nil => exact .nil
  | cons cell cells ih =>
    rw [masked, flatMap_cons, flatMap_append, raw, map_cons, flatMap_cons]
    exact rel_append (hcell cell) ih

/-! ### Views -/

/-- A way to read cells as text in which each cell takes the bytes of its character. -/
structure View (view : Line → List Char) : Prop where
  append : ∀ a b, view (a ++ b) = view a ++ view b
  shown : ∀ c, view [.show c] = [c]
  width8 : ∀ cells, width8 (view cells) = width8 cells.raw

theorem view_raw : View raw := ⟨fun _ _ => map_append, fun _ => rfl, fun _ => rfl⟩

theorem view_masked : View masked := ⟨masked_append, fun _ => rfl, width8_masked⟩

/-- The number of bytes in front of a cell. -/
def byteAt (line : Line) (i : Nat) : Nat := width8 (raw (line.take i))

theorem byteAt_succ (h : cells[i]? = some cell) :
    cells.byteAt (i + 1) = cells.byteAt i + cell.char.utf8Size := by
  rw [byteAt, byteAt, take_add_one, h, raw, raw, map_append, width8_append]
  rfl

theorem byteAt_cons (cell : Cell) (cells : Line) (i : Nat) :
    byteAt (cell :: cells) (i + 1) = cell.char.utf8Size + cells.byteAt i := rfl

theorem byteAt_add_width8 (line : Line) (i : Nat) :
    line.byteAt i + width8 (raw (line.drop i)) = width8 line.raw := by
  rw [byteAt, ← width8_append, raw, raw, ← map_append, take_append_drop]
  rfl

theorem byteAt_length (line : Line) : line.byteAt line.length = width8 line.raw := by
  rw [byteAt, take_length]

theorem byteAt_le (line : Line) (i : Nat) : line.byteAt i ≤ width8 line.raw := by
  rw [← line.byteAt_add_width8 i]
  exact Nat.le_add_right _ _

theorem byteAt_add_drop (line : Line) (i j : Nat) :
    line.byteAt i + byteAt (line.drop i) j = line.byteAt (i + j) := by
  rw [byteAt, byteAt, byteAt, ← width8_append, raw, raw, ← map_append, take_add]
  rfl

theorem byteAt_mono (line : Line) (h : i ≤ j) : line.byteAt i ≤ line.byteAt j := by
  obtain ⟨k, rfl⟩ := Nat.exists_eq_add_of_le h
  rw [← byteAt_add_drop]
  exact Nat.le_add_right _ _

namespace View

variable {view : Line → List Char} (h : View view)

include h

/-- Bytes between two pieces of a line. -/
theorem bytesBetween?_append (front piece back : Line) :
    bytesBetween? (view (front ++ (piece ++ back))) (Text.width8 front.raw)
      (Text.width8 (raw (front ++ piece))) = some (view piece) := by
  have hcut := Text.bytesBetween?_append (view front) (view piece) (view back)
  rwa [← h.append, ← h.append, ← h.append, h.width8, h.width8] at hcut

theorem pieceBetween_append (front piece back : Line) :
    Text.pieceBetween (view (front ++ (piece ++ back))) (Text.width8 front.raw)
      (Text.width8 (raw (front ++ piece))) = view piece := by
  rw [pieceBetween, h.bytesBetween?_append, Option.getD_some]

/-- **Offsets of cells cut both views.** -/
theorem bytesBetween? (line : Line) (hle : i ≤ j) :
    bytesBetween? (view line) (line.byteAt i) (line.byteAt j) =
      some (view ((line.take j).drop i)) := by
  have hfront : line.take i ++ (line.take j).drop i = line.take j := by
    have hsplit := take_append_drop i (line.take j)
    rwa [take_take, Nat.min_eq_left hle] at hsplit
  have hcut := h.bytesBetween?_append (line.take i) ((line.take j).drop i) (line.drop j)
  rwa [← append_assoc, hfront, take_append_drop] at hcut

theorem pieceBetween (line : Line) (hle : i ≤ j) :
    pieceBetween (view line) (line.byteAt i) (line.byteAt j) = view ((line.take j).drop i) := by
  rw [Text.pieceBetween, h.bytesBetween? line hle, Option.getD_some]

theorem nil : view [] = [] := by
  simpa using h.append [] []

theorem cons_show (c : Char) (cells : Line) : view (.show c :: cells) = c :: view cells := by
  rw [← singleton_append, h.append, h.shown, singleton_append]

theorem flatMap_lineEnd (lines : List Line) :
    view (lines.flatMap (· ++ [Source.lineEnd])) = lines.flatMap (view · ++ ['\n']) := by
  induction lines with
  | nil => exact h.nil
  | cons line lines ih =>
    rw [flatMap_cons, h.append, h.append, ih, Source.lineEnd, h.shown, flatMap_cons]

end View

/-! ### Offsets that both texts agree on -/

/-- An offset that is a boundary of the mask exactly if it is one of the text. -/
def Agrees (cells : Line) (offset : Nat) : Prop :=
  IsBoundary cells.masked offset ↔ IsBoundary cells.raw offset

theorem agrees_zero (cells : Line) : cells.Agrees 0 :=
  iff_of_true (isBoundary_iff.mpr ⟨[], _, rfl, rfl⟩) (isBoundary_iff.mpr ⟨[], _, rfl, rfl⟩)

theorem agrees_end (cells : Line) : cells.Agrees (width8 cells.raw) :=
  iff_of_true (isBoundary_iff.mpr ⟨_, [], (append_nil _).symm, (width8_masked cells).symm⟩)
    (isBoundary_iff.mpr ⟨_, [], (append_nil _).symm, rfl⟩)

/-- The cells in front of a boundary of the text are as wide in the mask, which ends there too. -/
theorem agrees_of_isBoundary {offset : Nat} (h : IsBoundary cells.raw offset) :
    cells.Agrees offset := by
  refine iff_of_true ?_ h
  obtain ⟨before, after, hraw, rfl⟩ := isBoundary_iff.mp h
  obtain ⟨front, back, rfl, rfl, rfl⟩ := map_eq_append_iff.mp hraw
  exact isBoundary_iff.mpr ⟨masked front, masked back, view_masked.append front back,
    (width8_masked front).symm⟩

theorem Agrees.min {a b : Nat} (ha : cells.Agrees a) (hb : cells.Agrees b) :
    cells.Agrees (min a b) := by
  rcases Nat.le_total a b with h | h
  · rwa [Nat.min_eq_left h]
  · rwa [Nat.min_eq_right h]

/-- Offsets that mask and text agree on cut pieces of the same width. -/
theorem Agrees.width8_pieceBetween {a b : Nat} (ha : cells.Agrees a) (hb : cells.Agrees b) :
    width8 (pieceBetween cells.masked a b) = width8 (pieceBetween cells.raw a b) := by
  have hmap : (bytesBetween? cells.masked a b).map width8 =
      (bytesBetween? cells.raw a b).map width8 := by
    ext n
    rw [map_width8_bytesBetween?, map_width8_bytesBetween?, Iff.and ha (Iff.and hb Iff.rfl)]
  have hwidth : ∀ piece : Option (List Char), width8 (piece.getD []) = (piece.map width8).getD 0 := by
    rintro (_ | _) <;> rfl
  rw [pieceBetween, pieceBetween, hwidth, hwidth, hmap]

/-- Whether the mask holds something else than a space at a byte. -/
def Marks (cells : Line) (offset : Nat) : Prop :=
  ∃ byte, (cells.masked.flatMap String.utf8EncodeChar)[offset]? = some byte ∧ byte ≠ 32

/-- The byte is one of a code character, in which mask and text have no boundary but its ends. -/
theorem Marks.agrees {offset : Nat} (h : cells.Marks offset) :
    cells.Agrees offset ∧ cells.Agrees (offset + 1) := by
  obtain ⟨byte, hbyte, hne⟩ := h
  obtain ⟨before, c, after, hmasked, hmem, hle, hlt⟩ := exists_of_byte hbyte
  have hspace : c ≠ ' ' := by
    rintro rfl
    exact hne (mem_singleton.mp hmem)
  obtain ⟨front, back, rfl, rfl⟩ := exists_of_masked hspace hmasked
  have hraw : raw (front ++ .show c :: back) = raw front ++ c :: raw back := map_append
  rw [width8_masked] at hle hlt
  have hagrees : ∀ x, width8 (raw front) ≤ x → x ≤ width8 (raw front) + c.utf8Size →
      Agrees (front ++ .show c :: back) x := by
    intro x hfirst hlast
    rw [Agrees, hmasked, hraw, isBoundary_within hfirst hlast,
      isBoundary_within (by rwa [width8_masked]) (by rwa [width8_masked]), width8_masked]
  exact ⟨hagrees _ hle (Nat.le_of_lt hlt), hagrees _ (by omega) hlt⟩

end Line

/-! ### Pieces of a source -/

namespace Source

variable {view : Line → List Char} {source : Source} {opening closing : Spot}

/-- The bytes of a view strictly between two positions, each a line and an offset in it; empty on a
line where they fall into a character. -/
def textBetween (view : Line → List Char) (source : Source) (start stop : Nat × Nat) : List Char :=
  let line n := view (source.line n)
  let width n := width8 (line n)
  if start.1 = stop.1 then
    pieceBetween (line start.1) (min (start.2 + 1) stop.2) (min stop.2 (width stop.1))
  else
    pieceBetween (line start.1) (min (start.2 + 1) (width start.1)) (width start.1) ++ '\n' ::
      (span (start.1 + 1) (stop.1 - 1)).flatMap (line · ++ ['\n']) ++
      pieceBetween (line stop.1) 0 (min stop.2 (width stop.1))

/-- The number of bytes in front of a place on its line. -/
def byteAt (source : Source) (spot : Spot) : Nat := (source.line spot.line).byteAt spot.col

theorem Holds.col_lt (h : source.Holds opening c) :
    opening.col < (source.line opening.line).length := by
  have hlt := (List.getElem?_eq_some_iff.mp h).1
  rwa [code, Line.code, length_map] at hlt

/-- A code character of one byte. -/
theorem Holds.byteAt_next (h : source.Holds opening c) (hspace : c ≠ ' ') (hsize : c.utf8Size = 1) :
    source.byteAt opening.next = source.byteAt opening + 1 :=
  (Line.byteAt_succ (h.cell hspace)).trans (congrArg _ hsize)

/-- Between a code character of one byte and a place stand the cells between them. -/
theorem Holds.textBetween (h : source.Holds opening c) (hspace : c ≠ ' ') (hsize : c.utf8Size = 1)
    (hview : Line.View view) (closing : Spot) :
    source.textBetween view (opening.line, source.byteAt opening)
      (closing.line, source.byteAt closing) = view (source.between opening closing) := by
  have hfirst := h.byteAt_next hspace hsize
  obtain ⟨n, i⟩ := opening
  obtain ⟨m, j⟩ := closing
  simp only [byteAt, Spot.next] at hfirst
  simp only [Source.textBetween, between, slice, Spot.next, byteAt, beq_iff_eq, hview.width8,
    ← hfirst, Nat.min_eq_left (Line.byteAt_le _ _)]
  split
  case isTrue hline =>
    subst hline
    rcases Nat.le_total (i + 1) j with hle | hle
    · rw [Nat.min_eq_left (Line.byteAt_mono _ hle), hview.pieceBetween _ hle]
    · rw [Nat.min_eq_right (Line.byteAt_mono _ hle), hview.pieceBetween _ (Nat.le_refl j)]
      congr 1
      rw [drop_eq_nil_of_le (length_take_le _ _), drop_eq_nil_of_le]
      exact Nat.le_trans (length_take_le _ _) hle
  case isFalse hline =>
    have htail := hview.pieceBetween (source.line n) (Nat.succ_le_of_lt h.col_lt)
    have hhead := hview.pieceBetween (source.line m) (Nat.zero_le j)
    rw [Line.byteAt_length, take_length] at htail
    rw [show (source.line m).byteAt 0 = 0 from rfl, drop_zero] at hhead
    rw [htail, hhead, append_assoc, cons_append, append_assoc, cons_append, hview.append, lineEnd,
      hview.cons_show, hview.append, ← lineEnd, hview.flatMap_lineEnd, flatMap_map]

/-- Offsets that mask and text agree on cut pieces of the same width, over several lines too. -/
theorem width8_textBetween {start stop : Nat × Nat}
    (hfrom : (source.line start.1).Agrees (start.2 + 1)) (hto : (source.line stop.1).Agrees stop.2) :
    width8 (source.textBetween Line.masked start stop) =
      width8 (source.textBetween Line.raw start stop) := by
  have hinner : ∀ lines : List Nat,
      width8 (lines.flatMap fun n => (source.line n).masked ++ ['\n']) =
        width8 (lines.flatMap fun n => (source.line n).raw ++ ['\n']) := by
    intro lines
    induction lines with
    | nil => rfl
    | cons n lines ih =>
      simp only [flatMap_cons, width8_append, Line.width8_masked, ih]
  simp only [Source.textBetween, Line.width8_masked]
  split
  case isTrue hline =>
    rw [← hline] at hto ⊢
    exact (hfrom.min hto).width8_pieceBetween (hto.min (Line.agrees_end _))
  case isFalse =>
    have hhead := (Line.agrees_zero (source.line stop.1)).width8_pieceBetween
      (hto.min (Line.agrees_end _))
    have htail := (hfrom.min (Line.agrees_end _)).width8_pieceBetween (Line.agrees_end _)
    simp only [width8_append, width8, hhead, htail, hinner]

end Source

/-- **Masks are aligned with the text.** A mask has the bytes of its line, some of them replaced by
spaces, and a character of it that is no space is the character of the line at the same offset. So
the pieces of a source between two positions are equally wide in its lines and in their masks, if
neither end falls between two bytes of a hidden character, where the mask has a boundary and the
line has none. No boundary of the line does, and neither side of a byte that the mask shows. Behind
a code character of one byte the pieces are the texts of the cells between the two places. -/
theorem maskLine_aligned :
    (∀ mode cs, Forall₂ (fun masked raw => masked = raw ∨ masked = 32)
        ((maskLine mode cs).1.masked.flatMap String.utf8EncodeChar)
        (cs.flatMap String.utf8EncodeChar) ∧
      ∀ before c after, (maskLine mode cs).1.masked = before ++ c :: after → c ≠ ' ' →
        ∃ front back, cs = front ++ c :: back ∧ width8 front = width8 before) ∧
    (∀ (cells : Line) offset, IsBoundary cells.raw offset → cells.Agrees offset) ∧
    (∀ (cells : Line) offset, cells.Marks offset → cells.Agrees offset ∧ cells.Agrees (offset + 1)) ∧
    ∀ source : Source,
      (∀ start stop, (source.line start.1).Agrees (start.2 + 1) → (source.line stop.1).Agrees stop.2 →
        width8 (source.textBetween Line.masked start stop) =
          width8 (source.textBetween Line.raw start stop)) ∧
      ∀ opening closing c, source.Holds opening c → c ≠ ' ' → c.utf8Size = 1 →
        ∀ view ∈ [Line.raw, Line.masked], source.textBetween view
          (opening.line, source.byteAt opening) (closing.line, source.byteAt closing) =
            view (source.between opening closing) := by
  refine ⟨fun mode cs => ⟨?_, fun before c after hmask hc => ?_⟩,
    fun _ _ => Line.agrees_of_isBoundary, fun _ _ => Line.Marks.agrees, fun source =>
    ⟨fun start stop => Source.width8_textBetween, fun opening closing c h hspace hsize => ?_⟩⟩
  · have hbytes := (maskLine mode cs).1.forall₂_bytes
    rwa [maskLine_raw] at hbytes
  · obtain ⟨front, back, hcells, rfl⟩ := Line.exists_of_masked hc hmask
    refine ⟨Line.raw front, Line.raw back, ?_, (Line.width8_masked front).symm⟩
    rw [← maskLine_raw mode cs, hcells]
    exact map_append
  · simp [h.textBetween hspace hsize Line.view_raw, h.textBetween hspace hsize Line.view_masked]

/-- A call with a comment in its brackets: both ends of its arguments are bytes that the mask
shows, and the hidden character between them keeps its two bytes. -/
theorem aligned_commentedArgument :
    width8 ((Source.ofText "f(/*é*/ x)").textBetween Line.masked (0, 1) (0, 10)) =
        width8 ((Source.ofText "f(/*é*/ x)").textBetween Line.raw (0, 1) (0, 10)) ∧
      (Source.ofText "f(/*é*/ x)").textBetween Line.raw
          (0, (Source.ofText "f(/*é*/ x)").byteAt ⟨0, 1⟩)
          (0, (Source.ofText "f(/*é*/ x)").byteAt ⟨0, 9⟩) = "/*é*/ x".toList := by
  obtain ⟨-, -, hmarks, hsource⟩ := maskLine_aligned
  obtain ⟨hwidth, hcells⟩ := hsource (Source.ofText "f(/*é*/ x)")
  refine ⟨hwidth (0, 1) (0, 10) (hmarks _ 1 ⟨40, by decide +kernel, by decide⟩).2
    (hmarks _ 10 ⟨41, by decide +kernel, by decide⟩).1, ?_⟩
  have hopening : (Source.ofText "f(/*é*/ x)").Holds ⟨0, 1⟩ '(' := by
    unfold Source.Holds
    decide +kernel
  have htext := hcells ⟨0, 1⟩ ⟨0, 9⟩ '(' hopening (by decide) (by decide) Line.raw (by simp)
  exact htext.trans (by decide +kernel)

/-- An end inside a hidden character: the mask has a boundary at the second byte of the letter, and
the line, which has none there, gives no text at all. -/
theorem unaligned_hiddenLetter :
    width8 ((Source.ofText "/*é*/ x").textBetween Line.masked (0, 2) (0, 7)) = 4 ∧
      width8 ((Source.ofText "/*é*/ x").textBetween Line.raw (0, 2) (0, 7)) = 0 := by
  decide +kernel

end ServiceInjection
