import Mathlib.Data.Option.Basic
import Mathlib.Order.Bounds.Basic
import Mathlib.Order.Nat
import ServiceInjection.Text.Units

/-!
# Text.Units

Columns and byte offsets of a line. Both are widths of its prefixes, so they convert into each
other at the boundaries of its characters; a column inside a character leads to the boundary behind
it, and one behind the line to its end (`byteOfColumn_le_iff`). Cutting a line at byte offsets is
checked: it gives nothing for offsets in the wrong order, behind the end of the line or inside a
character.
-/

namespace ServiceInjection.Text

open List

variable {line before after : List Char} {c : Char} {column bytes a b n x : Nat}

/-! ### Widths -/

theorem units16_pos (c : Char) : 0 < units16 c := by
  unfold units16
  split <;> omega

@[simp] theorem width16_append (front back : List Char) :
    width16 (front ++ back) = width16 front + width16 back := by
  induction front with
  | nil => simp [width16]
  | cons c cs ih => simp only [cons_append, width16, ih]; omega

@[simp] theorem width8_append (front back : List Char) :
    width8 (front ++ back) = width8 front + width8 back := by
  induction front with
  | nil => simp [width8]
  | cons c cs ih => simp only [cons_append, width8, ih]; omega

theorem utf8ByteSize_ofList (line : List Char) : (String.ofList line).utf8ByteSize = width8 line := by
  induction line with
  | nil => rfl
  | cons c cs ih =>
    rw [String.ofList_cons, String.utf8ByteSize_append, String.utf8ByteSize_singleton, ih, width8]

theorem width8_mono {front : List Char} (h : front <+: line) : width8 front ≤ width8 line := by
  obtain ⟨back, rfl⟩ := h
  rw [width8_append]
  exact Nat.le_add_right _ _

/-! ### Columns -/

/-- The width of a prefix is a column that leads back to the prefix, whatever
stands behind it. -/
theorem upToColumn_width16_append (front back : List Char) :
    upToColumn (width16 front) (front ++ back) = front := by
  induction front with
  | nil => cases back <;> simp [width16, upToColumn]
  | cons c cs ih =>
    have hc := units16_pos c
    have hne : units16 c + width16 cs ≠ 0 := by omega
    rw [cons_append, width16, upToColumn, if_neg hne, Nat.add_sub_cancel_left, ih]

theorem prefix_upToColumn {a b : Nat} (h : a ≤ b) (cs : List Char) :
    upToColumn a cs <+: upToColumn b cs := by
  induction cs generalizing a b with
  | nil => exact prefix_refl _
  | cons c cs ih =>
    rw [upToColumn, upToColumn]
    by_cases ha : a = 0
    · rw [if_pos ha]
      exact nil_prefix
    · rw [if_neg ha, if_neg (by omega)]
      exact (prefix_cons_inj c).mpr (ih (Nat.sub_le_sub_right h _))

theorem upToColumn_of_le {cs : List Char} {column : Nat} (h : width16 cs ≤ column) :
    upToColumn column cs = cs := by
  induction cs generalizing column with
  | nil => rfl
  | cons c cs ih =>
    have hpos := units16_pos c
    rw [width16] at h
    rw [upToColumn, if_neg (by omega), ih (by omega)]

theorem upToColumn_isPrefix (column : Nat) (cs : List Char) : upToColumn column cs <+: cs := by
  have hprefix := prefix_upToColumn (Nat.le_max_left column (width16 cs)) cs
  rwa [upToColumn_of_le (Nat.le_max_right column (width16 cs))] at hprefix

/-- The byte offset of the column behind a prefix is the number of its bytes. -/
theorem byteOfColumn_width16_append (front back : List Char) :
    byteOfColumn (front ++ back) (width16 front) = width8 front := by
  rw [byteOfColumn, upToColumn_width16_append]

/-- A column is reached within a prefix exactly if it is no greater than the width of the prefix.
Columns behind the line count as its last one. -/
theorem byteOfColumn_le_iff (column : Nat) (before after : List Char) :
    byteOfColumn (before ++ after) column ≤ width8 before ↔
      min column (width16 (before ++ after)) ≤ width16 before := by
  induction before generalizing column with
  | nil =>
    cases after with
    | nil => simp [byteOfColumn, upToColumn, width8, width16]
    | cons c cs =>
      have h8 := c.utf8Size_pos
      have h16 := units16_pos c
      rw [nil_append, byteOfColumn, upToColumn, width16, width8, width16]
      split
      · simp [*, width8]
      · rw [width8]
        omega
  | cons c before ih =>
    have h16 := units16_pos c
    have ih := ih (column - units16 c)
    rw [byteOfColumn] at ih
    rw [cons_append, byteOfColumn, upToColumn, width16, width8, width16]
    split
    · simp [*, width8]
    · rw [width8]
      omega

/-! ### Boundaries -/

/-- A byte offset between two characters of a line, or at one of its ends. -/
def IsBoundary (line : List Char) (bytes : Nat) : Prop :=
  String.Pos.Raw.IsValid (String.ofList line) ⟨bytes⟩

theorem isBoundary_iff :
    IsBoundary line bytes ↔ ∃ before after, line = before ++ after ∧ bytes = width8 before := by
  simp only [IsBoundary, String.Pos.Raw.isValid_ofList, utf8ByteSize_ofList]
  constructor
  · rintro ⟨i, hi⟩
    exact ⟨line.take i, line.drop i, (take_append_drop i line).symm, hi⟩
  · rintro ⟨before, after, rfl, rfl⟩
    exact ⟨before.length, by rw [take_left]⟩

/-- The characters of a byte of a text. -/
theorem exists_of_byte {byte : UInt8}
    (h : (line.flatMap String.utf8EncodeChar)[x]? = some byte) :
    ∃ before c after, line = before ++ c :: after ∧ byte ∈ String.utf8EncodeChar c ∧
      width8 before ≤ x ∧ x < width8 before + c.utf8Size := by
  induction line generalizing x with
  | nil => simp at h
  | cons c cs ih =>
    rw [flatMap_cons, getElem?_append, String.length_utf8EncodeChar] at h
    split at h
    · exact ⟨[], c, cs, rfl, mem_of_getElem? h, Nat.zero_le _, by rwa [width8, Nat.zero_add]⟩
    · obtain ⟨before, d, after, rfl, hmem, hle, hlt⟩ := ih h
      exact ⟨c :: before, d, after, rfl, hmem, by rw [width8]; omega, by rw [width8]; omega⟩

/-- A character has no boundary but its ends. -/
theorem isBoundary_within (hle : width8 before ≤ x) (hlt : x ≤ width8 before + c.utf8Size) :
    IsBoundary (before ++ c :: after) x ↔ x = width8 before ∨ x = width8 before + c.utf8Size := by
  rw [isBoundary_iff]
  constructor
  · rintro ⟨front, back, hsplit, rfl⟩
    rcases append_eq_append_iff.mp hsplit with ⟨_ | ⟨d, more⟩, rfl, hrest⟩ | ⟨more, rfl, -⟩
    · exact .inl (by rw [append_nil])
    · obtain rfl := (cons.inj hrest).1
      simp only [width8_append, width8] at hlt ⊢
      omega
    · rw [width8_append] at hle ⊢
      omega
  · rintro (rfl | rfl)
    · exact ⟨before, c :: after, rfl, rfl⟩
    · exact ⟨before ++ [c], after, by simp, by simp [width8_append, width8]⟩

/-! ### Cutting -/

/-- The bytes of a prefix lead back to the prefix, whatever stands behind it. -/
theorem upToByte?_width8_append (front back : List Char) :
    upToByte? (width8 front) (front ++ back) = some front := by
  induction front with
  | nil => cases back <;> simp [width8, upToByte?]
  | cons c cs ih =>
    have hc : 0 < c.utf8Size := c.utf8Size_pos
    have hne : c.utf8Size + width8 cs ≠ 0 := by omega
    rw [cons_append, width8, upToByte?, if_neg hne, if_pos (Nat.le_add_right _ _),
      Nat.add_sub_cancel_left, ih]
    rfl

theorem isBoundary_of_upToByte? (hle : x ≤ width8 line) (h : upToByte? x line = some before) :
    IsBoundary line x := by
  rw [isBoundary_iff]
  induction line generalizing x before with
  | nil => exact ⟨[], [], rfl, Nat.le_zero.mp hle⟩
  | cons c cs ih =>
    rw [upToByte?] at h
    split at h
    case isTrue hzero => exact ⟨[], c :: cs, rfl, hzero⟩
    split at h
    · obtain ⟨more, hmore, -⟩ := Option.map_eq_some_iff.mp h
      rw [width8] at hle
      obtain ⟨front, back, rfl, hx⟩ := ih (by omega) hmore
      exact ⟨c :: front, back, rfl, by rw [width8]; omega⟩
    · cases h

theorem columnOfByte?_width8_append (front back : List Char) :
    columnOfByte? (front ++ back) (width8 front) = some (width16 front) := by
  rw [columnOfByte?, upToByte?_width8_append]
  rfl

/-- **Columns and bytes.** The column of a boundary leads back to it. Any other column leads to the
first boundary whose column is not smaller, or to the end of the line if it lies behind the line; so
a column leads no further than a boundary exactly if, clamped to the line, it is no greater than the
column of the boundary, and a greater column never leads to a smaller offset. -/
theorem byteOfColumn_clampedGalois (line : List Char) :
    (∀ bytes, IsBoundary line bytes → ∃ column, columnOfByte? line bytes = some column ∧
      byteOfColumn line column = bytes ∧ ∀ other,
        byteOfColumn line other ≤ bytes ↔ min other (width16 line) ≤ column) ∧
    (∀ column ≤ width16 line, IsLeast {bytes | IsBoundary line bytes ∧
      ∃ reached, columnOfByte? line bytes = some reached ∧ column ≤ reached}
        (byteOfColumn line column)) ∧
    (∀ column, width16 line < column → byteOfColumn line column = width8 line) ∧
    Monotone (byteOfColumn line) := by
  refine ⟨fun bytes hbytes => ?_, fun column hcolumn => ⟨?_, ?_⟩, fun column hlt => ?_,
    fun a b hle => width8_mono (prefix_upToColumn hle line)⟩
  · obtain ⟨before, after, rfl, rfl⟩ := isBoundary_iff.mp hbytes
    exact ⟨_, columnOfByte?_width8_append _ _, byteOfColumn_width16_append _ _,
      fun other => byteOfColumn_le_iff other before after⟩
  · obtain ⟨after, hline⟩ := upToColumn_isPrefix column line
    have hreached := byteOfColumn_le_iff column (upToColumn column line) after
    rw [hline, byteOfColumn, Nat.min_eq_left hcolumn] at hreached
    refine ⟨isBoundary_iff.mpr ⟨_, after, hline.symm, rfl⟩, _, ?_, hreached.mp (Nat.le_refl _)⟩
    have hback := columnOfByte?_width8_append (upToColumn column line) after
    rwa [hline] at hback
  · rintro bytes ⟨hbytes, reached, hread, hle⟩
    obtain ⟨before, after, rfl, rfl⟩ := isBoundary_iff.mp hbytes
    rw [columnOfByte?_width8_append] at hread
    cases hread
    exact (byteOfColumn_le_iff column before after).mpr (Nat.le_trans (Nat.min_le_left _ _) hle)
  · rw [byteOfColumn, upToColumn_of_le (Nat.le_of_lt hlt)]

-- A column inside a surrogate pair leads behind it.
example : byteOfColumn "é😀x".toList 2 = 6 ∧ columnOfByte? "é😀x".toList 6 = some 3 := by decide

/-- The piece of a line between two byte offsets; nothing when they come in the wrong
order, or when one of them lies behind the end of the line or inside a character. -/
def bytesBetween? (line : List Char) (first last : Nat) : Option (List Char) := do
  guard (first ≤ last ∧ last ≤ width8 line)
  let before ← upToByte? first line
  let through ← upToByte? last line
  some (through.drop before.length)

/-- The bytes between two prefixes are those of the piece between them. -/
theorem bytesBetween?_append (front piece back : List Char) :
    bytesBetween? (front ++ (piece ++ back)) (width8 front) (width8 (front ++ piece)) =
      some piece := by
  have hthrough := upToByte?_width8_append (front ++ piece) back
  rw [append_assoc] at hthrough
  have hinside : width8 front ≤ width8 (front ++ piece) ∧
      width8 (front ++ piece) ≤ width8 (front ++ (piece ++ back)) := by
    simp only [width8_append]
    omega
  rw [bytesBetween?, show guard _ = some () from if_pos hinside, upToByte?_width8_append, hthrough]
  simp

/-- Two boundaries in order have a piece between them. -/
theorem bytesBetween?_of_isBoundary (ha : IsBoundary line a) (hb : IsBoundary line b) (h : a ≤ b) :
    ∃ piece, bytesBetween? line a b = some piece ∧ b = a + width8 piece := by
  obtain ⟨front, back, rfl, rfl⟩ := isBoundary_iff.mp ha
  obtain ⟨other, rest, hsplit, rfl⟩ := isBoundary_iff.mp hb
  rcases append_eq_append_iff.mp hsplit with ⟨piece, rfl, rfl⟩ | ⟨piece, rfl, rfl⟩
  · exact ⟨piece, bytesBetween?_append front piece rest, width8_append _ _⟩
  · have hsame : width8 other = width8 (other ++ piece) := by
      rw [width8_append] at h ⊢
      omega
    have hcut := bytesBetween?_append (other ++ piece) [] back
    rw [append_nil, nil_append] at hcut
    exact ⟨[], hsame ▸ hcut, hsame⟩

theorem map_width8_bytesBetween? : (bytesBetween? line a b).map width8 = some n ↔
    IsBoundary line a ∧ IsBoundary line b ∧ b = a + n := by
  constructor
  · intro h
    obtain ⟨piece, hcut, rfl⟩ := Option.map_eq_some_iff.mp h
    have hread := hcut
    simp only [bytesBetween?, Option.bind_eq_bind, Option.bind_eq_some_iff,
      Option.guard_eq_some'] at hread
    obtain ⟨-, ⟨hle, hinside⟩, before, hbefore, through, hthrough, -⟩ := hread
    have ha := isBoundary_of_upToByte? (Nat.le_trans hle hinside) hbefore
    have hb := isBoundary_of_upToByte? hinside hthrough
    obtain ⟨other, hother, hwidth⟩ := bytesBetween?_of_isBoundary ha hb hle
    rw [hcut] at hother
    cases hother
    exact ⟨ha, hb, hwidth⟩
  · rintro ⟨ha, hb, rfl⟩
    obtain ⟨piece, hcut, hwidth⟩ := bytesBetween?_of_isBoundary ha hb (Nat.le_add_right a n)
    rw [hcut, Option.map_some, Nat.add_left_cancel hwidth]

/-- The piece of a line between two byte offsets, empty when there is none. -/
def pieceBetween (line : List Char) (first last : Nat) : List Char :=
  (bytesBetween? line first last).getD []

/-- Between the offsets of two characters in order stands what lies between them. -/
theorem bytesBetween?_take {i j : Nat} (h : i ≤ j) :
    bytesBetween? line (width8 (line.take i)) (width8 (line.take j)) =
      some ((line.take j).drop i) := by
  have hfront : line.take i ++ (line.take j).drop i = line.take j := by
    have hsplit := take_append_drop i (line.take j)
    rwa [take_take, Nat.min_eq_left h] at hsplit
  have hcut := bytesBetween?_append (line.take i) ((line.take j).drop i) (line.drop j)
  rwa [← append_assoc, hfront, take_append_drop] at hcut

/-- Cutting a line at the columns of two of its indices gives what stands between the
indices. -/
theorem bytesBetween?_columns {i j : Nat} (h : i ≤ j) :
    bytesBetween? line (byteOfColumn line (width16 (line.take i)))
      (byteOfColumn line (width16 (line.take j))) = some ((line.take j).drop i) := by
  have hcolumn : ∀ k, byteOfColumn line (width16 (line.take k)) = width8 (line.take k) := by
    intro k
    have hoffset := byteOfColumn_width16_append (line.take k) (line.drop k)
    rwa [take_append_drop] at hoffset
  rw [hcolumn, hcolumn, bytesBetween?_take h]

end ServiceInjection.Text
