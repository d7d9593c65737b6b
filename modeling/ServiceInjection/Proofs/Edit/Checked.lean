import Mathlib.Data.List.Basic
import ServiceInjection.Proofs.Edit.Above
import ServiceInjection.Proofs.Text.Checked

/-!
# Edit.Checked

Applying edits with checks. An edit replaces the bytes between the offsets of two positions. An
offset is found by walking over the line ends in front of it and by the column in its line, which
is cut off at the end of the line. So every position has an offset, whether or not it lies in
the text, and any batch can be applied to any text (`Checked.apply_eq`).
-/

namespace ServiceInjection

open Text List

/-- What follows the first line of a text starts with a line end. -/
theorem Text.dropWhile_feed {text rest : List Char} {c : Char}
    (h : text.dropWhile (· != '\n') = c :: rest) :
    c = '\n' ∧ text.takeWhile (· != '\n') ++ '\n' :: rest = text := by
  have hhead := head?_dropWhile_not (· != '\n') text
  obtain rfl : c = '\n' := by simpa [h] using hhead
  exact ⟨rfl, by rw [← h, takeWhile_append_dropWhile]⟩

/-- The first line end of a text. -/
theorem Text.indexOfFirst_feed (text : List Char) :
    (indexOfFirst ['\n'] text).map (·.1) =
      match text.dropWhile (· != '\n') with
      | [] => none
      | _ :: _ => some (width8 (text.takeWhile (· != '\n'))) := by
  have hfree : ∀ c ∈ text.takeWhile (· != '\n'), c ∉ ['\n'] := by
    intro c hc
    simpa using all_eq_true.mp all_takeWhile c hc
  have hsplit := indexOfFirst_append hfree (text.dropWhile (· != '\n'))
  rw [takeWhile_append_dropWhile] at hsplit
  rw [hsplit]
  cases hdrop : text.dropWhile (· != '\n') with
  | nil => rfl
  | cons c rest => simp [(dropWhile_feed hdrop).1, indexOfFirst]

namespace Checked

/-- The byte offset of a column, on the line a number of lines behind the one that starts at an
offset. -/
def offsetFrom (text : List Char) (column : Nat) : Nat → Nat → Checked Nat
  | 0, offset => do
    let rest ← cut text offset (width8 text)
    let stop := match (indexOfFirst ['\n'] rest).map (·.1) with
      | some index => offset + index
      | none => width8 text
    let line ← cut text offset stop
    .ok (offset + byteOfColumn (Batch.dropReturns line) column)
  | lines + 1, offset => do
    let rest ← cut text offset (width8 text)
    match (indexOfFirst ['\n'] rest).map (·.1) with
    | some index => offsetFrom text column lines (offset + index + 1)
    | none => .ok (width8 text)

theorem offsetFrom_eq (column lines : Nat) (front back : List Char) :
    offsetFrom (front ++ back) column lines (width8 front) =
      .ok (width8 front + width8 (back.take (Batch.offsetOf column lines back))) := by
  induction lines generalizing front back with
  | zero =>
    have hback : back.takeWhile (· != '\n') ++ back.dropWhile (· != '\n') = back :=
      takeWhile_append_dropWhile
    have hcut := cut_append front (back.takeWhile (· != '\n')) (back.dropWhile (· != '\n'))
    rw [hback] at hcut
    have hprefix : upToColumn column (Batch.dropReturns (back.takeWhile (· != '\n'))) <+: back :=
      (upToColumn_isPrefix _ _).trans <| (Batch.dropReturns_isPrefix _).trans (List.takeWhile_prefix _)
    rw [Batch.offsetOf, ← prefix_iff_eq_take.mp hprefix, offsetFrom, cut_behind, ok_bind,
      indexOfFirst_feed]
    cases hdrop : back.dropWhile (· != '\n') with
    | nil =>
      rw [hdrop, append_nil] at hback
      rw [hback] at hcut ⊢
      simp only [hcut, ok_bind, byteOfColumn]
    | cons c rest =>
      rw [width8_append] at hcut
      simp only [hcut, ok_bind, byteOfColumn]
  | succ lines ih =>
    rw [offsetFrom, cut_behind, ok_bind, indexOfFirst_feed, Batch.offsetOf]
    cases hdrop : back.dropWhile (· != '\n') with
    | nil =>
      have hback : back.takeWhile (· != '\n') = back := by
        simpa [hdrop] using takeWhile_append_dropWhile (p := (· != '\n')) (l := back)
      simp only [hback, take_length, width8_append]
    | cons c rest =>
      have hback := (dropWhile_feed hdrop).2
      generalize back.takeWhile (· != '\n') = line at hback ⊢
      subst hback
      have hnext := ih (front ++ (line ++ ['\n'])) rest
      have hfeed : width8 ['\n'] = 1 := rfl
      simp only [append_assoc, singleton_append, width8_append, hfeed] at hnext
      simp only [← Nat.add_assoc] at hnext ⊢
      have htake : (line ++ '\n' :: rest).take (line.length + 1 + Batch.offsetOf column lines rest) =
          line ++ '\n' :: rest.take (Batch.offsetOf column lines rest) := by
        rw [Nat.add_assoc, take_length_add_append, Nat.add_comm 1, take_succ_cons]
      have hwidth : width8 ('\n' :: rest.take (Batch.offsetOf column lines rest)) =
          1 + width8 (rest.take (Batch.offsetOf column lines rest)) := rfl
      rw [hnext, htake, width8_append, hwidth]
      simp only [Nat.add_assoc]

/-- The byte offset of a position. -/
def offsetOf (text : List Char) (position : Position) : Checked Nat :=
  offsetFrom text position.column position.line 0

theorem offsetOf_eq (text : List Char) (position : Position) :
    offsetOf text position =
      .ok (width8 (text.take (Batch.offsetOf position.column position.line text))) := by
  simpa [width8, offsetOf] using offsetFrom_eq position.column position.line [] text

/-- Applies one edit. -/
def applyEdit (text : List Char) (edit : Edit) : Checked (List Char) := do
  let start ← offsetOf text edit.range.start
  let stop ← offsetOf text edit.range.stop
  replaceBytes text start (max start stop) edit.text.toList

theorem applyEdit_eq (text : List Char) (edit : Edit) :
    applyEdit text edit = .ok (Batch.applyEdit text edit) := by
  simp only [applyEdit, offsetOf_eq, ok_bind, Batch.applyEdit]
  generalize Batch.offsetOf edit.range.start.column edit.range.start.line text = i
  generalize Batch.offsetOf edit.range.stop.column edit.range.stop.line text = j
  -- The greater of two offsets is the offset of the greater index.
  have hmax : max (width8 (text.take i)) (width8 (text.take j)) = width8 (text.take (max i j)) := by
    rcases Nat.le_total i j with h | h
    · rw [Nat.max_eq_right h, Nat.max_eq_right (width8_mono (take_prefix_take_left h))]
    · rw [Nat.max_eq_left h, Nat.max_eq_left (width8_mono (take_prefix_take_left h))]
  rw [hmax, replaceBytes_take _ _ (Nat.le_max_left i j)]

/-- Applies the edits of a batch one after the other. -/
def apply (batch : Batch) (text : String) : Checked String := do
  let edited ← batch.edits.foldlM applyEdit text.toList
  .ok (String.ofList edited)

/-- **Applying a batch succeeds.** -/
theorem apply_eq (batch : Batch) (text : String) : apply batch text = .ok (batch.apply text) := by
  rw [apply, foldlM_ok fun text edit _ => applyEdit_eq text edit, ok_bind]
  rfl

end Checked

end ServiceInjection
