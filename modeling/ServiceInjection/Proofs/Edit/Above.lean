import ServiceInjection.Proofs.Edit.Application
import ServiceInjection.Proofs.Text.Lines

/-!
# Edit.Above

What edits do to the text above a line. Edits from that line on leave it alone, whether or
not they overlap each other, and one insertion above the line is made last: the text above
the line is then the old one with the new text in it (`apply_assemble_above`).
-/

namespace ServiceInjection

open Position Text List

variable {front : List Char} {edits : List Edit}

/-- The text in front of a position. -/
def textBefore (text : List Char) (position : Position) : List Char :=
  text.take (Batch.offsetOf position.column position.line text)

theorem count_unlines {ls : List (List Char)} (h : ∀ line ∈ ls, '\n' ∉ line) :
    (unlines ls).count '\n' = ls.length := by
  induction ls with
  | nil => rfl
  | cons line ls ih =>
    obtain ⟨hline, hls⟩ := forall_mem_cons.mp h
    rw [unlines_cons, count_append, count_eq_zero.mpr hline, count_cons_self, ih hls,
      length_cons, Nat.zero_add]

theorem wholeLines_unlines (ls : List (List Char)) : WholeLines (unlines ls) := by
  rcases eq_nil_or_concat ls with rfl | ⟨front, last, rfl⟩
  · exact .inl rfl
  · exact .inr ⟨unlines front ++ last, by simp [concat_eq_append]⟩

/-- An edit that starts in front of another one comes before it and has another effect. -/
theorem Edit.apart_of_lt {a b : Edit} (h : a.range.start < b.range.start) :
    a.range.start ≤ b.range.start ∧ a.sameEffect b = false := by
  refine ⟨le_of_lt h, ?_⟩
  rw [Edit.sameEffect, Bool.and_eq_false_iff, beq_eq_false_iff_ne]
  exact .inl fun heq => ne_of_lt h (congrArg Range.start heq)

namespace Batch

/-! ### Offsets -/

theorem span_feed {line : List Char} (h : '\n' ∉ line) (rest : List Char) :
    (line ++ '\n' :: rest).takeWhile (· != '\n') = line ∧
      (line ++ '\n' :: rest).dropWhile (· != '\n') = '\n' :: rest := by
  have hall : ∀ c ∈ line, (c != '\n') = true := by
    intro c hc
    rw [bne_iff_ne]
    rintro rfl
    exact h hc
  rw [takeWhile_append_of_pos hall, dropWhile_append_of_pos hall]
  simp

theorem upToColumn_zero (cs : List Char) : upToColumn 0 cs = [] := by
  cases cs <;> rfl

theorem dropReturns_isPrefix (line : List Char) : dropReturns line <+: line := by
  have hsuffix := reverse_prefix.mpr (dropWhile_suffix (· == '\r') (l := line.reverse))
  rwa [reverse_reverse] at hsuffix

theorem length_dropReturns_le (line : List Char) : (dropReturns line).length ≤ line.length :=
  (dropReturns_isPrefix line).length_le

/-- A position on the first line is not behind its end. -/
theorem offsetOf_zero_le (column : Nat) (text : List Char) :
    offsetOf column 0 text ≤ (text.takeWhile (· != '\n')).length :=
  Nat.le_trans (upToColumn_isPrefix _ _).length_le (length_dropReturns_le _)

theorem offsetOf_mono {p q : Position} (h : p ≤ q) (text : List Char) :
    offsetOf p.column p.line text ≤ offsetOf q.column q.line text := by
  obtain ⟨pline, pcolumn⟩ := p
  obtain ⟨qline, qcolumn⟩ := q
  rw [le_def] at h
  dsimp only at h ⊢
  induction pline generalizing qline text with
  | zero =>
    cases qline with
    | zero => exact (prefix_upToColumn (by omega) _).length_le
    | succ qline =>
      refine Nat.le_trans (offsetOf_zero_le pcolumn text) ?_
      rw [offsetOf]
      split
      · exact Nat.le_refl _
      · omega
  | succ pline ih =>
    cases qline with
    | zero => omega
    | succ qline =>
      rw [offsetOf, offsetOf]
      split
      · exact Nat.le_refl _
      · rename_i rest _
        have := ih rest qline (by omega)
        omega

/-- Positions behind whole lines count from their end. -/
theorem offsetOf_behind_wholeLines (h : WholeLines front) (column : Nat) (back : List Char) :
    offsetOf column (front.count '\n') (front ++ back) = front.length + offsetOf column 0 back := by
  generalize hbase : offsetOf column 0 back = base
  induction hn : front.count '\n' generalizing front with
  | zero =>
    rcases h with rfl | ⟨lines, rfl⟩
    · simpa using hbase
    · simp at hn
  | succ n ih =>
    obtain rfl | ⟨line, rest, rfl, hline, hrest⟩ := h.cases
    · cases hn
    · have hcount : rest.count '\n' = n := by
        rw [count_append, count_eq_zero.mpr hline, count_cons_self] at hn
        omega
      rw [append_assoc, cons_append, offsetOf, (span_feed hline _).1,
        (span_feed hline _).2]
      dsimp only
      rw [ih hrest hcount, length_append, length_cons]
      omega

/-- Where the line behind whole lines starts. -/
theorem offsetOf_wholeLines (h : WholeLines front) (back : List Char) :
    offsetOf 0 (front.count '\n') (front ++ back) = front.length := by
  rw [offsetOf_behind_wholeLines h, offsetOf, upToColumn_zero]
  rfl

theorem prefix_dropReturns (line : List Char) : dropReturns line <+: dropReturn line := by
  by_cases hreturn : line.getLast? = some '\r'
  · obtain ⟨front, rfl⟩ := getLast?_eq_some_iff.mp hreturn
    have hdrop : dropReturns (front ++ ['\r']) = dropReturns front := by
      simp [dropReturns]
    rw [dropReturn, if_pos hreturn, dropLast_concat, hdrop]
    exact dropReturns_isPrefix front
  · rw [dropReturn, if_neg hreturn]
    exact dropReturns_isPrefix line

/-- Where a line of whole lines ends. Its carriage returns do not belong to it. -/
theorem exists_lineEnd {text : List Char} (h : WholeLines text) {n : Nat}
    (hn : n < text.count '\n') :
    ∃ front returns back line, text = front ++ (returns ++ '\n' :: back) ∧
      (∀ c ∈ returns, c = '\r') ∧ (lines text)[n]? = some line ∧
      ∀ rest, offsetOf (width16 line) n (text ++ rest) = front.length := by
  obtain ⟨front, back, rfl, hfront, rfl⟩ := exists_wholeLines (Nat.le_of_lt hn)
  obtain rfl | ⟨line, rest, rfl, hline, -⟩ := h.of_append.cases
  · simp at hn
  · obtain ⟨hlines, hlength⟩ := lines_wholeLines_append hfront (line ++ '\n' :: rest)
    have hsplit : dropReturns line ++ (line.reverse.takeWhile (· == '\r')).reverse = line := by
      rw [dropReturns, ← reverse_append, takeWhile_append_dropWhile, reverse_reverse]
    refine ⟨front ++ dropReturns line, (line.reverse.takeWhile (· == '\r')).reverse, rest,
      dropReturn line, ?_, ?_, ?_, fun more => ?_⟩
    · rw [append_assoc, ← append_assoc (dropReturns line), hsplit]
    · intro c hc
      simpa using all_eq_true.mp all_takeWhile c (mem_reverse.mp hc)
    · rw [hlines, lines_feed hline, ← hlength, getElem?_append_right (Nat.le_refl _),
        Nat.sub_self]
      rfl
    · have hcolumn : upToColumn (width16 (dropReturn line)) (dropReturns line) = dropReturns line := by
        obtain ⟨returns, hreturns⟩ := prefix_dropReturns line
        refine upToColumn_of_le ?_
        rw [← hreturns, width16_append]
        omega
      rw [append_assoc, append_assoc, offsetOf_behind_wholeLines hfront, cons_append,
        offsetOf, (span_feed hline _).1, hcolumn, length_append]

theorem textBefore_wholeLines (h : WholeLines front) (back : List Char) :
    textBefore (front ++ back) ⟨front.count '\n', 0⟩ = front := by
  rw [textBefore, offsetOf_wholeLines h, take_left]

/-- A position in whole lines does not depend on what follows them. -/
theorem offsetOf_append (h : WholeLines front) {position : Position}
    (hle : position ≤ ⟨front.count '\n', 0⟩) (back back' : List Char) :
    offsetOf position.column position.line (front ++ back) =
      offsetOf position.column position.line (front ++ back') := by
  obtain ⟨line, column⟩ := position
  rw [le_def] at hle
  dsimp only at hle ⊢
  induction line generalizing front with
  | zero =>
    obtain rfl | ⟨first, rest, rfl, hfirst, -⟩ := h.cases
    · obtain rfl : column = 0 := by simpa using hle
      rw [offsetOf, offsetOf, upToColumn_zero, upToColumn_zero]
    · rw [offsetOf, offsetOf, append_assoc, append_assoc, cons_append,
        cons_append, (span_feed hfirst _).1, (span_feed hfirst _).1]
  | succ line ih =>
    obtain rfl | ⟨first, rest, rfl, hfirst, hrest⟩ := h.cases
    · simp at hle
    · rw [count_append, count_eq_zero.mpr hfirst, count_cons_self] at hle
      rw [offsetOf, offsetOf, append_assoc, append_assoc, cons_append,
        cons_append, (span_feed hfirst _).1, (span_feed hfirst _).1, (span_feed hfirst _).2,
        (span_feed hfirst _).2]
      dsimp only
      rw [ih hrest (by omega)]

/-! ### Text that edits leave -/

/-- An edit from a line on leaves the text above it. -/
theorem exists_applyEdit (h : WholeLines front) {edit : Edit}
    (hedit : front.count '\n' ≤ edit.range.start.line) (back : List Char) :
    ∃ back', applyEdit (front ++ back) edit = front ++ back' := by
  have hle : (⟨front.count '\n', 0⟩ : Position) ≤ edit.range.start := by
    rw [le_def]
    dsimp only
    omega
  have hoffset := offsetOf_mono hle (front ++ back)
  rw [offsetOf_wholeLines h] at hoffset
  rw [applyEdit, take_append, take_of_length_le hoffset, append_assoc,
    append_assoc]
  exact ⟨_, rfl⟩

theorem exists_foldr_applyEdit (h : WholeLines front)
    (hedits : ∀ edit ∈ edits, front.count '\n' ≤ edit.range.start.line) (back : List Char) :
    ∃ back', edits.foldr (fun edit text => applyEdit text edit) (front ++ back) = front ++ back' := by
  induction edits with
  | nil => exact ⟨back, rfl⟩
  | cons edit edits ih =>
    obtain ⟨hedit, hrest⟩ := forall_mem_cons.mp hedits
    obtain ⟨back', hback⟩ := ih hrest
    rw [foldr_cons, hback]
    exact exists_applyEdit h hedit back'

/-- An edit that starts before all others comes first, and stays there. -/
theorem ascending_cons {first : Edit} (h : ∀ edit ∈ edits, first.range.start ≤ edit.range.start) :
    ascending (first :: edits) = first :: ascending edits := by
  obtain ⟨front, back, hsorted, hback, hfront⟩ :=
    mergeSort_cons start_le_trans start_le_total first edits
  have hnil : front = [] := by
    refine eq_nil_iff_forall_not_mem.mpr fun edit hedit => ?_
    have hmem : edit ∈ ascending edits := by
      rw [ascending, hback]
      exact mem_append_left back hedit
    have hbefore := hfront edit hedit
    rw [show first.range.start.le edit.range.start = true from
      h edit ((ascending_perm edits).mem_iff.mp hmem)] at hbefore
    cases hbefore
  subst hnil
  rw [ascending, hsorted, ascending, hback]
  rfl

/-- Edits from a line on leave the text above it. -/
theorem apply_assemble_below {front rest : List Char} (h : WholeLines front) {edits : List Edit}
    (hedits : ∀ edit ∈ edits, front.count '\n' ≤ edit.range.start.line) :
    ∃ rest', ((assemble edits).apply (String.ofList (front ++ rest))).toList = front ++ rest' := by
  obtain ⟨rest', hrest⟩ := exists_foldr_applyEdit h (fun edit hedit => hedits edit
    ((eraseDupsBy_sublist_and_pairwise edits).1.subset ((ascending_perm _).mem_iff.mp hedit))) rest
  refine ⟨rest', ?_⟩
  rw [apply, assemble, dropRepeated_eq_eraseDupsBy, foldl_reverse, String.toList_ofList,
    String.toList_ofList, hrest]

/-- **The text above a line.** An insertion above it is made after all edits from the line
on, and they leave the text above the line. -/
theorem apply_assemble_above {back rest : List Char} (h : WholeLines (front ++ back)) {first : Edit}
    (hinsertion : first.isInsertion = true)
    (hle : first.range.start ≤ ⟨(front ++ back).count '\n', 0⟩)
    (hoffset : offsetOf first.range.start.column first.range.start.line (front ++ back ++ rest) =
      front.length)
    (hedits : ∀ edit ∈ edits, edit = first ∨ (front ++ back).count '\n' ≤ edit.range.start.line) :
    ∃ rest', ((assemble (first :: edits)).apply (String.ofList (front ++ back ++ rest))).toList =
      front ++ (first.text.toList ++ back) ++ rest' := by
  obtain ⟨others, hdrop, hothers⟩ : ∃ others, dropRepeated (first :: edits) = first :: others ∧
      ∀ edit ∈ others, (front ++ back).count '\n' ≤ edit.range.start.line := by
    rw [dropRepeated_eq_eraseDupsBy, eraseDupsBy_cons]
    refine ⟨_, rfl, fun edit hedit => ?_⟩
    obtain ⟨hmem, hne⟩ :=
      mem_filter.mp ((eraseDupsBy_sublist_and_pairwise _).1.subset hedit)
    refine (hedits edit hmem).resolve_left ?_
    rintro rfl
    simp [Edit.sameEffect] at hne
  have hfirst : ∀ edit ∈ others, first.range.start ≤ edit.range.start := by
    intro edit hedit
    have hline := hothers edit hedit
    refine le_trans hle ?_
    rw [le_def]
    dsimp only
    omega
  obtain ⟨rest', hrest⟩ := exists_foldr_applyEdit h
    (fun edit hedit => hothers edit ((ascending_perm others).mem_iff.mp hedit)) rest
  rw [offsetOf_append h hle rest rest'] at hoffset
  refine ⟨rest', ?_⟩
  rw [apply, assemble, hdrop, ascending_cons hfirst, foldl_reverse, foldr_cons,
    String.toList_ofList, String.toList_ofList, hrest, applyEdit,
    ← Edit.isInsertion_iff.mp hinsertion, hoffset, Nat.max_self]
  simp

/-- Edits in text order, no two with the same effect, are made from the last to the first. -/
theorem assemble_of_pairwise
    (h : edits.Pairwise fun a b => a.range.start ≤ b.range.start ∧ a.sameEffect b = false) :
    assemble edits = ⟨edits.reverse⟩ := by
  refine assemble_of_ascending ?_ (h.imp And.left)
  rw [dropRepeated_eq_eraseDupsBy]
  induction edits with
  | nil => rfl
  | cons edit edits ih =>
    obtain ⟨hedit, hedits⟩ := pairwise_cons.mp h
    have hkeep : edits.filter (fun other => decide (other.sameEffect edit = false)) = edits := by
      rw [filter_eq_self]
      intro other hother
      rw [Edit.sameEffect_comm, (hedit other hother).2]
      rfl
    rw [eraseDupsBy_cons, hkeep, ih hedits]

end Batch

end ServiceInjection
