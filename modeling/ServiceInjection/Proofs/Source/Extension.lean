import ServiceInjection.Proofs.Source.Lists

/-!
# Source.Extension

Lists that are extended. The entries of a list are laid out again with new ones behind
them, and a comma goes behind the text of each. The longer list is read as the old entries
and the new ones if that comma ends each of the old ones (`reads_listText`). It does not
end an entry that closes with a line comment, which hides it: then fewer entries are read than
were written (`reads_commented`).
-/

namespace ServiceInjection

open Text List

/-! ### Counting entries -/

theorem EntryList.length_of_whole {cells : Line} (h : cells.Whole 0) :
    (EntryList.ofCells cells).entries.length ≤ 1 := by
  have hone : splitCommas cells = [cells] := h
  refine Nat.le_trans (length_filter_le _ _) ?_
  rw [hone]
  exact Nat.le_refl 1

theorem EntryList.length_of_cut {cells piece rest : Line}
    (h : splitCommas cells = piece :: splitCommas rest) :
    (EntryList.ofCells cells).entries.length ≤ (EntryList.ofCells rest).entries.length + 1 := by
  simp only [EntryList.ofCells, h, map_cons, filter_cons]
  split
  · exact Nat.le_refl _
  · exact Nat.le_succ _

/-- The comma behind a line comment belongs to the comment, which ends with its line. -/
theorem Lex.cells_behind_comment {gap : List Char} (next : Option Char) (hgap : Blank gap)
    (hbreak : '\n' ∈ gap) :
    Blank (Lex.lineComment.cells (',' :: gap) next).code ∧
      Lex.lineComment.after (',' :: gap) next = .code := by
  have hstep : ∀ next, Lex.lineComment.step ',' next = (false, .lineComment) := fun _ => rfl
  rw [Lex.cells, Lex.after, hstep]
  refine ⟨forall_mem_cons.mpr ⟨by decide, blank_code ?_⟩,
    Lex.after_lineComment_of_mem _ hbreak hgap.isPlain⟩
  rwa [Lex.raw_cells]

/-- An entry that ends in a line comment concerns the next entry as little as the comma
that it hides. -/
theorem Text.LeadsIn.comment {lead entry gap : List Char} (h : LeadsIn lead)
    (hentry : Listable entry) (hcomment : EndsInComment entry) (hgap : Blank gap)
    (hbreak : '\n' ∈ gap) : LeadsIn (lead ++ (entry ++ ',' :: gap)) := by
  obtain ⟨hafter, hwhole, hnested⟩ := hentry.append_spec h (by simp [Lex.Inert] : Lex.Inert (some ','))
  rw [hcomment] at hafter
  have hcells : ∀ next, Lex.code.cells (lead ++ (entry ++ ',' :: gap)) next =
      Lex.code.cells (lead ++ entry) (some ',') ++ Lex.lineComment.cells (',' :: gap) next := by
    intro next
    rw [← append_assoc, Lex.cells_append, head?_cons, Option.some_or, hafter]
  have hblank := fun next => Line.blank_spec (Lex.cells_behind_comment next hgap hbreak).1
  refine ⟨fun next => ?_, fun next => ?_, fun next => ?_⟩
  · rw [← append_assoc, Lex.after_append, head?_cons, Option.some_or, hafter]
    exact (Lex.cells_behind_comment next hgap hbreak).2
  · rw [hcells, Line.whole_append, Line.depthAfter_of_nested hnested]
    exact ⟨hwhole, (hblank next).1⟩
  · rw [hcells, Line.code_append]
    exact hnested.append (hblank next).2

/-! ### Lists with comments -/

theorem listText_append (gap : List Char) (front : List (List Char)) {back : List (List Char)}
    (h : back ≠ []) :
    listText gap (front ++ back) = front.flatMap (· ++ ',' :: gap) ++ listText gap back := by
  induction front with
  | nil => rfl
  | cons entry front ih =>
    rw [cons_append, listText_cons (append_ne_nil_of_right_ne_nil _ h), ih]
    simp

/-- **Lists with comments.** A list whose last entry ends in code is read up to its end. It has at
most one entry for each that was written, and fewer if one of them ends in a line comment: that one
goes on with the next entry, and so it is a part of what leads in. -/
theorem reads_commented {gap tail lead : List Char} {next : Option Char} {entries : List (List Char)}
    (hgap : Blank gap) (htail : ListEnd tail) (hnext : Lex.Inert next) (hne : entries ≠ [])
    (h : ∀ entry ∈ entries, Listable entry)
    (hbreak : ∀ entry ∈ entries, EndsInComment entry → '\n' ∈ gap)
    (hlast : ∀ entry ∈ entries.getLast?, ¬ EndsInComment entry) (hlead : LeadsIn lead) :
    let text := lead ++ (listText gap entries ++ tail)
    let count := (EntryList.ofCells (Lex.code.cells text next)).entries.length
    (Lex.code.after text next = .code ∧ Nested (Lex.code.cells text next).code) ∧
      count ≤ entries.length ∧ ((∃ entry ∈ entries, EndsInComment entry) → count < entries.length) := by
  induction entries generalizing lead with
  | nil => exact absurd rfl hne
  | cons entry rest ih =>
    obtain ⟨hentry, hothers⟩ := forall_mem_cons.mp h
    obtain ⟨hbreakEntry, hbreakRest⟩ := forall_mem_cons.mp hbreak
    have hcut : ¬ EndsInComment entry → ∀ behind, _ := fun hclosed behind =>
      EntryList.length_of_cut (@Listable.cut _ _ next hentry hclosed hlead behind).2.2
    dsimp only
    by_cases hrest : rest = []
    · subst hrest
      have hclosed := hlast entry rfl
      have hnone : ¬ ∃ other ∈ [entry], EndsInComment other := by simpa using hclosed
      rw [listText_singleton]
      rcases htail with htail | ⟨blanks, hblanks, rfl⟩
      · obtain ⟨hwhole, hreads⟩ := hentry.last hclosed hlead htail hnext
        exact ⟨hreads, EntryList.length_of_whole hwhole, fun h => absurd h hnone⟩
      · obtain ⟨hnil, hreads⟩ := @entries_blank blanks next hblanks
        have hle := hcut hclosed blanks
        rw [hnil] at hle
        exact ⟨hentry.reads_cut hclosed hlead hreads, hle, fun h => absurd h hnone⟩
    · have hlast' : ∀ entry ∈ rest.getLast?, ¬ EndsInComment entry := by
        rwa [getLast?_cons_of_ne_nil hrest] at hlast
      rw [listText_cons_append _ _ _ _ hrest, length_cons]
      by_cases hcomment : EndsInComment entry
      · have hassoc : lead ++ (entry ++ ',' :: (gap ++ (listText gap rest ++ tail))) =
            lead ++ (entry ++ ',' :: gap) ++ (listText gap rest ++ tail) := by simp
        obtain ⟨hreads, hle, -⟩ := ih hrest hothers hbreakRest hlast'
          (hlead.comment hentry hcomment hgap (hbreakEntry hcomment))
        rw [hassoc]
        exact ⟨hreads, Nat.le_succ_of_le hle, fun _ => Nat.lt_succ_of_le hle⟩
      · obtain ⟨hreads, hle, hlt⟩ := ih hrest hothers hbreakRest hlast' hgap.leadsIn
        have hcount := hcut hcomment (gap ++ (listText gap rest ++ tail))
        refine ⟨hentry.reads_cut hcomment hlead hreads, Nat.le_trans hcount (Nat.succ_le_succ hle), ?_⟩
        rintro ⟨other, hother, hends⟩
        have hmem := (mem_cons.mp hother).resolve_left fun heq => hcomment (heq ▸ hends)
        exact Nat.lt_of_le_of_lt hcount (Nat.succ_lt_succ (hlt ⟨other, hmem, hends⟩))

end ServiceInjection
