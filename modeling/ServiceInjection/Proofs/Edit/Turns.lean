import Mathlib.Data.List.Nodup
import ServiceInjection.Proofs.Edit.Above

/-!
# Edit.Turns

What edits make of a text, section by section. A section is a piece of the text together with
the edits that start in it, and `Batch.Turns` says what these edits turn the piece into,
whatever stands behind it. Since a batch makes its edits from the last to the first, the edits
of one section still find their ranges when those of all later sections have been made; so
sections can be put behind each other (`Turns.append`). A batch orders its edits by their
starts, and so a text whose sections hold all edits is turned into what its sections are
turned into (`Turns.apply_assemble`).
-/

namespace ServiceInjection

open Position Text List

/-- The position behind lines and the start of another one. -/
theorem Position.behind_unlines {ls : List (List Char)} {line : List Char}
    (h : ∀ line ∈ ls, '\n' ∉ line) (hline : '\n' ∉ line) :
    behind (unlines ls ++ line) = ⟨ls.length, width16 line⟩ := by
  induction ls with
  | nil =>
    rw [unlines_nil, nil_append, behind, lastLine_of_not_mem hline, count_eq_zero.mpr hline]
    rfl
  | cons first ls ih =>
    obtain ⟨hfirst, hls⟩ := forall_mem_cons.mp h
    rw [unlines_cons, append_assoc, cons_append, behind_line_append _ hfirst, ih hls]
    rfl

namespace Batch

variable {before old new old' new' front middle back : List Char} {edits edits' : List Edit}
  {edit : Edit}

/-- Whether edits turn a piece of text behind `before` into another, made from the last to the
first. They start in the piece, one behind the other. -/
structure Turns (before : List Char) (edits : List Edit) (old new : List Char) : Prop where
  apply : ∀ rest, edits.foldr (fun edit text => applyEdit text edit) (before ++ (old ++ rest)) =
    before ++ (new ++ rest)
  starts : edits.Pairwise fun a b => a.range.start < b.range.start
  within : ∀ edit ∈ edits,
    behind before ≤ edit.range.start ∧ edit.range.start < behind (before ++ old)

namespace Turns

/-- Text without edits stays. -/
theorem kept (before old : List Char) : Turns before [] old old := ⟨fun _ => rfl, .nil, nofun⟩

/-- Sections behind each other. -/
theorem append (h : Turns before edits old new) (h' : Turns (before ++ old) edits' old' new') :
    Turns before (edits ++ edits') (old ++ old') (new ++ new') where
  apply rest := by
    have hlast := h'.apply rest
    rw [append_assoc] at hlast
    rw [foldr_append, append_assoc old, hlast, append_assoc before, h.apply, append_assoc new]
  starts := pairwise_append.mpr ⟨h.starts, h'.starts, fun a ha b hb =>
    lt_of_lt_of_le (h.within a ha).2 (h'.within b hb).1⟩
  within := by
    intro edit hedit
    rcases mem_append.mp hedit with hmem | hmem
    · obtain ⟨hle, hlt⟩ := h.within edit hmem
      refine ⟨hle, lt_of_lt_of_le hlt ?_⟩
      rw [← append_assoc]
      exact behind_le_append _ _
    · obtain ⟨hle, hlt⟩ := h'.within edit hmem
      refine ⟨le_trans (behind_le_append before old) hle, ?_⟩
      rwa [← append_assoc]

/-- A section with one edit, which finds its range in a text without carriage returns. -/
theorem of_edit (hreturn : '\r' ∉ before ++ (front ++ middle)) (hne : middle ++ back ≠ [])
    (hstart : edit.range.start = behind (before ++ front))
    (hstop : edit.range.stop = behind (before ++ (front ++ middle))) :
    Turns before [edit] (front ++ (middle ++ back)) (front ++ (edit.text.toList ++ back)) where
  apply rest := by
    have hlast : ∀ {cs : List Char}, cs <+: before ++ (front ++ middle) →
        cs.getLast? ≠ some '\r' := fun hcs heq => hreturn (hcs.subset (mem_of_getLast? heq))
    have happly := applyEdit_of_prefix (back ++ rest) hstart
      (by rw [hstop, append_assoc])
      (hlast ⟨middle, append_assoc ..⟩) (hlast ⟨[], by simp⟩)
    simp only [append_assoc] at happly
    simp only [foldr_cons, foldr_nil, append_assoc]
    exact happly
  starts := pairwise_singleton _ _
  within := by
    refine forall_mem_singleton.mpr ?_
    rw [hstart, ← append_assoc]
    exact ⟨behind_le_append before front, behind_lt_append hne⟩

/-- Edits that start one behind the other are made in that order, whatever the order in which
they are given. -/
theorem assemble_eq {sorted : List Edit} (hmem : ∀ edit, edit ∈ edits ↔ edit ∈ sorted)
    (h : sorted.Pairwise fun a b => a.range.start < b.range.start) :
    assemble edits = ⟨sorted.reverse⟩ := by
  obtain ⟨hsublist, honce⟩ := eraseDupsBy_sublist_and_pairwise edits
  have hnodup : (sorted.map (·.range.start)).Nodup :=
    pairwise_map.mpr (h.imp fun hlt => Position.ne_of_lt hlt)
  have hequal : ∀ a ∈ sorted, ∀ b ∈ sorted, a.range.start = b.range.start → a = b :=
    fun a ha b hb heq => inj_on_of_nodup_map hnodup ha hb heq
  -- Of edits with the same effect only one is in the sorted list, so none is dropped.
  have hkept : ∀ edit, edit ∈ dropRepeated edits ↔ edit ∈ sorted := by
    intro edit
    rw [dropRepeated_eq_eraseDupsBy, ← hmem]
    refine ⟨fun hedit => hsublist.subset hedit, fun hedit => ?_⟩
    obtain ⟨kept, hkept, hsame⟩ := exists_mem_eraseDupsBy hedit
    obtain ⟨hrange, -⟩ := (Bool.and_eq_true ..).mp hsame
    rw [← hequal kept ((hmem kept).mp (hsublist.subset hkept)) edit ((hmem edit).mp hedit)
      (congrArg Range.start (beq_iff_eq.mp hrange))]
    exact hkept
  have hperm : (ascending (dropRepeated edits)).Perm sorted := by
    refine (ascending_perm _).trans ((perm_ext_iff_of_nodup ?_ ?_).mpr hkept)
    · rw [dropRepeated_eq_eraseDupsBy]
      exact honce.imp fun hab heq => by simp [heq, Edit.sameEffect] at hab
    · exact .of_map _ hnodup
  have heq := hperm.eq_of_pairwise
    (fun a b ha hb hab hba => hequal a (hperm.subset ha) b hb (le_antisymm hab hba))
    (pairwise_mergeSort start_le_trans start_le_total _) (h.imp Position.le_of_lt)
  rw [assemble, heq]

/-- **A text in sections.** A batch of the edits of all sections turns each section. -/
theorem apply_assemble {text : String} (h : Turns [] edits text.toList new)
    (hmem : ∀ edit, edit ∈ edits' ↔ edit ∈ edits) :
    (assemble edits').apply text = String.ofList new := by
  have happly := h.apply []
  rw [append_nil, append_nil, nil_append, nil_append] at happly
  rw [assemble_eq hmem h.starts, Batch.apply, foldl_reverse, happly]

end Turns

end Batch

end ServiceInjection
