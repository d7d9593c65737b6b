import ServiceInjection.Proofs.Edit.Substitution

/-!
# Edit.Application

**Applying an assembled batch.** `Batch.assemble` drops repeated edits, orders the
rest by their start and reverses them; `Batch.apply` then makes one edit after the
other. For edits inside the text whose ranges share at most endpoints, the outcome
is the simultaneous substitution of `Proofs.Edit.Substitution`, and so is the
outcome for a client that receives the edits in text order and makes them all
against the original text.

The stability of the sort is what keeps insertions at one position in the order of
their emission: `filter_ascending` says that the sort leaves the edits of each
start as they are. Assembling a batch neither hides an overlap nor makes one
(`Batch.pairwise_assemble_iff`), and only a replacement can overlap with another
edit (`Edit.pairwise_iff`).
-/

namespace ServiceInjection

open Position List

variable {edits : List Edit} {text : List Char}

namespace Batch

/-! ### Repeated edits -/

/-- Folding over the rest of a list adds the edits whose effect is new. -/
theorem foldl_dropRepeated (kept edits : List Edit) :
    edits.foldl (fun kept edit => if kept.any (·.sameEffect edit) then kept else kept ++ [edit])
        kept =
      kept ++ (edits.filter fun edit => !kept.any (·.sameEffect edit)).eraseDupsBy
        Edit.sameEffect := by
  induction edits generalizing kept with
  | nil => simp
  | cons edit rest ih =>
    rw [foldl_cons]
    by_cases hany : kept.any (·.sameEffect edit) = true
    · rw [if_pos hany, ih, filter_cons_of_neg (by simp [hany])]
    · have hfilter : (rest.filter fun other => !(kept ++ [edit]).any (·.sameEffect other)) =
          (rest.filter fun other => !kept.any (·.sameEffect other)).filter
            fun other => other.sameEffect edit = false := by
        rw [filter_filter]
        congr 1
        funext other
        rw [any_append, Edit.sameEffect_comm other edit]
        simp [Bool.and_comm]
      rw [if_neg hany, ih, filter_cons_of_pos (by simpa using hany),
        eraseDupsBy_cons, hfilter]
      simp

theorem dropRepeated_eq_eraseDupsBy (edits : List Edit) :
    dropRepeated edits = edits.eraseDupsBy Edit.sameEffect := by
  rw [dropRepeated, foldl_dropRepeated, nil_append, filter_eq_self.mpr (by simp)]

/-- Keeping first occurrences only leaves a sublist without two edits of the same
effect. -/
theorem eraseDupsBy_sublist_and_pairwise (edits : List Edit) :
    (edits.eraseDupsBy Edit.sameEffect).Sublist edits ∧
      (edits.eraseDupsBy Edit.sameEffect).Pairwise fun a b => a.sameEffect b = false := by
  -- The recursion is on a filtered tail, so the induction is on the length.
  induction hn : edits.length using Nat.strongRecOn generalizing edits with
  | ind n ih =>
    cases edits with
    | nil => simp
    | cons edit rest =>
      have hlen := length_filter_le (fun other => other.sameEffect edit = false) rest
      rw [length_cons] at hn
      obtain ⟨hsub, hpair⟩ := ih (rest.filter fun other => other.sameEffect edit = false).length
        (by omega) _ rfl
      rw [eraseDupsBy_cons]
      refine ⟨(hsub.trans filter_sublist).cons_cons edit, hpair.cons ?_⟩
      intro other hother
      rw [Edit.sameEffect_comm]
      simpa using (mem_filter.mp (hsub.subset hother)).2

/-- A list without two edits of the same effect has none to drop. -/
theorem eraseDupsBy_eq_self (h : edits.Pairwise fun a b => a.sameEffect b = false) :
    edits.eraseDupsBy Edit.sameEffect = edits := by
  induction h with
  | nil => rfl
  | cons hedit _ ih =>
    rename_i edit rest _
    have hall : (rest.filter fun other => other.sameEffect edit = false) = rest := by
      rw [filter_eq_self]
      intro other hother
      rw [Edit.sameEffect_comm]
      simpa using hedit other hother
    rw [eraseDupsBy_cons, hall, ih]

/-! ### Sorting by start -/

theorem start_le_trans (a b c : Edit) :
    a.range.start.le b.range.start = true → b.range.start.le c.range.start = true →
      a.range.start.le c.range.start = true :=
  fun hab hbc => le_trans hab hbc

theorem start_le_total (a b : Edit) :
    (a.range.start.le b.range.start || b.range.start.le a.range.start) = true := by
  rw [Bool.or_eq_true]
  by_cases h : a.range.start ≤ b.range.start
  · exact Or.inl h
  · exact Or.inr (le_of_lt (not_le.mp h))

theorem ascending_perm (edits : List Edit) : (ascending edits).Perm edits :=
  mergeSort_perm edits _

/-- Edits that are emitted in the order of the text are assembled as they are. -/
theorem assemble_of_ascending (honce : dropRepeated edits = edits)
    (h : edits.Pairwise fun a b => a.range.start.le b.range.start = true) :
    assemble edits = ⟨edits.reverse⟩ := by
  rw [assemble, honce, ascending, mergeSort_of_pairwise h]

/-- The sort leaves the edits of each start in their order. -/
theorem filter_ascending (edits : List Edit) (position : Position) :
    (ascending edits).filter (·.range.start = position) =
      edits.filter (·.range.start = position) := by
  have hequal : (edits.filter (·.range.start = position)).Pairwise
      fun a b => a.range.start.le b.range.start = true := by
    rw [pairwise_iff_forall_sublist]
    intro a b hab
    have ha := (mem_filter.mp (hab.subset mem_cons_self)).2
    have hb := (mem_filter.mp (hab.subset (mem_cons_of_mem a mem_cons_self))).2
    rw [of_decide_eq_true ha, of_decide_eq_true hb]
    exact le_refl position
  have hsub := (sublist_mergeSort start_le_trans start_le_total hequal
    filter_sublist).filter (·.range.start = position)
  rw [filter_filter] at hsub
  simp only [Bool.and_self] at hsub
  have hlen := ((ascending_perm edits).filter (·.range.start = position)).length_eq
  exact (hsub.eq_of_length hlen.symm).symm

/-- Sorting edits does not change what they substitute. -/
theorem substituteFrom_ascending (edits : List Edit) (before text : List Char) :
    substituteFrom (ascending edits) before text = substituteFrom edits before text := by
  apply substituteFrom_congr
  · funext position
    rw [insertedAt, insertedAt, filter_ascending]
  · funext position
    exact (ascending_perm edits).any_eq

/-- In a sorted list of edits, each pair stands in the order of its starts, or has
the same start and stands as it did before. -/
theorem pairwise_ascending {R : Edit → Edit → Prop} (h : edits.Pairwise R) :
    (ascending edits).Pairwise fun a b =>
      a.range.start < b.range.start ∨ (a.range.start = b.range.start ∧ R a b) := by
  have hsorted := pairwise_mergeSort start_le_trans start_le_total edits
  rw [pairwise_iff_forall_sublist] at h hsorted ⊢
  intro a b hab
  by_cases heq : a.range.start = b.range.start
  · refine Or.inr ⟨heq, h ?_⟩
    have hfilter := hab.filter (·.range.start = b.range.start)
    rw [filter_ascending] at hfilter
    simp only [heq, decide_true, filter_cons_of_pos, filter_nil] at hfilter
    exact hfilter.trans filter_sublist
  · exact Or.inl ⟨hsorted hab, heq⟩

/-! ### Edits in place -/

end Batch

/-- Whether a text has an edit's range: it splits into what is in front of the
range, the range, and what is behind it. Neither end of the range has a carriage
return in front. -/
def Edit.Located (text : List Char) (edit : Edit) : Prop :=
  ∃ front middle back, text = front ++ middle ++ back ∧
    edit.range.start = behind front ∧ edit.range.stop = behind (front ++ middle) ∧
    front.getLast? ≠ some '\r' ∧ (front ++ middle).getLast? ≠ some '\r'

/-- Whether every carriage return of a text belongs to a line end. -/
def ReturnsEndLines (text : List Char) : Prop :=
  ∀ i, i < text.length → text[i]? = some '\r' → text[i + 1]? = some '\n'

instance (text : List Char) : Decidable (ReturnsEndLines text) :=
  inferInstanceAs (Decidable (∀ i, i < text.length → _))

/-- A position inside a text whose carriage returns end lines is the one behind a
prefix that does not end with a carriage return. -/
theorem Position.Inside.exists_prefix {position : Position} (hreturns : ReturnsEndLines text)
    (h : Inside text position) : ∃ before after, text = before ++ after ∧ position = behind before ∧
      before.getLast? ≠ some '\r' := by
  obtain ⟨n, hn, hposition, hend⟩ := h
  refine ⟨text.take n, text.drop n, (take_append_drop n text).symm, hposition, ?_⟩
  intro hlast
  refine hend ⟨hlast, ?_⟩
  rw [getLast?_take] at hlast
  by_cases hzero : n = 0
  · simp [hzero] at hlast
  · have hreturn : text[n - 1]? = some '\r' := by
      rw [if_neg hzero, getElem?_eq_getElem (by omega)] at hlast
      rw [getElem?_eq_getElem (by omega)]
      simpa using hlast
    have hfeed := hreturns (n - 1) (by omega) hreturn
    rw [Nat.sub_add_cancel (by omega)] at hfeed
    rw [head?_drop, hfeed]

/-- An edit whose positions lie inside the text is located in it. -/
theorem Edit.located_of_inside {edit : Edit} (hreturns : ReturnsEndLines text)
    (hstart : Inside text edit.range.start) (hstop : Inside text edit.range.stop)
    (hle : edit.range.start ≤ edit.range.stop) : edit.Located text := by
  obtain ⟨front, behindFront, hfront, hstartEq, hfrontLast⟩ := hstart.exists_prefix hreturns
  obtain ⟨through, back, hthrough, hstopEq, hthroughLast⟩ := hstop.exists_prefix hreturns
  rw [hstartEq, hstopEq] at hle
  obtain ⟨middle, rfl⟩ := prefix_of_behind_le (hfront.symm.trans hthrough) hle
  exact ⟨front, middle, back, hthrough, hstartEq, hstopEq, hfrontLast, hthroughLast⟩

namespace Batch

/-- An edit finds its range in every text that starts like the one it was made for
up to the end of the range. -/
theorem applyEdit_of_prefix {edit : Edit} {front middle : List Char} (rest : List Char)
    (hstart : edit.range.start = behind front) (hstop : edit.range.stop = behind (front ++ middle))
    (hfront : front.getLast? ≠ some '\r') (hmiddle : (front ++ middle).getLast? ≠ some '\r') :
    applyEdit (front ++ middle ++ rest) edit = front ++ edit.text.toList ++ rest := by
  have hstartOffset : offsetOf edit.range.start.column edit.range.start.line
      (front ++ middle ++ rest) = front.length := by
    rw [hstart, append_assoc]
    exact offsetOf_behind _ hfront
  have hstopOffset : offsetOf edit.range.stop.column edit.range.stop.line
      (front ++ middle ++ rest) = (front ++ middle).length := by
    rw [hstop]
    exact offsetOf_behind _ hmiddle
  have hmax : max front.length (front ++ middle).length = (front ++ middle).length := by
    rw [length_append]
    omega
  have htake : (front ++ middle ++ rest).take front.length = front := by
    rw [append_assoc, take_left]
  simp only [applyEdit, hstartOffset, hstopOffset, hmax, htake, drop_left]

/-- **One after the other is all at once.** Edits located in a text, each ending
before the next one starts, can be made from the last to the first. -/
theorem foldr_applyEdit (hlocated : ∀ edit ∈ edits, edit.Located text)
    (hordered : edits.Pairwise fun a b => a.range.stop ≤ b.range.start) :
    edits.foldr (fun edit text => applyEdit text edit) text = substituteFrom edits [] text := by
  induction edits with
  | nil =>
    have hcopies : substituteFrom [] [] (text ++ []) = text ++ substituteFrom [] text [] :=
      substituteFrom_copies [] text [] (by simp)
    simpa [substituteFrom, insertedAt] using hcopies.symm
  | cons edit rest ih =>
    obtain ⟨hlater, hrest⟩ := pairwise_cons.mp hordered
    obtain ⟨front, middle, back, htext, hstart, hstop, hfront, hmiddle⟩ :=
      hlocated edit mem_cons_self
    -- The edits behind this one have left the text up to the end of its range.
    have hprefix : substituteFrom rest [] text =
        front ++ middle ++ substituteFrom rest (front ++ middle) back := by
      rw [htext]
      exact substituteFrom_copies [] (front ++ middle) back (by simpa [← hstop] using hlater)
    rw [foldr_cons, ih (fun other hother => hlocated other (mem_cons_of_mem _ hother))
      hrest, hprefix, applyEdit_of_prefix _ hstart hstop hfront hmiddle, htext,
      substituteFrom_cons hstart hstop hlater]

/-- Sorted edits that share at most endpoints follow each other, if no insertion
comes behind a replacement with its start. -/
theorem pairwise_stop_le_start (hranges : ∀ edit ∈ edits, edit.range.start ≤ edit.range.stop)
    (hdisjoint : edits.Pairwise Edit.Disjoint) (hfirst : edits.Pairwise fun a b => ¬ a.ReplacesAt b) :
    (ascending edits).Pairwise fun a b => a.range.stop ≤ b.range.start := by
  have hdisjoint' : (ascending edits).Pairwise Edit.Disjoint :=
    ((ascending_perm edits).pairwise_iff Or.symm).mpr hdisjoint
  refine List.Pairwise.imp_of_mem ?_ (hdisjoint'.and (pairwise_ascending hfirst))
  rintro a b ha hb ⟨hab, horder⟩
  have hrangeA := hranges a ((ascending_perm edits).mem_iff.mp ha)
  have hrangeB := hranges b ((ascending_perm edits).mem_iff.mp hb)
  rcases hab with hab | hba
  · exact hab
  · rcases horder with hlt | ⟨heq, hnot⟩
    · exact absurd (lt_of_lt_of_le hlt (le_trans hrangeB hba)) (not_lt.mpr (le_refl _))
    · -- `b` is an insertion at the start of `a`, so `a` replaces nothing.
      have hinsertB : b.range.start = b.range.stop :=
        le_antisymm hrangeB (heq ▸ hba)
      by_cases hinsertA : a.isInsertion = true
      · rw [← Edit.isInsertion_iff.mp hinsertA, heq]
        exact le_refl _
      · exact absurd ⟨by simpa using hinsertA, Edit.isInsertion_iff.mpr hinsertB, heq⟩ hnot

/-- **Assembled batches substitute.** Applying the batch that is assembled from edits
inside a text gives their simultaneous substitution, and the edits of the batch in
text order have the same one. -/
theorem apply_assemble_eq_substitute (text : String) (edits : List Edit)
    (hreturns : ReturnsEndLines text.toList)
    (hinside : ∀ edit ∈ edits, Inside text.toList edit.range.start ∧
      Inside text.toList edit.range.stop ∧ edit.range.start ≤ edit.range.stop)
    (hdisjoint : edits.Pairwise fun a b => a.sameEffect b = true ∨ a.Disjoint b)
    (hfirst : edits.Pairwise fun a b => ¬ a.ReplacesAt b) :
    (assemble edits).apply text = substitute edits text ∧
      substitute (assemble edits).inTextOrder text = substitute edits text := by
  obtain ⟨hsub, hnew⟩ := eraseDupsBy_sublist_and_pairwise edits
  have hdisjoint' : (edits.eraseDupsBy Edit.sameEffect).Pairwise Edit.Disjoint := by
    refine ((hdisjoint.sublist hsub).and hnew).imp ?_
    rintro a b ⟨hsame | hab, hne⟩
    · rw [hne] at hsame
      cases hsame
    · exact hab
  have hmem : ∀ {edit}, edit ∈ ascending (edits.eraseDupsBy Edit.sameEffect) → edit ∈ edits :=
    fun h => hsub.subset ((ascending_perm _).mem_iff.mp h)
  have hordered := pairwise_stop_le_start
    (fun edit hedit => (hinside edit (hsub.subset hedit)).2.2) hdisjoint' (hfirst.sublist hsub)
  have hlocated : ∀ edit ∈ ascending (edits.eraseDupsBy Edit.sameEffect),
      edit.Located text.toList := fun edit hedit =>
    have ⟨hstart, hstop, hle⟩ := hinside edit (hmem hedit)
    Edit.located_of_inside hreturns hstart hstop hle
  constructor
  · rw [apply, substitute, assemble, dropRepeated_eq_eraseDupsBy, foldl_reverse,
      foldr_applyEdit hlocated hordered, substituteFrom_ascending]
  · have hsymm : ∀ {a b : Edit}, a.sameEffect b = false → b.sameEffect a = false := by
      intro a b h
      rw [Edit.sameEffect_comm, h]
    have hnew' : (ascending (edits.eraseDupsBy Edit.sameEffect)).Pairwise
        fun a b => a.sameEffect b = false :=
      ((ascending_perm _).pairwise_iff hsymm).mpr hnew
    rw [inTextOrder, assemble, dropRepeated_eq_eraseDupsBy, reverse_reverse, substitute,
      substitute, eraseDupsBy_eq_self hnew', substituteFrom_ascending]

/-- A text with a line end of two characters and a character of two units. -/
def touchingText : String := "a😀b\r\ncd\nef"

/-- Two insertions at the start of a replaced range over a line end, one at its end
that is given twice, and a deletion. -/
def touchingEdits : List Edit :=
  [ .insert "first" 0 3 "I", .insert "second" 0 3 "J",
    ⟨"replace", ⟨⟨0, 3⟩, ⟨1, 1⟩⟩, "K\nL"⟩,
    .insert "behind" 1 1 "M", .insert "repeated" 1 1 "M",
    ⟨"delete", ⟨⟨2, 0⟩, ⟨2, 1⟩⟩, ""⟩ ]

theorem apply_assemble_touching :
    (assemble touchingEdits).apply touchingText = "a😀IJK\nLMd\nf" ∧
      substitute (assemble touchingEdits).inTextOrder touchingText = "a😀IJK\nLMd\nf" := by
  have hvalue : substitute touchingEdits touchingText = "a😀IJK\nLMd\nf" := by decide
  rw [← hvalue]
  exact apply_assemble_eq_substitute touchingText touchingEdits (by decide) (by decide) (by decide)
    (by decide)

end Batch

namespace Edit

theorem Disjoint.symm {a b : Edit} (h : a.Disjoint b) : b.Disjoint a := Or.symm h

/-- Whether two edits can be made together: they do the same or do not overlap. -/
def Compatible (a b : Edit) : Prop := a.sameEffect b = true ∨ a.Disjoint b

instance (a b : Edit) : Decidable (a.Compatible b) := inferInstanceAs (Decidable (_ ∨ _))

theorem Compatible.symm {a b : Edit} (h : a.Compatible b) : b.Compatible a :=
  h.imp (fun hsame => sameEffect_comm a b ▸ hsame) Disjoint.symm

theorem Compatible.refl (a : Edit) : a.Compatible a := .inl (sameEffect_iff.mpr ⟨rfl, rfl⟩)

/-- Whether edits are compatible hangs on what they do only. -/
theorem Compatible.of_sameEffect {a b a' b' : Edit} (h : a'.Compatible b')
    (ha : a'.sameEffect a = true) (hb : b'.sameEffect b = true) : a.Compatible b := by
  rw [sameEffect_iff] at ha hb
  unfold Compatible Disjoint at *
  rw [sameEffect_iff] at *
  rwa [← ha.1, ← ha.2, ← hb.1, ← hb.2]

/-- Two insertions never overlap. -/
theorem disjoint_of_isInsertion {a b : Edit} (ha : a.isInsertion = true)
    (hb : b.isInsertion = true) : a.Disjoint b := by
  rw [isInsertion_iff] at ha hb
  rw [Disjoint, ← ha, ← hb]
  by_cases h : a.range.start ≤ b.range.start
  · exact .inl h
  · exact .inr (le_of_lt (not_le.mp h))

/-- Edits are compatible if every insertion is compatible with every replacement, and
the replacements are compatible with each other. -/
theorem pairwise_iff (edits : List Edit) :
    edits.Pairwise Compatible ↔
      (∀ a ∈ edits.filter isInsertion, ∀ b ∈ edits.filter (!isInsertion ·), a.Compatible b) ∧
        (edits.filter (!isInsertion ·)).Pairwise Compatible := by
  induction edits with
  | nil => simp
  | cons edit rest ih =>
    rw [pairwise_cons, ih]
    cases hedit : edit.isInsertion with
    | true =>
      rw [filter_cons_of_pos hedit, filter_cons_of_neg (by simp [hedit])]
      constructor
      · rintro ⟨hhead, hmixed, hblocks⟩
        refine ⟨fun a ha b hb => ?_, hblocks⟩
        rcases mem_cons.mp ha with rfl | ha
        · exact hhead b (mem_filter.mp hb).1
        · exact hmixed a ha b hb
      · rintro ⟨hmixed, hblocks⟩
        refine ⟨fun b hb => ?_, fun a ha => hmixed a (.tail _ ha), hblocks⟩
        cases hb' : b.isInsertion with
        | true => exact .inr (disjoint_of_isInsertion hedit hb')
        | false => exact hmixed edit (.head _) b (mem_filter.mpr ⟨hb, by simp [hb']⟩)
    | false =>
      rw [filter_cons_of_neg (by simp [hedit]), filter_cons_of_pos (by simp [hedit]),
        pairwise_cons]
      constructor
      · rintro ⟨hhead, hmixed, hblocks⟩
        refine ⟨fun a ha b hb => ?_, fun b hb => hhead b (mem_filter.mp hb).1, hblocks⟩
        rcases mem_cons.mp hb with rfl | hb
        · exact (hhead a (mem_filter.mp ha).1).symm
        · exact hmixed a ha b hb
      · rintro ⟨hmixed, hhead, hblocks⟩
        refine ⟨fun b hb => ?_, fun a ha b hb => hmixed a ha b (.tail _ hb), hblocks⟩
        cases hb' : b.isInsertion with
        | true => exact (hmixed b (mem_filter.mpr ⟨hb, hb'⟩) edit (.head _)).symm
        | false => exact hhead b (mem_filter.mpr ⟨hb, by simp [hb']⟩)

end Edit

namespace Batch

/-- Of every edit, one with the same effect is kept. -/
theorem exists_mem_eraseDupsBy {edits : List Edit} {edit : Edit} (h : edit ∈ edits) :
    ∃ kept ∈ edits.eraseDupsBy Edit.sameEffect, kept.sameEffect edit = true := by
  induction hn : edits.length using Nat.strongRecOn generalizing edits with
  | ind n ih =>
    cases edits with
    | nil => simp at h
    | cons first rest =>
      rw [eraseDupsBy_cons]
      cases hsame : edit.sameEffect first with
      | true => exact ⟨first, .head _, Edit.sameEffect_comm edit first ▸ hsame⟩
      | false =>
        have hmem : edit ∈ rest.filter fun other => other.sameEffect first = false := by
          rcases mem_cons.mp h with rfl | h
          · simp [Edit.sameEffect] at hsame
          · exact mem_filter.mpr ⟨h, by simpa using hsame⟩
        have hlen := length_filter_le (fun other => other.sameEffect first = false) rest
        rw [length_cons] at hn
        obtain ⟨kept, hkept, heq⟩ := ih _ (by omega) hmem rfl
        exact ⟨kept, .tail _ hkept, heq⟩

/-- Dropping repeated edits does not change whether the others overlap. -/
theorem pairwise_eraseDupsBy_iff (edits : List Edit) :
    (edits.eraseDupsBy Edit.sameEffect).Pairwise Edit.Disjoint ↔ edits.Pairwise Edit.Compatible := by
  obtain ⟨hsub, hdistinct⟩ := eraseDupsBy_sublist_and_pairwise edits
  constructor
  · intro h
    have hkept : (edits.eraseDupsBy Edit.sameEffect).Pairwise Edit.Compatible := h.imp .inr
    have hall := hkept.forall_of_forall_of_flip (fun a _ => Edit.Compatible.refl a)
      (hkept.imp Edit.Compatible.symm)
    refine pairwise_of_forall_mem_list fun a ha b hb => ?_
    obtain ⟨a', ha', hsame⟩ := exists_mem_eraseDupsBy ha
    obtain ⟨b', hb', hsame'⟩ := exists_mem_eraseDupsBy hb
    exact (hall ha' hb').of_sameEffect hsame hsame'
  · intro h
    exact ((h.sublist hsub).and hdistinct).imp fun ⟨hcompatible, hne⟩ =>
      hcompatible.resolve_left (by simp [hne])

/-- The edits of an assembled batch do not overlap exactly if the emitted ones are
compatible. -/
theorem pairwise_assemble_iff (edits : List Edit) :
    (assemble edits).edits.Pairwise Edit.Disjoint ↔ edits.Pairwise Edit.Compatible := by
  have hperm : (assemble edits).edits.Perm (edits.eraseDupsBy Edit.sameEffect) := by
    rw [assemble, dropRepeated_eq_eraseDupsBy]
    exact (reverse_perm _).trans (ascending_perm _)
  rw [hperm.pairwise_iff Edit.Disjoint.symm, pairwise_eraseDupsBy_iff]

end Batch

end ServiceInjection
