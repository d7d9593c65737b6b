import ServiceInjection.Proofs.Wiring.MergedSignature

/-!
# Wiring.DocComment

Doc comments with new parameter lines. New lines have to stand between the line that opens
the comment and the line that closes it. Wherever the search for their place ends, it ends
between these two (`insertAt_holds`), except behind a parameter tag on the closing line:
the lines then follow the end of the comment (`extendDoc_inside_iff`).
-/

namespace ServiceInjection.Render

open Text List

variable {line indent : String}

/-! ### Comments as lines -/

/-- Whether a comment goes on behind a line that belongs to it. -/
def StaysOpen (line : String) : Prop := containsText "*/" line.toList = false

instance (line : String) : Decidable (StaysOpen line) := inferInstanceAs (Decidable (_ = _))

/-- Whether a comment ends with a line, and not before the end of the line. -/
def ClosesComment (line : String) : Prop :=
  endsWith "*/" (trimEnd line.toList) = true ∧
    containsText "*/" (trimEnd line.toList).dropLast = false

instance (line : String) : Decidable (ClosesComment line) := inferInstanceAs (Decidable (_ ∧ _))

/-- Whether lines are a doc comment: the first one opens it, and only the end of the last one
closes it. -/
structure IsDocComment (doc : List String) : Prop where
  opens : ∀ first ∈ doc.head?, startsWith "/**" (trimStart first.toList) = true
  stays : ∀ line ∈ doc.dropLast, StaysOpen line
  closes : ∃ last ∈ doc.getLast?, ClosesComment last

instance (doc : List String) : Decidable (IsDocComment doc) :=
  decidable_of_iff _ ⟨fun h => ⟨h.1, h.2.1, h.2.2⟩,
    fun h => And.intro h.opens (And.intro h.stays h.closes)⟩

/-- Whether lines are a doc comment that holds the lines `new` one after the other, behind the
line that opens it and in front of the line that closes it. -/
def HoldsInside (new doc : List String) : Prop := IsDocComment doc ∧ new <:+: doc.tail.dropLast

instance (new doc : List String) : Decidable (HoldsInside new doc) :=
  inferInstanceAs (Decidable (_ ∧ _))

theorem StaysOpen.not_closes (h : StaysOpen line) : ¬ ClosesComment line := by
  rintro ⟨hends, -⟩
  obtain ⟨tail, -, hline⟩ := exists_trimEnd line.toList
  obtain ⟨front, hfront⟩ := isSuffixOf_iff_suffix.mp hends
  rw [StaysOpen, hline, ← hfront, append_assoc, containsText_append] at h
  · cases h
  · exact by simp [containsText, containsChars, isPrefixOf]

/-- A comment of two lines or more. -/
theorem isDocComment_iff {first last : String} {middle : List String} :
    IsDocComment (first :: (middle ++ [last])) ↔
      startsWith "/**" (trimStart first.toList) = true ∧ StaysOpen first ∧
        (∀ line ∈ middle, StaysOpen line) ∧ ClosesComment last := by
  have hfront : (first :: (middle ++ [last])).dropLast = first :: middle := by
    rw [← cons_append, dropLast_concat]
  have hlast : (first :: (middle ++ [last])).getLast? = some last := by
    rw [← cons_append, getLast?_concat]
  constructor
  · rintro ⟨hopens, hstays, hcloses⟩
    rw [hfront, forall_mem_cons] at hstays
    obtain ⟨last', hlast', hcloses⟩ := hcloses
    cases hlast.symm.trans hlast'
    exact ⟨hopens first rfl, hstays.1, hstays.2, hcloses⟩
  · rintro ⟨hopens, hfirst, hmiddle, hcloses⟩
    refine ⟨?_, ?_, last, hlast, hcloses⟩
    · intro first' hfirst'
      rwa [← Option.some.inj hfirst']
    · rw [hfront]
      exact forall_mem_cons.mpr ⟨hfirst, hmiddle⟩

theorem StaysOpen.append {a b : String} (ha : StaysOpen a) (hb : StaysOpen b)
    (hend : a.toList.getLast? ≠ some '*') : StaysOpen (a ++ b) := by
  rw [StaysOpen, containsText_close_iff] at ha hb ⊢
  rw [String.toList_append]
  exact ha.append hb fun _ hx _ _ hclose => hend (hclose.1 ▸ hx)

theorem staysOpen_of_not_mem (h : '*' ∉ line.toList) : StaysOpen line :=
  containsText_close_iff.mpr (List.Pairwise.isChain
    (pairwise_of_forall_mem_list fun _ hmem _ _ hclose => h (hclose.1 ▸ hmem)))

/-- Indenting a line does not close a comment. -/
theorem StaysOpen.indented (hindent : Blank indent.toList) (h : StaysOpen line) :
    StaysOpen (indent ++ line) := by
  have hstar : '*' ∉ indent.toList := hindent.not_mem (by decide)
  exact (staysOpen_of_not_mem hstar).append h fun hlast => hstar (mem_of_getLast? hlast)

/-! ### Inserted lines -/

/-- A list that is split in front of a line that is neither the first nor behind the last. -/
theorem insertAt_eq {index : Nat} {doc : List String} (hpos : 0 < index)
    (hlt : index < doc.length) (block : List String) :
    ∃ first front back last, doc = first :: (front ++ back ++ [last]) ∧
      insertAt index block doc = first :: (front ++ block ++ back ++ [last]) := by
  obtain ⟨first, rest, rfl⟩ := exists_cons_of_length_pos (Nat.zero_lt_of_lt hlt)
  obtain ⟨index, rfl⟩ := Nat.exists_eq_add_of_lt hpos
  rw [Nat.zero_add] at hlt ⊢
  rw [length_cons] at hlt
  have hback : rest.drop index ≠ [] := by
    rw [Ne, drop_eq_nil_iff]
    omega
  refine ⟨first, rest.take index, (rest.drop index).dropLast, (rest.drop index).getLast hback, ?_, ?_⟩
  · rw [append_assoc, dropLast_concat_getLast, take_append_drop]
  · rw [append_assoc _ _ [_], dropLast_concat_getLast, insertAt, take_succ_cons,
      drop_succ_cons]
    simp

/-- Lines inserted behind the first line and in front of the last one stand inside. -/
theorem insertAt_holds {index : Nat} {doc block new : List String} (hpos : 0 < index)
    (hlt : index < doc.length) (hdoc : IsDocComment doc) (hopen : ∀ line ∈ block, StaysOpen line)
    (hnew : new <:+: block) : HoldsInside new (insertAt index block doc) := by
  obtain ⟨first, front, back, last, rfl, hinserted⟩ := insertAt_eq hpos hlt block
  obtain ⟨hopens, hfirst, hmiddle, hcloses⟩ := isDocComment_iff.mp hdoc
  obtain ⟨hfront, hback⟩ := forall_mem_append.mp hmiddle
  rw [hinserted]
  refine ⟨isDocComment_iff.mpr ⟨hopens, hfirst, ?_, hcloses⟩, ?_⟩
  · exact forall_mem_append.mpr ⟨forall_mem_append.mpr ⟨hfront, hopen⟩, hback⟩
  · rw [tail_cons, dropLast_concat]
    exact hnew.trans ⟨front, back, rfl⟩

/-- The old lines stay as they are. -/
theorem sublist_insertAt (index : Nat) (block doc : List String) :
    doc.Sublist (insertAt index block doc) := by
  rw [insertAt]
  nth_rewrite 1 [← take_append_drop index doc]
  exact (sublist_append_left _ _).append (List.Sublist.refl _)

/-! ### The place of the new lines -/

/-- The line that opens a doc comment starts with no tag. -/
theorem IsDocComment.not_tag {first : String} {rest : List String}
    (h : IsDocComment (first :: rest)) : isTagLine first = false ∧ isParamLine first = false := by
  obtain ⟨text, htext⟩ := isPrefixOf_iff_prefix.mp (h.opens first rfl)
  rw [isTagLine, isParamLine, ← htext]
  simp [startsWith, isPrefixOf]

theorem lastIndex?_eq_some {test : String → Bool} {lines : List String} {i : Nat}
    (h : lastIndex? test lines = some i) : ∃ line, lines[i]? = some line ∧ test line = true := by
  obtain ⟨j, hj, rfl⟩ := Option.map_eq_some_iff.mp h
  obtain ⟨hlt, htest, -⟩ := findIdx?_eq_some_iff_getElem.mp hj
  rw [length_reverse] at hlt
  rw [getElem_reverse] at htest
  exact ⟨_, getElem?_eq_getElem _, htest⟩

/-- The last line is the last one that a test holds of, if it holds of it. -/
theorem lastIndex?_concat {test : String → Bool} (lines : List String) {last : String}
    (h : test last = true) : lastIndex? test (lines ++ [last]) = some lines.length := by
  simp [lastIndex?, findIdx?_cons, h]

/-! ### Comments on one line -/

theorem containsText_infix {part whole : List Char} (h : part <:+: whole)
    (hwhole : containsText "*/" whole = false) : containsText "*/" part = false := by
  rw [containsText_close_iff] at hwhole ⊢
  exact hwhole.infix h

/-- A text holds the end of a comment in front of its last character or with it. -/
theorem containsText_of_dropLast {cs : List Char} (h : containsText "*/" cs.dropLast = false)
    (hend : ¬ "*/".toList <:+ cs) : containsText "*/" cs = false := by
  rw [containsText_close_iff] at h ⊢
  obtain rfl | ⟨front, c, rfl⟩ := eq_nil_or_concat' cs
  · exact .nil
  · rw [dropLast_concat] at h
    refine h.append (.singleton c) fun x hx y hy => ?_
    rintro ⟨rfl, rfl⟩
    obtain ⟨before, rfl⟩ := getLast?_eq_some_iff.mp hx
    cases hy
    exact hend ⟨before, by simp⟩

theorem dropRepeats_suffix (piece cs : List Char) : dropRepeats piece cs <:+ cs := by
  fun_induction dropRepeats piece cs with
  | case1 => exact suffix_refl _
  | case2 cs rest hrest _ ih =>
    obtain rfl := literalChars_eq_some.mp hrest
    exact ih.trans (suffix_append _ _)
  | case3 => exact suffix_refl _

theorem not_prefix_dropRepeats {piece : List Char} (hne : piece ≠ []) (cs : List Char) :
    ¬ piece <+: dropRepeats piece cs := by
  fun_induction dropRepeats piece cs with
  | case1 cs hnone =>
    rintro ⟨rest, rfl⟩
    rw [literalChars_eq_some.mpr rfl] at hnone
    cases hnone
  | case2 cs rest hrest _ ih => exact ih
  | case3 cs rest hrest hlong =>
    obtain rfl := literalChars_eq_some.mp hrest
    have := length_pos_of_ne_nil hne
    rw [length_append] at hlong
    omega

theorem trimEnd_suffix {a b : List Char} (h : a <:+ b) : trimEnd a <:+ trimEnd b := by
  obtain ⟨front, rfl⟩ := h
  rw [trimEnd, trimEnd, reverse_suffix, reverse_append, dropWhile_append]
  split
  · rename_i hempty
    rw [isEmpty_iff.mp hempty]
    exact nil_prefix
  · exact prefix_append _ _

/-- The text of a doc comment on one line holds no end of a comment. -/
theorem containsText_docText (hcloses : ClosesComment line) :
    containsText "*/" (docText line.toList) = false := by
  generalize hopened : dropRepeats "/**".toList (trim line.toList) = opened
  generalize htext : (dropRepeats "/*".toList opened.reverse).reverse = text
  have hsuffix : opened <:+ trimEnd line.toList := by
    rw [← hopened]
    exact (dropRepeats_suffix _ _).trans (trimEnd_suffix (dropWhile_suffix _))
  have hprefix : text <+: opened := by
    rw [← htext, ← reverse_suffix, reverse_reverse]
    exact dropRepeats_suffix _ _
  have hend : ¬ "*/".toList <:+ text := by
    rw [← htext, ← reverse_prefix, reverse_reverse]
    exact not_prefix_dropRepeats (by decide) _
  -- All but the last character of the line is free of the end, and the text does not reach it
  -- or is too short to hold it.
  have hinner : containsText "*/" opened.dropLast = false := by
    obtain ⟨front, hfront⟩ := hsuffix
    refine containsText_infix ?_ hcloses.2
    rw [← hfront]
    by_cases hnil : opened = []
    · rw [hnil]
      exact ⟨[], _, rfl⟩
    · rw [dropLast_append_of_ne_nil hnil]
      exact ⟨front, [], by simp⟩
  have hopen : containsText "*/" text = false := by
    obtain ⟨more, hmore⟩ := hprefix
    by_cases hnil : more = []
    · rw [← hmore, hnil, append_nil] at hinner
      exact containsText_of_dropLast hinner hend
    · rw [← hmore, dropLast_append_of_ne_nil hnil] at hinner
      exact containsText_infix ⟨[], more.dropLast, rfl⟩ hinner
  obtain ⟨lead, tail, -, -, htrim⟩ := exists_trim text
  rw [docText, hopened, htext]
  exact containsText_infix ⟨lead, tail, by rw [append_assoc, ← htrim]⟩ hopen

theorem closesComment_indented (hindent : Blank indent.toList) :
    ClosesComment (indent ++ " */") := by
  have htrim : trimEnd (indent ++ " */").toList = indent.toList ++ " */".toList := by
    rw [String.toList_append, trimEnd, reverse_append,
      show " */".toList.reverse = ['/', '*', ' '] from rfl, cons_append,
      dropWhile_cons_of_neg (by decide)]
    simp
  rw [ClosesComment, htrim, dropLast_append_of_ne_nil (by decide)]
  refine ⟨isSuffixOf_iff_suffix.mpr ⟨indent.toList ++ [' '], by simp⟩, ?_⟩
  have hstar : StaysOpen (indent ++ " *") := .indented hindent (by decide)
  rwa [StaysOpen, String.toList_append] at hstar

/-- A doc comment on one line is spread over several, with the new lines inside. -/
theorem extendDoc_line {new : List String} (hcloses : ClosesComment line)
    (hindent : Blank indent.toList) (hnew : new ≠ []) (hopen : ∀ line ∈ new, StaysOpen line) :
    HoldsInside new (extendDoc indent [line] new) := by
  have htext : StaysOpen (String.ofList (docText line.toList)) := by
    rw [StaysOpen, String.toList_ofList]
    exact containsText_docText hcloses
  have hsummary : StaysOpen (indent ++ " * " ++ String.ofList (docText line.toList)) := by
    rw [String.append_assoc]
    exact .indented hindent (.append (by decide) htext (by decide))
  have hopens : startsWith "/**" (trimStart (indent ++ "/**").toList) = true := by
    rw [String.toList_append, trimStart, dropWhile_append_of_pos hindent]
    decide
  simp only [extendDoc, List.isEmpty_iff, hnew, if_false]
  generalize hlines : (if (String.ofList (docText line.toList)).isEmpty then [] else
    [indent ++ " * " ++ String.ofList (docText line.toList), indent ++ " *"]) = summary
  have hsummaryOpen : ∀ line ∈ summary, StaysOpen line := by
    rw [← hlines]
    split
    · exact fun _ hmem => absurd hmem not_mem_nil
    · exact forall_mem_cons.mpr ⟨hsummary, forall_mem_singleton.mpr
        (.indented hindent (by decide))⟩
  rw [show [indent ++ "/**"] ++ summary ++ new ++ [indent ++ " */"] =
    (indent ++ "/**") :: (summary ++ new ++ [indent ++ " */"]) by simp]
  refine ⟨isDocComment_iff.mpr ⟨hopens, .indented hindent (by decide),
    forall_mem_append.mpr ⟨hsummaryOpen, hopen⟩, closesComment_indented hindent⟩, ?_⟩
  rw [List.tail_cons, List.dropLast_concat]
  exact ⟨summary, [], by simp⟩

/-! ### Comments on several lines -/

/-- The new lines are inserted behind the first line: behind all lines if the last one has a
parameter tag, and in front of the last line otherwise. -/
theorem exists_extendDoc_eq {indent : String} {doc new : List String} (hdoc : IsDocComment doc)
    (hlong : 2 ≤ doc.length) (hnew : new ≠ []) :
    ∃ index block, extendDoc indent doc new = insertAt index block doc ∧ 0 < index ∧
      new <:+: block ∧ (∀ line ∈ block, line ∈ new ∨ line = indent ++ " *") ∧
      if doc.getLast?.any isParamLine then index = doc.length ∧ block = new
      else index < doc.length := by
  obtain ⟨first, second, rest, rfl⟩ : ∃ first second rest, doc = first :: second :: rest := by
    match doc, hlong with
    | first :: second :: rest, _ => exact ⟨first, second, rest, rfl⟩
  obtain ⟨htag, hparam⟩ := hdoc.not_tag
  simp only [extendDoc, List.isEmpty_iff, hnew, if_false]
  generalize hlines : first :: second :: rest = doc at *
  have hfirst : doc[0]? = some first := by rw [← hlines]; rfl
  obtain ⟨front, last, hconcat⟩ := (eq_nil_or_concat' doc).resolve_left (by simp [← hlines])
  have hclose : doc.length - 1 = front.length := by simp [hconcat]
  have hlast : doc.getLast? = some last := by rw [hconcat, getLast?_concat]
  rw [hlast, Option.any_some]
  cases hindex : lastIndex? isParamLine doc with
  | some i =>
    obtain ⟨line, hline, htest⟩ := lastIndex?_eq_some hindex
    have hlt : i < doc.length := (List.getElem?_eq_some_iff.mp hline).1
    refine ⟨_, new, rfl, by omega, List.infix_refl _, fun line hmem => .inl hmem, ?_⟩
    have hdescription := (takeWhile_sublist (l := (doc.take (doc.length - 1)).drop (i + 1))
      fun line => !isTagLine line && !isBlankDocLine line).length_le
    rw [length_drop, length_take] at hdescription
    by_cases hlastParam : isParamLine last = true
    · rw [hconcat, lastIndex?_concat front hlastParam] at hindex
      have hi : i = doc.length - 1 := hclose ▸ (Option.some.inj hindex).symm
      rw [if_pos hlastParam]
      exact ⟨by omega, rfl⟩
    · have hi : i ≠ doc.length - 1 := by
        rintro rfl
        rw [hclose, hconcat, getElem?_concat_length] at hline
        exact hlastParam (Option.some.inj hline ▸ htest)
      rw [if_neg hlastParam]
      omega
  | none =>
    have hnone : ∀ line ∈ doc, isParamLine line = false := by
      simpa [lastIndex?, findIdx?_eq_none_iff] using hindex
    have hlastParam : ¬ isParamLine last = true := by
      simp [hnone last (hconcat ▸ mem_concat_self)]
    have htarget : 0 < (doc.findIdx? isTagLine).getD (doc.length - 1) ∧
        (doc.findIdx? isTagLine).getD (doc.length - 1) < doc.length := by
      cases hfound : doc.findIdx? isTagLine with
      | none =>
        rw [Option.getD_none]
        omega
      | some target =>
        obtain ⟨hlt, hline, -⟩ := findIdx?_eq_some_iff_getElem.mp hfound
        refine ⟨Nat.pos_of_ne_zero ?_, hlt⟩
        rintro rfl
        rw [getElem?_eq_getElem hlt] at hfirst
        rw [Option.some.inj hfirst, htag] at hline
        cases hline
    have hstar : ∀ {p : Prop} [Decidable p] {line : String},
        line ∈ (if p then [indent ++ " *"] else []) → line = indent ++ " *" := by
      intro p _ line hline
      split at hline
      · exact mem_singleton.mp hline
      · exact absurd hline not_mem_nil
    refine ⟨_, _, rfl, htarget.1, ⟨_, _, rfl⟩, ?_, ?_⟩
    · intro line hline
      rcases mem_append.mp hline with hline | hafter
      · rcases mem_append.mp hline with hbefore | hnewLine
        · exact .inr (hstar hbefore)
        · exact .inl hnewLine
      · exact .inr (hstar hafter)
    · rw [if_neg hlastParam]
      exact htarget.2

/-- **Parameter lines inside.** New parameter lines end up inside a doc comment exactly if it
stands on one line or its last line has no parameter tag. The lines of a comment on several
lines stay as they are, in their order. -/
theorem extendDoc_inside_iff {indent : String} {doc new : List String} (hdoc : IsDocComment doc)
    (hindent : Blank indent.toList) (hnew : new ≠ []) (hopen : ∀ line ∈ new, StaysOpen line) :
    (HoldsInside new (extendDoc indent doc new) ↔
      doc.length = 1 ∨ ∀ last ∈ doc.getLast?, isParamLine last = false) ∧
    (2 ≤ doc.length → doc.Sublist (extendDoc indent doc new)) := by
  by_cases hlong : 2 ≤ doc.length
  · obtain ⟨index, block, heq, hpos, hinfix, hblock, hindex⟩ :=
      @exists_extendDoc_eq indent doc new hdoc hlong hnew
    rw [heq]
    refine ⟨?_, fun _ => sublist_insertAt index block doc⟩
    obtain ⟨last, hlast, -⟩ := hdoc.closes
    have hlast : doc.getLast? = some last := hlast
    rw [hlast, Option.any_some] at hindex
    by_cases hparam : isParamLine last = true
    · rw [if_pos hparam] at hindex
      obtain ⟨rfl, rfl⟩ := hindex
      constructor
      · -- The last line is a new one, which closes no comment.
        rintro ⟨⟨-, -, close, hclose, hcloses⟩, -⟩
        have hclose : (insertAt doc.length block doc).getLast? = some close := hclose
        rw [insertAt, take_length, drop_length, append_nil,
          getLast?_append_of_ne_nil _ hnew] at hclose
        exact absurd hcloses (hopen close (mem_of_getLast? hclose)).not_closes
      · rintro (hone | hnone)
        · omega
        · rw [hnone last hlast] at hparam
          cases hparam
    · rw [if_neg hparam] at hindex
      refine ⟨fun _ => .inr fun last' hlast' => ?_, fun _ => insertAt_holds hpos hindex hdoc ?_ hinfix⟩
      · cases hlast.symm.trans hlast'
        simpa using hparam
      · intro line hline
        rcases hblock line hline with hline | rfl
        · exact hopen line hline
        · exact .indented hindent (by decide)
  · obtain ⟨line, rfl⟩ : ∃ line, doc = [line] := by
      obtain ⟨last, hlast, -⟩ := hdoc.closes
      have := length_pos_of_mem (mem_of_mem_getLast? hlast)
      exact length_eq_one_iff.mp (by omega)
    obtain ⟨last, hlast, hcloses⟩ := hdoc.closes
    cases hlast
    exact ⟨⟨fun _ => .inl rfl, fun _ => extendDoc_line hcloses hindent hnew hopen⟩,
      fun h => absurd h hlong⟩

/-- A doc comment whose last line has a tag, behind a parameter with a description. -/
def taggedDoc : List String :=
  ["  /** Builds.", "   * @param int $a", "   *   First.", "   * @see Page */"]

/-- The lines of a new parameter. -/
def mailerLines : List String := ["   * @param object $mailer", "   *   The mailer."]

theorem inside_taggedDoc :
    HoldsInside mailerLines (extendDoc "  " taggedDoc mailerLines) ∧
      taggedDoc.Sublist (extendDoc "  " taggedDoc mailerLines) := by
  obtain ⟨hinside, hsublist⟩ := @extendDoc_inside_iff "  " taggedDoc mailerLines (by decide)
    (by decide) (by decide) (by decide)
  exact ⟨hinside.mpr (by decide), hsublist (by decide)⟩

/-- A doc comment whose last line has a parameter tag. -/
def paramClosingDoc : List String := ["  /**", "   * @param string $name */"]

/-- The new lines follow the end of the comment. -/
theorem outside_paramClosingDoc :
    IsDocComment paramClosingDoc ∧
      extendDoc "  " paramClosingDoc mailerLines = paramClosingDoc ++ mailerLines ∧
      ¬ HoldsInside mailerLines (extendDoc "  " paramClosingDoc mailerLines) := by
  decide

end ServiceInjection.Render
