import Mathlib.Data.List.Basic
import ServiceInjection.Proofs.Edit.Above
import ServiceInjection.Proofs.Wiring.CallText

/-!
# Wiring.LooseCalls

Calls that get edits of their own. An edit within a line changes that line and no other,
whatever ends the lines (`Batch.applyEdit_within`), and calls that are replaced from the last
to the first leave every line rewritten (`foldr_edit`). So a text with its calls replaced has
the lines of the old text, each with its own calls replaced (`pieces_foldr_edit`).
-/

namespace ServiceInjection

open Text List

variable {line text cs : List Char} {n column : Nat} {site : Replacement}
  {others : List Replacement}

/-! ### Lines and their ends -/

namespace Text

theorem lines_of_not_mem (h : '\n' ∉ line) : lines line = if line = [] then [] else [line] := by
  induction line with
  | nil => rfl
  | cons c line ih =>
    obtain ⟨hc, hline⟩ := not_or.mp (mt mem_cons.mpr h)
    rw [lines.eq_4 c line (Ne.symm hc) fun cs _ heq => hline (heq ▸ mem_cons_self), ih hline]
    by_cases hnil : line = [] <;> simp [hnil]

/-- The lines of a text are its pieces without carriage returns in front of the feeds; an
empty last piece is no line. -/
theorem lines_of_pieces {last : List Char} {front : List (List Char)}
    (h : pieces text = front ++ [last]) :
    lines text = front.map dropReturn ++ if last = [] then [] else [last] := by
  obtain ⟨hjoined, -, hlines⟩ := pieces_spec text
  rw [h] at hjoined hlines
  obtain ⟨hfront, hlast⟩ := forall_mem_append.mp hlines
  rw [joined_append (cons_ne_nil last []), joined_singleton] at hjoined
  clear h hlines
  induction front generalizing text with
  | nil =>
    rw [← hjoined]
    exact lines_of_not_mem (hlast last mem_cons_self)
  | cons line front ih =>
    obtain ⟨hline, hrest⟩ := forall_mem_cons.mp hfront
    rw [unlines_cons, append_assoc, cons_append] at hjoined
    rw [← hjoined, lines_feed hline, ih rfl hrest]
    rfl

theorem exists_pieces (text : List Char) : ∃ front last, pieces text = front ++ [last] := by
  obtain ⟨-, hne, -⟩ := pieces_spec text
  exact ⟨_, _, (dropLast_concat_getLast hne).symm⟩

theorem exists_dropReturn (line : List Char) : ∃ ending, line = dropReturn line ++ ending := by
  rw [dropReturn]
  split
  · exact ⟨_, (dropLast_append_getLast? _ ‹_›).symm⟩
  · exact ⟨[], (append_nil line).symm⟩

/-- A line and what stands behind it in front of its feed. -/
theorem exists_piece (h : (lines text)[n]? = some line) :
    ∃ ending, (pieces text)[n]? = some (line ++ ending) := by
  obtain ⟨front, last, hpieces⟩ := exists_pieces text
  rw [lines_of_pieces hpieces, getElem?_append, length_map] at h
  rw [hpieces, getElem?_append]
  split at h
  · rename_i hlt
    rw [if_pos hlt]
    obtain ⟨piece, hpiece, rfl⟩ := Option.map_eq_some_iff.mp (getElem?_map .. ▸ h)
    obtain ⟨ending, hending⟩ := exists_dropReturn piece
    exact ⟨ending, hpiece.trans (congrArg some hending)⟩
  · rename_i hlt
    rw [if_neg hlt]
    split at h
    · cases h
    · exact ⟨[], by rw [append_nil, h]⟩

end Text

/-! ### Edits within a line -/

namespace Batch

/-- What stands between a line and the end of the text. -/
theorem exists_joined_cons (after : List (List Char)) :
    ∃ rest : List Char, rest.takeWhile (· != '\n') = [] ∧
      ∀ line, joined (line :: after) = line ++ rest := by
  cases after with
  | nil => exact ⟨[], rfl, fun line => by simp⟩
  | cons next after =>
    exact ⟨'\n' :: joined (next :: after), rfl,
      fun line => joined_cons line (cons_ne_nil next after)⟩

/-- A column in a line, in front of a character that is no carriage return. -/
theorem offsetOf_within {before : List (List Char)} {front back rest : List Char}
    (hbefore : ∀ line ∈ before, '\n' ∉ line) (hline : '\n' ∉ front ++ back)
    (hrest : rest.takeWhile (· != '\n') = [])
    (hends : dropReturns (front ++ back) = front ++ dropReturns back) :
    offsetOf (width16 front) before.length (unlines before ++ (front ++ back ++ rest)) =
      (unlines before ++ front).length := by
  have hfeed : ∀ c ∈ front ++ back, (c != '\n') = true := fun c hc =>
    bne_iff_ne.mpr fun heq => hline (heq ▸ hc)
  have hoffset := offsetOf_behind_wholeLines (wholeLines_unlines before) (width16 front)
    (front ++ back ++ rest)
  rw [count_unlines hbefore] at hoffset
  rw [hoffset, offsetOf, takeWhile_append_of_pos hfeed, hrest, append_nil, hends,
    upToColumn_width16_append, length_append]

/-- An edit within a line changes that line only. -/
theorem applyEdit_within {before after : List (List Char)} {front middle back : List Char}
    {edit : Edit} (hbefore : ∀ line ∈ before, '\n' ∉ line)
    (hline : '\n' ∉ front ++ (middle ++ back)) (hmiddle : middle ≠ [])
    (hlast : middle.getLast? ≠ some '\r')
    (hstart : edit.range.start = ⟨before.length, width16 front⟩)
    (hstop : edit.range.stop = ⟨before.length, width16 (front ++ middle)⟩) :
    applyEdit (joined (before ++ (front ++ (middle ++ back)) :: after)) edit =
      joined (before ++ (front ++ (edit.text.toList ++ back)) :: after) := by
  obtain ⟨rest, hrest, hjoined⟩ := exists_joined_cons after
  have hreturns : ∀ cs : List Char, dropReturns (cs ++ (middle ++ back)) =
      cs ++ (middle ++ dropReturns back) := by
    intro cs
    have hend : (cs ++ middle).getLast? ≠ some '\r' := by
      rwa [getLast?_append_of_ne_nil _ hmiddle]
    rw [← append_assoc, dropReturns_append hend, append_assoc]
  have hfirst := @offsetOf_within before front (middle ++ back) rest hbefore hline hrest
    (by rw [hreturns front, show dropReturns (middle ++ back) = _ from hreturns []]; rfl)
  have hsecond := @offsetOf_within before (front ++ middle) back rest hbefore
    (by rwa [append_assoc]) hrest (by rw [append_assoc, hreturns front, append_assoc])
  rw [joined_append (cons_ne_nil _ after), joined_append (cons_ne_nil _ after), hjoined,
    hjoined, applyEdit, hstart, hstop]
  dsimp only
  rw [hfirst, ← append_assoc front, hsecond,
    Nat.max_eq_right (by simp only [length_append]; omega)]
  have htake : (unlines before ++ (front ++ middle ++ back ++ rest)).take
      (unlines before ++ front).length = unlines before ++ front := by
    rw [append_assoc, append_assoc, ← append_assoc (unlines before), take_left]
  have hdrop : (unlines before ++ (front ++ middle ++ back ++ rest)).drop
      (unlines before ++ (front ++ middle)).length = back ++ rest := by
    rw [append_assoc (front ++ middle), ← append_assoc (unlines before) (front ++ middle)
      (back ++ rest), drop_left]
  rw [htake, hdrop]
  simp only [append_assoc]

/-- An edit within the line of a number. -/
theorem applyEdit_set {ls : List (List Char)} {front middle back : List Char} {edit : Edit}
    (hls : ∀ line ∈ ls, '\n' ∉ line) (hn : ls[n]? = some (front ++ (middle ++ back)))
    (hmiddle : middle ≠ []) (hlast : middle.getLast? ≠ some '\r')
    (hstart : edit.range.start = ⟨n, width16 front⟩)
    (hstop : edit.range.stop = ⟨n, width16 (front ++ middle)⟩) :
    applyEdit (joined ls) edit = joined (ls.set n (front ++ (edit.text.toList ++ back))) := by
  obtain ⟨hlt, hline⟩ := List.getElem?_eq_some_iff.mp hn
  have hsplit : ls = ls.take n ++ (front ++ (middle ++ back)) :: ls.drop (n + 1) := by
    rw [← hline, ← drop_eq_getElem_cons hlt, take_append_drop]
  have hlength : (ls.take n).length = n := length_take_of_le (Nat.le_of_lt hlt)
  rw [← hlength] at hstart hstop
  have happly := @applyEdit_within (ls.take n) (ls.drop (n + 1)) front middle back edit
    (fun line hmem => hls line (mem_of_mem_take hmem)) (hls _ (mem_of_getElem? hn)) hmiddle
    hlast hstart hstop
  rw [← hsplit] at happly
  rw [happly, set_eq_take_append_cons_drop, if_pos hlt]

end Batch

/-! ### Calls of a text -/

/-- Lines with their calls replaced. -/
def rewriteLines (sites : List Replacement) (ls : List (List Char)) : List (List Char) :=
  ls.mapIdx fun n line => rewriteFrom (sites.filter (·.call.line == n)) 0 line

theorem rewriteLines_nil (ls : List (List Char)) : rewriteLines [] ls = ls :=
  ext_getElem? fun n => by simp [rewriteLines, rewriteFrom]

theorem getElem?_rewriteLines (sites : List Replacement) (ls : List (List Char)) (n : Nat) :
    (rewriteLines sites ls)[n]? =
      ls[n]?.map (rewriteFrom (sites.filter (·.call.line == n)) 0) :=
  getElem?_mapIdx

/-- Whether calls stand in the lines of a text, and what replaces them stays on the line. -/
structure SitedIn (ls : List (List Char)) (sites : List Replacement) : Prop where
  inside : ∀ site ∈ sites, site.call.line < ls.length
  sited : ∀ n line, ls[n]? = some line → Sited (sites.filter (·.call.line == n)) 0 line
  ends : ∀ site ∈ sites, site.call.text.toList.getLast? ≠ some '\r'
  inline : ∀ site ∈ sites, '\n' ∉ site.text.toList

theorem Sited.tail (h : Sited (site :: others) column cs) : Sited others column cs := by
  cases h with
  | @cons _ _ _ gap rest hstart hstop hsolid hothers =>
    rw [← append_assoc]
    exact (hstop ▸ hothers).behind.1

theorem SitedIn.tail {ls : List (List Char)} (h : SitedIn ls (site :: others)) :
    SitedIn ls others where
  inside := fun other hother => h.inside other (mem_cons_of_mem _ hother)
  sited := fun n line hline => by
    have hsited := h.sited n line hline
    rw [filter_cons] at hsited
    split at hsited
    · exact hsited.tail
    · exact hsited
  ends := fun other hother => h.ends other (mem_cons_of_mem _ hother)
  inline := fun other hother => h.inline other (mem_cons_of_mem _ hother)

/-- A line with calls replaced holds what the line held and what replaces them. -/
theorem mem_rewriteFrom {sites : List Replacement} (h : Sited sites column cs) {c : Char}
    (hc : c ∈ rewriteFrom sites column cs) : c ∈ cs ∨ ∃ site ∈ sites, c ∈ site.text.toList := by
  induction h with
  | nil => exact .inl hc
  | @cons site others column gap rest hstart hstop hsolid hothers ih =>
    rw [rewriteFrom_cons hstart hstop] at hc
    rcases mem_append.mp hc with hc | hc
    · exact .inl (mem_append_left _ hc)
    · rcases mem_append.mp hc with hc | hc
      · exact .inr ⟨site, mem_cons_self, hc⟩
      · rcases ih hc with hc | ⟨other, hother, hc⟩
        · exact .inl (mem_append_right _ (mem_append_right _ hc))
        · exact .inr ⟨other, mem_cons_of_mem _ hother, hc⟩

section

variable {ls : List (List Char)} {sites : List Replacement}

theorem SitedIn.isLine (h : SitedIn ls sites) (hls : ∀ line ∈ ls, '\n' ∉ line) :
    ∀ line ∈ rewriteLines sites ls, '\n' ∉ line := by
  intro line hline hfeed
  obtain ⟨n, hn⟩ := getElem?_of_mem hline
  rw [getElem?_rewriteLines] at hn
  obtain ⟨old, hold, rfl⟩ := Option.map_eq_some_iff.mp hn
  rcases mem_rewriteFrom (h.sited n old hold) hfeed with hfeed | ⟨site, hsite, hfeed⟩
  · exact hls old (mem_of_getElem? hold) hfeed
  · exact h.inline site (mem_filter.mp hsite).1 hfeed

/-- One more call replaced, in front of the others. -/
theorem rewriteLines_cons (hline : ls[site.call.line]? = some line) :
    rewriteLines (site :: others) ls = (rewriteLines others ls).set site.call.line
      (rewriteFrom (site :: others.filter (·.call.line == site.call.line)) 0 line) := by
  refine ext_getElem? fun n => ?_
  rw [getElem?_set, getElem?_rewriteLines, getElem?_rewriteLines, filter_cons]
  by_cases hn : site.call.line = n
  · subst hn
    obtain ⟨hlt, rfl⟩ := List.getElem?_eq_some_iff.mp hline
    simp [rewriteLines, hlt]
  · simp [hn]

/-- **Edits of calls.** Made from the last to the first, they leave every line with its calls
replaced. -/
theorem foldr_edit (h : SitedIn ls sites) (hls : ∀ line ∈ ls, '\n' ∉ line) :
    sites.foldr (fun site text => Batch.applyEdit text site.edit) (joined ls) =
      joined (rewriteLines sites ls) := by
  induction sites with
  | nil => rw [rewriteLines_nil, foldr_nil]
  | cons site others ih =>
    have hlt := h.inside site mem_cons_self
    have hline := getElem?_eq_getElem hlt
    generalize ls[site.call.line] = line at hline
    have hsited := h.sited _ line hline
    rw [filter_cons_of_pos (by simp)] at hsited
    rw [foldr_cons, ih h.tail, rewriteLines_cons hline]
    generalize hlater : others.filter (·.call.line == site.call.line) = later at hsited
    cases hsited with
    | @cons _ _ _ gap rest hstart hstop hsolid hothers =>
      rw [Nat.zero_add] at hstart hstop
      have hnew : (rewriteLines others ls)[site.call.line]? =
          some (gap ++ (site.call.text.toList ++ rewriteFrom later site.call.endColumn rest)) := by
        have hbehind := @Sited.behind later 0 rest (gap ++ site.call.text.toList)
          (by rwa [Nat.zero_add, ← hstop])
        rw [getElem?_rewriteLines, hline, hlater, ← append_assoc, Option.map_some, hbehind.2,
          Nat.zero_add, ← hstop, append_assoc]
      rw [Batch.applyEdit_set (h.tail.isLine hls) hnew (fun hnil => hsolid (hnil ▸ nofun))
        (h.ends site mem_cons_self) (congrArg _ hstart) (congrArg _ hstop),
        rewriteFrom_cons (by rw [hstart, Nat.zero_add]) (by rw [hstop, Nat.zero_add])]
      rfl

/-- A text with its calls replaced has the lines of the old one, each with its calls
replaced. -/
theorem pieces_foldr_edit (h : SitedIn (pieces text) sites) :
    pieces (sites.foldr (fun site text => Batch.applyEdit text site.edit) text) =
      rewriteLines sites (pieces text) := by
  obtain ⟨hjoined, hne, hlines⟩ := pieces_spec text
  have hfold := foldr_edit h hlines
  rw [hjoined] at hfold
  rw [hfold, pieces_joined (h.isLine hlines)]
  exact fun hnil => hne (mapIdx_eq_nil_iff.mp hnil)

/-- A line stays empty or not, if nothing is replaced by nothing. -/
theorem Sited.rewriteFrom_eq_nil_iff (h : Sited sites column cs)
    (hnew : ∀ site ∈ sites, site.text.toList ≠ []) :
    rewriteFrom sites column cs = [] ↔ cs = [] := by
  cases h with
  | nil => exact Iff.rfl
  | cons hstart hstop hsolid _ =>
    rw [rewriteFrom_cons hstart hstop]
    simp only [append_eq_nil_iff]
    exact ⟨fun hnil => absurd hnil.2.1 (hnew _ mem_cons_self),
      fun hnil => absurd (fun c hc => by simp [hnil.2.1] at hc) hsolid⟩

/-- The number of lines stays. -/
theorem length_lines_of_pieces {new : List Char} (h : SitedIn (pieces text) sites)
    (hnew : ∀ site ∈ sites, site.text.toList ≠ [])
    (hpieces : pieces new = rewriteLines sites (pieces text)) :
    (lines new).length = (lines text).length := by
  obtain ⟨front, last, hsplit⟩ := exists_pieces text
  have hlast := h.sited front.length last (by rw [hsplit, getElem?_concat_length])
  have hnil := hlast.rewriteFrom_eq_nil_iff fun site hsite => hnew site (mem_filter.mp hsite).1
  rw [hsplit, rewriteLines, mapIdx_concat] at hpieces
  rw [lines_of_pieces hpieces, lines_of_pieces hsplit, length_append, length_append,
    length_map, length_map, length_mapIdx]
  simp only [hnil]
  split <;> rfl

end

/-- The text of a call ends with a parenthesis. -/
theorem StaticCall.Found.getLast? {line : Line} {call : StaticCall} (h : call.Found n line) :
    call.text.toList.getLast? = some ')' := by
  obtain ⟨-, i, j, hstands, -, -, htext⟩ := h
  obtain ⟨-, -, -, hlast⟩ := hstands.ends
  obtain ⟨hlt, hle⟩ := hstands.lt_and_le
  rw [htext, String.toList_ofList, getLast?_eq_getElem?, getElem?_drop, length_drop,
    length_take_of_le hle, show i + (j - i - 1) = j - 1 by omega,
    getElem?_take_of_lt (by omega), hlast]

theorem Source.getElem?_lines_ofText (text : String) (n : Nat) :
    (Text.lines text.toList)[n]? = (Source.ofText text).lines[n]?.map Line.raw := by
  rw [← getElem?_map]
  exact congrArg (·[n]?) (raw_maskLines .code (Text.lines text.toList)).symm

open StaticCall in
/-- Calls that are found in a text stand in its lines, whatever ends the lines. -/
theorem sitedIn_pieces {text : String} {sites : List Replacement}
    (hcalls : (sites.map (·.call)).Sublist (detect (Source.ofText text)))
    (hinline : ∀ site ∈ sites, '\n' ∉ site.text.toList) : SitedIn (pieces text.toList) sites := by
  have hholding := Source.holding_of_sublist hcalls
  have hdetected : ∀ site ∈ sites, site.call.line < (Source.ofText text).size :=
    fun site hsite => (found_of_mem_detect (hcalls.subset (mem_map_of_mem hsite))).1
  have hpiece : ∀ n, n < (Source.ofText text).size →
      ∃ ending, (pieces text.toList)[n]? = some ((Source.ofText text).raw n ++ ending) := by
    intro n hn
    refine exists_piece ?_
    have hline : (Source.ofText text).lines[n]? = some ((Source.ofText text).line n) := by
      rw [Source.line, getD_eq_getElem?_getD, getElem?_eq_getElem hn]
      rfl
    rw [Source.getElem?_lines_ofText, hline]
    rfl
  refine ⟨fun site hsite => ?_, fun n piece hn => ?_, fun site hsite => ?_, hinline⟩
  · obtain ⟨ending, hending⟩ := hpiece _ (hdetected site hsite)
    exact (List.getElem?_eq_some_iff.mp hending).1
  · by_cases hsize : n < (Source.ofText text).size
    · obtain ⟨ending, hending⟩ := hpiece n hsize
      cases hending.symm.trans hn
      exact ((sited_line n hholding).append ending).1
    · have hnone : sites.filter (·.call.line == n) = [] := by
        refine filter_eq_nil_iff.mpr fun site hsite hline => hsize ?_
        exact beq_iff_eq.mp hline ▸ hdetected site hsite
      exact hnone ▸ .nil 0 piece
  · rw [(hholding.found site hsite).getLast?]
    decide

end ServiceInjection
