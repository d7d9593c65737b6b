import Mathlib.Data.List.Pairwise
import ServiceInjection.Proofs.Call.Disjoint
import ServiceInjection.Proofs.Source.Lists
import ServiceInjection.Wiring.CallSites

/-!
# Wiring.CallText

The text of a constructor body with its calls replaced. `rewriteFrom` says what is meant:
each call gives way to its replacement, and the text between the calls stays.

* `patchLines_eq`: a body on lines of its own is patched from its end to its start, and
  every line comes out rewritten.
* `patchSingleLine_eq`: a body on one line is patched by looking for the text of each
  call, which finds the calls exactly if each text occurs first where its call stands
  (`InTurn`).
-/

namespace ServiceInjection

open Text List

variable {front rest : List Char} {sites : List Replacement}

/-! ### Rewriting -/

/-- A text that starts at a column, with calls in it replaced. The calls come in their
order. -/
def rewriteFrom : List Replacement → Nat → List Char → List Char
  | [], _, cs => cs
  | site :: others, column, cs =>
    upToColumn (site.call.startColumn - column) cs ++ (site.text.toList ++
      rewriteFrom others site.call.endColumn
        (cs.drop (upToColumn (site.call.endColumn - column) cs).length))

/-- Whether calls stand in a text that starts at a column, one behind the other. -/
inductive Sited : List Replacement → Nat → List Char → Prop
  | nil (column : Nat) (cs : List Char) : Sited [] column cs
  | cons {site : Replacement} {others : List Replacement} {column : Nat} {gap rest : List Char}
      (hstart : site.call.startColumn = column + width16 gap)
      (hstop : site.call.endColumn = column + width16 (gap ++ site.call.text.toList))
      (hsolid : ¬ Blank site.call.text.toList)
      (hothers : Sited others site.call.endColumn rest) :
      Sited (site :: others) column (gap ++ (site.call.text.toList ++ rest))

section

variable {site : Replacement} {others sites : List Replacement} {column : Nat}
  {gap rest cs : List Char}

theorem upToColumn_stop (hstop : site.call.endColumn = column + width16 (gap ++ site.call.text.toList)) :
    upToColumn (site.call.endColumn - column) (gap ++ (site.call.text.toList ++ rest)) =
      gap ++ site.call.text.toList := by
  rw [hstop, Nat.add_sub_cancel_left, ← append_assoc, upToColumn_width16_append]

theorem upToColumn_start (hstart : site.call.startColumn = column + width16 gap) :
    upToColumn (site.call.startColumn - column) (gap ++ cs) = gap := by
  rw [hstart, Nat.add_sub_cancel_left, upToColumn_width16_append]

/-- The first call of a text gives way to its replacement. -/
theorem rewriteFrom_cons (hstart : site.call.startColumn = column + width16 gap)
    (hstop : site.call.endColumn = column + width16 (gap ++ site.call.text.toList)) :
    rewriteFrom (site :: others) column (gap ++ (site.call.text.toList ++ rest)) =
      gap ++ (site.text.toList ++ rewriteFrom others site.call.endColumn rest) := by
  have hdrop : (gap ++ (site.call.text.toList ++ rest)).drop
      (gap ++ site.call.text.toList).length = rest := by
    rw [← append_assoc, drop_left]
  rw [rewriteFrom, upToColumn_start hstart, upToColumn_stop hstop, hdrop]

theorem Sited.append (h : Sited sites column cs) (back : List Char) :
    Sited sites column (cs ++ back) ∧
      rewriteFrom sites column (cs ++ back) = rewriteFrom sites column cs ++ back := by
  induction h with
  | nil column cs => exact ⟨.nil _ _, rfl⟩
  | cons hstart hstop hsolid _ ih =>
    rw [append_assoc, append_assoc, rewriteFrom_cons hstart hstop,
      rewriteFrom_cons hstart hstop, ih.2, append_assoc, append_assoc]
    exact ⟨.cons hstart hstop hsolid ih.1, rfl⟩

/-- Text in front of the calls stays. -/
theorem Sited.behind {front : List Char} (h : Sited sites (column + width16 front) cs) :
    Sited sites column (front ++ cs) ∧
      rewriteFrom sites column (front ++ cs) =
        front ++ rewriteFrom sites (column + width16 front) cs := by
  cases h with
  | nil => exact ⟨.nil _ _, rfl⟩
  | @cons site others _ gap rest hstart hstop hsolid hothers =>
    have hstart' : site.call.startColumn = column + width16 (front ++ gap) := by
      rw [hstart, width16_append, Nat.add_assoc]
    have hstop' : site.call.endColumn =
        column + width16 (front ++ gap ++ site.call.text.toList) := by
      rw [hstop, append_assoc, width16_append front, Nat.add_assoc]
    rw [rewriteFrom_cons hstart hstop, ← append_assoc, rewriteFrom_cons hstart' hstop']
    exact ⟨.cons hstart' hstop' hsolid hothers, append_assoc ..⟩

/-- Text in front of the calls and behind them stays. -/
theorem Sited.rewriteFrom_around (h : Sited sites (column + width16 front) cs) (back : List Char) :
    rewriteFrom sites column (front ++ (cs ++ back)) =
      front ++ (rewriteFrom sites (column + width16 front) cs ++ back) := by
  obtain ⟨hsited, hback⟩ := h.append back
  rw [hsited.behind.2, hback]

/-- A text with calls in it is not blank. -/
theorem Sited.eq_nil_of_blank (h : Sited sites column cs) (hblank : Blank cs) : sites = [] := by
  cases h with
  | nil => rfl
  | cons _ _ hsolid _ =>
    exact absurd (fun c hc => hblank c (mem_append_right _ (mem_append_left _ hc))) hsolid

end

/-! ### Calls of a line -/

namespace StaticCall

/-- A call starts with a character that is not blank, and ends with a parenthesis. -/
theorem Stands.ends {line : Line} {i j : Nat} (h : Stands line i j) :
    ∃ c, line.raw[i]? = some c ∧ isBlank c = false ∧ line.raw[j - 1]? = some ')' := by
  obtain ⟨head, body, rest, hhead, -, hraw, rfl, -⟩ := h
  obtain ⟨c, tail, hc, rfl⟩ := hhead.eq_cons
  have hat : ∀ k, line.raw[i + k]? = ((c :: tail) ++ '(' :: (body ++ ')' :: rest))[k]? := by
    intro k
    rw [← hraw, getElem?_drop]
  refine ⟨c, hat 0, Bool.eq_false_iff.mpr hc.not_blank, ?_⟩
  rw [show i + ((c :: tail).length + body.length + 2) - 1 =
      i + ((c :: tail) ++ '(' :: body).length by simp; omega, hat,
    show (c :: tail) ++ '(' :: (body ++ ')' :: rest) =
      ((c :: tail) ++ '(' :: body) ++ ')' :: rest by simp,
    getElem?_append_right (Nat.le_refl _), Nat.sub_self]
  rfl

/-- Whether a call stands between two cells of a line. -/
def FoundIn (line : Line) (p q : Nat) (call : StaticCall) : Prop :=
  ∃ i j, Stands line i j ∧ p ≤ i ∧ j ≤ q ∧ call.startColumn = width16 (line.raw.take i) ∧
    call.endColumn = width16 (line.raw.take j) ∧ call.text = String.ofList ((line.raw.take j).drop i)

theorem Found.foundIn {n : Nat} {line : Line} {call : StaticCall} (h : Found n line call) :
    FoundIn line 0 line.raw.length call := by
  obtain ⟨-, i, j, hstands, hcolumns⟩ := h
  exact ⟨i, j, hstands, Nat.zero_le i, hstands.lt_and_le.2, hcolumns⟩

end StaticCall

theorem take_drop_append {α : Type} {l : List α} {a b q : Nat} (hab : a ≤ b) (hbq : b ≤ q) :
    (l.take b).drop a ++ (l.take q).drop b = (l.take q).drop a := by
  have hsum : q - a = (b - a) + (q - b) := by omega
  rw [drop_take, drop_take, drop_take, hsum, take_add, drop_drop,
    Nat.add_sub_cancel' hab]

theorem take_append_drop_take {α : Type} {l : List α} {p k : Nat} (h : p ≤ k) :
    l.take p ++ (l.take k).drop p = l.take k :=
  @take_drop_append α l 0 p k (Nat.zero_le p) h

open StaticCall in
/-- Calls that are found in a piece of a line, in their order. -/
theorem sited_of_foundIn {line : Line} {sites : List Replacement} {p q : Nat}
    (hp : p ≤ line.raw.length)
    (hfound : ∀ site ∈ sites, site.call.FoundIn line p q)
    (hordered : sites.Pairwise fun a b => a.call.endColumn ≤ b.call.startColumn) :
    Sited sites (width16 (line.raw.take p)) ((line.raw.take q).drop p) := by
  induction sites generalizing p with
  | nil => exact .nil _ _
  | cons site others ih =>
    obtain ⟨hlater, hothers⟩ := pairwise_cons.mp hordered
    obtain ⟨i, j, hstands, hpi, hjq, hstart, hstop, htext⟩ := hfound site mem_cons_self
    obtain ⟨hij, hj⟩ := hstands.lt_and_le
    have htoList : site.call.text.toList = (line.raw.take j).drop i := by
      rw [htext, String.toList_ofList]
    have hbehind : ∀ other ∈ others, other.call.FoundIn line j q := by
      intro other hother
      obtain ⟨i', j', hstands', hpi', hjq', hstart', hrest'⟩ :=
        hfound other (mem_cons_of_mem _ hother)
      refine ⟨i', j', hstands', Nat.le_of_not_lt fun hlt => ?_, hjq', hstart', hrest'⟩
      have hle := hlater other hother
      have hwidth := width16_take_lt hlt hj
      omega
    have hsplit : (line.raw.take q).drop p =
        (line.raw.take i).drop p ++ (site.call.text.toList ++ (line.raw.take q).drop j) := by
      rw [htoList, take_drop_append (Nat.le_of_lt hij) hjq,
        take_drop_append hpi (Nat.le_trans (Nat.le_of_lt hij) hjq)]
    have hwidth : ∀ {k : Nat}, p ≤ k → width16 (line.raw.take k) =
        width16 (line.raw.take p) + width16 ((line.raw.take k).drop p) := by
      intro k hk
      rw [← width16_append, take_append_drop_take hk]
    have hsolid : ¬ Blank site.call.text.toList := by
      obtain ⟨c, hc, hblank, -⟩ := hstands.ends
      rw [htoList]
      intro h
      rw [h c (mem_of_getElem? (i := 0) ?_)] at hblank
      · cases hblank
      · rw [getElem?_drop, getElem?_take_of_lt (by omega), Nat.add_zero, hc]
    rw [hsplit]
    refine .cons (hstart.trans (hwidth hpi)) ?_ hsolid ?_
    · rw [htoList, take_drop_append hpi (Nat.le_of_lt hij), hstop,
        hwidth (Nat.le_trans hpi (Nat.le_of_lt hij))]
    · rw [hstop]
      exact ih hj hbehind hothers

/-- Whether the calls to be replaced are found in a source and come in its order. -/
structure Source.Holding (source : Source) (sites : List Replacement) : Prop where
  found : ∀ site ∈ sites, site.call.Found site.call.line (source.line site.call.line)
  ordered : sites.Pairwise fun a b => a.call.Before b.call

theorem Source.Holding.filter {source : Source} (h : source.Holding sites)
    (kept : Replacement → Bool) : source.Holding (sites.filter kept) :=
  ⟨fun site hsite => h.found site (mem_filter.mp hsite).1, h.ordered.filter kept⟩

open StaticCall in
theorem Source.holding_of_sublist {text : String}
    (h : (sites.map (·.call)).Sublist (detect (Source.ofText text))) :
    (Source.ofText text).Holding sites :=
  ⟨fun _ hsite => (found_of_mem_detect (h.subset (mem_map_of_mem hsite))).2,
    pairwise_map.mp ((pairwise_detect text).sublist h)⟩

open StaticCall in
/-- Calls that are found in a source stand in their lines. -/
theorem sited_line {source : Source} (n : Nat) (h : source.Holding sites) :
    Sited (sites.filter (·.call.line == n)) 0 (source.raw n) := by
  have hmem : ∀ {site}, site ∈ sites.filter (·.call.line == n) →
      site ∈ sites ∧ site.call.line = n := by simp
  have hsited := @sited_of_foundIn (source.line n) (sites.filter (·.call.line == n)) 0
    (source.raw n).length (Nat.zero_le _) ?_ ?_
  · rwa [take_zero, drop_zero, show (source.line n).raw = source.raw n from rfl,
      take_length] at hsited
  · intro site hsite
    obtain ⟨hsites, rfl⟩ := hmem hsite
    exact (h.found site hsites).foundIn
  · refine (h.ordered.filter _).imp_of_mem fun ha hb hbefore => ?_
    have hsame := (hmem ha).2.trans (hmem hb).2.symm
    rcases hbefore with hlt | ⟨-, hle⟩
    · omega
    · exact hle

/-! ### Bodies on lines of their own -/

/-- The edit of one call in a line. -/
theorem replaceColumns_eq {site : Replacement} (hstart : site.call.startColumn = width16 front)
    (hstop : site.call.endColumn = width16 (front ++ site.call.text.toList)) :
    replaceColumns site.call.startColumn site.call.endColumn site.text
        (String.ofList (front ++ (site.call.text.toList ++ rest))) =
      String.ofList (front ++ (site.text.toList ++ rest)) := by
  have hthrough : upToColumn site.call.endColumn (front ++ (site.call.text.toList ++ rest)) =
      front ++ site.call.text.toList := by
    rw [hstop, ← append_assoc, upToColumn_width16_append]
  have hdrop : (front ++ (site.call.text.toList ++ rest)).drop
      (front ++ site.call.text.toList).length = rest := by
    rw [← append_assoc, drop_left]
  simp only [replaceColumns, String.toList_ofList, hthrough, hdrop]
  rw [hstart, upToColumn_width16_append, append_assoc]

/-- Calls of a line that are replaced from the last to the first. -/
theorem foldr_replaceColumns {sites : List Replacement} {front cs : List Char}
    (h : Sited sites (width16 front) cs) :
    sites.foldr (fun site => replaceColumns site.call.startColumn site.call.endColumn site.text)
        (String.ofList (front ++ cs)) =
      String.ofList (front ++ rewriteFrom sites (width16 front) cs) := by
  generalize hcolumn : width16 front = column at h ⊢
  induction h generalizing front with
  | nil => rfl
  | @cons site others column gap rest hstart hstop hsolid hothers ih =>
    subst hcolumn
    have hstart' := hstart
    have hstop' := hstop
    rw [← width16_append] at hstart'
    rw [← width16_append, ← append_assoc] at hstop'
    have hinner := @ih (front ++ gap ++ site.call.text.toList) hstop'.symm
    rw [append_assoc (front ++ gap), append_assoc (front ++ gap)] at hinner
    rw [foldr_cons, ← append_assoc, hinner, replaceColumns_eq hstart' hstop',
      rewriteFrom_cons hstart hstop, append_assoc]

/-- Where a replacement starts. -/
def Replacement.start (patch : Replacement) : Position := ⟨patch.call.line, patch.call.startColumn⟩

theorem start_lt_of_before {a b : Replacement} (h : a.call.Before b.call)
    (hcolumns : a.call.startColumn < a.call.endColumn) : a.start < b.start := by
  rw [Position.lt_def]
  simp only [Replacement.start]
  rcases h with h | ⟨hline, hle⟩
  · exact .inl h
  · exact .inr ⟨hline, Nat.lt_of_lt_of_le hcolumns hle⟩

/-- Replacements in the order of the text are sorted from the last to the first by
turning them around. -/
theorem mergeSort_start {patches : List Replacement}
    (h : patches.Pairwise fun a b => a.start < b.start) :
    patches.mergeSort (fun a b => b.start.le a.start) = patches.reverse := by
  refine @List.Perm.eq_of_pairwise _ (fun a b => b.start.le a.start = true) _ _ ?_ ?_ ?_ ?_
  · intro a b ha hb hab hba
    refine Classical.byContradiction fun hne => ?_
    have : Std.Symm fun a b : Replacement => a.start ≠ b.start := ⟨fun _ _ => Ne.symm⟩
    have hapart : patches.Pairwise fun a b => a.start ≠ b.start := h.imp Position.ne_of_lt
    exact hapart.forall (mem_mergeSort.mp ha) (mem_reverse.mp hb) hne
      (Position.le_antisymm hba hab)
  · refine pairwise_mergeSort ?_ ?_ patches
    · intro a b c hab hbc
      exact Position.le_trans hbc hab
    · intro a b
      rw [Bool.or_eq_true]
      by_cases hle : b.start ≤ a.start
      · exact .inl hle
      · exact .inr (Position.le_of_lt (Position.not_le.mp hle))
  · exact pairwise_reverse.mpr (h.imp Position.le_of_lt)
  · exact (mergeSort_perm patches _).trans (reverse_perm patches).symm

/-- The edit of one call in a body whose first line has number `first + 1`. -/
def patchLine (first last : Nat) (patch : Replacement) (body : List String) : List String :=
  if patch.call.line ≤ first || last ≤ patch.call.line then body
  else body.modify (patch.call.line - first - 1)
    (replaceColumns patch.call.startColumn patch.call.endColumn patch.text)

/-- A line of a body is edited by the patches of that line. -/
theorem getElem?_foldr_patchLine {first last k : Nat} {line : String} (patches : List Replacement)
    {body : List String} (hk : first + 1 + k < last) (hline : body[k]? = some line) :
    (patches.foldr (patchLine first last) body)[k]? =
      some ((patches.filter (·.call.line == first + 1 + k)).foldr
        (fun patch => replaceColumns patch.call.startColumn patch.call.endColumn patch.text) line) := by
  induction patches with
  | nil => exact hline
  | cons patch patches ih =>
    rw [foldr_cons, patchLine]
    by_cases hout : (patch.call.line ≤ first || last ≤ patch.call.line) = true
    · rw [if_pos hout, ih]
      simp only [Bool.or_eq_true, decide_eq_true_eq] at hout
      have hother : (patch.call.line == first + 1 + k) = false := by
        rw [beq_eq_false_iff_ne]
        omega
      simp only [filter_cons, hother, Bool.false_eq_true, if_false]
    · rw [if_neg hout, getElem?_modify, ih]
      simp only [Bool.or_eq_true, decide_eq_true_eq, not_or] at hout
      by_cases hsame : patch.call.line = first + 1 + k
      · have hindex : first + 1 + k - first - 1 = k := by omega
        simp [hsame, hindex]
      · have hindex : patch.call.line - first - 1 ≠ k := by omega
        simp [hsame, hindex]

theorem length_foldr_patchLine (first last : Nat) (patches : List Replacement) (body : List String) :
    (patches.foldr (patchLine first last) body).length = body.length := by
  induction patches with
  | nil => rfl
  | cons patch patches ih =>
    rw [foldr_cons, patchLine]
    split
    · exact ih
    · rw [length_modify, ih]

open StaticCall in
/-- **A body on lines of its own.** Every line of it comes out with its calls replaced. -/
theorem patchLines_eq {source : Source} {ctor : Constructor} {patches : List Replacement}
    (hbody : ctor.body = (Source.span (ctor.openBraceLine + 1) (ctor.endLine - 1)).map fun n =>
      (source.line n).text) (h : source.Holding patches) :
    patchLines ctor patches = (Source.span (ctor.openBraceLine + 1) (ctor.endLine - 1)).map fun n =>
      String.ofList (rewriteFrom (patches.filter (·.call.line == n)) 0 (source.raw n)) := by
  have hstarts : patches.Pairwise fun a b => a.start < b.start :=
    h.ordered.imp_of_mem fun ha _ hbefore => start_lt_of_before hbefore (h.found _ ha).columns.1
  have hline := fun n => sited_line n h
  have hfold : patchLines ctor patches =
      patches.foldr (patchLine ctor.openBraceLine ctor.endLine) ctor.body := by
    rw [patchLines]
    simp only [show (fun a b : Replacement => (⟨b.call.line, b.call.startColumn⟩ : Position).le
      ⟨a.call.line, a.call.startColumn⟩) = fun a b => b.start.le a.start from rfl,
      mergeSort_start hstarts, foldl_reverse]
    rfl
  rw [hfold]
  refine ext_getElem ?_ fun k hk hk' => ?_
  · rw [length_foldr_patchLine, hbody, length_map, length_map]
  · rw [length_map, Source.span, length_range'] at hk'
    have hlt : ctor.openBraceLine + 1 + k < ctor.endLine := by omega
    have hspan : (Source.span (ctor.openBraceLine + 1) (ctor.endLine - 1))[k]? =
        some (ctor.openBraceLine + 1 + k) := by
      rw [Source.span, getElem?_range' hk', Nat.one_mul]
    have hbodyLine : ctor.body[k]? = some (String.ofList (source.raw (ctor.openBraceLine + 1 + k))) := by
      rw [hbody, getElem?_map, hspan]
      rfl
    have hedited := @foldr_replaceColumns _ [] _ (hline (ctor.openBraceLine + 1 + k))
    rw [nil_append, nil_append] at hedited
    refine Option.some.inj ?_
    rw [← getElem?_eq_getElem, ← getElem?_eq_getElem,
      getElem?_foldr_patchLine patches hlt hbodyLine, getElem?_map, hspan, hedited]
    rfl

/-! ### Bodies on one line -/

/-- Whether the text of each call first occurs where the call stands, once the calls in
front of it are replaced: `done` is the text in front with its calls replaced, and `rest`
starts at the column. -/
def InTurn : List Replacement → List Char → Nat → List Char → Prop
  | [], _, _, _ => True
  | site :: others, done, column, rest =>
    let front := done ++ upToColumn (site.call.startColumn - column) rest
    (∀ k < front.length, ¬ site.call.text.toList <+: (done ++ rest).drop k) ∧
      InTurn others (front ++ site.text.toList) site.call.endColumn
        (rest.drop (upToColumn (site.call.endColumn - column) rest).length)

instance : ∀ (sites : List Replacement) (done : List Char) (column : Nat) (rest : List Char),
    Decidable (InTurn sites done column rest)
  | [], _, _, _ => .isTrue trivial
  | _ :: others, _, _, _ =>
    have := instDecidableInTurn others
    inferInstanceAs (Decidable (_ ∧ _))

/-- A text is replaced where it occurs first. -/
theorem replaceFirst_eq {needle new : List Char} (hne : needle ≠ [])
    (h : ∀ k < front.length, ¬ needle <+: (front ++ (needle ++ rest)).drop k) :
    replaceFirst needle new (front ++ (needle ++ rest)) = front ++ (new ++ rest) := by
  induction front with
  | nil =>
    obtain ⟨c, cs, rfl⟩ := exists_cons_of_ne_nil hne
    have hprefix : (c :: cs).isPrefixOf (c :: (cs ++ rest)) = true :=
      isPrefixOf_iff_prefix.mpr (prefix_append (c :: cs) rest)
    show replaceFirst (c :: cs) new (c :: (cs ++ rest)) = new ++ rest
    rw [replaceFirst, if_pos hprefix]
    exact congrArg (new ++ ·) (@drop_left _ (c :: cs) _)
  | cons c front ih =>
    have hfirst : ¬ needle.isPrefixOf (c :: (front ++ (needle ++ rest))) = true := fun hprefix =>
      h 0 (Nat.zero_lt_succ _) (List.isPrefixOf_iff_prefix.mp hprefix)
    have hlater := ih fun k hk => h (k + 1) (Nat.succ_lt_succ hk)
    rw [cons_append, replaceFirst, if_neg hfirst, hlater, cons_append]

/-- Calls that are looked for one after the other are found where they stand. -/
theorem foldl_replaceFirst {column : Nat} {done : List Char} (hsited : Sited sites column rest)
    (hturn : InTurn sites done column rest) :
    sites.foldl (fun line site => replaceFirst site.call.text.toList site.text.toList line)
        (done ++ rest) = done ++ rewriteFrom sites column rest := by
  induction hsited generalizing done with
  | nil => rfl
  | @cons site others column gap rest hstart hstop hsolid hothers ih =>
    have hne : site.call.text.toList ≠ [] := fun hnil => hsolid (hnil ▸ nofun)
    obtain ⟨hfirst, hturn⟩ := hturn
    have hdrop : (gap ++ (site.call.text.toList ++ rest)).drop
        (gap ++ site.call.text.toList).length = rest := by
      rw [← append_assoc, drop_left]
    rw [upToColumn_start hstart] at hfirst hturn
    rw [upToColumn_stop hstop, hdrop] at hturn
    rw [← append_assoc] at hfirst ⊢
    rw [foldl_cons, replaceFirst_eq hne hfirst, ← append_assoc, ih hturn,
      rewriteFrom_cons hstart hstop]
    simp only [append_assoc]

/-- A body on one line is patched by one search after the other. -/
theorem patchSingleLine_singleton (sites : List Replacement) (line : List Char) :
    patchSingleLine [String.ofList line] sites = [String.ofList (sites.foldl
      (fun line site => replaceFirst site.call.text.toList site.text.toList line) line)] := by
  induction sites generalizing line with
  | nil => rfl
  | cons site sites ih =>
    rw [foldl_cons, ← ih]
    simp [patchSingleLine]

/-- **A body on one line.** The calls are replaced if each text occurs first where its call
stands. -/
theorem patchSingleLine_eq {column : Nat} {line : List Char} (hsited : Sited sites column line)
    (hturn : InTurn sites [] column line) :
    patchSingleLine [String.ofList line] sites = [String.ofList (rewriteFrom sites column line)] := by
  rw [patchSingleLine_singleton]
  exact congrArg (fun cs => [String.ofList cs]) (foldl_replaceFirst hsited hturn)

end ServiceInjection
