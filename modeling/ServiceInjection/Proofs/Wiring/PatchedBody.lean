import ServiceInjection.Proofs.Wiring.MergedMethods

/-!
# Wiring.PatchedBody

The body of a constructor with its calls replaced where they stand. A body on lines of its
own is patched by columns, which replaces exactly the calls on these lines; text beside the
braces is no part of it. A body on one line is patched by looking for the text of a call:
that is the call itself exactly if its text does not occur in front of it, in a string, in a
comment or in a longer name (`replaceFirst_eq_iff`). Both are put together in
`patchedBody_positional`.
-/

namespace ServiceInjection

open Text List

/-! ### First occurrences -/

/-- A text that is moved over another one, `front` from the left to `back` on the right,
starts like the one and ends like the other. -/
theorem ends_of_moved {front back cs : List Char} (hne : cs ≠ [])
    (h : cs ++ back = front ++ cs) (hfront : front ≠ []) :
    cs.head? = front.head? ∧ cs.getLast? = back.getLast? := by
  have hback : back ≠ [] := by
    rintro rfl
    rw [append_nil] at h
    exact hfront (self_eq_append_left.mp h)
  constructor
  · have hhead := congrArg head? h
    rwa [head?_append_of_ne_nil _ hne, head?_append_of_ne_nil _ hfront] at hhead
  · have hlast := congrArg getLast? h
    rw [getLast?_append_of_ne_nil _ hback, getLast?_append_of_ne_nil _ hne] at hlast
    exact hlast.symm

/-- Replacing a text at a later place gives another result, if the new text does not start
and end like the old one. -/
theorem replaced_ne {needle new front back rest : List Char} (hneedle : needle ≠ []) (hnew : new ≠ [])
    (hends : needle.head? ≠ new.head? ∨ needle.getLast? ≠ new.getLast?) (hfront : front ≠ [])
    (hold : needle ++ back = front ++ (needle ++ rest)) : new ++ back ≠ front ++ (new ++ rest) := by
  intro hmoved
  obtain ⟨shift, rfl⟩ : rest <:+ back := by
    have hsuffix : rest <:+ needle ++ back := hold ▸ ⟨front ++ needle, by simp⟩
    refine suffix_of_suffix_length_le hsuffix (suffix_append _ _) ?_
    have hlength := congrArg length hold
    simp only [length_append] at hlength
    omega
  rw [← append_assoc, ← append_assoc, append_cancel_right_eq] at hold hmoved
  obtain ⟨hhead, hlast⟩ := ends_of_moved hneedle hold hfront
  obtain ⟨hhead', hlast'⟩ := ends_of_moved hnew hmoved hfront
  exact hends.elim (fun h => h (hhead.trans hhead'.symm)) (fun h => h (hlast.trans hlast'.symm))

/-- A text is replaced at a place exactly if it occurs nowhere in front of it. -/
theorem replaceFirst_eq_iff {needle new front rest : List Char} (hneedle : needle ≠ [])
    (hnew : new ≠ []) (hends : needle.head? ≠ new.head? ∨ needle.getLast? ≠ new.getLast?) :
    replaceFirst needle new (front ++ (needle ++ rest)) = front ++ (new ++ rest) ↔
      ∀ k < front.length, ¬ needle <+: (front ++ (needle ++ rest)).drop k := by
  refine ⟨fun h => ?_, replaceFirst_eq hneedle⟩
  induction front with
  | nil => exact fun k hk => absurd hk (Nat.not_lt_zero k)
  | cons c front ih =>
    rw [cons_append, replaceFirst] at h
    by_cases hfirst : needle.isPrefixOf (c :: (front ++ (needle ++ rest))) = true
    · obtain ⟨back, hback⟩ := isPrefixOf_iff_prefix.mp hfirst
      rw [if_pos hfirst, ← hback, drop_left] at h
      exact absurd h (replaced_ne hneedle hnew hends (cons_ne_nil c front) hback)
    · rw [if_neg hfirst, cons_append] at h
      intro k hk
      cases k with
      | zero => exact fun hprefix => hfirst (List.isPrefixOf_iff_prefix.mpr hprefix)
      | succ k => exact ih (cons.inj h).2 k (Nat.lt_of_succ_lt_succ hk)

/-- Whether a call and its replacement start or end with different characters. -/
def Replacement.Distinct (patch : Replacement) : Prop :=
  patch.text.toList ≠ [] ∧
    (patch.call.text.toList.head? ≠ patch.text.toList.head? ∨
      patch.call.text.toList.getLast? ≠ patch.text.toList.getLast?)

instance (patch : Replacement) : Decidable patch.Distinct := inferInstanceAs (Decidable (_ ∧ _))

/-- Calls whose texts are looked for one after the other are found in their turn, if every
first few of them are replaced where they stand. -/
theorem inTurn_of_foldl {sites : List Replacement} {column : Nat} {done rest : List Char}
    (hsited : Sited sites column rest) (hdistinct : ∀ site ∈ sites, site.Distinct)
    (h : ∀ count, (sites.take count).foldl
      (fun line site => replaceFirst site.call.text.toList site.text.toList line) (done ++ rest) =
        done ++ rewriteFrom (sites.take count) column rest) :
    InTurn sites done column rest := by
  induction hsited generalizing done with
  | nil => trivial
  | @cons site others column gap rest hstart hstop hsolid hothers ih =>
    have hne : site.call.text.toList ≠ [] := fun hnil => hsolid (hnil ▸ nofun)
    obtain ⟨⟨hnew, hends⟩, hdistinct⟩ := forall_mem_cons.mp hdistinct
    have hdrop : (gap ++ (site.call.text.toList ++ rest)).drop
        (gap ++ site.call.text.toList).length = rest := by
      rw [← append_assoc, drop_left]
    have hfirst := h 1
    rw [take_succ_cons, take_zero, foldl_cons, foldl_nil,
      rewriteFrom_cons hstart hstop, rewriteFrom, ← append_assoc done,
      ← append_assoc done] at hfirst
    refine ⟨?_, ?_⟩
    · rw [upToColumn_start hstart, ← append_assoc]
      exact (replaceFirst_eq_iff hne hnew hends).mp hfirst
    · rw [upToColumn_start hstart, upToColumn_stop hstop, hdrop]
      refine ih hdistinct fun count => ?_
      have hlater := h (count + 1)
      rw [take_succ_cons, foldl_cons, rewriteFrom_cons hstart hstop,
        ← append_assoc done, hfirst] at hlater
      simpa only [append_assoc] using hlater

/-! ### Bodies with calls replaced -/

/-- A piece of text that starts at a column, if it is not blank, with calls in it replaced. -/
def rewrittenPiece (sites : List Replacement) (column : Nat) (piece : List Char) :
    List (List Char) :=
  if Blank piece then [] else [rewriteFrom sites column piece]

namespace MethodLayout

/-- What follows the opening brace of a body on its line. -/
def besideOpen (source : Source) (layout : MethodLayout) : List Char :=
  (source.raw layout.bodyOpen.line).drop (layout.bodyOpen.col + 1)

/-- What stands in front of the closing brace of a body on its line. -/
def besideClose (source : Source) (layout : MethodLayout) : List Char :=
  (source.raw layout.bodyClose.line).take layout.bodyClose.col

/-- The lines between the lines of the braces, with calls in them replaced. -/
def innerLines (source : Source) (layout : MethodLayout) (sites : List Replacement) :
    List (List Char) :=
  (Source.span (layout.bodyOpen.line + 1) (layout.bodyClose.line - 1)).map fun n =>
    rewriteFrom (sites.filter (·.call.line == n)) 0 (source.raw n)

/-- The text between the braces of a method, line by line, with calls in it replaced where
they stand. A line of a brace counts if there is text beside the brace. -/
def rewrittenBody (source : Source) (layout : MethodLayout) (sites : List Replacement) :
    List (List Char) :=
  if layout.bodyOpen.line = layout.bodyClose.line then
    rewrittenPiece sites (layout.bodyColumn source) (layout.bodyText source)
  else
    rewrittenPiece (sites.filter (·.call.line == layout.bodyOpen.line))
        (source.position layout.bodyOpen.next).column (layout.besideOpen source) ++
      layout.innerLines source sites ++
      rewrittenPiece (sites.filter (·.call.line == layout.bodyClose.line)) 0
        (layout.besideClose source)

end MethodLayout

/-- Whether the body of a constructor is patched by replacing the calls where they stand. -/
def Constructor.PatchedInPlace (source : Source) (layout : MethodLayout) (ctor : Constructor)
    (patches : List Replacement) : Prop :=
  (patchedBody ctor patches).map (·.toList) = layout.rewrittenBody source patches

instance (source : Source) (layout : MethodLayout) (ctor : Constructor)
    (patches : List Replacement) : Decidable (ctor.PatchedInPlace source layout patches) :=
  inferInstanceAs (Decidable (_ = _))

section

variable {source : Source} {layout : MethodLayout} {ctor : Constructor} {patches : List Replacement}

/-- A body on lines of its own: the lines between the braces have their calls replaced, and
that is the whole body exactly if there is no text beside the braces. -/
theorem patchedBody_lines (hread : ctor.ReadFrom source layout)
    (hline : layout.bodyOpen.line ≠ layout.bodyClose.line) (hholding : source.Holding patches) :
    (patchedBody ctor patches).map (·.toList) = layout.innerLines source patches ∧
      (ctor.PatchedInPlace source layout patches ↔
        Blank (layout.besideOpen source) ∧ Blank (layout.besideClose source)) := by
  obtain ⟨-, hopen, hend, -⟩ := hread.lines
  have hinner : (patchedBody ctor patches).map (·.toList) = layout.innerLines source patches := by
    rw [patchedBody, hopen, hend, if_neg (by simpa using hline),
      hread.patchLines_eq hline hholding, map_map, MethodLayout.innerLines]
    refine map_congr_left fun n _ => ?_
    rw [Function.comp_apply, String.toList_ofList]
  refine ⟨hinner, ?_⟩
  rw [Constructor.PatchedInPlace, hinner, MethodLayout.rewrittenBody, if_neg hline]
  constructor
  · intro h
    have hlength := congrArg length h
    rw [length_append, length_append, rewrittenPiece, rewrittenPiece] at hlength
    constructor
    · by_contra hsolid
      rw [if_neg hsolid, length_singleton] at hlength
      omega
    · by_contra hsolid
      rw [if_neg hsolid, length_singleton] at hlength
      omega
  · rintro ⟨hbehind, hfront⟩
    rw [rewrittenPiece, rewrittenPiece, if_pos hbehind, if_pos hfront, nil_append,
      append_nil]

/-- A body on one line: the calls are replaced where they stand if their texts are found there
in turn. Conversely, if every first few of the calls are, then the texts are found in turn. -/
theorem patchedBody_line (hread : ctor.ReadFrom source layout)
    (hline : layout.bodyOpen.line = layout.bodyClose.line)
    (hsited : Sited patches (layout.bodyColumn source) (layout.bodyText source)) :
    (InTurn patches [] (layout.bodyColumn source) (layout.bodyText source) →
      ctor.PatchedInPlace source layout patches) ∧
    ((∀ patch ∈ patches, patch.Distinct) →
      (∀ count, ctor.PatchedInPlace source layout (patches.take count)) →
      InTurn patches [] (layout.bodyColumn source) (layout.bodyText source)) := by
  obtain ⟨-, hopen, hend, hbody⟩ := hread.lines
  rw [bodyLines, if_pos (by simpa using hline)] at hbody
  by_cases hblank : Blank (layout.bodyText source)
  · obtain rfl := hsited.eq_nil_of_blank hblank
    refine ⟨fun _ => ?_, fun _ _ => trivial⟩
    have hnil : layout.bodyText source = [] := by
      rw [MethodLayout.bodyText, ← trim_trim]
      exact trim_eq_nil_iff.mpr hblank
    rw [MethodLayout.bodyText] at hnil
    rw [hnil] at hbody
    rw [Constructor.PatchedInPlace, MethodLayout.rewrittenBody, if_pos hline, rewrittenPiece,
      if_pos hblank, patchedBody, hopen, hend, if_pos (by simpa using hline), hbody]
    rfl
  · have hsingle : ctor.body = [String.ofList (layout.bodyText source)] := by
      rw [hbody]
      split
      · rename_i hnil
        rw [MethodLayout.bodyText, hnil] at hblank
        exact absurd (fun c hc => absurd hc not_mem_nil) hblank
      · rfl
    have hplace : ∀ sites, ctor.PatchedInPlace source layout sites ↔
        sites.foldl (fun line site => replaceFirst site.call.text.toList site.text.toList line)
          (layout.bodyText source) =
          rewriteFrom sites (layout.bodyColumn source) (layout.bodyText source) := by
      intro sites
      rw [Constructor.PatchedInPlace, MethodLayout.rewrittenBody, if_pos hline, rewrittenPiece,
        if_neg hblank, patchedBody, hopen, hend, if_pos (by simpa using hline), hsingle,
        patchSingleLine_singleton]
      simp
    refine ⟨fun hturn => (hplace patches).mpr (foldl_replaceFirst hsited hturn), fun hdistinct h => ?_⟩
    exact inTurn_of_foldl hsited hdistinct fun count => (hplace _).mp (h count)

end

/-- **Patched bodies.** In the body of a constructor that is read from a text, calls are to be
replaced where they stand. On lines of its own, the lines between the braces have their calls
replaced, and that is the whole body exactly if there is no text beside the braces. On one
line, the calls are replaced if the text of each first occurs where the call stands, once the
calls in front of it are replaced. Conversely, if every first few of the calls are replaced
where they stand, then their texts first occur there. -/
theorem patchedBody_positional {text : String} {n : Nat} {outline : Outline} {ctor : Constructor}
    (houtline : Outline.ofDeclaration (Source.ofText text) n = some outline)
    (hctor : outline.constructor = some ctor) :
    (∃ layout, ctor.ReadFrom (Source.ofText text) layout) ∧
      ∀ layout patches, ctor.ReadFrom (Source.ofText text) layout →
        (patches.map (·.call)).Sublist (StaticCall.detect (Source.ofText text)) →
        (∀ patch ∈ patches, layout.Contains (Source.ofText text) patch.call) →
        (layout.bodyOpen.line ≠ layout.bodyClose.line →
          (patchedBody ctor patches).map (·.toList) =
              layout.innerLines (Source.ofText text) patches ∧
            (ctor.PatchedInPlace (Source.ofText text) layout patches ↔
              Blank (layout.besideOpen (Source.ofText text)) ∧
                Blank (layout.besideClose (Source.ofText text)))) ∧
        (layout.bodyOpen.line = layout.bodyClose.line →
          (InTurn patches [] (layout.bodyColumn (Source.ofText text))
              (layout.bodyText (Source.ofText text)) →
            ctor.PatchedInPlace (Source.ofText text) layout patches) ∧
          ((∀ patch ∈ patches, patch.Distinct) →
            (∀ count, ctor.PatchedInPlace (Source.ofText text) layout (patches.take count)) →
            InTurn patches [] (layout.bodyColumn (Source.ofText text))
              (layout.bodyText (Source.ofText text)))) := by
  refine ⟨(Outline.sourced houtline).1 ctor hctor, fun layout patches hread hcalls hinside => ?_⟩
  have hholding := Source.holding_of_sublist hcalls
  refine ⟨fun hline => patchedBody_lines hread hline hholding, fun hline => ?_⟩
  exact patchedBody_line hread hline (sited_bodyText hread.starts hline hinside hholding).1

/-- The calls of a source, each replaced by the same text. -/
def replaceAll (source : Source) (text : String) : List Replacement :=
  (StaticCall.detect source).map fun call => ⟨call, text⟩

theorem map_call_replaceAll (source : Source) (text : String) :
    (replaceAll source text).map (·.call) = StaticCall.detect source := by
  rw [replaceAll, map_map]
  exact map_id _

/-- A class whose constructor has the text of a call in a string and in a comment behind it. -/
def callBeforeString : String := "<?php
class Page \x7b
  function __construct() \x7b f(\\Drupal::service('m'), \"\\Drupal::service('m')\"); /* \\Drupal::service('m') */ \x7d
\x7d
"

theorem patchedInPlace_callBeforeString :
    ∃ outline ctor layout, Outline.ofDeclaration (Source.ofText callBeforeString) 1 = some outline ∧
      outline.constructor = some ctor ∧ ctor.ReadFrom (Source.ofText callBeforeString) layout ∧
      ctor.PatchedInPlace (Source.ofText callBeforeString) layout
        (replaceAll (Source.ofText callBeforeString) "$m") ∧
      layout.rewrittenBody (Source.ofText callBeforeString)
          (replaceAll (Source.ofText callBeforeString) "$m") =
        ["f($m, \"\\Drupal::service('m')\"); /* \\Drupal::service('m') */".toList] := by
  have hread : (Outline.ofDeclaration (Source.ofText callBeforeString) 1).any (fun outline =>
      ∃ ctor ∈ outline.constructor,
      ∃ head ∈ MethodHead.of? ((Source.ofText callBeforeString).code 2),
      ∃ layout ∈ MethodLayout.at? (Source.ofText callBeforeString) ⟨2, head.paren⟩,
        ctor = Constructor.ofLayout (Source.ofText callBeforeString) layout ctor.doc ∧
        ctor.doc = none ∧ layout.bodyOpen.line = layout.bodyClose.line ∧
        (∀ patch ∈ replaceAll (Source.ofText callBeforeString) "$m",
          layout.Contains (Source.ofText callBeforeString) patch.call) ∧
        InTurn (replaceAll (Source.ofText callBeforeString) "$m") []
          (layout.bodyColumn (Source.ofText callBeforeString))
          (layout.bodyText (Source.ofText callBeforeString)) ∧
        layout.rewrittenBody (Source.ofText callBeforeString)
            (replaceAll (Source.ofText callBeforeString) "$m") =
          ["f($m, \"\\Drupal::service('m')\"); /* \\Drupal::service('m') */".toList]) = true := by
    decide +kernel
  have hcalls := map_call_replaceAll (Source.ofText callBeforeString) "$m"
  -- From here on it does not matter what the replacements are.
  generalize replaceAll (Source.ofText callBeforeString) "$m" = patches at hread hcalls ⊢
  obtain ⟨outline, houtline, hread⟩ := (Option.any_eq_true _ _).mp hread
  obtain ⟨ctor, hctor, head, hhead, layout, hlayout, heq, hdoc, hline, hinside, hturn, hbody⟩ :=
    of_decide_eq_true hread
  have hfrom : ctor.ReadFrom (Source.ofText callBeforeString) layout :=
    ⟨⟨2, head, hhead, hlayout⟩, heq, by simp [hdoc]⟩
  obtain ⟨-, hpatched⟩ := patchedBody_positional houtline hctor
  exact ⟨outline, ctor, layout, houtline, hctor, hfrom,
    ((hpatched layout patches hfrom (hcalls ▸ List.Sublist.refl _) hinside).2 hline).1 hturn, hbody⟩

/-- A class whose constructor has the text of a call in a string in front of it. -/
def callBehindString : String := "<?php
class Page \x7b
  function __construct() \x7b $this->log(\"\\Drupal::service('m')\"); $this->m = \\Drupal::service('m'); \x7d
\x7d
"

/-- The string is changed and the call is left. -/
theorem not_patchedInPlace_callBehindString :
    (Outline.ofDeclaration (Source.ofText callBehindString) 1).any (fun outline =>
      ∃ ctor ∈ outline.constructor,
      ∃ head ∈ MethodHead.of? ((Source.ofText callBehindString).code 2),
      ∃ layout ∈ MethodLayout.at? (Source.ofText callBehindString) ⟨2, head.paren⟩,
        ctor = Constructor.ofLayout (Source.ofText callBehindString) layout none ∧
        (∀ patch ∈ replaceAll (Source.ofText callBehindString) "$m",
          layout.Contains (Source.ofText callBehindString) patch.call) ∧
        ¬ ctor.PatchedInPlace (Source.ofText callBehindString) layout
          (replaceAll (Source.ofText callBehindString) "$m") ∧
        patchedBody ctor (replaceAll (Source.ofText callBehindString) "$m") =
          ["$this->log(\"$m\"); $this->m = \\Drupal::service('m');"]) = true := by
  decide +kernel

end ServiceInjection
