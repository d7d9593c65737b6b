import ServiceInjection.Proofs.Wiring.MergedLists
import ServiceInjection.Proofs.Wiring.MergedSignature

/-!
# Wiring.MergedMethods

What an extended constructor keeps of the old one. Its text is put together anew from
pieces of the source: the doc comment, the signature around the parameters, the parameters
one by one, the lines of the body and the line of the closing brace. Text outside these
pieces is lost. `Constructor.Whole` says that there is none, and then every character that
is not blank is kept, in its order (`mergedConstructor_keeps`).
The lines of a return statement are written anew from the arguments and from what follows the
last semicolon. Nothing but blanks is lost if the statement is all that stands on the lines up
to its semicolon, and every piece of its list is an argument (`mergedFactory_keeps`).
-/

namespace ServiceInjection

open Text List

/-! ### Bodies -/

/-- The position of a place. -/
def Source.position (source : Source) (spot : Spot) : Position :=
  ⟨spot.line, width16 ((source.raw spot.line).take spot.col)⟩

/-- The lines `first` to `last` of a source with calls in them replaced, one behind the
other. -/
def Source.rewritten (source : Source) (sites : List Replacement) (first last : Nat) : List Char :=
  (Source.span first last).flatMap fun n =>
    rewriteFrom (sites.filter (·.call.line == n)) 0 (source.raw n)

namespace MethodLayout

/-- Whether a call lies in the body of a method. -/
def Contains (source : Source) (layout : MethodLayout) (call : StaticCall) : Prop :=
  source.position layout.bodyOpen.next ≤ ⟨call.line, call.startColumn⟩ ∧
    ⟨call.line, call.endColumn⟩ ≤ source.position layout.bodyClose

instance (source : Source) (layout : MethodLayout) (call : StaticCall) :
    Decidable (layout.Contains source call) :=
  inferInstanceAs (Decidable (_ ∧ _))

/-- The text between the braces of a body. -/
def inner (source : Source) (layout : MethodLayout) : List Char :=
  (source.between layout.bodyOpen layout.bodyClose).raw

/-- The text of a body on one line, without the blanks around it. -/
def bodyText (source : Source) (layout : MethodLayout) : List Char :=
  trim (source.between layout.bodyOpen layout.bodyClose).raw

/-- The column at which the text of a body on one line starts. -/
def bodyColumn (source : Source) (layout : MethodLayout) : Nat :=
  (source.position layout.bodyOpen.next).column +
    width16 (leadingBlanks (source.between layout.bodyOpen layout.bodyClose).raw)

/-- Whether a body on lines of its own has no text beside them: none follows the opening
brace on its line, and the closing brace stands alone. -/
structure KeepsLines (source : Source) (layout : MethodLayout) : Prop where
  behind : Blank ((source.raw layout.bodyOpen.line).drop (layout.bodyOpen.col + 1))
  alone : trim (source.raw layout.bodyClose.line) = ['\x7d']

/-- Whether a body on one line has no text behind it, and its calls are found. -/
structure KeepsLine (source : Source) (layout : MethodLayout) (patches : List Replacement) :
    Prop where
  behind : Blank ((source.raw layout.bodyClose.line).drop (layout.bodyClose.col + 1))
  inside : ∀ patch ∈ patches, layout.Contains source patch.call
  turn : InTurn patches [] (layout.bodyColumn source) (layout.bodyText source)

instance (source : Source) (layout : MethodLayout) : Decidable (layout.KeepsLines source) :=
  decidable_of_iff _ ⟨fun h => ⟨h.1, h.2⟩, fun h => And.intro h.behind h.alone⟩

instance (source : Source) (layout : MethodLayout) (patches : List Replacement) :
    Decidable (layout.KeepsLine source patches) :=
  decidable_of_iff _ ⟨fun h => ⟨h.1, h.2.1, h.2.2⟩,
    fun h => And.intro h.behind (And.intro h.inside h.turn)⟩

end MethodLayout

open StaticCall

/-- A call between blanks lies between the blanks. -/
theorem StaticCall.Stands.between_blanks {line : Line} {i j : Nat} {front lead text tail back : List Char}
    (h : Stands line i j) (hraw : line.raw = front ++ (lead ++ (text ++ (tail ++ back))))
    (hlead : Blank lead) (htail : Blank tail) (hi : front.length ≤ i)
    (hj : j ≤ (front ++ (lead ++ (text ++ tail))).length) :
    (front ++ lead).length ≤ i ∧ j ≤ (front ++ lead ++ text).length := by
  obtain ⟨c, hc, hblank, hparen⟩ := h.ends
  obtain ⟨hlt, -⟩ := h.lt_and_le
  constructor
  · refine Nat.le_of_not_lt fun hinside => ?_
    rw [length_append] at hinside
    rw [hraw, getElem?_append_right hi,
      getElem?_append_left (by omega)] at hc
    rw [hlead c (mem_of_getElem? hc)] at hblank
    cases hblank
  · refine Nat.le_of_not_lt fun hinside => ?_
    have hsplit : front ++ (lead ++ (text ++ (tail ++ back))) =
        (front ++ lead ++ text) ++ (tail ++ back) := by simp
    rw [show front ++ (lead ++ (text ++ tail)) = (front ++ lead ++ text) ++ tail by simp,
      length_append] at hj
    rw [hraw, hsplit, getElem?_append_right (by omega),
      getElem?_append_left (by omega)] at hparen
    exact absurd (htail _ (mem_of_getElem? hparen)) (by decide)

/-- A place in a line is in front of another if its column is. -/
theorem le_of_width16_take {cs : List Char} {i j : Nat} (hi : i ≤ cs.length)
    (h : width16 (cs.take i) ≤ width16 (cs.take j)) : i ≤ j := by
  refine Nat.le_of_not_lt fun hlt => ?_
  have := width16_take_lt hlt hi
  omega

section

variable {source : Source} {layout : MethodLayout} {patches : List Replacement}
  (h : layout.Starts source) (hsame : layout.bodyOpen.line = layout.bodyClose.line)

include h hsame

/-- The line of a body on one line, cut at its braces and at the blanks inside them. -/
theorem MethodLayout.Starts.cut_line : ∃ lead tail, Blank lead ∧ Blank tail ∧
      source.raw layout.bodyOpen.line = layout.openText source ++ (lead ++
        (layout.bodyText source ++ (tail ++ '\x7d' ::
          (source.raw layout.bodyClose.line).drop (layout.bodyClose.col + 1)))) ∧
      layout.bodyColumn source = width16 (layout.openText source ++ lead) ∧
      layout.bodyClose.col =
        (layout.openText source ++ (lead ++ (layout.bodyText source ++ tail))).length := by
  obtain ⟨-, -, hbody, hopen, hclose⟩ := h.order
  have hcols : layout.bodyOpen.col + 1 ≤ layout.bodyClose.col := by
    have hcol : layout.bodyOpen.col ≠ layout.bodyClose.col := by
      intro hcol
      rw [Source.Holds, hsame, hcol, hclose] at hopen
      exact absurd (Option.some.inj hopen) (by decide)
    simp only [Bool.eq_false_iff, ne_eq, Spot.before_def] at hbody
    omega
  have hbrace := hclose.raw (by decide)
  rw [MethodLayout.openText]
  rw [← hsame] at hbrace ⊢
  obtain ⟨hcloseLt, hcloseEq⟩ := List.getElem?_eq_some_iff.mp hbrace
  generalize hline : source.raw layout.bodyOpen.line = raw at hbrace hcloseLt hcloseEq ⊢
  have hbetween : layout.inner source = (raw.take layout.bodyClose.col).drop (layout.bodyOpen.col + 1) := by
    rw [MethodLayout.inner, Source.between, Source.slice, if_pos (by simpa [Spot.next] using hsame), Line.raw,
      map_drop, map_take, ← hline]
    rfl
  obtain ⟨tail, htail, htrim⟩ := exists_trimEnd (trimStart (layout.inner source))
  have hinner : layout.inner source =
      leadingBlanks (layout.inner source) ++ (layout.bodyText source ++ tail) := by
    rw [MethodLayout.bodyText, trim, ← MethodLayout.inner, ← htrim, leadingBlanks, trimStart,
      takeWhile_append_dropWhile]
  have hfront : raw.take layout.bodyClose.col = raw.take (layout.bodyOpen.col + 1) ++
      (leadingBlanks (layout.inner source) ++ (layout.bodyText source ++ tail)) := by
    rw [← hinner, hbetween, take_append_drop_take hcols]
  refine ⟨leadingBlanks (layout.inner source), tail, all_eq_true.mp all_takeWhile, htail, ?_, ?_, ?_⟩
  · have hdrop : raw.drop layout.bodyClose.col = '\x7d' :: raw.drop (layout.bodyClose.col + 1) := by
      rw [drop_eq_getElem_cons hcloseLt, hcloseEq]
    have hwhole := take_append_drop layout.bodyClose.col raw
    rw [hfront, hdrop] at hwhole
    simpa only [append_assoc] using hwhole.symm
  · rw [MethodLayout.bodyColumn, width16_append, ← hline]
    rfl
  · rw [← hfront, length_take, Nat.min_eq_left (Nat.le_of_lt hcloseLt)]

/-- The calls in a body on one line stand in its text. -/
theorem sited_bodyText (hinside : ∀ patch ∈ patches, layout.Contains source patch.call)
    (hholding : source.Holding patches) :
    Sited patches (layout.bodyColumn source) (layout.bodyText source) ∧
      ∀ patch ∈ patches, patch.call.line = layout.bodyOpen.line := by
  obtain ⟨lead, tail, hlead, htail, hraw, hcolumn, hcloseCol⟩ := h.cut_line hsame
  have hopenLt : layout.bodyOpen.col < (source.raw layout.bodyOpen.line).length :=
    (List.getElem?_eq_some_iff.mp (h.order.2.2.2.1.raw (by decide))).1
  have hfrontLength : (layout.openText source).length = layout.bodyOpen.col + 1 :=
    length_take_of_le hopenLt
  generalize layout.bodyText source = text at hraw hcloseCol ⊢
  generalize (source.raw layout.bodyClose.line).drop (layout.bodyClose.col + 1) = back at hraw
  generalize layout.openText source = front at hraw hcolumn hcloseCol hfrontLength
  have hlines : ∀ patch ∈ patches, patch.call.line = layout.bodyOpen.line := by
    intro patch hpatch
    obtain ⟨hstart, hstop⟩ := hinside patch hpatch
    rw [Position.le_def] at hstart hstop
    simp only [Source.position, Spot.next] at hstart hstop
    omega
  have hfoundIn : ∀ patch ∈ patches, patch.call.FoundIn (source.line layout.bodyOpen.line)
      (front ++ lead).length (front ++ lead ++ text).length := by
    intro patch hpatch
    obtain ⟨hstart, hstop⟩ := hinside patch hpatch
    obtain ⟨-, i, j, hstands, hstartColumn, hstopColumn, htextEq⟩ := hholding.found patch hpatch
    rw [hlines patch hpatch] at hstands hstartColumn hstopColumn htextEq hstart hstop
    rw [Position.le_def] at hstart hstop
    simp only [Source.position, Spot.next, ← hsame] at hstart hstop
    have hi : layout.bodyOpen.col + 1 ≤ i := by
      exact le_of_width16_take hopenLt (hstartColumn ▸ (by omega) :
        width16 ((source.raw layout.bodyOpen.line).take (layout.bodyOpen.col + 1)) ≤ _)
    have hj : j ≤ layout.bodyClose.col := by
      exact le_of_width16_take hstands.lt_and_le.2 (hstopColumn ▸ (by omega) : _ ≤
        width16 ((source.raw layout.bodyOpen.line).take layout.bodyClose.col))
    obtain ⟨hi', hj'⟩ := hstands.between_blanks hraw hlead htail
      (hfrontLength ▸ hi) (hcloseCol ▸ hj)
    exact ⟨i, j, hstands, hi', hj', hstartColumn, hstopColumn, htextEq⟩
  have hfrontLead : (source.raw layout.bodyOpen.line).take (front ++ lead).length = front ++ lead := by
    rw [hraw, ← append_assoc, take_left]
  have hpiece : ((source.raw layout.bodyOpen.line).take (front ++ lead ++ text).length).drop
      (front ++ lead).length = text := by
    rw [hraw, ← append_assoc, ← append_assoc, take_left, drop_left]
  have hsited := @sited_of_foundIn (source.line layout.bodyOpen.line) patches _ _ ?_ hfoundIn ?_
  · rw [show (source.line layout.bodyOpen.line).raw = source.raw layout.bodyOpen.line from rfl,
      hfrontLead, hpiece, ← hcolumn] at hsited
    exact ⟨hsited, hlines⟩
  · rw [show (source.line layout.bodyOpen.line).raw = source.raw layout.bodyOpen.line from rfl, hraw]
    simp
  · refine hholding.ordered.imp_of_mem fun ha hb hbefore => ?_
    have hsameLine := (hlines _ ha).trans (hlines _ hb).symm
    rcases hbefore with hlt | ⟨-, hle⟩
    · omega
    · exact hle

/-- **A body on one line.** Its line keeps its characters, with the calls replaced. -/
theorem ink_keepsLine (hkeeps : layout.KeepsLine source patches) (hholding : source.Holding patches) :
    Sited patches (layout.bodyColumn source) (layout.bodyText source) ∧
      ink (rewriteFrom (patches.filter (·.call.line == layout.bodyOpen.line)) 0
          (source.raw layout.bodyOpen.line)) = ink (layout.openText source) ++
        (ink (rewriteFrom patches (layout.bodyColumn source) (layout.bodyText source)) ++
          ['\x7d']) := by
  obtain ⟨hsited, hlines⟩ := sited_bodyText h hsame hkeeps.inside hholding
  refine ⟨hsited, ?_⟩
  obtain ⟨lead, tail, hlead, htail, hraw, hcolumn, -⟩ := h.cut_line hsame
  have hbehind := hkeeps.behind
  generalize layout.bodyText source = text at hraw hsited ⊢
  generalize (source.raw layout.bodyClose.line).drop (layout.bodyClose.col + 1) = back
    at hraw hbehind
  generalize layout.openText source = front at hraw hcolumn ⊢
  have hall : patches.filter (·.call.line == layout.bodyOpen.line) = patches :=
    filter_eq_self.mpr fun patch hpatch => by simp [hlines patch hpatch]
  have hwhole : rewriteFrom patches 0 (source.raw layout.bodyOpen.line) =
      (front ++ lead) ++ (rewriteFrom patches (layout.bodyColumn source) text ++
        (tail ++ '\x7d' :: back)) := by
    rw [hcolumn, ← Nat.zero_add (width16 _)] at hsited ⊢
    rw [hraw, ← append_assoc, hsited.rewriteFrom_around]
  rw [hall, hwhole, ink_append, ink_append, ink_append, ink_append, hlead.ink, htail.ink,
    ink_cons, hbehind.ink]
  simp
  decide

end

/-- The calls of a body on lines of its own stand on these lines. -/
theorem MethodLayout.KeepsLines.between {source : Source} {layout : MethodLayout}
    (hkeeps : layout.KeepsLines source) (h : layout.Starts source) {call : StaticCall}
    (hfound : call.Found call.line (source.line call.line))
    (hinside : layout.Contains source call) :
    layout.bodyOpen.line < call.line ∧ call.line < layout.bodyClose.line := by
  obtain ⟨hstart, hstop⟩ := hinside
  obtain ⟨-, i, j, hstands, hstartColumn, hstopColumn, -⟩ := hfound
  obtain ⟨hij, hj⟩ := hstands.lt_and_le
  obtain ⟨c, hc, hblank, -⟩ := hstands.ends
  rw [Position.le_def] at hstart hstop
  simp only [Source.position, Spot.next] at hstart hstop
  obtain ⟨-, -, -, hopen, hclose⟩ := h.order
  constructor
  · rcases hstart with hlt | ⟨hline, hle⟩
    · exact hlt
    · rw [hstartColumn, ← hline] at hle
      rw [← hline] at hc
      have hopenLt := (List.getElem?_eq_some_iff.mp (hopen.raw (by decide))).1
      have hi : layout.bodyOpen.col + 1 ≤ i := le_of_width16_take hopenLt hle
      have hmem : c ∈ (source.raw layout.bodyOpen.line).drop (layout.bodyOpen.col + 1) := by
        refine mem_of_getElem? (i := i - (layout.bodyOpen.col + 1)) ?_
        rw [getElem?_drop, Nat.add_sub_cancel' hi]
        exact hc
      rw [hkeeps.behind c hmem] at hblank
      cases hblank
  · rcases hstop with hlt | ⟨hline, hle⟩
    · exact hlt
    · rw [hstopColumn, hline] at hle
      rw [hline] at hc hj
      have hbefore : i < layout.bodyClose.col :=
        Nat.lt_of_lt_of_le hij (le_of_width16_take hj hle)
      -- The closing brace is the only character of its line, and the call starts in front.
      obtain ⟨lead, tail, hlead, htail, hraw⟩ := exists_trim (source.raw layout.bodyClose.line)
      rw [hkeeps.alone] at hraw
      have hbrace := hclose.raw (by decide)
      have hcol : layout.bodyClose.col ≤ lead.length := by
        refine Nat.le_of_not_lt fun hlt => ?_
        rw [hraw, ← append_assoc, getElem?_append_right (by simp; omega)] at hbrace
        exact absurd (htail _ (mem_of_getElem? hbrace)) (by decide)
      rw [show (source.line layout.bodyClose.line).raw = source.raw layout.bodyClose.line from rfl,
        hraw, getElem?_append_left (by omega)] at hc
      rw [hlead c (mem_of_getElem? hc)] at hblank
      cases hblank

/-! ### Constructors -/

/-- Whether a constructor is written from all of its text: a doc comment on one line has
one delimiter at each end, the pieces of the list are parameters (what follows the last
comma may be blank), and no text stands beside the body. -/
structure Constructor.Whole (source : Source) (layout : MethodLayout) (patches : List Replacement)
    (ctor : Constructor) : Prop where
  doc : ∀ span ∈ ctor.doc, span.first = span.last → Render.DelimitedOnce (source.raw span.first)
  params : ∀ piece ∈ (layout.paramPieces source).dropLast, piece.DeclaresParam
  lastParam : ∀ piece ∈ (layout.paramPieces source).getLast?,
    piece.DeclaresParam ∨ Blank piece.raw
  body : if layout.bodyOpen.line = layout.bodyClose.line then layout.KeepsLine source patches
    else layout.KeepsLines source

instance (source : Source) (layout : MethodLayout) (patches : List Replacement)
    (ctor : Constructor) : Decidable (ctor.Whole source layout patches) :=
  decidable_of_iff _ ⟨fun h => ⟨h.1, h.2.1, h.2.2.1, h.2.2.2⟩,
    fun h => And.intro h.doc (And.intro h.params (And.intro h.lastParam h.body))⟩

section

variable {source : Source} {layout : MethodLayout} {patches : List Replacement} {ctor : Constructor}

/-- The calls that are replaced in the body of a method. -/
def MethodLayout.sites (source : Source) (layout : MethodLayout) (patches : List Replacement) :
    List Replacement :=
  patches.filter (layout.Contains source ·.call)

theorem Source.rewritten_append {first middle last : Nat} (source : Source)
    (sites : List Replacement) (hfirst : first ≤ middle) (hlast : middle ≤ last + 1) :
    source.rewritten sites first last =
      (range' first (middle - first)).flatMap
          (fun n => rewriteFrom (sites.filter (·.call.line == n)) 0 (source.raw n)) ++
        source.rewritten sites middle last := by
  rw [Source.rewritten, Source.span, range'_split hfirst hlast, flatMap_append]
  rfl

/-- Lines without calls stay. -/
theorem rewriteFrom_of_forall_ne {sites : List Replacement} {n : Nat}
    (h : ∀ site ∈ sites, site.call.line ≠ n) (cs : List Char) :
    rewriteFrom (sites.filter (·.call.line == n)) 0 cs = cs := by
  rw [filter_eq_nil_iff.mpr fun site hsite => by simpa using h site hsite]
  rfl

/-- A body on one line is patched as a text of its own. -/
theorem ink_patchedBody_line (h : ctor.ReadFrom source layout)
    (hsame : layout.bodyOpen.line = layout.bodyClose.line)
    (hbody : layout.KeepsLine source patches)
    (hholding : source.Holding patches) :
    ink (source.rewritten (layout.sites source patches) layout.bodyOpen.line
        layout.bodyClose.line) =
      ink (layout.openText source) ++ (Render.inkOf (patchSingleLine ctor.body patches) ++ ['\x7d']) := by
  obtain ⟨-, -, -, hctorBody⟩ := h.lines
  have hsites : layout.sites source patches = patches :=
    filter_eq_self.mpr fun patch hpatch => by simpa using hbody.inside patch hpatch
  obtain ⟨hsited, hink⟩ := ink_keepsLine h.starts hsame hbody hholding
  rw [hsites, Source.rewritten, ← hsame, Source.span, Nat.add_sub_cancel_left, range'_one,
    flatMap_singleton, hink, hctorBody, bodyLines, if_pos (by simpa using hsame)]
  have hturn := hbody.turn
  rw [MethodLayout.bodyText] at hsited hturn
  split
  · rename_i hnil
    rw [hnil] at hsited
    rw [hsited.eq_nil_of_blank (by simp [Blank])]
    simp [MethodLayout.bodyText, hnil, rewriteFrom, patchSingleLine, Render.inkOf]
  · rw [patchSingleLine_eq hsited hturn]
    simp [MethodLayout.bodyText, Render.inkOf]

/-- Between the lines of the braces, the calls that are replaced are those in the body. -/
theorem MethodLayout.filter_sites {n : Nat} (hopen : layout.bodyOpen.line < n)
    (hclose : n < layout.bodyClose.line) :
    (layout.sites source patches).filter (·.call.line == n) =
      patches.filter (·.call.line == n) := by
  rw [MethodLayout.sites, filter_filter]
  refine filter_congr fun patch _ => ?_
  by_cases hline : patch.call.line = n
  · have hinside : layout.Contains source patch.call := by
      refine ⟨Position.le_def.mpr (.inl ?_), Position.le_def.mpr (.inl ?_)⟩
      · exact hline ▸ hopen
      · exact hline ▸ hclose
    simp [hline, hinside]
  · simp [hline]

theorem Constructor.ReadFrom.patchLines_eq (h : ctor.ReadFrom source layout)
    (hsame : layout.bodyOpen.line ≠ layout.bodyClose.line) (hholding : source.Holding patches) :
    patchLines ctor patches =
      (Source.span (layout.bodyOpen.line + 1) (layout.bodyClose.line - 1)).map fun n =>
        String.ofList (rewriteFrom (patches.filter (·.call.line == n)) 0 (source.raw n)) := by
  obtain ⟨-, hopen, hend, hbody⟩ := h.lines
  have hlines := @ServiceInjection.patchLines_eq source ctor patches
    (by rw [hbody, bodyLines, if_neg (by simpa using hsame), hopen, hend]) hholding
  rwa [hopen, hend] at hlines

/-- A body on lines of its own is patched line by line. -/
theorem ink_patchedBody_lines (h : ctor.ReadFrom source layout)
    (hsame : layout.bodyOpen.line ≠ layout.bodyClose.line) (hbody : layout.KeepsLines source)
    (hholding : source.Holding patches) :
    ink (source.rewritten (layout.sites source patches) layout.bodyOpen.line
        layout.bodyClose.line) =
      ink (layout.openText source) ++ (Render.inkOf (patchLines ctor patches) ++ ['\x7d']) := by
  have hlt : layout.bodyOpen.line < layout.bodyClose.line := by
    have hle := h.starts.order.2.2.1
    simp only [Bool.eq_false_iff, ne_eq, Spot.before_def] at hle
    omega
  have hbetween : ∀ site ∈ layout.sites source patches,
      layout.bodyOpen.line < site.call.line ∧ site.call.line < layout.bodyClose.line := by
    intro site hsite
    obtain ⟨hpatch, hinside⟩ := mem_filter.mp hsite
    exact hbody.between h.starts (hholding.found site hpatch) (by simpa using hinside)
  have hlines := h.patchLines_eq hsame hholding
  rw [Source.span, show layout.bodyClose.line - 1 + 1 -
    (layout.bodyOpen.line + 1) = layout.bodyClose.line - (layout.bodyOpen.line + 1) by omega] at hlines
  have hopenInk : ink (source.raw layout.bodyOpen.line) =
      ink (layout.openText source) := by
    have hcut := congrArg ink
      (take_append_drop (layout.bodyOpen.col + 1) (source.raw layout.bodyOpen.line))
    rw [ink_append, hbody.behind.ink, append_nil] at hcut
    exact hcut.symm
  have hcloseInk : ink (source.raw layout.bodyClose.line) = ['\x7d'] := by
    rw [← ink_trim, hbody.alone]
    decide
  have hinner : ((range' (layout.bodyOpen.line + 1)
        (layout.bodyClose.line - (layout.bodyOpen.line + 1))).flatMap fun n =>
        ink (rewriteFrom ((layout.sites source patches).filter (·.call.line == n)) 0
          (source.raw n))) = Render.inkOf (patchLines ctor patches) := by
    rw [hlines, Render.inkOf, flatMap_map]
    refine flatMap_congr fun n hn => ?_
    rw [mem_range'_1] at hn
    rw [MethodLayout.filter_sites (by omega) (by omega), String.toList_ofList]
  -- The lines of the braces hold no calls, so they stay.
  rw [source.rewritten_append _ (Nat.le_succ layout.bodyOpen.line) (by omega),
    source.rewritten_append _ (Nat.succ_le_of_lt hlt) (by omega), Source.rewritten, Source.span,
    show layout.bodyClose.line + 1 - layout.bodyClose.line = 1 by omega,
    show layout.bodyOpen.line.succ - layout.bodyOpen.line = 1 by omega, range'_one,
    range'_one, flatMap_singleton, flatMap_singleton,
    rewriteFrom_of_forall_ne fun site hsite => Nat.ne_of_gt (hbetween site hsite).1,
    rewriteFrom_of_forall_ne fun site hsite => Nat.ne_of_lt (hbetween site hsite).2,
    ink_append, ink_append, ink_flatMap, hopenInk, hcloseInk, hinner]

/-- Indented lines keep their characters. -/
theorem Render.inkOf_indented (oneLine : Bool) (indent : String) (body : List String) :
    (inkOf body).Sublist (inkOf (if oneLine then body.map (indent ++ ·) else body)) := by
  cases oneLine with
  | false => exact List.Sublist.refl _
  | true =>
    induction body with
    | nil => exact List.Sublist.refl _
    | cons line body ih =>
      simp only [if_true, inkOf, map_cons, flatMap_cons, String.toList_append,
        ink_append] at ih ⊢
      exact (sublist_append_right _ _).append ih

/-- The last line of a constructor holds the closing brace. -/
theorem Render.ink_closing (oneLine : Bool) (indent close : String) :
    ['\x7d'].Sublist (ink (if (oneLine || trim close.toList != ['\x7d']) = true then
      indent ++ "\x7d" else close).toList) := by
  split
  · rw [String.toList_append, ink_append]
    exact sublist_append_right _ _
  · rename_i hclose
    simp only [Bool.or_eq_true, not_or, bne_iff_ne, ne_eq, Classical.not_not] at hclose
    rw [← ink_trim, hclose.2]
    decide

/-- **Constructors.** An extended constructor keeps the characters of the old one, with the
calls in its body replaced, if it is written from all of its text. -/
theorem mergedConstructor_keeps {bindings : List Binding} (style : CodeStyle)
    (h : ctor.ReadFrom source layout) (hwhole : ctor.Whole source layout patches)
    (hbindings : bindings ≠ []) (hholding : source.Holding patches) :
    (ink (source.rewritten (layout.sites source patches) ctor.leadingLine ctor.endLine)).Sublist
      (ink (Render.mergedConstructor style source ctor bindings
        (patchedBody ctor patches)).toList) := by
  obtain ⟨hstartLine, hopenLine, hendLine, -⟩ := h.lines
  have hleading : ctor.leadingLine ≤ layout.paramsOpen.line := by
    cases hdoc : ctor.doc with
    | none => rw [Constructor.leadingLine, hdoc, ← hstartLine]; exact Nat.le_refl _
    | some span =>
      have hspan := h.doc span hdoc
      rw [Constructor.leadingLine, hdoc]
      exact Nat.le_trans hspan.first_le (Nat.le_of_lt hspan.last_lt)
  obtain ⟨hclose, hopen, hbodyClose, -, -⟩ := h.starts.order
  simp only [Bool.eq_false_iff, ne_eq, Spot.before_def, Spot.next] at hclose hopen hbodyClose
  have hfront : ∀ numbers : List Nat, (∀ n ∈ numbers, n < layout.bodyOpen.line) →
      ink (numbers.flatMap fun n => rewriteFrom
        ((layout.sites source patches).filter (·.call.line == n)) 0 (source.raw n)) =
      numbers.flatMap fun n => ink (source.raw n) := by
    intro numbers hnumbers
    rw [ink_flatMap]
    refine flatMap_congr fun n hn => ?_
    rw [rewriteFrom_of_forall_ne fun site hsite => ?_]
    have hinside := (of_decide_eq_true (mem_filter.mp hsite).2).1
    rw [Position.le_def] at hinside
    simp only [Source.position, Spot.next] at hinside
    have := hnumbers n hn
    omega
  have hbody : ink (source.rewritten (layout.sites source patches) layout.bodyOpen.line
        layout.bodyClose.line) = ink (layout.openText source) ++
        (Render.inkOf (patchedBody ctor patches) ++ ['\x7d']) := by
    have hwholeBody := hwhole.body
    rw [patchedBody, hopenLine, hendLine]
    by_cases hsame : layout.bodyOpen.line = layout.bodyClose.line
    · rw [if_pos hsame] at hwholeBody
      rw [if_pos (by simpa using hsame)]
      exact ink_patchedBody_line h hsame hwholeBody hholding
    · rw [if_neg hsame] at hwholeBody
      rw [if_neg (by simpa using hsame)]
      exact ink_patchedBody_lines h hsame hwholeBody hholding
  have hdoc := Render.inkOf_mergedDoc style bindings h hwhole.doc
  have hsignature := ink_mergedSignature style h hbindings hwhole.params hwhole.lastParam
  rw [hstartLine] at hdoc
  rw [hendLine, source.rewritten_append _ hleading (by omega),
    source.rewritten_append _ (by omega : layout.paramsOpen.line ≤ layout.bodyOpen.line) (by omega),
    ink_append, ink_append, hfront _ (fun n hn => by rw [mem_range'_1] at hn; omega),
    hfront _ (fun n hn => by rw [mem_range'_1] at hn; omega), hbody, Render.mergedConstructor]
  simp only [Render.ink_joinLines, Render.inkOf_append, Render.inkOf_singleton]
  refine List.Sublist.trans ?_
    ((((hdoc.append hsignature).append (Render.inkOf_indented ..)).append (nil_sublist _)).append
      (Render.ink_closing ..))
  simp only [append_assoc, nil_append, List.Sublist.refl]

end

/-- Whether a piece of a list holds code. -/
def Line.HoldsCode (piece : Line) : Prop := trim piece.masked ≠ []

instance (piece : Line) : Decidable piece.HoldsCode := inferInstanceAs (Decidable (_ ≠ _))

/-- Whether what follows the arguments of a statement is its semicolon, with no other one
behind it, or nothing at all. -/
def EndsStatement (cells : Line) : Prop :=
  let behind := cells.dropWhile (isBlank ·.char)
  behind = [] ∨ behind.head? = some (.show ';') ∧ ∀ cell ∈ behind.tail, cell.code ≠ ';'

instance (cells : Line) : Decidable (EndsStatement cells) := inferInstanceAs (Decidable (_ ∨ _))

/-- Whether a return statement is all that stands on its lines up to the semicolon. -/
structure ReturnWhole (source : Source) (keyword : String) (opening closing : Spot) : Prop where
  front : ink ((source.raw opening.line).take (opening.col + 1)) =
    ink ("return new " ++ keyword ++ "(").toList
  pieces : ∀ piece ∈ (splitCommas (source.between opening closing)).dropLast, piece.HoldsCode
  last : ∀ piece ∈ (splitCommas (source.between opening closing)).getLast?,
    piece.HoldsCode ∨ Blank piece.raw
  back : EndsStatement ((source.line closing.line).drop (closing.col + 1))

instance (source : Source) (keyword : String) (opening closing : Spot) :
    Decidable (ReturnWhole source keyword opening closing) :=
  decidable_of_iff _ ⟨fun h => ⟨h.1, h.2.1, h.2.2.1, h.2.2.2⟩,
    fun h => And.intro h.front (And.intro h.pieces (And.intro h.last h.back))⟩

/-! ### Arguments -/

/-- A list of arguments keeps its characters when others are added behind, if each piece of
it holds code; what follows the last comma may be blank. -/
theorem ink_arguments {cells : Line} {new : List (List Char)} (hne : new ≠ [])
    (hpieces : ∀ piece ∈ (splitCommas cells).dropLast, piece.HoldsCode)
    (hlast : ∀ piece ∈ (splitCommas cells).getLast?, piece.HoldsCode ∨ Blank piece.raw) :
    (ink cells.raw).Sublist
      (listText [] ((EntryList.ofCells cells).entries.map (ink ·.text) ++ new)) := by
  have hkept := @ink_pieces cells
    (fun piece => if trim piece.masked = [] then none else some (trim piece.raw)) new hne
    (fun {piece text} htext => by
      split at htext
      · cases htext
      · rw [← Option.some.inj htext, ink_trim])
    (fun piece hpiece => by simpa [Line.HoldsCode] using hpieces piece hpiece)
    (fun piece hpiece => by simpa [Line.HoldsCode] using hlast piece hpiece)
  have hentries : (EntryList.ofCells cells).entries.map (·.text) = (splitCommas cells).filterMap
      fun piece => if trim piece.masked = [] then none else some (trim piece.raw) := by
    rw [EntryList.ofCells, ← filterMap_eq_filter, map_filterMap, filterMap_map]
    refine filterMap_congr fun piece _ => ?_
    by_cases hempty : trim piece.masked = [] <;> simp [Entry.ofCells, Option.guard, hempty]
  rw [← hentries, map_map] at hkept
  exact hkept

/-! ### The end of the statement -/

theorem afterLastSemicolon_append {front rest : Line} (h : ∀ cell ∈ rest, cell.code ≠ ';') :
    (afterLastSemicolon (front ++ .show ';' :: rest)).toList = rest.raw := by
  have hbehind : (front ++ .show ';' :: rest).reverse.takeWhile (·.code != ';') = rest.reverse := by
    rw [reverse_append, reverse_cons, append_assoc,
      takeWhile_append_of_pos (by simpa using h)]
    simp [Cell.show, Cell.code]
  rw [afterLastSemicolon, hbehind, if_neg (by simp; omega), String.toList_ofList,
    Line.raw, map_reverse, reverse_reverse]
  rfl

/-- What follows the arguments of a statement is kept behind the new ones. -/
theorem EndsStatement.keeps {back : Line} (h : EndsStatement back) (front : Line) :
    (ink back.raw).Sublist (';' :: ink (afterLastSemicolon (front ++ back)).toList) := by
  have hgap : Blank (Line.raw (back.takeWhile (isBlank ·.char))) := by
    intro c hc
    obtain ⟨cell, hcell, rfl⟩ := mem_map.mp hc
    exact all_eq_true.mp all_takeWhile cell hcell
  have hsplit := takeWhile_append_dropWhile (p := (isBlank ·.char)) (l := back)
  rw [← hsplit, Line.raw_append, ink_append, hgap.ink, nil_append]
  rcases h with hnil | ⟨hhead, hrest⟩
  · rw [hnil]
    exact nil_sublist _
  · obtain ⟨rest, hbehind⟩ := head?_eq_some_iff.mp hhead
    rw [hbehind, tail_cons] at hrest
    rw [hbehind, ← append_assoc, afterLastSemicolon_append hrest]
    show (ink (';' :: Line.raw rest)).Sublist _
    rw [ink_cons, show ink [';'] = [';'] by decide]
    exact List.Sublist.refl _

/-! ### The lines of the statement -/

/-- The lines of a list in parentheses: what stands in front of it, the list, and what
follows it. -/
theorem Source.Encloses.ink_lines {source : Source} {opening closing : Spot} {list : List Char}
    (h : source.Encloses opening closing list) :
    ((Source.span opening.line closing.line).flatMap fun n => ink (source.raw n)) =
      ink ((source.raw opening.line).take (opening.col + 1)) ++ (ink list ++
        ')' :: ink (Line.raw ((source.line closing.line).drop (closing.col + 1)))) := by
  obtain ⟨hholds, hbefore⟩ := matchingClose_spec h.closes
  have hne : opening ≠ closing := by
    rintro rfl
    exact absurd (Option.some.inj (h.holds.symm.trans hholds)) (by decide)
  have horder : opening.line < closing.line ∨
      opening.line = closing.line ∧ opening.col + 1 ≤ closing.col := by
    simp only [Bool.eq_false_iff, ne_eq, Spot.before_def] at hbefore
    have hcol : opening.line = closing.line → opening.col ≠ closing.col := fun hline hcol =>
      hne (by cases opening; cases closing; simp_all)
    omega
  have hlines : Source.span opening.line closing.line =
      range' opening.line (closing.line - opening.line) ++ [closing.line] := by
    rw [Source.span, show closing.line + 1 - opening.line = (closing.line - opening.line) + 1 by omega,
      range'_concat, Nat.one_mul, Nat.add_sub_cancel' (by omega)]
  have hlast : source.raw closing.line = (source.raw closing.line).take closing.col ++
      ')' :: Line.raw ((source.line closing.line).drop (closing.col + 1)) := by
    have hcell := hholds.raw (by decide)
    obtain ⟨hlt, hget⟩ := List.getElem?_eq_some_iff.mp hcell
    rw [Line.raw, map_drop, ← hget]
    exact (take_append_drop closing.col _).symm.trans
      (congrArg _ (drop_eq_getElem_cons hlt))
  have hslice := @ink_slice source opening.next closing (by simp only [Spot.next]; omega)
    (by simp only [Spot.next]; omega)
  rw [hlines, flatMap_append, flatMap_singleton, hlast, ink_append, ink_cons,
    show ink [')'] = [')'] by decide, ← append_assoc]
  rw [show opening.line = opening.next.line from rfl, hslice]
  simp only [Spot.next, append_assoc, singleton_append]
  rw [← h.text]
  rfl

/-- **Return statements.** The lines of a return statement keep their characters when
arguments are added to it, if the statement is all that stands on them up to its
semicolon. -/
theorem mergedFactory_keeps {source : Source} {factory : Factory} {keyword : String}
    {opening closing : Spot} {new : List String} (indent unit : String) (trailing : Bool)
    (h : factory.Returns source keyword opening closing)
    (hwhole : ReturnWhole source keyword opening closing) (hnew : new ≠ []) :
    ((Source.span opening.line closing.line).flatMap fun n => ink (source.raw n)).Sublist
      (ink (Render.returnNew indent unit keyword (factory.arguments ++ new) trailing ++
        afterLastSemicolon (source.line closing.line)).toList) := by
  obtain ⟨comma, hshape⟩ := h.shape
  have harguments : (factory.arguments ++ new).map (ink ·.toList) =
      (source.entriesBetween opening closing).entries.map (ink ·.text) ++
        new.map (ink ·.toList) := by
    rw [Factory.arguments, hshape, map_append, map_map]
    exact congrArg (· ++ _) (map_congr_left fun entry _ => by simp)
  have hlist := @ink_arguments _ (new.map (ink ·.toList)) (by simpa using hnew) hwhole.pieces
    hwhole.last
  have hback := hwhole.back.keeps ((source.line closing.line).take (closing.col + 1))
  rw [take_append_drop] at hback
  have hne : factory.arguments ++ new ≠ [] := by simp [hnew]
  have hkeeps :=
    (@Render.returnNew_holds ⟨indent, unit, false⟩ indent .member keyword _ hne trailing).keeps
  rw [harguments, show ink ");".toList = [')', ';'] by decide] at hkeeps
  rw [String.toList_append, ink_append, (Source.Encloses.mk h.holds h.closes rfl).ink_lines,
    hwhole.front]
  refine List.Sublist.trans ?_ (hkeeps.append (List.Sublist.refl _))
  rw [append_assoc, append_assoc]
  exact (List.Sublist.refl _).append (hlist.append (hback.cons_cons ')'))

end ServiceInjection
