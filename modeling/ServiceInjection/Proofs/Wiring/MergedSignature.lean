import ServiceInjection.Proofs.Outline.Sourced
import ServiceInjection.Proofs.Source.Extension
import ServiceInjection.Proofs.Wiring.CallText
import ServiceInjection.Proofs.Wiring.Rendered

/-!
# Wiring.MergedSignature

What the doc comment and the signature of an extended constructor keep of the old ones.

* `inkOf_mergedDoc`: a doc comment keeps its characters, if one on a single line has one
  delimiter at each end.
* `ink_mergedSignature`: the lines up to the brace of the body keep theirs, if each piece
  of the list is a parameter.
-/

namespace ServiceInjection.Text

open List

/-- The characters of a text that are not blank. -/
def ink (cs : List Char) : List Char := cs.filter (!isBlank ·)

@[simp] theorem ink_nil : ink [] = [] := rfl

@[simp] theorem ink_append (a b : List Char) : ink (a ++ b) = ink a ++ ink b := filter_append ..

theorem ink_cons (c : Char) (cs : List Char) : ink (c :: cs) = ink [c] ++ ink cs :=
  ink_append [c] cs

theorem ink_flatMap {α : Type} (l : List α) (f : α → List Char) :
    ink (l.flatMap f) = l.flatMap fun a => ink (f a) := filter_flatMap ..

theorem Blank.ink {cs : List Char} (h : Blank cs) : ink cs = [] := by
  refine filter_eq_nil_iff.mpr fun c hc => ?_
  simp [h c hc]

@[simp] theorem ink_trim (cs : List Char) : ink (trim cs) = ink cs := by
  obtain ⟨lead, tail, hlead, htail, heq⟩ := exists_trim cs
  have hink := congrArg ink heq
  rw [ink_append, ink_append, hlead.ink, htail.ink, nil_append, append_nil] at hink
  exact hink.symm

@[simp] theorem ink_trimStart (cs : List Char) : ink (trimStart cs) = ink cs := by
  have hblank : Blank (cs.takeWhile isBlank) := all_eq_true.mp all_takeWhile
  have hink := congrArg ink (takeWhile_append_dropWhile (p := isBlank) (l := cs))
  rwa [ink_append, hblank.ink] at hink

/-- The separators between pieces lose their blanks too. -/
theorem ink_intercalate (separator : List Char) (pieces : List (List Char)) :
    ink (separator.intercalate pieces) = (ink separator).intercalate (pieces.map ink) := by
  induction pieces with
  | nil => rfl
  | cons piece pieces ih =>
    cases pieces with
    | nil => simp [intercalate]
    | cons next pieces =>
      rw [intercalate_cons_cons, ink_append, ink_append, ih]
      exact (intercalate_cons_cons ..).symm

theorem ink_joined (ls : List (List Char)) : ink (joined ls) = ls.flatMap ink := by
  rw [joined, ink_intercalate, show ink ['\n'] = [] by decide]
  induction ls with
  | nil => rfl
  | cons line ls ih =>
    cases ls with
    | nil => simp [intercalate]
    | cons next ls =>
      have hcons : ([] : List Char).intercalate (ink line :: ink next :: ls.map ink) =
          ink line ++ [] ++ _ := intercalate_cons_cons ..
      rw [append_nil] at hcons
      rw [flatMap_cons, ← ih]
      exact hcons

end ServiceInjection.Text

namespace ServiceInjection

open Text List

theorem range'_split {a m b : Nat} (ham : a ≤ m) (hmb : m ≤ b) :
    range' a (b - a) = range' a (m - a) ++ range' m (b - m) := by
  have hsum : b - a = (m - a) + (b - m) := by omega
  rw [hsum, ← range'_append_1, Nat.add_sub_cancel' ham]

/-! ### Doc comments -/

namespace Render

theorem dropRepeats_eq_self {piece cs : List Char} (h : ¬ piece <+: cs) :
    dropRepeats piece cs = cs := by
  have hnone : literalChars piece cs = none := by
    cases hread : literalChars piece cs with
    | none => rfl
    | some rest => exact absurd ⟨rest, (literalChars_eq_some.mp hread).symm⟩ h
  rw [dropRepeats, hnone]

theorem dropRepeats_append {piece : List Char} (hne : piece ≠ []) {rest : List Char}
    (h : ¬ piece <+: rest) : dropRepeats piece (piece ++ rest) = rest := by
  have hlt : rest.length < (piece ++ rest).length := by
    have := length_pos_of_ne_nil hne
    rw [length_append]
    omega
  rw [dropRepeats, literalChars_eq_some.mpr rfl]
  dsimp only
  rw [if_pos hlt, dropRepeats_eq_self h]

/-- A doc comment on one line with one delimiter at each end: its text is what stands
between them. -/
theorem ink_docText {line text : List Char} (hline : trim line = "/**".toList ++ text)
    (hopen : ¬ "/**".toList <+: text) (hclose : ¬ "*/*/".toList <:+ text) :
    ∃ close, (close = [] ∨ close = "*/".toList) ∧
      ink line = "/**".toList ++ (ink (docText line) ++ close) := by
  have htext : docText line = trim (dropRepeats "/*".toList text.reverse).reverse := by
    rw [docText, hline, dropRepeats_append (by simp) hopen]
  have hink : ink line = "/**".toList ++ ink text := by
    rw [← ink_trim, hline, ink_append, show ink "/**".toList = "/**".toList by decide]
  rw [hink, htext, ink_trim]
  by_cases hend : "/*".toList <+: text.reverse
  · obtain ⟨front, hfront⟩ := hend
    have hsplit : text = front.reverse ++ "*/".toList := by
      rw [← reverse_reverse text, ← hfront, reverse_append]
      rfl
    have honce : ¬ "/*".toList <+: front := by
      rintro ⟨more, rfl⟩
      refine hclose ⟨more.reverse, ?_⟩
      rw [hsplit, reverse_append, append_assoc]
      rfl
    refine ⟨"*/".toList, .inr rfl, ?_⟩
    rw [← hfront, dropRepeats_append (by simp) honce, hsplit, ink_append,
      show ink "*/".toList = "*/".toList by decide]
  · exact ⟨[], .inl rfl, by rw [dropRepeats_eq_self hend, reverse_reverse, append_nil]⟩

/-- The characters of lines that are not blank. -/
def inkOf (lines : List String) : List Char := lines.flatMap (ink ·.toList)

@[simp] theorem inkOf_append (front back : List String) :
    inkOf (front ++ back) = inkOf front ++ inkOf back := flatMap_append

@[simp] theorem inkOf_singleton (line : String) : inkOf [line] = ink line.toList := by simp [inkOf]

theorem ink_joinLines (lines : List String) : ink (joinLines lines).toList = inkOf lines := by
  rw [toList_joinLines, ink_joined, inkOf, flatMap_map]

theorem inkOf_insertAt (index : Nat) (new lines : List String) :
    (inkOf lines).Sublist (inkOf (insertAt index new lines)) := by
  have hsplit : inkOf lines = inkOf (lines.take index) ++ inkOf (lines.drop index) := by
    rw [← inkOf_append, take_append_drop]
  rw [hsplit, insertAt, inkOf_append, inkOf_append]
  exact (sublist_append_left _ _).append (List.Sublist.refl _)

/-- Whether a doc comment on one line has one delimiter at each end. -/
def DelimitedOnce (line : List Char) : Prop :=
  ¬ "/**".toList <+: (trim line).drop 3 ∧ ¬ "*/*/".toList <:+ (trim line).drop 3

instance (line : List Char) : Decidable (DelimitedOnce line) := inferInstanceAs (Decidable (_ ∧ _))

/-- A trimmed line starts like the line without the blanks in front. -/
theorem exists_trim_of_startsWith {line : List Char}
    (h : startsWith "/**" (trimStart line) = true) : ∃ text, trim line = "/**".toList ++ text := by
  obtain ⟨rest, hrest⟩ := isPrefixOf_iff_prefix.mp h
  refine ⟨trimEnd rest, ?_⟩
  have hsolid : ("/**".toList.reverse).dropWhile isBlank = "/**".toList.reverse := by decide
  rw [trim, ← hrest, trimEnd, reverse_append, dropWhile_append]
  split
  · rename_i hblank
    rw [hsolid, reverse_reverse, trimEnd, isEmpty_iff.mp hblank]
    rfl
  · rw [reverse_append, reverse_reverse, trimEnd]

/-- A doc comment keeps its characters when parameters are added to it. -/
theorem inkOf_extendDoc {indent : String} {doc new : List String}
    (h : ∀ line, doc = [line] → DelimitedOnce line.toList ∧
      startsWith "/**" (trimStart line.toList) = true) :
    (inkOf doc).Sublist (inkOf (extendDoc indent doc new)) := by
  unfold extendDoc
  split
  · exact List.Sublist.refl _
  · split
    · rename_i line
      obtain ⟨⟨hopen, hclose⟩, hstart⟩ := h line rfl
      obtain ⟨text, htrim⟩ := exists_trim_of_startsWith hstart
      rw [htrim] at hopen hclose
      obtain ⟨close, hcloseText, hink⟩ := ink_docText htrim hopen hclose
      dsimp only
      rw [inkOf_singleton, hink, inkOf_append, inkOf_append, inkOf_append, append_assoc,
        append_assoc]
      refine List.Sublist.append ?_ (List.Sublist.append ?_ (List.Sublist.append
        (nil_sublist _) ?_))
      · rw [inkOf_singleton, String.toList_append, ink_append,
          show ink "/**".toList = "/**".toList by decide]
        exact sublist_append_right _ _
      · by_cases hempty : docText line.toList = []
        · rw [hempty]
          exact nil_sublist _
        · rw [if_neg (by simpa using hempty)]
          simp only [inkOf, flatMap_cons, String.toList_append, String.toList_ofList, ink_append,
            append_assoc]
          exact (sublist_append_left _ _).trans
            ((sublist_append_right _ _).trans (sublist_append_right _ _))
      · rw [inkOf_singleton, String.toList_append, ink_append,
          show ink " */".toList = "*/".toList by decide]
        rcases hcloseText with rfl | rfl
        · exact nil_sublist _
        · exact sublist_append_right _ _
    · dsimp only
      split
      · exact inkOf_insertAt _ _ _
      · exact inkOf_insertAt _ _ _

/-- The doc comment and the attributes of a constructor keep their characters. -/
theorem inkOf_mergedDoc {source : Source} {layout : MethodLayout} {ctor : Constructor}
    (style : CodeStyle) (bindings : List Binding) (h : ctor.ReadFrom source layout)
    (honce : ∀ span ∈ ctor.doc, span.first = span.last →
      DelimitedOnce (source.raw span.first)) :
    ((range' ctor.leadingLine (ctor.startLine - ctor.leadingLine)).flatMap
      fun n => ink (source.raw n)).Sublist (inkOf (mergedDoc style source ctor bindings)) := by
  have hstart := h.lines.1
  unfold mergedDoc
  cases hdoc : ctor.doc with
  | none =>
    rw [show ctor.leadingLine = ctor.startLine by rw [Constructor.leadingLine, hdoc]; rfl,
      Nat.sub_self]
    exact nil_sublist _
  | some span =>
    obtain ⟨hle, hlt, hopens⟩ := h.doc span hdoc
    have hfirst : ctor.leadingLine = span.first := by rw [Constructor.leadingLine, hdoc]; rfl
    have htexts : ∀ numbers : List Nat, (numbers.flatMap fun n => ink (source.raw n)) =
        inkOf (numbers.map fun n => (source.line n).text) := by
      intro numbers
      simp only [inkOf, flatMap_map, Line.text, String.toList_ofList]
      rfl
    have hsplit : range' ctor.leadingLine (ctor.startLine - ctor.leadingLine) =
        Source.span span.first span.last ++
          range' (span.last + 1) (ctor.startLine - (span.last + 1)) := by
      rw [hfirst, Source.span, range'_split (by omega : span.first ≤ span.last + 1) (by omega)]
    dsimp only
    rw [hsplit, htexts, map_append, inkOf_append, inkOf_append]
    refine List.Sublist.append (inkOf_extendDoc fun line hline => ?_) (List.Sublist.refl _)
    have hone : span.first = span.last := by
      have hlength := congrArg length hline
      rw [length_map, Source.span, length_range', length_singleton] at hlength
      omega
    rw [← hone, Source.span, Nat.add_sub_cancel_left] at hline
    obtain rfl : (source.line span.first).text = line := singleton_inj.mp hline
    rw [Line.text, String.toList_ofList]
    exact ⟨honce span hdoc hone, hopens⟩

/-! ### Parameters -/

theorem ink_listText {gap : List Char} (h : Blank gap) (entries : List (List Char)) :
    ink (listText gap entries) = listText [] (entries.map ink) := by
  rw [listText, ink_intercalate, ink_cons, h.ink, show ink [','] = [','] by decide]
  rfl

/-- A list with one entry a line keeps its entries and the commas between them. -/
theorem inkOf_listLines (indent : String) (trailing : Bool) (entries : List String) :
    (listText [] (entries.map (ink ·.toList))).Sublist
      (inkOf (listLines indent trailing entries)) := by
  induction entries with
  | nil => exact nil_sublist _
  | cons entry entries ih =>
    cases entries with
    | nil =>
      rw [map_singleton, listText_singleton]
      cases trailing <;>
        simp only [listLines, withCommas, map_singleton, inkOf_singleton,
          String.toList_append, ink_append, if_true, if_false, Bool.false_eq_true]
      · exact sublist_append_right _ _
      · exact (sublist_append_left _ _).trans (sublist_append_right _ _)
    | cons second entries =>
      have hlines : listLines indent trailing (entry :: second :: entries) =
          [indent ++ (entry ++ ",")] ++ listLines indent trailing (second :: entries) := rfl
      rw [map_cons, listText_cons (by simp), hlines, inkOf_append, inkOf_singleton,
        String.toList_append, String.toList_append, ink_append, ink_append,
        show ink ",".toList = [','] by decide, ← singleton_append, ← append_assoc]
      exact List.Sublist.append (sublist_append_right _ _) ih

end Render

/-- A text that holds a list keeps the delimiters, the entries and the commas between
them. -/
theorem HoldsList.keeps {style : CodeStyle} {start stop text : String} {entries : List String}
    (h : HoldsList style start stop entries text) :
    (ink start.toList ++ (listText [] (entries.map (ink ·.toList)) ++ ink stop.toList)).Sublist
      (ink text.toList) := by
  obtain ⟨before, list, behind, hlist, rfl⟩ := h
  have hentries : (listText [] (entries.map (ink ·.toList))).Sublist (ink list.toList) := by
    cases hlist with
    | oneLine blanks hblanks =>
      rw [String.toList_append, Render.toList_commas, ink_append,
        Render.ink_listText (by decide), map_map]
      exact sublist_append_left _ _
    | @oneALine indent close trailing =>
      simp only [String.toList_append, ink_append, Render.ink_joinLines]
      exact (Render.inkOf_listLines indent trailing entries).trans
        ((sublist_append_right _ _).trans ((sublist_append_left _ _).trans
          (sublist_append_left _ _)))
  simp only [String.toList_append, ink_append, append_assoc]
  exact ((List.Sublist.refl _).append (hentries.append (sublist_append_left _ _))).trans
    (sublist_append_right _ _)

/-- The pieces of a list, with the commas between them, are its text. -/
theorem listText_splitCommasAt (depth : Int) (cells : Line) :
    listText [] ((splitCommasAt depth cells).map Line.raw) = cells.raw := by
  induction cells generalizing depth with
  | nil => rfl
  | cons cell rest ih =>
    by_cases h : cell.code = ',' ∧ depth = 0
    · have hcell : cell = .show ',' := Cell.eq_show_of_code h.1 (by decide)
      have hne : (splitCommasAt depth rest).map Line.raw ≠ [] := by
        simpa using Line.splitCommasAt_ne_nil depth rest
      rw [splitCommasAt, if_pos (by simpa using h), map_cons, listText_cons hne, ih, hcell]
      rfl
    · rw [Line.splitCommasAt_cons rest h]
      have hrest := ih (depth + depthChange cell.code)
      cases hsplit : splitCommasAt (depth + depthChange cell.code) rest with
      | nil => exact absurd hsplit (Line.splitCommasAt_ne_nil _ _)
      | cons piece pieces =>
        rw [hsplit] at hrest
        show _ = cell.char :: Line.raw rest
        rw [← hrest]
        cases pieces with
        | nil => simp [listText_singleton, Line.raw]
        | cons next pieces =>
          simp only [modifyHead_cons, map_cons]
          rw [listText_cons (cons_ne_nil _ _), listText_cons (cons_ne_nil _ _)]
          rfl

theorem paramDecl_nil : paramDecl [] = none := by
  have hattributes : skipAttributes [] = [] := by
    simp [skipAttributes, literal, literalChars]
  have hmodifier : modifier paramModifiers [] = none := by decide
  have htyped : typedName true [] [] = none := by decide
  rw [paramDecl, hattributes, declarationAfter, hmodifier, htyped]
  rfl

/-- Whether a piece of a list declares a parameter. -/
def Line.DeclaresParam (piece : Line) : Prop :=
  (Param.of? (trim piece.raw) (trim piece.masked)).isSome = true

instance (piece : Line) : Decidable piece.DeclaresParam := inferInstanceAs (Decidable (_ = true))

/-- The parameters that pieces of a list declare. -/
def paramsOf (pieces : List Line) : List Param :=
  ((pieces.map Entry.ofCells).filter (!·.masked.isEmpty)).filterMap fun entry =>
    Param.of? entry.text entry.masked

theorem paramsOf_eq (pieces : List Line) :
    paramsOf pieces = pieces.filterMap fun piece => Param.of? (trim piece.raw) (trim piece.masked) := by
  rw [paramsOf, filterMap_filter, filterMap_map]
  refine filterMap_congr fun piece _ => ?_
  by_cases hempty : trim piece.masked = []
  · simp [Entry.ofCells, hempty, Param.of?, paramDecl_nil]
  · simp [Entry.ofCells, hempty]

/-- A list keeps its characters when entries are added behind, if each piece of it is kept;
what follows the last comma may be blank. -/
theorem ink_pieces {cells : Line} {kept : Line → Option (List Char)} {new : List (List Char)}
    (hne : new ≠ []) (hkept : ∀ {piece text}, kept piece = some text → ink text = ink piece.raw)
    (hpieces : ∀ piece ∈ (splitCommas cells).dropLast, (kept piece).isSome = true)
    (hlast : ∀ piece ∈ (splitCommas cells).getLast?,
      (kept piece).isSome = true ∨ Blank piece.raw) :
    (ink cells.raw).Sublist
      (listText [] (((splitCommas cells).filterMap kept).map ink ++ new)) := by
  have htexts : ∀ pieces : List Line, (∀ piece ∈ pieces, (kept piece).isSome = true) →
      (pieces.filterMap kept).map ink = pieces.map fun piece => ink piece.raw := by
    intro pieces hall
    rw [map_filterMap, ← filterMap_eq_map]
    refine filterMap_congr fun piece hpiece => ?_
    obtain ⟨text, htext⟩ := Option.isSome_iff_exists.mp (hall piece hpiece)
    rw [htext]
    exact congrArg some (hkept htext)
  have hraw := congrArg ink (listText_splitCommasAt 0 cells)
  rw [Render.ink_listText (by decide), map_map] at hraw
  obtain ⟨last, hlastEq⟩ : ∃ last, (splitCommas cells).getLast? = some last :=
    Option.isSome_iff_exists.mp
      (by simpa [splitCommas] using Line.splitCommasAt_ne_nil 0 cells)
  obtain ⟨front, hsplit⟩ := getLast?_eq_some_iff.mp hlastEq
  rw [hsplit, dropLast_concat] at hpieces
  rw [← hraw, ← splitCommas, hsplit, filterMap_append, map_append, map_append,
    htexts front hpieces, listText_append [] _ (by simp), append_assoc,
    listText_append [] _ (by simp [hne])]
  refine List.Sublist.append (List.Sublist.refl _) ?_
  rw [map_singleton, listText_singleton]
  rcases hlast last hlastEq with hkeptLast | hblank
  · rw [htexts [last] (by simpa using hkeptLast), map_singleton, singleton_append,
      listText_cons hne]
    exact sublist_append_left _ _
  · rw [Function.comp_apply, hblank.ink]
    exact nil_sublist _

/-- **Parameters.** A list of parameters keeps its characters when others are added
behind, if each piece of it is a parameter; what follows the last comma may be blank. -/
theorem ink_params {cells : Line} {new : List (List Char)} (hne : new ≠ [])
    (hparams : ∀ piece ∈ (splitCommas cells).dropLast, piece.DeclaresParam)
    (hlast : ∀ piece ∈ (splitCommas cells).getLast?, piece.DeclaresParam ∨ Blank piece.raw) :
    (ink cells.raw).Sublist
      (listText [] ((paramsOf (splitCommas cells)).map (ink ·.text.toList) ++ new)) := by
  have hpieces := @ink_pieces cells
    (fun piece => (Param.of? (trim piece.raw) (trim piece.masked)).map (·.text.toList)) new hne
    (fun {piece text} htext => by
      obtain ⟨param, hparam, rfl⟩ := Option.map_eq_some_iff.mp htext
      rw [Param.text_of? hparam, String.toList_ofList, ink_trim])
    (fun piece hpiece => by simpa [Line.DeclaresParam] using hparams piece hpiece)
    (fun piece hpiece => by simpa [Line.DeclaresParam] using hlast piece hpiece)
  rwa [← map_filterMap, ← paramsOf_eq, map_map] at hpieces

/-! ### Signatures -/

namespace MethodLayout

variable {source : Source} {layout : MethodLayout}

/-- The brackets of a method come one behind the other. -/
theorem Starts.order (h : layout.Starts source) :
    layout.paramsClose.before layout.paramsOpen = false ∧
      layout.bodyOpen.before layout.paramsClose.next = false ∧
      layout.bodyClose.before layout.bodyOpen = false ∧
      source.Holds layout.bodyOpen '{' ∧ source.Holds layout.bodyClose '}' := by
  obtain ⟨n, head, -, hlayout⟩ := h
  obtain ⟨-, -, -, -, hopen, hclose⟩ := MethodLayout.spec hlayout
  simp only [MethodLayout.at?, Option.bind_eq_bind, Option.bind_eq_some_iff] at hlayout
  obtain ⟨close, hparams, glyph, hglyph, _, -, bodyClose, hbody, hsome⟩ := hlayout
  cases hsome
  exact ⟨(Source.matchingClose_spec hparams).2, (Source.firstOf_spec hglyph).2.1,
    (Source.matchingClose_spec hbody).2, hopen, hclose⟩

/-- The text of a method from its parameters to its body. -/
theorem Starts.slice_signature (h : layout.Starts source) :
    source.slice layout.paramsOpen layout.bodyOpen.next =
      .show '(' :: (source.between layout.paramsOpen layout.paramsClose ++
        source.slice layout.paramsClose layout.bodyOpen.next) := by
  obtain ⟨hvalid, method, hrest, hlayout⟩ := h.exists_text
  have hwhole : source.rest layout.paramsOpen = [] ++
      ((.show '(' :: (method.params ++ .show ')' :: method.signature)) ++ .show '{' ::
        (method.body ++ .show '}' :: method.back)) := by
    rw [hrest]
    simp [MethodText.cells]
  have hend : source.rest layout.paramsOpen = .show '(' :: method.params ++
      (.show ')' :: method.signature ++ .show '{' ::
        (method.body ++ .show '}' :: method.back)) := by
    rw [hrest]
    simp [MethodText.cells]
  have hslice := Source.slice_next hvalid hwhole (by decide)
  have hslice' := Source.slice_next hvalid hend (by decide)
  have hbetween := @Source.between_advance source _ hvalid 0 [] method.params _ _ hrest rfl (by decide)
  have hclose : layout.paramsClose = source.advance layout.paramsOpen method.paramsClose :=
    congrArg MethodLayout.paramsClose hlayout
  have hopen : layout.bodyOpen = source.advance layout.paramsOpen method.bodyOpen :=
    congrArg MethodLayout.bodyOpen hlayout
  rw [length_nil, Source.advance_zero hvalid, Nat.zero_add,
    show (Cell.show '(' :: (method.params ++ .show ')' :: method.signature)).length =
      method.bodyOpen by simp [MethodText.bodyOpen, MethodText.paramsClose]; omega, ← hopen] at hslice
  rw [show (Cell.show '(' :: method.params).length = method.paramsClose from rfl, ← hclose,
    show method.paramsClose + (Cell.show ')' :: method.signature).length = method.bodyOpen by
      simp [MethodText.bodyOpen]; omega, ← hopen] at hslice'
  rw [Source.advance_zero hvalid, show 0 + 1 + method.params.length = method.paramsClose by
    simp [MethodText.paramsClose]; omega, ← hclose] at hbetween
  rw [hslice, hslice', hbetween]
  simp

end MethodLayout

/-- The characters from one place to another, with what stands in front of the first one on
its line. -/
theorem Source.ink_slice {source : Source} {a b : Spot} (hline : a.line ≤ b.line)
    (hcol : a.line = b.line → a.col ≤ b.col) :
    ((range' a.line (b.line - a.line)).flatMap fun n => ink (source.raw n)) ++
        ink ((source.raw b.line).take b.col) =
      ink ((source.raw a.line).take a.col) ++ ink (source.slice a b).raw := by
  by_cases hsame : a.line = b.line
  · have hcut := @take_append_drop_take _ (source.raw b.line) _ _ (hcol hsame)
    rw [slice, if_pos (by simpa using hsame), hsame, Nat.sub_self, ← ink_append, Line.raw,
      map_drop, map_take]
    exact congrArg ink hcut.symm
  · have hnumbers : range' a.line (b.line - a.line) =
        a.line :: Source.span (a.line + 1) (b.line - 1) := by
      rw [show b.line - a.line = (b.line - (a.line + 1)) + 1 by omega, range'_succ, Source.span,
        show b.line - 1 + 1 - (a.line + 1) = b.line - (a.line + 1) by omega]
    have hfirst : ink (source.raw a.line) =
        ink ((source.raw a.line).take a.col) ++ ink (Line.raw ((source.line a.line).drop a.col)) := by
      rw [Line.raw, map_drop, ← ink_append]
      exact congrArg ink (take_append_drop a.col _).symm
    have hinner : ∀ numbers : List Nat,
        ink (Line.raw ((numbers.map source.line).flatMap (· ++ [lineEnd]))) =
          numbers.flatMap fun n => ink (source.raw n) := by
      intro numbers
      rw [Line.raw, map_flatMap, ink_flatMap, flatMap_map]
      refine congrArg (numbers.flatMap ·) (funext fun n => ?_)
      rw [map_append, ink_append, show ink ([lineEnd].map Cell.char) = [] by decide,
        append_nil]
      rfl
    rw [slice, if_neg (by simpa using hsame), hnumbers, flatMap_cons, hfirst]
    dsimp only
    rw [Line.raw_append, Line.raw_append,
      show Line.raw (lineEnd :: _) = '\n' :: Line.raw _ from rfl, ink_append, ink_append, ink_cons,
      hinner, show ink ['\n'] = [] by decide]
    simp only [append_assoc, nil_append]
    congr 3
    rw [Line.raw, map_take]
    rfl

/-- The pieces of the parameter list of a method, cut at its commas. -/
def MethodLayout.paramPieces (source : Source) (layout : MethodLayout) : List Line :=
  splitCommas (source.between layout.paramsOpen layout.paramsClose)

/-- The line of the brace that opens a body, up to the brace. -/
def MethodLayout.openText (source : Source) (layout : MethodLayout) : List Char :=
  (source.raw layout.bodyOpen.line).take (layout.bodyOpen.col + 1)

/-- **Signatures.** The lines of a constructor up to the brace of its body keep their
characters, if its list holds parameters only. -/
theorem ink_mergedSignature {source : Source} {layout : MethodLayout} {ctor : Constructor}
    {bindings : List Binding} (style : CodeStyle) (h : ctor.ReadFrom source layout)
    (hbindings : bindings ≠ [])
    (hparams : ∀ piece ∈ (layout.paramPieces source).dropLast, piece.DeclaresParam)
    (hlast : ∀ piece ∈ (layout.paramPieces source).getLast?,
      piece.DeclaresParam ∨ Blank piece.raw) :
    (((range' layout.paramsOpen.line (layout.bodyOpen.line - layout.paramsOpen.line)).flatMap
        fun n => ink (source.raw n)) ++ ink (layout.openText source)).Sublist
      (Render.inkOf (Render.mergedSignature style source ctor bindings)) := by
  obtain ⟨hclose, hopen, -, -, -⟩ := h.starts.order
  have hbefore : ¬ layout.bodyOpen.next.before layout.paramsOpen = true := by
    simp only [Bool.eq_false_iff, ne_eq, Spot.before_def, Spot.next] at hclose hopen ⊢
    omega
  simp only [Spot.before_def, Spot.next] at hbefore
  have hink := @Source.ink_slice source layout.paramsOpen layout.bodyOpen.next
    (by simp only [Spot.next]; omega) (by simp only [Spot.next]; omega)
  have hparen : (source.raw layout.paramsOpen.line).take (layout.paramsOpen.col + 1) =
      (source.raw layout.paramsOpen.line).take layout.paramsOpen.col ++ ['('] := by
    rw [take_add_one, h.starts.paramsOpen.raw (by decide)]
    rfl
  have hstart : ctor.signatureStart.toList =
      (source.raw layout.paramsOpen.line).take layout.paramsOpen.col ++ ['('] := by
    rw [h.eq, ← hparen]
    exact String.toList_ofList
  have hend : ctor.signatureEnd.toList =
      (source.slice layout.paramsClose layout.bodyOpen.next).raw := by
    rw [h.eq]
    exact String.toList_ofList
  have hctor : ctor.params = paramsOf (layout.paramPieces source) := by
    rw [h.eq]
    rfl
  have hkeeps := (Render.mergedSignature_holds style source ctor hbindings).keeps
  rw [Render.ink_joinLines, String.toList_ofList, ink_trimStart, hstart, hend, Render.mergedParams,
    hctor, map_append, map_map] at hkeeps
  have hlist := @ink_params (source.between layout.paramsOpen layout.paramsClose)
    ((bindings.map (·.declaration)).map (ink ·.toList)) (by simpa using hbindings) hparams hlast
  refine List.Sublist.trans ?_ hkeeps
  rw [MethodLayout.openText, show layout.bodyOpen.line = layout.bodyOpen.next.line from rfl,
    show layout.bodyOpen.col + 1 = layout.bodyOpen.next.col from rfl, hink, h.starts.slice_signature]
  show List.Sublist (_ ++ ink ('(' :: Line.raw (_ ++ _))) _
  rw [Line.raw_append, ink_cons, ink_append, ink_append, append_assoc]
  exact (List.Sublist.refl _).append ((List.Sublist.refl _).append
    (hlist.append (List.Sublist.refl _)))

end ServiceInjection
