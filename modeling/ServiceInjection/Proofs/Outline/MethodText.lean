import ServiceInjection.Proofs.Outline.Blocks
import ServiceInjection.Proofs.Source.Lex
import ServiceInjection.Proofs.Source.Nesting
import ServiceInjection.Proofs.Text.Lines

/-!
# Outline.MethodText

The text of a method from its parameters on, cut at its four brackets. The layout of a
method describes such a cut, and every such cut gives a layout
(`MethodLayout.at?_eq_some_iff`), so a method can be taken apart and put together again
with another body or other parameters. The index
that a head gives is the place of the parenthesis that opens its parameters
(`MethodHead.exists_paren`).
-/

namespace ServiceInjection

open Text List

variable {code : List Char} {head : MethodHead}

namespace Text

/-! ### Recognisers -/

theorem someBlanks_suffix {cs rest : List Char} (h : someBlanks cs = some rest) : rest <:+ cs := by
  cases cs with
  | nil => cases h
  | cons c cs =>
    rw [someBlanks] at h
    split at h
    · cases h
      exact (dropWhile_suffix _).trans (suffix_cons c cs)
    · cases h

theorem oneOf_suffix {words : List String} {cs : List Char} {hit : String × List Char}
    (h : oneOf words cs = some hit) : hit.2 <:+ cs := by
  obtain ⟨w, -, hw⟩ := exists_of_findSome?_eq_some h
  obtain ⟨rest, hrest, rfl⟩ := Option.map_eq_some_iff.mp hw
  exact ⟨w.toList, (literal_eq_some.mp hrest).symm⟩

theorem skipAttributes_suffix (cs : List Char) : skipAttributes cs <:+ cs := by
  fun_induction skipAttributes cs with
  | case1 cs hnone => exact suffix_refl cs
  | case2 cs content rest hrest more hlt ih =>
    obtain ⟨inner, hinner, hclose⟩ := Option.bind_eq_some_iff.mp hrest
    rw [literal_eq_some.mp hinner, (upTo_eq_some hclose).1]
    refine ih.trans ((dropWhile_suffix _).trans ?_)
    exact ⟨"#[".toList ++ content ++ [']'], by simp⟩
  | case3 cs content rest hrest more hlt => exact suffix_refl cs

end Text

/-! ### Heads -/

theorem skipModifiers_suffix (words : List String) (cs : List Char) :
    skipModifiers words cs <:+ cs := by
  fun_induction skipModifiers words cs with
  | case1 cs hnone => exact suffix_refl cs
  | case2 cs rest hrest hlt ih =>
    obtain ⟨hit, hhit, hblanks⟩ := Option.bind_eq_some_iff.mp hrest
    exact ih.trans ((someBlanks_suffix hblanks).trans (oneOf_suffix hhit))
  | case3 cs rest hrest hlt => exact suffix_refl cs

/-- A head is read behind the attributes, and its parenthesis behind its name. -/
theorem MethodHead.paren_spec (h : MethodHead.of? code = some head) :
    ∃ behind, '(' :: behind <:+ skipAttributes (blanks code) ∧
      head.paren = code.length - behind.length - 1 ∧
      (literal "#[" (skipAttributes (blanks code))).isSome = false := by
  simp only [MethodHead.of?, Option.bind_eq_bind, Option.bind_eq_some_iff] at h
  obtain ⟨cs, hfunction, cs', hblanks, hit, hword, behind, hparen, h⟩ := h
  cases h
  refine ⟨behind, ?_, rfl, ?_⟩
  · have hskip : skipChar '&' cs' <:+ cs' :=
      (exists_skipChar '&' cs').elim fun skipped h => ⟨skipped, h.2.symm⟩
    have hname : hit.2 <:+ blanks (skipChar '&' cs') := ⟨hit.1, (word_eq_some hword).1.symm⟩
    have hfront : cs <:+ skipModifiers ["public", "protected", "private", "static", "abstract",
        "final"] (skipAttributes (blanks code)) :=
      ⟨"function".toList, (literal_eq_some.mp hfunction).symm⟩
    have hopen : '(' :: behind = blanks hit.2 := (literal_eq_some.mp hparen).symm
    rw [hopen]
    exact (dropWhile_suffix _).trans <| hname.trans <| (dropWhile_suffix _).trans <|
      hskip.trans <| (someBlanks_suffix hblanks).trans <| hfront.trans (skipModifiers_suffix _ _)
  · cases hattribute : literal "#[" (skipAttributes (blanks code)) with
    | none => rfl
    | some inner =>
      -- No modifier starts with a number sign.
      rw [literal_eq_some.mp hattribute] at hfunction
      simp [skipModifiers, oneOf, literal, literalChars] at hfunction

/-- The parenthesis of a head stands at the index that the head gives. -/
theorem MethodHead.exists_paren (h : MethodHead.of? code = some head) :
    ∃ front behind, code = front ++ '(' :: behind ∧ head.paren = front.length := by
  obtain ⟨behind, hsuffix, hparen, -⟩ := paren_spec h
  obtain ⟨front, rfl⟩ := hsuffix.trans ((skipAttributes_suffix _).trans (dropWhile_suffix _))
  refine ⟨front, behind, rfl, ?_⟩
  rw [hparen, length_append, length_cons]
  omega

/-- A method is no trait use. -/
theorem MethodHead.not_isTraitUse (h : MethodHead.of? code = some head) :
    isTraitUse code = false := by
  cases huse : literal "use" (blanks code) with
  | none => simp [isTraitUse, huse]
  | some rest =>
    rw [MethodHead.of?, literal_eq_some.mp huse] at h
    simp [skipAttributes, skipModifiers, oneOf, literal, literalChars] at h

variable {source : Source} {front : List Char}

/-- A method from the parenthesis that opens its parameters on: the parameters, what
stands between them and the body, the body, and what follows it. -/
structure MethodText where
  params : Line
  signature : Line
  body : Line
  back : Line
  params_nested : NestedIn '(' ')' 0 params.code = true
  signature_plain : ∀ c ∈ signature.code, c ≠ '{' ∧ c ≠ ';'
  body_nested : NestedIn '{' '}' 0 body.code = true

namespace MethodText

/-- The cells of a method. -/
def cells (method : MethodText) : Line :=
  .show '(' :: (method.params ++ .show ')' :: (method.signature ++ .show '{' ::
    (method.body ++ .show '}' :: method.back)))

/-- The index of the parenthesis that closes the parameters. -/
def paramsClose (method : MethodText) : Nat := method.params.length + 1

/-- The index of the brace that opens the body. -/
def bodyOpen (method : MethodText) : Nat := method.paramsClose + 1 + method.signature.length

/-- The index of the brace that closes the body. -/
def bodyClose (method : MethodText) : Nat := method.bodyOpen + 1 + method.body.length

theorem drop_bodyClose (method : MethodText) :
    method.cells.drop method.bodyClose = .show '}' :: method.back := by
  have hsplit : method.cells = (.show '(' :: (method.params ++ .show ')' :: (method.signature ++
      .show '{' :: method.body))) ++ .show '}' :: method.back := by
    simp [cells]
  rw [hsplit, drop_left']
  simp [bodyClose, bodyOpen, paramsClose]
  omega

/-- The places of the brackets of a method that stands at a place. -/
def layout (method : MethodText) (source : Source) (spot : Spot) : MethodLayout :=
  ⟨spot, source.advance spot method.paramsClose, source.advance spot method.bodyOpen,
    source.advance spot method.bodyClose⟩

end MethodText

theorem Line.raw_append (a b : Line) : Line.raw (a ++ b) = a.raw ++ b.raw := map_append

namespace Source

variable {source : Source} {spot : Spot}

theorem advance_zero (h : source.Valid spot) : source.advance spot 0 = spot := by
  obtain ⟨line, hline, hcol⟩ := h
  obtain ⟨hlt, hget⟩ := List.getElem?_eq_some_iff.mp hline
  rw [advance, Nat.add_zero, drop_eq_getElem_cons hlt, hget, spotIn_of_le]
  intro other hother
  cases hother
  exact hcol

/-- The bracket that closes the one at a place lies behind nested cells, and the search
for it finds every such bracket. -/
theorem matchingClose_eq_some_iff (h : source.Valid spot) {opening closing : Char} {rest : Line}
    (hrest : source.rest spot = .show opening :: rest)
    (hpair : opening ≠ '\n' ∧ closing ≠ '\n' ∧ opening ≠ closing ∧ closing ≠ ' ') {close : Spot} :
    source.matchingClose spot opening closing = some close ↔
      ∃ inner back, rest = inner ++ .show closing :: back ∧
        NestedIn opening closing 0 (Line.code inner) = true ∧
        close = source.advance spot (inner.length + 1) := by
  obtain ⟨hopening, hclosing, hne, hblank⟩ := hpair
  have hindex : Line.closeIndex opening closing 0 (source.rest spot) =
      (Line.closeIndex opening closing 1 rest).map (· + 1) := by
    rw [hrest, Line.closeIndex, if_pos (by simp [Cell.code, Cell.show])]
    rfl
  rw [matchingClose_eq h hopening hclosing, hindex, Option.map_map]
  constructor
  · intro hsome
    obtain ⟨k, hk, rfl⟩ := Option.map_eq_some_iff.mp hsome
    obtain ⟨inner, cell, back, rfl, rfl, hcode, hnested⟩ := @Line.of_closeIndex _ _ 0 _ _ hk
    refine ⟨inner, back, ?_, hnested, rfl⟩
    rw [Cell.eq_show_of_code hcode hblank]
  · rintro ⟨inner, back, rfl, hnested, rfl⟩
    have hclose : Line.closeIndex opening closing 1 (.show closing :: back) = some 0 := by
      simp [Line.closeIndex, Ne.symm hne, Cell.code, Cell.show]
    have := @Line.closeIndex_append opening closing 0 inner (.show closing :: back) 1 (by decide)
      hnested
    rw [hclose] at this
    rw [show (1 : Int) = 1 + ((0 : Nat) : Int) from rfl, this]
    simp

theorem firstGlyph_eq_some_iff {targets : List Char} {place : Nat → Spot} {cells : Line}
    {glyph : Glyph} :
    firstGlyph targets place cells = some glyph ↔
      ∃ inner cell back, cells = inner ++ cell :: back ∧ (∀ c ∈ Line.code inner, c ∉ targets) ∧
        cell.code ∈ targets ∧ glyph = ⟨place inner.length, cell.code⟩ := by
  induction cells generalizing place with
  | nil => simp [firstGlyph, Line.firstIndex]
  | cons first cells ih =>
    rw [firstGlyph_cons]
    split
    · rename_i htarget
      have hmem : first.code ∈ targets := contains_iff_mem.mp htarget
      constructor
      · intro h
        exact ⟨[], first, cells, rfl, by simp [Line.code], hmem, (Option.some.inj h).symm⟩
      · rintro ⟨inner, cell, back, hsplit, hnone, -, rfl⟩
        cases inner with
        | nil =>
          cases hsplit
          rfl
        | cons other inner =>
          cases hsplit
          exact absurd hmem (hnone _ mem_cons_self)
    · rename_i htarget
      have hnot : first.code ∉ targets := fun hmem => htarget (contains_iff_mem.mpr hmem)
      rw [ih]
      constructor
      · rintro ⟨inner, cell, back, rfl, hnone, hmem, rfl⟩
        refine ⟨first :: inner, cell, back, rfl, fun c hc => ?_, hmem, rfl⟩
        rcases mem_cons.mp hc with rfl | hc
        · exact hnot
        · exact hnone c hc
      · rintro ⟨inner, cell, back, hsplit, hnone, hmem, rfl⟩
        cases inner with
        | nil =>
          cases hsplit
          exact absurd hmem hnot
        | cons other inner =>
          cases hsplit
          exact ⟨inner, cell, back, rfl, fun c hc => hnone c (mem_cons_of_mem _ hc), hmem,
            rfl⟩

end Source

/-- The cells behind a place with a given index. -/
theorem Source.rest_advance {spot : Spot} (h : source.Valid spot) {front back : Line}
    (hrest : source.rest spot = front ++ back) {k : Nat} (hk : front.length = k) :
    source.Valid (source.advance spot k) ∧ source.rest (source.advance spot k) = back ∧
      ∀ j, source.advance (source.advance spot k) j = source.advance spot (k + j) := by
  obtain ⟨hvalid, hdrop, hadd⟩ := advance_spec h
    (show k ≤ (source.rest spot).length by rw [hrest, length_append]; omega)
  refine ⟨hvalid, ?_, hadd⟩
  rw [hdrop, hrest, ← hk, drop_left]

/-- **Layouts.** The layout of a method is a cut of its text at the four brackets. -/
theorem MethodLayout.at?_eq_some_iff {spot : Spot} (h : source.Valid spot) {rest : Line}
    (hrest : source.rest spot = .show '(' :: rest) {layout : MethodLayout} :
    MethodLayout.at? source spot = some layout ↔
      ∃ method : MethodText, source.rest spot = method.cells ∧
        layout = method.layout source spot := by
  -- Both directions look at the same three places, for parameters and a rest of any shape.
  have hplace : ∀ {params behind : Line}, rest = params ++ .show ')' :: behind →
      source.Valid (source.advance spot (params.length + 2)) ∧
      source.rest (source.advance spot (params.length + 2)) = behind ∧
      (∀ j, source.advance (source.advance spot (params.length + 2)) j =
        source.advance spot (params.length + 2 + j)) ∧
      (source.advance spot (params.length + 1)).next =
        source.advance spot (params.length + 2) := by
    rintro params behind rfl
    have hsplit : source.rest spot = (.show '(' :: params ++ [.show ')']) ++ behind := by
      rw [hrest]
      simp
    obtain ⟨hvalid, hbehind, hadd⟩ := Source.rest_advance h hsplit
      (show _ = params.length + 2 by simp)
    refine ⟨hvalid, hbehind, hadd, @Source.advance_next source spot _ (.show ')') ?_ (by decide)⟩
    rw [hrest, getElem?_cons_succ, getElem?_append_right (Nat.le_refl _), Nat.sub_self]
    rfl
  simp only [MethodLayout.at?, Option.bind_eq_bind, Option.bind_eq_some_iff]
  constructor
  · rintro ⟨paramsClose, hparams, glyph, hglyph, _, hguard, bodyClose, hbody, hsome⟩
    cases hsome
    obtain ⟨params, behind, rfl, hparamsNested, rfl⟩ :=
      (Source.matchingClose_eq_some_iff h hrest (by decide)).mp hparams
    obtain ⟨hvalid, hbehind, hadd, hnext⟩ := hplace rfl
    rw [hnext, Source.firstOf_eq hvalid (by simp), hbehind] at hglyph
    obtain ⟨signature, cell, back, rfl, hplain, -, rfl⟩ :=
      Source.firstGlyph_eq_some_iff.mp hglyph
    obtain rfl : cell = .show '{' :=
      Cell.eq_show_of_code (by simpa [guard] using hguard) (by decide)
    obtain ⟨hvalid', hback, hadd'⟩ := Source.rest_advance hvalid hbehind rfl
    obtain ⟨body, back, rfl, hbodyNested, rfl⟩ :=
      (Source.matchingClose_eq_some_iff hvalid' hback (by decide)).mp hbody
    refine ⟨⟨params, signature, body, back, hparamsNested, fun c hc => by simpa using hplain c hc,
      hbodyNested⟩, hrest, ?_⟩
    have hindex : params.length + 2 + (signature.length + (body.length + 1)) =
        params.length + 1 + 1 + signature.length + 1 + body.length := by omega
    show MethodLayout.mk _ _ _ _ = MethodLayout.mk _ _ _ _
    rw [hadd', hadd, hadd, hindex]
    rfl
  · rintro ⟨method, hcells, rfl⟩
    obtain rfl : rest = method.params ++ .show ')' :: (method.signature ++ .show '{' ::
        (method.body ++ .show '}' :: method.back)) := (cons.inj (hrest.symm.trans hcells)).2
    obtain ⟨hvalid, hbehind, hadd, hnext⟩ := hplace rfl
    obtain ⟨hvalid', hback, hadd'⟩ := Source.rest_advance hvalid hbehind rfl
    refine ⟨source.advance spot method.paramsClose, ?_, ⟨source.advance spot method.bodyOpen, '{'⟩,
      ?_, (), rfl, source.advance spot method.bodyClose, ?_, rfl⟩
    · exact (Source.matchingClose_eq_some_iff h hrest (by decide)).mpr
        ⟨method.params, _, rfl, method.params_nested, rfl⟩
    · rw [MethodText.paramsClose, hnext, Source.firstOf_eq hvalid (by simp), hbehind]
      refine Source.firstGlyph_eq_some_iff.mpr ⟨method.signature, .show '{', _, rfl,
        fun c hc => by simpa using method.signature_plain c hc, by simp [Cell.code, Cell.show], ?_⟩
      rw [hadd]
      rfl
    · have hopen : source.advance spot method.bodyOpen =
          source.advance (source.advance spot (method.params.length + 2)) method.signature.length := by
        rw [hadd]
        rfl
      dsimp only
      rw [hopen]
      refine (Source.matchingClose_eq_some_iff hvalid' hback (by decide)).mpr
        ⟨method.body, method.back, rfl, method.body_nested, ?_⟩
      rw [hadd', hadd, show method.params.length + 2 + (method.signature.length +
        (method.body.length + 1)) = method.bodyClose by
          simp only [MethodText.bodyClose, MethodText.bodyOpen, MethodText.paramsClose]
          omega]

/-! ### Methods as blocks -/

/-- The method at a place, if it has a layout. -/
theorem Source.methodAt?_of_layout {n : Nat} {head : MethodHead} {layout : MethodLayout}
    (h : MethodLayout.at? source ⟨n, head.paren⟩ = some layout)
    (hclosed : (!head.isFactory || layout.returnsClosed source) = true) : source.methodAt? n head =
      some (layout.bodyClose.line + 1, MemberScan.addMethod source {} head layout none) := by
  simp only [MethodLayout.at?, Option.bind_eq_bind, Option.bind_eq_some_iff] at h
  obtain ⟨paramsClose, hparams, glyph, hglyph, _, hguard, bodyClose, hbody, hsome⟩ := h
  cases hsome
  have hbrace : (glyph.char == '{') = true := by simpa [guard] using hguard
  simp only [Source.methodAt?, hparams, hglyph, hbrace, hbody, Option.bind_eq_bind,
    Option.bind_some, if_true, hclosed]
  rfl

/-- Whether a line that starts with `front` and a parenthesis starts a method. Its
attributes stand on lines of their own. -/
structure StartsMethod (front : List Char) (head : MethodHead) : Prop where
  line : '\n' ∉ front
  ends : Lex.code.after front (some '(') = .code
  not_comment : startsWith "/*" (trimStart front) = false
  not_attribute : startsWith "#[" (trimStart (Lex.code.cells front (some '(')).code) = false
  reads : ∀ rest, MethodHead.of? ((Lex.code.cells front (some '(')).code ++ '(' :: rest) = some head
  paren : head.paren = front.length

theorem startsWith_paren {start : String} (h : '(' ∉ start.toList) (front rest : List Char) :
    startsWith start (front ++ '(' :: rest) = startsWith start front := by
  rw [startsWith, startsWith]
  generalize start.toList = needle at h
  induction needle generalizing front with
  | nil => rfl
  | cons c needle ih =>
    obtain ⟨hc, hneedle⟩ := not_or.mp (mt mem_cons.mpr h)
    cases front with
    | nil => simp [isPrefixOf, Ne.symm hc]
    | cons d front =>
      rw [cons_append, isPrefixOf_cons_cons, isPrefixOf_cons_cons, ih front hneedle]

theorem trimStart_paren (front rest : List Char) :
    trimStart (front ++ '(' :: rest) = trimStart front ++ '(' :: rest :=
  (span_append (by rintro c ⟨⟩; decide) front).2

namespace Source

/-- The source of lines that start as code. -/
def written (lines : List (List Char)) : Source := .ofLines (maskLines .code lines)

variable {lines : List (List Char)}

theorem not_mem_written (h : ∀ line ∈ lines, '\n' ∉ line) :
    ∀ line ∈ (written lines).lines, '\n' ∉ line.raw := by
  intro line hline
  have hmem : line.raw ∈ (maskLines .code lines).map Line.raw := mem_map_of_mem hline
  rw [raw_maskLines] at hmem
  exact h _ hmem

theorem stream_written (h : ∀ line ∈ lines, '\n' ∉ line) :
    streamOf (written lines).lines = Lex.code.cells (joined lines) none :=
  @Lex.streamOf_maskLines .code lines trivial h

/-- The first line of a source that starts as code. -/
theorem line_written {line : List Char} {others : List (List Char)} (h : '\n' ∉ line) :
    (written (line :: others)).line 0 = Lex.code.cells line none := by
  show (maskLine .code line).1 = _
  rw [@Lex.maskLine_eq .code line trivial h]
  rfl

/-- A place on the first line, and the cells behind it. -/
theorem rest_written (h : ∀ line ∈ lines, '\n' ∉ line) {c : Char} {rest : List Char}
    (hfront : '\n' ∉ front) (hc : c ≠ '\n') (hlines : joined lines = front ++ c :: rest) :
    (written lines).Valid ⟨0, front.length⟩ ∧
      (written lines).rest ⟨0, front.length⟩ =
        (Lex.code.cells (joined lines) none).drop front.length := by
  obtain ⟨behind, others, rfl⟩ := exists_first_line h hfront hc hlines
  refine ⟨⟨_, rfl, ?_⟩, ?_⟩
  · show front.length ≤ (maskLine .code (front ++ c :: behind)).1.length
    rw [length_maskLine, length_append]
    exact Nat.le_add_right _ _
  · rw [Source.rest, drop_zero, stream_written h]

end Source

/-- The closing brace of a method stands on the last line, if no line end follows it. -/
theorem MethodText.bodyClose_line {lines : List (List Char)} {method : MethodText}
    (hlines : ∀ line ∈ lines, '\n' ∉ line) (hfront : '\n' ∉ front)
    (htext : joined lines = front ++ method.cells.raw)
    (hvalid : (Source.written lines).Valid ⟨0, front.length⟩)
    (hrest : (Source.written lines).rest ⟨0, front.length⟩ = method.cells)
    (hback : '\n' ∉ Line.raw method.back) :
    (method.layout (.written lines) ⟨0, front.length⟩).bodyClose.line + 1 = lines.length := by
  have hne : lines ≠ [] := by
    rintro rfl
    simp [joined, MethodText.cells, Line.raw] at htext
  have hdrop : method.cells.raw.drop method.bodyClose = '}' :: Line.raw method.back := by
    rw [Line.raw, ← map_drop, method.drop_bodyClose]
    rfl
  have hcut : method.cells.raw.count '\n' = (method.cells.raw.take method.bodyClose).count '\n' := by
    have hzero : (method.cells.raw.drop method.bodyClose).count '\n' = 0 := by
      rw [hdrop, count_eq_zero]
      simp [hback]
    have hsum := congrArg (count '\n')
      (take_append_drop method.bodyClose method.cells.raw)
    rw [count_append, hzero] at hsum
    omega
  have hle : method.bodyClose ≤ method.cells.length := by
    have hlast := congrArg length method.drop_bodyClose
    rw [length_drop, length_cons] at hlast
    omega
  have hclose : (method.layout (.written lines) ⟨0, front.length⟩).bodyClose.line =
      (method.cells.raw.take method.bodyClose).count '\n' := by
    show ((Source.written lines).advance ⟨0, front.length⟩ method.bodyClose).line = _
    rw [Source.line_advance (Source.not_mem_written hlines) hvalid (by rw [hrest]; exact hle), hrest,
      Nat.zero_add]
  have hcount := count_joined hlines hne
  rw [htext, count_append, count_eq_zero.mpr hfront, hcut, Nat.zero_add] at hcount
  rw [hclose, hcount]

/-- **A method is a block.** Lines that start a method and go on with its parameters, its
signature and its body, and end with the line of the closing brace, are one block. -/
theorem Source.blockAt?_method {head : MethodHead} (hstart : StartsMethod front head)
    {lines : List (List Char)} {method : MethodText} (hlines : ∀ line ∈ lines, '\n' ∉ line)
    (hcells : Lex.code.cells (joined lines) none =
      Lex.code.cells front (some '(') ++ method.cells) (hback : '\n' ∉ Line.raw method.back)
    (hclosed : (!head.isFactory || (method.layout (.written lines) ⟨0, front.length⟩).returnsClosed
      (.written lines)) = true) : (Source.written lines).blockAt? 0 = some (lines.length,
      MemberScan.addMethod (.written lines) {} head
        (method.layout (.written lines) ⟨0, front.length⟩) none) := by
  have htext : joined lines = front ++ method.cells.raw := by
    have := congrArg Line.raw hcells
    rwa [Lex.raw_cells, Line.raw_append, Lex.raw_cells] at this
  have hraw : joined lines = front ++ '(' :: Line.raw (method.cells.drop 1) := htext
  obtain ⟨hvalid, hrest⟩ := rest_written hlines hstart.line (by decide) hraw
  have hlength : (Lex.code.cells front (some '(')).length = front.length := Lex.length_cells ..
  rw [hcells, drop_left' hlength] at hrest
  obtain ⟨behind, others, rfl⟩ := exists_first_line hlines hstart.line (by decide) hraw
  -- The first line, as text and as code.
  have hfirst : '\n' ∉ front ++ '(' :: behind := hlines _ mem_cons_self
  have hline := @line_written _ others hfirst
  have hsplit := Lex.cells_append .code front ('(' :: behind) none
  rw [show ('(' :: behind).head?.or none = some '(' from rfl, hstart.ends] at hsplit
  have hcode : (Source.written ((front ++ '(' :: behind) :: others)).code 0 =
      (Lex.code.cells front (some '(')).code ++
        '(' :: Line.code (Lex.code.cells behind none) := by
    rw [Source.code, hline, hsplit, Line.code, map_append]
    rfl
  have hrawLine : (Source.written ((front ++ '(' :: behind) :: others)).raw 0 =
      front ++ '(' :: behind := by
    rw [Source.raw, hline, Lex.raw_cells]
  have hblank : isBlankLine ((Source.written ((front ++ '(' :: behind) :: others)).code 0) = false := by
    rw [hcode, isBlankLine, all_eq_false]
    exact ⟨'(', by simp, by decide⟩
  rw [Source.blockAt?, hrawLine, trimStart_paren, startsWith_paren (by simp), hstart.not_comment,
    if_neg (by simp), hcode, trimStart_paren, startsWith_paren (by simp), hstart.not_attribute,
    if_neg (by simp), ← hcode, hblank, if_neg (by simp)]
  have hhead : MethodHead.of? ((Source.written ((front ++ '(' :: behind) :: others)).code 0) =
      some head := by
    rw [hcode]
    exact hstart.reads _
  simp only [Source.memberAt?, hhead, MethodHead.not_isTraitUse hhead]
  have hlayout : MethodLayout.at? (Source.written ((front ++ '(' :: behind) :: others))
      ⟨0, head.paren⟩ = some (method.layout (.written ((front ++ '(' :: behind) :: others))
        ⟨0, front.length⟩) := by
    rw [hstart.paren]
    exact (MethodLayout.at?_eq_some_iff hvalid hrest).mpr ⟨method, hrest, rfl⟩
  rw [if_neg (by simp), methodAt?_of_layout hlayout hclosed]
  rw [MethodText.bodyClose_line hlines hstart.line htext hvalid hrest hback]

end ServiceInjection
