import ServiceInjection.Proofs.Outline.Body
import ServiceInjection.Proofs.Outline.MethodText
import ServiceInjection.Proofs.Source.Lists

/-!
# Outline.Parts

Text that declares members. `Declares lines added` says that some lines, wherever they
stand as code, are closed parts of a class body and add the given members. Such lines can
be put behind each other, and a class can be given a body that consists of them
(`Outline.ofDeclaration_declares`). Blank lines and comments add no member.
-/

namespace ServiceInjection

open Text List

/-! ### Masking lines one after the other -/

/-- The mode behind lines. -/
theorem maskLines_append {mode : Mode} {front : List (List Char)} (back : List (List Char))
    (hvalid : mode.Valid) (hfront : ∀ line ∈ front, '\n' ∉ line) :
    maskLines mode (front ++ back) = maskLines mode front ++
      maskLines ((Lex.ofMode mode).after (unlines front) none).mode back := by
  induction front generalizing mode with
  | nil => cases mode <;> rfl
  | cons line front ih =>
    obtain ⟨hline, hfront⟩ := forall_mem_cons.mp hfront
    have hmask := Lex.maskLine_eq hvalid hline
    have hnext : (Lex.ofMode mode).after (unlines (line :: front)) none =
        (Lex.ofMode ((Lex.ofMode mode).after line none).mode).after (unlines front) none := by
      rw [unlines_cons, Lex.after_append, head?_cons, Option.some_or,
        (Lex.cells_lineEnd _ line).2, Lex.after,
        Lex.step_newline (Lex.settled_after line (Lex.settled_ofMode mode))]
    have hvalid' : (((Lex.ofMode mode).after line none).mode).Valid := by
      have := maskLine_valid line hvalid
      rwa [hmask] at this
    simp only [cons_append, maskLines, hmask, hnext, ih hvalid' hfront]

/-- Lines behind lines that end in code are masked on their own. -/
theorem maskLines_append_code {front : List (List Char)} (back : List (List Char))
    (hfront : ∀ line ∈ front, '\n' ∉ line) (h : Lex.code.after (unlines front) none = .code) :
    maskLines .code (front ++ back) = maskLines .code front ++ maskLines .code back := by
  have := @maskLines_append .code front back trivial hfront
  rwa [show (Lex.ofMode .code).after (unlines front) none = .code from h] at this

/-- A line and the text behind it, as cells. -/
theorem Lex.cells_line {mode : Mode} {line : List Char} (rest : List Char) (next : Option Char) :
    (Lex.ofMode mode).cells (line ++ '\n' :: rest) next =
      (Lex.ofMode mode).cells line none ++ Source.lineEnd ::
        (Lex.ofMode ((Lex.ofMode mode).after line none).mode).cells rest next := by
  rw [cells_append, head?_cons, Option.some_or, (cells_lineEnd _ line).1,
    (cells_lineEnd _ line).2, Lex.cells,
    step_newline (settled_after line (settled_ofMode mode))]
  rfl

/-- Brackets are nested in masked lines if they are in their text. -/
theorem nestedIn_flatMap_maskLines {opening closing : Char} (hopening : opening ≠ '\n')
    (hclosing : closing ≠ '\n') {mode : Mode} {ls : List (List Char)} (hvalid : mode.Valid)
    (hls : ∀ line ∈ ls, '\n' ∉ line) (depth : Nat) :
    NestedIn opening closing depth ((maskLines mode ls).flatMap Line.code) =
      NestedIn opening closing depth ((Lex.ofMode mode).cells (unlines ls) none).code := by
  have hfilter : ((maskLines mode ls).flatMap Line.code).filter
      (fun c => c == opening || c == closing) =
        ((Lex.ofMode mode).cells (unlines ls) none).code.filter
          (fun c => c == opening || c == closing) := by
    induction ls generalizing mode with
    | nil => rfl
    | cons line ls ih =>
      obtain ⟨hline, hls⟩ := forall_mem_cons.mp hls
      have hmask := Lex.maskLine_eq hvalid hline
      have hvalid' : (((Lex.ofMode mode).after line none).mode).Valid := by
        have := maskLine_valid line hvalid
        rwa [hmask] at this
      have hend : (Source.lineEnd.code == opening || Source.lineEnd.code == closing) = false := by
        simp [Source.lineEnd, Cell.code, Cell.show, Ne.symm hopening, Ne.symm hclosing]
      simp only [maskLines, hmask, flatMap_cons, filter_append, ih hvalid' hls]
      rw [unlines_cons, Lex.cells_line, Line.code_append, filter_append,
        show Line.code (Source.lineEnd :: _) = Source.lineEnd.code :: Line.code _ from rfl,
        filter_cons_of_neg (by simp [hend])]
  rw [← nestedIn_filter, hfilter, nestedIn_filter]

/-- What follows lines with their line feeds has no part in how they are read. -/
theorem Lex.cells_unlines (state : Lex) (ls : List (List Char)) (next : Option Char) :
    state.cells (unlines ls) next = state.cells (unlines ls) none ∧
      state.after (unlines ls) next = state.after (unlines ls) none := by
  have hstep : ∀ (state : Lex) (next : Option Char),
      state.step '\n' next = state.step '\n' none := by
    intro state next
    cases state <;> simp [Lex.step]
  by_cases hls : ls = []
  · subst hls
    exact ⟨rfl, rfl⟩
  · rw [unlines_eq_joined hls, cells_append, cells_append, after_append, after_append]
    simp only [head?_cons, Option.some_or, Lex.cells, Lex.after, head?_nil, Option.none_or,
      hstep _ next, and_self]

/-! ### Lines that declare members -/

/-- Lines that add members to a class body wherever they stand in it as code. -/
structure Declares (ls : List (List Char)) (added : Members) : Prop where
  lines : ∀ line ∈ ls, '\n' ∉ line
  ends : Lex.code.after (unlines ls) none = .code
  nested : NestedIn '{' '}' 0 (Lex.code.cells (unlines ls) none).code = true
  run : Run (maskLines .code ls) added

namespace Declares

variable {ls ls' : List (List Char)} {added added' : Members}

theorem nil : Declares [] {} := ⟨nofun, rfl, rfl, .nil⟩

theorem append (h : Declares ls added) (h' : Declares ls' added') :
    Declares (ls ++ ls') (added ++ added'.moved ls.length) := by
  refine ⟨fun line hline => (mem_append.mp hline).elim (h.lines line) (h'.lines line), ?_, ?_, ?_⟩
  · rw [unlines_append, Lex.after_append, (Lex.cells_unlines .code ls _).2, h.ends, h'.ends]
  · rw [unlines_append, Lex.cells_append, (Lex.cells_unlines .code ls _).2,
      (Lex.cells_unlines .code ls _).1, h.ends, Line.code_append]
    exact nestedIn_append h.nested h'.nested
  · rw [maskLines_append_code _ h.lines h.ends, ← length_maskLines .code ls]
    exact h.run.append h'.run

/-- Lines that are one block. -/
theorem of_block (hlines : ∀ line ∈ ls, '\n' ∉ line)
    (hends : Lex.code.after (unlines ls) none = .code)
    (hnested : NestedIn '{' '}' 0 (Lex.code.cells (unlines ls) none).code = true)
    (h : (Source.written ls).blockAt? 0 = some (ls.length, added)) : Declares ls added := by
  refine ⟨hlines, hends, hnested, ?_⟩
  rw [← length_maskLines .code ls] at h
  have := Run.cons h .nil
  rwa [append_nil, show ({} : Members).moved (maskLines .code ls).length = {} from rfl,
    Members.append_empty] at this

end Declares

/-- **A class with a written body.** A class whose body gives way to lines that declare
members is found again and has these members. -/
theorem Outline.ofDeclaration_declares {front header body back front' body' : List (List Char)}
    {outline : Outline} {added added' : Members}
    (h : Outline.ofDeclaration (.written (front ++ (header ++ (body ++ back)))) front.length =
      some outline)
    (hopen : outline.decl.openBraceLine + 1 = front.length + header.length)
    (hclose : outline.decl.closeBraceLine = front.length + header.length + body.length)
    (hfront : ∀ line ∈ front, '\n' ∉ line) (hfrontEnds : Lex.code.after (unlines front) none = .code)
    (hfront' : ∀ line ∈ front', '\n' ∉ line)
    (hfrontEnds' : Lex.code.after (unlines front') none = .code)
    (hheader : ∀ line ∈ header, '\n' ∉ line)
    (hheaderEnds : Lex.code.after (unlines header) none = .code)
    (hbody : Declares body added) (hbody' : Declares body' added') :
    ∃ outline', Outline.ofDeclaration (.written (front' ++ (header ++ (body' ++ back))))
        front'.length = some outline' ∧
      outline'.toMembers.moved 0 = added'.moved (front'.length + header.length) ∧
      outline'.decl.kind = outline.decl.kind ∧ outline'.decl.name = outline.decl.name ∧
      outline'.decl.openBraceLine + 1 = front'.length + header.length ∧
      outline'.decl.closeBraceLine = front'.length + header.length + body'.length := by
  have hsource : ∀ {front body : List (List Char)} {added : Members},
      (∀ line ∈ front, '\n' ∉ line) → Lex.code.after (unlines front) none = .code →
      Declares body added →
      Source.written (front ++ (header ++ (body ++ back))) =
        .around (maskLines .code front) (maskLines .code header)
          (maskLines .code body ++ maskLines .code back) := by
    intro front body added hfront hends hbody
    rw [Source.written, maskLines_append_code _ hfront hends,
      maskLines_append_code _ hheader hheaderEnds, maskLines_append_code _ hbody.lines hbody.ends]
    rfl
  have hnested : ∀ {body : List (List Char)} {added : Members}, Declares body added →
      NestedIn '{' '}' 0 ((maskLines .code body).flatMap Line.code) = true := by
    intro body added hbody
    rw [@nestedIn_flatMap_maskLines '{' '}' (by decide) (by decide) .code body trivial hbody.lines]
    exact hbody.nested
  rw [hsource hfront hfrontEnds hbody] at h
  rw [hsource hfront' hfrontEnds' hbody']
  simp only [← length_maskLines .code front, ← length_maskLines .code front',
    ← length_maskLines .code header, ← length_maskLines .code body,
    ← length_maskLines .code body'] at h hopen hclose ⊢
  exact ofDeclaration_body h hopen hclose (hnested hbody) (hnested hbody') hbody'.run

/-! ### Comments as cells -/

/-- Whether the code of cells has no braces. -/
def Line.Braceless (cells : Line) : Prop := ∀ c ∈ cells.code, c ≠ '{' ∧ c ≠ '}'

theorem Line.Braceless.append {a b : Line} (ha : a.Braceless) (hb : b.Braceless) :
    Line.Braceless (a ++ b) := by
  intro c hc
  rw [Line.code_append] at hc
  exact (mem_append.mp hc).elim (ha c) (hb c)

theorem Line.Braceless.nestedIn {cells : Line} (h : cells.Braceless) :
    NestedIn '{' '}' 0 cells.code = true :=
  nestedIn_of_not_mem (fun hmem => (h _ hmem).1 rfl) (fun hmem => (h _ hmem).2 rfl)

theorem containsText_cons {needle : String} {c : Char} {cs : List Char}
    (h : containsText needle (c :: cs) = false) :
    needle.toList.isPrefixOf (c :: cs) = false ∧ containsText needle cs = false := by
  rw [containsText, containsChars, Bool.or_eq_false_iff] at h
  exact h

theorem containsText_append {needle : String} {front back : List Char}
    (h : containsText needle back = true) : containsText needle (front ++ back) = true := by
  induction front with
  | nil => exact h
  | cons c front ih =>
    rw [containsText] at ih ⊢
    rw [cons_append, containsChars, ih, Bool.or_true]

theorem Source.raw_written {ls : List (List Char)} {i : Nat} {line : List Char}
    (h : ls[i]? = some line) : (Source.written ls).raw i = line := by
  have hmap : ((maskLines .code ls).map Line.raw)[i]? = some line := by rw [raw_maskLines, h]
  rw [getElem?_map] at hmap
  obtain ⟨cells, hcells, rfl⟩ := Option.map_eq_some_iff.mp hmap
  rw [Source.raw, Source.line, getD_eq_getElem?_getD,
    show (Source.written ls).lines[i]? = some cells from hcells]
  rfl

/-- Whether a text is read from one state to another without any braces in its code. -/
structure Lex.Passes (state : Lex) (cs : List Char) (next : Option Char) (state' : Lex) : Prop where
  after : state.after cs next = state'
  braceless : Line.Braceless (state.cells cs next)

namespace Lex.Passes

variable {state state' state'' : Lex} {cs cs' : List Char} {next : Option Char}

theorem nil (state : Lex) (next : Option Char) : state.Passes [] next state := ⟨rfl, nofun⟩

theorem append (h : state.Passes cs (cs'.head?.or next) state') (h' : state'.Passes cs' next state'') :
    state.Passes (cs ++ cs') next state'' := by
  refine ⟨by rw [after_append, h.after, h'.after], ?_⟩
  rw [cells_append, h.after]
  exact h.braceless.append h'.braceless

theorem cons {c : Char} (hstep : (state.step c (cs.head?.or next)).2 = state')
    (hc : c ≠ '{' ∧ c ≠ '}') (h : state'.Passes cs next state'') :
    state.Passes (c :: cs) next state'' := by
  refine ⟨by rw [Lex.after, hstep, h.after], ?_⟩
  rw [cells, hstep]
  intro d hd
  rcases mem_cons.mp hd with rfl | hd
  · rw [Cell.code]
    split
    · exact hc
    · decide
  · exact h.braceless d hd

/-- Plain code. -/
theorem plain (h : ∀ c ∈ cs, IsPlain c ∧ c ≠ '{' ∧ c ≠ '}') : Lex.code.Passes cs next .code := by
  obtain ⟨hcells, hafter⟩ := cells_plain next fun c hc => (h c hc).1
  refine ⟨hafter, fun c hc => ?_⟩
  rw [hcells, code_map_show] at hc
  exact (h c hc).2

theorem blank (h : Blank cs) : Lex.code.Passes cs next .code :=
  plain fun c hc => ⟨h.isPlain c hc, by
    constructor <;> rintro rfl <;> exact absurd (h _ hc) (by decide)⟩

/-- A comment goes on over text that does not close it. -/
theorem comment (h : containsText "*/" cs = false) (hnext : next ≠ some '/') :
    Lex.comment.Passes cs next .comment := by
  induction cs with
  | nil => exact nil .comment next
  | cons c cs ih =>
    obtain ⟨hstart, hrest⟩ := containsText_cons h
    have hclose : ¬ (c = '*' ∧ cs.head?.or next = some '/') := by
      rintro ⟨rfl, hslash⟩
      cases cs with
      | nil => exact hnext hslash
      | cons d cs =>
        obtain rfl : d = '/' := Option.some.inj hslash
        simp [isPrefixOf] at hstart
    have hstep : Lex.comment.step c (cs.head?.or next) = (decide (c = '\n'), .comment) := by
      by_cases hc : c = '\n'
      · simp [Lex.step, hc]
      · rw [Lex.step, if_neg hc, if_neg hclose, decide_eq_false hc]
    obtain ⟨hafter, hcells⟩ := ih hrest
    refine ⟨by rw [Lex.after, hstep, hafter], fun d hd => ?_⟩
    rw [Lex.cells, hstep] at hd
    rcases mem_cons.mp hd with rfl | hd
    · by_cases hc : c = '\n' <;> simp [Cell.code, hc]
    · exact hcells d hd

/-- Lines in the middle of a comment. -/
theorem comment_unlines {ls : List (List Char)} (next : Option Char)
    (h : ∀ line ∈ ls, containsText "*/" line = false) :
    Lex.comment.Passes (unlines ls) next .comment := by
  induction ls with
  | nil => exact nil .comment next
  | cons line ls ih =>
    obtain ⟨hline, hls⟩ := forall_mem_cons.mp h
    rw [unlines_cons]
    refine (comment hline (by simp)).append (cons ?_ (by decide) (ih hls))
    simp [Lex.step]

end Lex.Passes

/-- A blank line. -/
theorem Declares.blank {line : List Char} (h : Blank line) (hline : '\n' ∉ line) :
    Declares [line] {} := by
  have hplain : ∀ c ∈ unlines [line], IsPlain c := by
    intro c hc
    rcases mem_append.mp (by simpa using hc : c ∈ line ++ ['\n']) with hc | hc
    · exact h.isPlain c hc
    · rw [mem_singleton.mp hc]
      simp [IsPlain, IsQuote]
  obtain ⟨hcells, hafter⟩ := Lex.cells_plain none hplain
  have hblank : Blank (unlines [line]) := by
    rw [unlines_cons, unlines_nil]
    exact h.append (fun c hc => by rw [mem_singleton.mp hc]; decide)
  refine .of_block (by simpa using hline) hafter ?_ ?_
  · rw [hcells, code_map_show]
    refine nestedIn_of_not_mem ?_ ?_ <;> intro hmem <;> exact absurd (hblank _ hmem) (by decide)
  · have hcode : (Source.written [line]).code 0 = line := by
      rw [Source.code, Source.line_written hline, (Lex.cells_plain none h.isPlain).1, code_map_show]
    have hraw : (Source.written [line]).raw 0 = line := by
      rw [Source.raw, Source.line_written hline, Lex.raw_cells]
    have htrim : trimStart line = [] := dropWhile_eq_nil_iff.mpr h
    have hall : isBlankLine line = true := all_eq_true.mpr h
    rw [Source.blockAt?, hraw, hcode, htrim, hall]
    rfl

/-! ### Comments -/

/-- The lines of a comment on several lines: the first one opens it, the last one closes
it, and no other line does. -/
structure IsComment (ls : List (List Char)) : Prop where
  eq_append : ∃ indent opened middle closed tail, ls =
    (indent ++ ('/' :: '*' :: opened)) :: (middle ++ [closed ++ ('*' :: '/' :: tail)]) ∧
    Blank indent ∧ containsText "*/" opened = false ∧
    (∀ line ∈ middle, containsText "*/" line = false) ∧ containsText "*/" closed = false ∧
    Blank tail
  lines : ∀ line ∈ ls, '\n' ∉ line

namespace IsComment

variable {ls : List (List Char)}

theorem passes (h : IsComment ls) : Lex.code.Passes (unlines ls) none .code := by
  obtain ⟨⟨indent, opened, middle, closed, tail, rfl, hindent, hopened, hmiddle, hclosed, htail⟩, -⟩ := h
  have hlast : Lex.closing.Passes ('/' :: (tail ++ ['\n'])) none .code :=
    .cons rfl (by decide) ((Lex.Passes.blank htail).append
      (.cons (by simp [Lex.step]) (by decide) (.nil _ _)))
  have hclose : Lex.comment.Passes (closed ++ '*' :: '/' :: (tail ++ ['\n'])) none .code :=
    (Lex.Passes.comment hclosed (by simp)).append (.cons (by simp [Lex.step]) (by decide) hlast)
  have hinner : Lex.comment.Passes
      (unlines middle ++ (closed ++ '*' :: '/' :: (tail ++ ['\n']))) none .code :=
    (Lex.Passes.comment_unlines _ hmiddle).append hclose
  have hopen : Lex.comment.Passes (opened ++ '\n' ::
      (unlines middle ++ (closed ++ '*' :: '/' :: (tail ++ ['\n'])))) none .code :=
    (Lex.Passes.comment hopened (by simp)).append (.cons (by simp [Lex.step]) (by decide) hinner)
  have hsign : Lex.opening.Passes ('*' :: (opened ++ '\n' ::
      (unlines middle ++ (closed ++ '*' :: '/' :: (tail ++ ['\n']))))) none .code :=
    .cons rfl (by decide) hopen
  have hall : Lex.code.Passes (indent ++ '/' :: '*' :: (opened ++ '\n' ::
      (unlines middle ++ (closed ++ '*' :: '/' :: (tail ++ ['\n']))))) none .code :=
    (Lex.Passes.blank hindent).append (.cons (by simp [Lex.step]) (by decide) hsign)
  simpa using hall

theorem blockAt? (h : IsComment ls) : (Source.written ls).blockAt? 0 = some (ls.length, {}) := by
  obtain ⟨⟨indent, opened, middle, closed, tail, rfl, hindent, hopened, hmiddle, hclosed, htail⟩,
    hlines⟩ := h
  have hraw : ∀ {i : Nat} {line : List Char},
      ((indent ++ '/' :: '*' :: opened) :: (middle ++ [closed ++ '*' :: '/' :: tail]))[i]? = some line →
      (Source.written ((indent ++ '/' :: '*' :: opened) ::
        (middle ++ [closed ++ '*' :: '/' :: tail]))).raw i = line := fun hget =>
    Source.raw_written hget
  have htrim : trimStart (indent ++ '/' :: '*' :: opened) = '/' :: '*' :: opened := by
    rw [trimStart, dropWhile_append_of_pos hindent, dropWhile_cons_of_neg (by decide)]
  rw [Source.blockAt?, hraw rfl, htrim, if_pos (by simp [startsWith, isPrefixOf]),
    Source.commentEnd?]
  have hrange : range' 0 ((Source.written ((indent ++ '/' :: '*' :: opened) ::
      (middle ++ [closed ++ '*' :: '/' :: tail]))).size - 0) =
        range' 0 (middle.length + 1) ++ [middle.length + 1] := by
    rw [Source.size, Source.written, Source.ofLines, length_maskLines, Nat.sub_zero,
      length_cons, length_append, length_singleton, range'_concat]
    simp
  rw [hrange]
  have hfind : (range' 0 (middle.length + 1) ++ [middle.length + 1]).find?
      ((Source.written ((indent ++ '/' :: '*' :: opened) ::
        (middle ++ [closed ++ '*' :: '/' :: tail]))).closesComment 0) = some (middle.length + 1) := by
    refine find?_eq_some_iff_append.mpr ⟨?_, _, [], rfl, fun i hi => ?_⟩
    · have hlast : ((indent ++ '/' :: '*' :: opened) :: (middle ++
          [closed ++ '*' :: '/' :: tail]))[middle.length + 1]? = some (closed ++ '*' :: '/' :: tail) := by
        simp
      rw [Source.closesComment, if_neg (by simp), hraw hlast]
      exact containsText_append (by simp [containsText, containsChars, isPrefixOf])
    · have hlt := mem_range'_1.mp hi
      cases i with
      | zero =>
        rw [Source.closesComment, if_pos (by simp), hraw rfl, htrim]
        simpa using hopened
      | succ i =>
        have hget : middle[i]? = some (middle.get ⟨i, by omega⟩) := by simp
        rw [Source.closesComment, if_neg (by simp), hraw (by
          rw [getElem?_cons_succ, getElem?_append_left (by omega), hget])]
        simpa using hmiddle _ (get_mem middle ⟨i, by omega⟩)
  rw [hfind]
  simp

end IsComment

/-- A comment adds no member. -/
theorem Declares.comment {ls : List (List Char)} (h : IsComment ls) : Declares ls {} :=
  .of_block h.lines h.passes.after h.passes.braceless.nestedIn h.blockAt?

end ServiceInjection
