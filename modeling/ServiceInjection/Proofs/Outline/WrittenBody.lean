import ServiceInjection.Proofs.Outline.Statements

/-!
# Outline.WrittenBody

The bodies of written methods that stand on lines of their own. The lines of such a body are
read back as they were written (`body_ofLayout`), and a factory whose body returns a new object
on its first line passes on the arguments between the parentheses and fetches the services of
its lines (`factory_ofLayout`).
-/

namespace ServiceInjection

open Text List

/-! ### Lines that are closed -/

/-- Whether a line starts and ends in code. -/
def Text.IsClosedLine (line : List Char) : Prop :=
  '\n' ∉ line ∧ Lex.code.after line none = .code

theorem Text.IsClosedLine.of_plain {line : List Char} (hline : '\n' ∉ line) (h : ∀ c ∈ line, IsPlain c) :
    IsClosedLine line := ⟨hline, (Lex.cells_plain none h).2⟩

/-- Closed lines are masked one by one. -/
theorem maskLines_closed {ls : List (List Char)} (h : ∀ line ∈ ls, IsClosedLine line) :
    maskLines .code ls = ls.map Line.ofCode := by
  induction ls with
  | nil => rfl
  | cons line ls ih =>
    obtain ⟨⟨hline, hends⟩, hls⟩ := forall_mem_cons.mp h
    have hmask := @Lex.maskLine_eq .code line trivial hline
    rw [show (Lex.ofMode .code).after line none = .code from hends] at hmask
    rw [maskLines, hmask]
    exact congrArg _ (ih hls)

theorem after_closedLines {ls : List (List Char)} (h : ∀ line ∈ ls, IsClosedLine line) :
    Lex.code.after (unlines ls) none = .code := by
  induction ls with
  | nil => rfl
  | cons line ls ih =>
    obtain ⟨hline, hls⟩ := forall_mem_cons.mp h
    rw [unlines_cons, Lex.after_append, head?_cons, Option.some_or, (Lex.cells_lineEnd _ line).2,
      hline.2]
    exact ih hls

/-- A closed line behind closed ones starts as code, whatever follows. -/
theorem Source.line_written_append {front back : List (List Char)} {n : Nat} {line : List Char}
    (h : ∀ line ∈ front, IsClosedLine line) (hn : front[n]? = some line) :
    (Source.written (front ++ back)).line n = Line.ofCode line := by
  rw [Source.written, maskLines_append_code _ (fun line hline => (h line hline).1) (after_closedLines h),
    maskLines_closed h, Source.line, Source.ofLines, getD_eq_getElem?_getD,
    List.getElem?_append_left (by simpa using (List.getElem?_eq_some_iff.mp hn).1), List.getElem?_map, hn]
  rfl

/-! ### Bodies on lines of their own -/

namespace WrittenMethod

/-- The text of a method up to the brace that opens its body. -/
def opening (method : WrittenMethod) : List Char :=
  method.front ++ '(' :: (method.params ++ ')' :: (method.signature ++ ['{']))

variable {method : WrittenMethod} {head : MethodHead} {ls : List (List Char)} {close : List Char}

/-- The lines of a method whose body stands on lines of its own. -/
theorem lines_eq (hbody : method.body = '\n' :: (unlines ls ++ close))
    (hls : ∀ line ∈ ls, '\n' ∉ line) (hclose : '\n' ∉ close) (hback : '\n' ∉ method.back) :
    method.lines = pieces method.opening ++ (ls ++ [close ++ '}' :: method.back]) := by
  have htext : method.text = method.opening ++ '\n' :: (unlines ls ++ (close ++ '}' :: method.back)) := by
    simp [text, opening, hbody]
  have hlast : '\n' ∉ close ++ '}' :: method.back := by simp [hclose, hback]
  have hbehind : pieces (unlines ls ++ (close ++ '}' :: method.back)) =
      ls ++ [close ++ '}' :: method.back] := by
    have hjoined : joined (ls ++ [close ++ '}' :: method.back]) =
        unlines ls ++ (close ++ '}' :: method.back) := by
      rw [joined_append (cons_ne_nil _ _), joined_singleton]
    rw [← hjoined, pieces_joined _ (by simp)]
    exact forall_mem_append.mpr ⟨hls, by simpa using hlast⟩
  rw [lines, htext, pieces_feed, hbehind]

namespace Sound

/-- The body opens on the last line of what stands in front of it. -/
theorem bodyOpen_line (h : method.Sound head) :
    h.layout.bodyOpen.line + 1 = (pieces method.opening).length := by
  obtain ⟨hvalid, hrest⟩ := h.rest
  have hlines : ∀ line ∈ method.lines, '\n' ∉ line := (pieces_spec method.text).2.2
  have hcount := count_joined (pieces_spec method.opening).2.2 (pieces_spec method.opening).2.1
  have hraw : (h.methodText.cells.raw.take h.methodText.bodyOpen) =
      '(' :: (method.params ++ ')' :: method.signature) := by
    have hcells : h.methodText.cells.raw = '(' :: (method.params ++ ')' :: method.signature) ++
        '{' :: (method.body ++ '}' :: method.back) := by
      have := congrArg Line.raw (h.cells_text none)
      rw [Lex.raw_cells, Line.raw_append, Lex.raw_cells] at this
      have htext : method.text = method.front ++ ('(' :: (method.params ++ ')' :: method.signature) ++
        '{' :: (method.body ++ '}' :: method.back)) := by simp [text]
      rw [htext] at this
      exact (append_cancel_left this).symm
    have hlength : h.methodText.bodyOpen = ('(' :: (method.params ++ ')' :: method.signature)).length := by
      show (Lex.code.cells method.params (some ')')).length + 1 + 1 +
        (Lex.code.cells method.signature (some '{')).length = _
      simp
      omega
    rw [hcells, hlength, take_left]
  have hle : h.methodText.bodyOpen ≤
      ((Source.written method.lines).rest ⟨0, method.front.length⟩).length := by
    rw [hrest]
    simp only [MethodText.cells, MethodText.bodyOpen, MethodText.paramsClose, length_cons,
      length_append]
    omega
  have hline := Source.line_advance (Source.not_mem_written hlines) hvalid hle
  rw [hrest, hraw] at hline
  rw [← hcount, (pieces_spec method.opening).1]
  show ((Source.written method.lines).advance ⟨0, method.front.length⟩ h.methodText.bodyOpen).line + 1 = _
  rw [hline, opening]
  have hfront : method.front.count '\n' = 0 := count_eq_zero.mpr h.starts.line
  simp [hfront]

/-- The lines of a body that stands on lines of its own. -/
theorem body_ofLayout (h : method.Sound head) (hbody : method.body = '\n' :: (unlines ls ++ close))
    (hls : ∀ line ∈ ls, '\n' ∉ line) (hclose : '\n' ∉ close) (doc : Option LineSpan) :
    (Constructor.ofLayout (.written method.lines) h.layout doc).body = ls.map String.ofList := by
  have hopen := h.bodyOpen_line
  have hend := h.endLine_ofLayout
  have hlines := lines_eq hbody hls hclose h.back_line
  rw [hlines] at hend
  simp only [length_append, length_singleton] at hend
  show bodyLines (.written method.lines) h.layout.bodyOpen h.layout.bodyClose = _
  rw [bodyLines, if_neg (by simp; omega), Source.span,
    show h.layout.bodyClose.line - 1 + 1 - (h.layout.bodyOpen.line + 1) = ls.length by omega]
  refine ext_getElem? fun i => ?_
  rw [getElem?_map, getElem?_map]
  by_cases hi : i < ls.length
  · have hget : method.lines[h.layout.bodyOpen.line + 1 + i]? = some (ls.get ⟨i, hi⟩) := by
      rw [hlines, hopen, getElem?_append_right (by omega), Nat.add_sub_cancel_left,
        getElem?_append_left hi]
      simp
    have hraw : ((Source.written method.lines).line (h.layout.bodyOpen.line + 1 + i)).raw =
        ls.get ⟨i, hi⟩ := Source.raw_written hget
    rw [getElem?_range' hi, Nat.one_mul, Option.map_some, Line.text, hraw,
      getElem?_eq_getElem hi]
    rfl
  · rw [getElem?_eq_none (by simpa using Nat.le_of_not_lt hi),
      getElem?_eq_none (Nat.le_of_not_lt hi)]
    rfl

end Sound

end WrittenMethod

/-! ### Returned objects -/

/-- The first line that is found, among the lines between two. -/
theorem firstLine_span_iff {α : Type} {find : Nat → Option α} {first last n : Nat} {a : α} :
    firstLine (Source.span first last) find = some (n, a) ↔
      first ≤ n ∧ n ≤ last ∧ find n = some a ∧ ∀ k, first ≤ k → k < n → find k = none := by
  have hmem : ∀ k, k ∈ Source.span first last ↔ first ≤ k ∧ k ≤ last := by
    intro k
    simp only [Source.span, mem_range'_1]
    omega
  constructor
  · intro h
    obtain ⟨front, m, back, hsplit, hm, hfront⟩ := findSome?_eq_some_iff.mp h
    obtain ⟨found, hfound, heq⟩ := Option.map_eq_some_iff.mp hm
    cases heq
    have hn := (hmem n).mp (by simp [hsplit])
    have hsorted : (front ++ n :: back).Pairwise (· < ·) := hsplit ▸ pairwise_lt_range'
    refine ⟨hn.1, hn.2, hfound, fun k hk hlt => ?_⟩
    have hk' : k ∈ front := by
      have hmem' := (hmem k).mpr ⟨hk, by omega⟩
      rw [hsplit] at hmem'
      rcases mem_append.mp hmem' with hin | hin
      · exact hin
      · rcases mem_cons.mp hin with rfl | hin
        · omega
        · have := rel_of_pairwise_cons (pairwise_append.mp hsorted).2.1 hin
          omega
    simpa using hfront k hk'
  · rintro ⟨hfirst, hlast, hfind, hnone⟩
    refine findSome?_eq_some_iff.mpr ⟨range' first (n - first), n, range' (n + 1) (last - n), ?_,
      by simp [hfind], fun k hk => ?_⟩
    · rw [Source.span, show last + 1 - first = (n - first) + ((last - n) + 1) by omega,
        ← range'_append_1, range'_succ, show first + (n - first) = n by omega]
    · obtain ⟨hk, hlt⟩ := mem_range'_1.mp hk
      simp [hnone k hk (by omega)]

namespace Source

variable {heads ls : List (List Char)}

/-- Lines behind others that end in code are read as if the others were not there. -/
theorem lines_written_behind (hheads : ∀ line ∈ heads, '\n' ∉ line)
    (hends : Lex.code.after (unlines heads) none = .code) (ls : List (List Char)) :
    (written (heads ++ ls)).lines.drop heads.length = (written ls).lines ∧
      ∀ n < heads.length, (written (heads ++ ls)).code n = (written heads).code n := by
  have hlength : (maskLines .code heads).length = heads.length := length_maskLines ..
  have hlines : (written (heads ++ ls)).lines = maskLines .code heads ++ maskLines .code ls :=
    maskLines_append_code ls hheads hends
  refine ⟨?_, fun n hn => ?_⟩
  · rw [hlines]
    exact drop_left' hlength
  · rw [code, code, line, line, hlines, getD_eq_getElem?_getD, getElem?_append_left (by omega),
      getD_eq_getElem?_getD]
    rfl

/-- What a factory finds that returns a new object: the statement, the parenthesis that closes
the arguments, and the arguments. -/
theorem returned_written {more : List (List Char)} {keyword : String} {indent inner tail : List Char}
    {first last : Nat} (hkeyword : IsClassWord keyword) (hheads : ∀ line ∈ heads, '\n' ∉ line)
    (hends : Lex.code.after (unlines heads) none = .code) (hindent : Blank indent)
    (hline : '\n' ∉ indent) (hmore : ∀ line ∈ more, '\n' ∉ line) (hne : more ≠ [])
    (htext : '\n' :: joined more = inner ++ ')' :: tail)
    (hinner : Lex.code.after inner (some ')') = .code)
    (hnested : NestedIn '(' ')' 0 (Lex.code.cells inner (some ')')).code = true)
    (hfirst : first ≤ heads.length) (hlast : heads.length ≤ last)
    (hnone : ∀ n, first ≤ n → n < heads.length →
      firstWordMatch returnNew ((written heads).code n) = none) :
    let source := written (heads ++ (indent ++ returnText keyword) :: more)
    let paren : Spot := ⟨heads.length, indent.length + (returnText keyword).length - 1⟩
    firstLine (span first last) (fun n => firstWordMatch returnNew (source.code n)) =
      some (heads.length, ⟨indent.length, indent.length + (returnText keyword).length, keyword⟩) ∧
    ∃ close, source.matchingClose paren '(' ')' = some close ∧
      source.entriesBetween paren close = .ofCells (Lex.code.cells inner (some ')')) := by
  intro source paren
  have hplain : ∀ c ∈ indent ++ returnText keyword, IsPlain c :=
    forall_mem_append.mpr ⟨hindent.isPlain, fun c hc => (plain_returnText hkeyword c hc).1⟩
  have hreturn : '\n' ∉ indent ++ returnText keyword := fun hmem =>
    (mem_append.mp hmem).elim hline fun hmem => (plain_returnText hkeyword _ hmem).2.1 rfl
  have hls : ∀ line ∈ (indent ++ returnText keyword) :: more, '\n' ∉ line :=
    forall_mem_cons.mpr ⟨hreturn, hmore⟩
  obtain ⟨hdrop, hcode⟩ := lines_written_behind hheads hends ((indent ++ returnText keyword) :: more)
  refine ⟨firstLine_span_iff.mpr ⟨hfirst, hlast, ?_, fun k hk hlt => ?_⟩, ?_⟩
  · have hline' : source.line heads.length = Lex.code.cells (indent ++ returnText keyword) none := by
      have hzero := @line_written _ more hreturn
      rw [line, getD_eq_getElem?_getD, ← hdrop, getElem?_drop, Nat.add_zero,
        ← getD_eq_getElem?_getD] at hzero
      exact hzero
    rw [code, hline', (Lex.cells_plain none hplain).1, code_map_show]
    exact firstWordMatch_returnText hkeyword hindent
  · rw [hcode k hlt]
    exact hnone k hk hlt
  · obtain ⟨words, hwords⟩ : ∃ words, indent ++ returnText keyword = words ++ ['('] := by
      rw [returnText, ← append_assoc, ← append_assoc]
      exact ⟨_, rfl⟩
    have hlength : paren.col = words.length := by
      have := congrArg length hwords
      simp only [length_append, length_singleton] at this
      show indent.length + (returnText keyword).length - 1 = _
      omega
    have hjoined : joined ((indent ++ returnText keyword) :: more) =
        words ++ '(' :: (inner ++ ')' :: tail) := by
      rw [joined_cons _ hne, htext, hwords]
      simp
    have hfront : ∀ c ∈ words, IsPlain c := fun c hc =>
      hplain c (hwords ▸ mem_append_left _ hc)
    obtain ⟨hvalid, hrest⟩ := rest_written hls
      (fun hmem => hreturn (hwords ▸ mem_append_left _ hmem)) (by decide) hjoined
    obtain ⟨hcells, hafter⟩ := Lex.cells_plain (some '(') hfront
    have hvalid' : source.Valid paren := by
      obtain ⟨line, hline, hle⟩ := hvalid
      refine ⟨line, ?_, hlength ▸ hle⟩
      rw [← hdrop, getElem?_drop, Nat.add_zero] at hline
      exact hline
    have hrest' : source.rest paren = .show '(' :: (Lex.code.cells inner (some ')') ++
        .show ')' :: Lex.code.cells tail none) := by
      have hsame : source.rest paren = (written ((indent ++ returnText keyword) :: more)).rest
          ⟨0, words.length⟩ := by
        rw [rest, rest, drop_zero, ← hdrop, ← hlength]
      rw [hsame, hrest, hjoined, Lex.cells_append, head?_cons, Option.some_or, hcells, hafter,
        drop_left' (length_map _)]
      show .show '(' :: Lex.code.cells (inner ++ ')' :: tail) none = _
      rw [Lex.cells_append, head?_cons, Option.some_or, hinner]
      rfl
    refine ⟨source.advance paren ((Lex.code.cells inner (some ')')).length + 1), ?_, ?_⟩
    · rw [matchingClose_eq_some_iff hvalid' hrest' (by decide)]
      exact ⟨_, _, rfl, hnested, rfl⟩
    · exact entriesBetween_advance hvalid' hrest' (by decide)

end Source

/-- The services that are fetched on the lines from a place on. -/
theorem fetched_written {front behind : List (List Char)} (containerVar : String)
    (hclosed : ∀ line ∈ front ++ behind, IsClosedLine line) {first last : Nat}
    (hfirst : first = front.length) (hlast : last + 1 = front.length + behind.length) :
    ((Source.span first last).flatMap fun n =>
        fetchedOn containerVar ((Source.written (front ++ behind)).line n)) =
      behind.flatMap fun line => fetchedOn containerVar (Line.ofCode line) := by
  have hlines : (Source.written (front ++ behind)).lines = (front ++ behind).map Line.ofCode :=
    maskLines_closed hclosed
  have hmap : (Source.span first last).map (Source.written (front ++ behind)).line =
      behind.map Line.ofCode := by
    rw [Source.span, hfirst, Source.map_line_range' _ (by rw [hlines]; simp; omega), hlines,
      map_append, drop_left' (length_map _)]
    exact take_of_length_le (by rw [length_map]; omega)
  have hflat := congrArg (flatMap (fetchedOn containerVar)) hmap
  rw [flatMap_map, flatMap_map] at hflat
  exact hflat

namespace WrittenMethod.Sound

variable {method : WrittenMethod} {head : MethodHead} {heads args more : List (List Char)}
  {brace indent close inner tail : List Char} {keyword : String}

/-- **Written factories are read.** A factory that returns a new object is closed and passes on
the arguments that were written. -/
theorem shape_ofLayout (h : method.Sound head) (hkeyword : IsClassWord keyword)
    (hlines : method.lines = heads ++ (indent ++ returnText keyword) :: more)
    (hends : Lex.code.after (unlines heads) none = .code) (hindent : Blank indent) (hne : more ≠ [])
    (htext : '\n' :: joined more = inner ++ ')' :: tail)
    (hinner : Lex.code.after inner (some ')') = .code)
    (hnested : NestedIn '(' ')' 0 (Lex.code.cells inner (some ')')).code = true)
    (hfirst : h.layout.bodyOpen.line ≤ heads.length)
    (hnone : ∀ n, h.layout.bodyOpen.line ≤ n → n < heads.length →
      firstWordMatch returnNew ((Source.written heads).code n) = none) :
    h.layout.returnsClosed (.written method.lines) = true ∧
      ∃ trailing last, (Factory.ofLayout (.written method.lines) h.layout none).shape =
        .newStatic keyword ((EntryList.ofCells (Lex.code.cells inner (some ')'))).entries.map
          (String.ofList ·.text)) trailing heads.length last := by
  have hfeeds : ∀ line ∈ heads ++ (indent ++ returnText keyword) :: more, '\n' ∉ line :=
    hlines ▸ (pieces_spec method.text).2.2
  have hend := h.endLine_ofLayout
  rw [hlines, length_append, length_cons] at hend
  obtain ⟨hheads, hbehind⟩ := forall_mem_append.mp hfeeds
  obtain ⟨hreturn, hmore⟩ := forall_mem_cons.mp hbehind
  obtain ⟨hfound, close, hclose, hentries⟩ := @Source.returned_written heads more keyword indent inner
    tail h.layout.bodyOpen.line h.layout.bodyClose.line hkeyword hheads hends hindent
    (fun hmem => hreturn (mem_append_left _ hmem)) hmore hne htext hinner hnested hfirst (by omega) hnone
  rw [← hlines] at hfound hclose hentries
  constructor
  · rw [MethodLayout.returnsClosed, hfound]
    simp only
    rw [hclose]
    rfl
  · show ∃ trailing last, FactoryShape.ofBody _ _ _ _ = _
    rw [FactoryShape.ofBody]
    simp only [hfound, hclose, hentries]
    exact ⟨_, _, rfl⟩

/-- A factory that returns a new object on the first line of its body fetches the services of its
lines. -/
theorem factory_ofLayout (h : method.Sound head) (hopening : pieces method.opening = heads ++ [brace])
    (hbody : method.body = '\n' :: (unlines ((indent ++ returnText "static") :: args) ++ close))
    (hclosed : ∀ line ∈ (heads ++ [brace]) ++ (((indent ++ returnText "static") :: args) ++
      [close ++ '}' :: method.back]), IsClosedLine line)
    (hclose : '\n' ∉ close) (hbrace : NoneBehindBlank 'n' (Line.ofCode brace).code)
    (hindent : Blank indent)
    (htext : '\n' :: joined (args ++ [close ++ '}' :: method.back]) = inner ++ ')' :: tail)
    (hinner : Lex.code.after inner (some ')') = .code)
    (hnested : NestedIn '(' ')' 0 (Lex.code.cells inner (some ')')).code = true) :
    h.layout.returnsClosed (.written method.lines) = true ∧
      (Factory.ofLayout (.written method.lines) h.layout none).containerVar =
        containerVarOf (.ofCells (Lex.code.cells method.params (some ')'))) ∧
      (Factory.ofLayout (.written method.lines) h.layout none).serviceIds =
        (brace :: (((indent ++ returnText "static") :: args) ++ [close ++ '}' :: method.back])).flatMap
          (fun line => fetchedOn (containerVarOf (.ofCells (Lex.code.cells method.params (some ')'))))
            (Line.ofCode line)) ∧
      ∃ trailing first last, h.layout.bodyOpen.line < first ∧
        (Factory.ofLayout (.written method.lines) h.layout none).shape =
          .newStatic "static" ((EntryList.ofCells (Lex.code.cells inner (some ')'))).entries.map
            (String.ofList ·.text)) trailing first last := by
  have hls : ∀ line ∈ (indent ++ returnText "static") :: args, '\n' ∉ line := fun line hline =>
    (hclosed line (mem_append_right _ (mem_append_left _ hline))).1
  have hlines : method.lines = (heads ++ [brace]) ++ (indent ++ returnText "static") :: (args ++
      [close ++ '}' :: method.back]) := by
    rw [lines_eq hbody hls hclose h.back_line, hopening]
    simp
  have hopen : h.layout.bodyOpen.line = heads.length := by
    have := h.bodyOpen_line
    rw [hopening, length_append, length_singleton] at this
    omega
  have hheads : ∀ line ∈ heads ++ [brace], IsClosedLine line := fun line hline =>
    hclosed line (mem_append_left _ hline)
  obtain ⟨hreturns, trailing, last, hshape⟩ := h.shape_ofLayout (.inl rfl) hlines
    (after_closedLines hheads) hindent (by simp) htext hinner hnested (by simp [hopen]) (by
      intro n hn hlt
      rw [length_append, length_singleton] at hlt
      obtain rfl : n = heads.length := by omega
      have hbraceLine : (Source.written (heads ++ [brace])).line heads.length = Line.ofCode brace := by
        have hline := @Source.line_written_append _ [] heads.length brace hheads (by simp)
        rwa [append_nil] at hline
      rw [Source.code, hbraceLine]
      exact firstWordMatch_returnNew_eq_none hbrace)
  refine ⟨hreturns, ?_, ?_, trailing, _, last, ?_, hshape⟩
  · show containerVarOf (Source.entriesBetween _ _ _) = _
    rw [h.entriesBetween_params]
  · have hend := h.endLine_ofLayout
    have hassoc : (heads ++ [brace]) ++ (indent ++ returnText "static") :: (args ++
        [close ++ '}' :: method.back]) = heads ++ (brace :: (((indent ++ returnText "static") :: args) ++
          [close ++ '}' :: method.back])) := by
      simp
    rw [hassoc] at hlines
    rw [hlines] at hend
    show flatMap (fun n => fetchedOn (containerVarOf (Source.entriesBetween _ _ _)) _) _ = _
    rw [h.entriesBetween_params, hlines]
    exact fetched_written _ (by simpa using hclosed) hopen (by simp only [length_append] at hend ⊢; omega)
  · rw [length_append, length_singleton]
    omega

end WrittenMethod.Sound

end ServiceInjection
