import ServiceInjection.Proofs.Edit.Above
import ServiceInjection.Proofs.Outline.FoundImports

/-!
# Outline.PlainHead

Imports are found line by line, and statements are words whatever lines they are on. The two
agree on a plain head: there each import starts a line, has no comment inside and nothing
but comments behind it. All classes that a plain head imports are found
(`PlainHead.exists_import`).
-/

namespace ServiceInjection

open Text List

variable {c : Char} {found : ImportScan} {source : Source}

/-! ### Line by line -/

namespace UseScan

variable {scan : UseScan}

/-- Reads a line and its end. -/
def readLine (scan : UseScan) (code : List Char) : UseScan := (scan.read code).endWord

theorem word_endWord (scan : UseScan) : scan.endWord.word = [] :=
  (scan.word_step_blank (show isBlank ' ' = true by decide)).2

theorem word_readLine (scan : UseScan) (code : List Char) : (scan.readLine code).word = [] :=
  word_endWord _

/-- Blanks around a line do not matter. -/
theorem readLine_trim (hword : scan.word = []) (cs : List Char) :
    scan.readLine (trim cs) = scan.readLine cs := by
  obtain ⟨lead, tail, hlead, htail, hsplit⟩ := exists_trim cs
  rw [readLine, readLine, hsplit, trim_append_left _ hlead, trim_append_right _ htail, trim_trim,
    read_append, read_blank hword hlead, read_append]
  by_cases hnil : tail = []
  · rw [hnil, read_nil]
  · rw [read_blanks _ hnil htail, endWord_endWord]

/-- Lines that are joined by blanks. -/
theorem readLine_joined (hword : scan.word = []) (ls : List (List Char)) :
    scan.readLine ([' '].intercalate (ls.map trim)) = ls.foldl readLine scan := by
  induction ls generalizing scan with
  | nil => exact endWord_of_nil hword
  | cons line ls ih =>
    rw [foldl_cons, ← readLine_trim hword line]
    cases ls with
    | nil => rw [map_singleton, intercalate_singleton, foldl_nil]
    | cons next ls =>
      have hblank : ∀ scan' : UseScan, scan'.read [' '] = scan'.endWord := fun scan' =>
        read_blanks scan' (by simp) (by decide)
      rw [← ih (word_readLine scan _), map_cons, map_cons,
        intercalate_cons_cons, readLine, read_append, read_append, hblank]
      rfl

end UseScan

/-- A carriage return behind a text shows the same of it as a line end. -/
theorem Lex.cells_return (state : Lex) (cs : List Char) :
    state.cells cs (some '\r') = state.cells cs none ∧
      (state.after cs (some '\r') = state.after cs none ∨
        ∃ quote, state.after cs none = .literal quote ∧
          state.after cs (some '\r') = .escaped quote) := by
  induction cs generalizing state with
  | nil => exact ⟨rfl, .inl rfl⟩
  | cons c cs ih =>
    cases cs with
    | nil =>
      simp only [cells, after, head?_nil, Option.none_or]
      cases state with
      | literal quote =>
        simp only [step]
        by_cases hfeed : c = '\n'
        · simp [hfeed]
        · by_cases hslash : c = '\\'
          · subst hslash
            exact ⟨rfl, .inr ⟨quote, rfl, rfl⟩⟩
          · simp [hfeed, hslash]
      | _ => simp [step]
    | cons d cs =>
      obtain ⟨hcells, hafter⟩ := ih (state.step c (some d)).2
      simp only [cells, after, head?_cons, Option.some_or] at hcells hafter ⊢
      exact ⟨by rw [hcells], hafter⟩

/-- What a carriage return and a line end read, and what follows them. -/
theorem Lex.step_return {mode : Mode} (hvalid : mode.Valid) (cs : List Char) :
    ∃ shown : Bool,
      ((ofMode mode).cells (cs ++ ['\r']) none = (ofMode mode).cells cs none ++ [⟨'\r', shown⟩]) ∧
      ∀ next, ((ofMode mode).after (cs ++ ['\r']) none).step '\n' next =
        (true, ofMode ((ofMode mode).after cs none).mode) := by
  have hsettled := settled_after cs (settled_ofMode mode)
  have hquote := valid_after cs none (valid_ofMode hvalid)
  obtain ⟨hcells, hafter⟩ := (ofMode mode).cells_return cs
  refine ⟨_, by rw [cells_append, head?_cons, Option.some_or, hcells]; rfl, fun next => ?_⟩
  rw [after_concat]
  generalize (ofMode mode).after cs none = last at hsettled hquote hafter ⊢
  rcases hafter with hafter | ⟨quote, hlast, hafter⟩
  · rw [hafter]
    cases last with
    | opening => exact hsettled.elim
    | closing => exact hsettled.elim
    | escaped => exact hsettled.elim
    | literal quote =>
      have hne : '\r' ≠ quote := by rcases hquote with rfl | rfl <;> decide
      simp [step, hne, Lex.mode, ofMode]
    | _ => rfl
  · rw [hafter, hlast]
    rfl

/-- A line with its end is read like the line that is masked on its own. -/
theorem UseScan.read_lineEnd {mode : Mode} (hvalid : mode.Valid) {line : List Char}
    (hline : '\n' ∉ line) (scan : UseScan) (back : List Char) :
    scan.read ((Lex.ofMode mode).cells (line ++ '\n' :: back) none).code =
      (scan.readLine (maskLine mode (dropReturn line)).1.code).read
        ((Lex.ofMode (maskLine mode (dropReturn line)).2).cells back none).code := by
  have hfeed : ∀ (scan : UseScan) (code : List Char),
      scan.read ('\n' :: code) = scan.endWord.read code := by
    intro scan code
    have hblank := scan.read_blanks (cons_ne_nil '\n' []) (by decide)
    rw [← singleton_append, read_append, hblank]
  rw [Lex.cells_append, head?_cons, Option.some_or, (Lex.cells_lineEnd _ line).1,
    (Lex.cells_lineEnd _ line).2, Line.code_append, read_append, Lex.cells]
  by_cases hreturn : line.getLast? = some '\r'
  · obtain ⟨front, rfl⟩ := getLast?_eq_some_iff.mp hreturn
    obtain ⟨shown, hcells, hstep⟩ := Lex.step_return hvalid front
    have hfront : '\n' ∉ front := fun hmem => hline (mem_append_left _ hmem)
    have hblank : Blank (Line.code [⟨'\r', shown⟩]) := by cases shown <;> decide
    rw [dropReturn, if_pos hreturn, dropLast_concat, Lex.maskLine_eq hvalid hfront, hcells,
      hstep, Line.code_append, read_append, read_blanks _ (by simp [Line.code]) hblank]
    show UseScan.read _ ('\n' :: _) = _
    rw [hfeed, endWord_endWord]
    rfl
  · rw [dropReturn, if_neg hreturn, Lex.maskLine_eq hvalid hline,
      Lex.step_newline (Lex.settled_after line (Lex.settled_ofMode mode))]
    show UseScan.read _ ('\n' :: _) = _
    rw [hfeed]
    rfl

/-- Whole lines are read one after the other. -/
theorem UseScan.read_wholeLines {mode : Mode} (hvalid : mode.Valid) {text : List Char}
    (h : WholeLines text) (scan : UseScan) :
    scan.read ((Lex.ofMode mode).cells text none).code =
      ((maskLines mode (lines text)).map Line.code).foldl readLine scan := by
  induction hn : text.count '\n' generalizing text mode scan with
  | zero =>
    rcases h with rfl | ⟨front, rfl⟩
    · rfl
    · simp at hn
  | succ n ih =>
    obtain rfl | ⟨line, rest, rfl, hline, hrest⟩ := h.cases
    · cases hn
    · have hcount : rest.count '\n' = n := by
        rw [count_append, count_eq_zero.mpr hline, count_cons_self] at hn
        omega
      rw [read_lineEnd hvalid hline, ih (maskLine_valid _ hvalid) hrest _ hcount, lines_feed hline]
      rfl

/-- What is known above a line, from the lines above it. -/
def Source.usesAbove (source : Source) (n : Nat) : UseScan :=
  ((List.range n).map source.code).foldl UseScan.readLine {}

theorem UseScan.ofText_textBefore (text : String) {n : Nat} (hn : n ≤ text.toList.count '\n') :
    UseScan.ofText (textBefore text.toList ⟨n, 0⟩) = (Source.ofText text).usesAbove n := by
  obtain ⟨front, back, htext, hfront, rfl⟩ := exists_wholeLines hn
  obtain ⟨hlines, hlength⟩ := lines_wholeLines_append hfront back
  have hsource : ∃ rest, (Source.ofText text).lines = maskLines .code (lines front) ++ rest := by
    have happend := @maskLines_append .code (lines front) (lines back) trivial
      fun line hline => not_mem_of_mem_lines hline
    rw [← hlines, ← htext] at happend
    exact ⟨_, happend⟩
  obtain ⟨rest, hrest⟩ := hsource
  have hmasked : (maskLines .code (lines front)).length = front.count '\n' := by
    rw [length_maskLines, hlength]
  have hcode : (range (front.count '\n')).map (Source.ofText text).line =
      maskLines .code (lines front) := by
    rw [range_eq_range', Source.map_line_range' _ (by rw [hrest, length_append]; omega),
      drop_zero, hrest, ← hmasked, take_left]
  have hread := @read_wholeLines .code trivial front hfront {}
  rw [← hcode, map_map] at hread
  rw [htext, Batch.textBefore_wholeLines hfront]
  exact hread

/-! ### Statements on lines -/

/-- Lines without the blanks around them, with one blank in between. -/
def joinTrimmed (ls : List (List Char)) : List Char := [' '].intercalate (ls.map trim)

theorem count_trim (hc : isBlank c = false) (cs : List Char) : (trim cs).count c = cs.count c := by
  obtain ⟨lead, tail, hlead, htail, hsplit⟩ := exists_trim cs
  have hcount := congrArg (count c) hsplit
  rw [count_append, count_append, count_eq_zero.mpr (hlead.not_mem hc),
    count_eq_zero.mpr (htail.not_mem hc)] at hcount
  omega

theorem count_joinTrimmed (hc : isBlank c = false) (ls : List (List Char)) :
    (joinTrimmed ls).count c = ls.flatten.count c := by
  have hblank : c ≠ ' ' := by
    rintro rfl
    exact absurd hc (by decide)
  induction ls with
  | nil => rfl
  | cons line ls ih =>
    cases ls with
    | nil =>
      rw [joinTrimmed, map_singleton, intercalate_singleton, count_trim hc,
        flatten_singleton]
    | cons next ls =>
      rw [joinTrimmed, map_cons, map_cons, intercalate_cons_cons,
        count_append, count_append, count_trim hc, ← map_cons]
      rw [joinTrimmed] at ih
      rw [ih, count_singleton, if_neg (by simpa using hblank.symm), Nat.add_zero,
        ← count_append, ← flatten_cons]

/-- Whether a statement that starts on line `n` is plain: it starts the line, has no comment
inside, and nothing but comments follows it on its last line. -/
structure PlainUse (source : Source) (n : Nat) : Prop where
  starts : ImportScan.startsImport (source.code n) = true
  exists_body : ∃ gap body tail, isBlank gap = true ∧ PlainBody (trim body) ∧
    joinTrimmed ((Source.span n (source.lineOfFirst n ';')).map source.code) =
      "use".toList ++ gap :: (body ++ [';']) ∧
    joinTrimmed ((Source.span n (source.lineOfFirst n ';')).map source.raw) =
      "use".toList ++ gap :: (body ++ ';' :: tail)

/-- A plain body has no semicolon, and as many opening as closing braces. -/
theorem PlainBody.count {cs : List Char} (h : PlainBody cs) :
    ';' ∉ cs ∧ cs.count '\x7b' = cs.count '\x7d' := by
  have hzero : ∀ {cs : List Char}, PlainClauses cs →
      ';' ∉ cs ∧ cs.count '\x7b' = 0 ∧ cs.count '\x7d' = 0 := fun h =>
    ⟨h.chars.not_mem (by decide),
      count_eq_zero.mpr (h.chars.not_mem (by decide)),
      count_eq_zero.mpr (h.chars.not_mem (by decide))⟩
  cases h with
  | clauses h =>
    obtain ⟨hmem, hopen, hclose⟩ := hzero h
    exact ⟨hmem, hopen.trans hclose.symm⟩
  | @group start members hstart h =>
    obtain ⟨hmem, hopen, hclose⟩ := hzero h
    have hnot : ∀ {c : Char}, isNameChar c = false → c ∉ start := fun hc hmem => by
      have hname := hstart.2 _ hmem
      rw [hc] at hname
      cases hname
    constructor
    · have hsemicolon := @hnot ';' (by decide)
      simp [hsemicolon, hmem]
    · have hopen' := count_eq_zero.mpr (@hnot '\x7b' (by decide))
      have hclose' := count_eq_zero.mpr (@hnot '\x7d' (by decide))
      simp [count_append, hopen, hclose, hopen', hclose']

namespace PlainUse

variable {source : Source} {n : Nat}

/-- A plain statement between two others imports classes that are found in its lines. -/
theorem read (h : PlainUse source n) {scan : UseScan} (hscan : scan.Between) :
    ∃ new, ((Source.span n (source.lineOfFirst n ';')).map source.code).foldl UseScan.readLine scan =
        { scan with classes := scan.classes ++ new } ∧
      ∀ name ∈ new, ∃ entry ∈ importsOf (joinTrimmed
        ((Source.span n (source.lineOfFirst n ';')).map source.raw)) (source.lineOfFirst n ';'),
          entry.name = name := by
  obtain ⟨gap, body, tail, hgap, hplain, hcode, hraw⟩ := h.exists_body
  obtain ⟨tokens, hread, hfound⟩ := hplain.read
  have hsemicolon : ';' ∉ body := by
    rw [← count_eq_zero, ← count_trim (by decide), count_eq_zero]
    exact hplain.count.1
  have hbody := useBody_eq hgap hsemicolon tail
  refine ⟨usedClasses ("use".toList :: tokens), ?_, ?_⟩
  · have hkeyword : scan.read ("use".toList ++ [gap]) = { scan with tokens := ["use".toList] } := by
      rw [UseScan.read_word_sign hscan.word (by simp [hscan.tokens]) (by decide) (by decide)
        (not_isNameChar_of_isBlank hgap), UseScan.sign, if_pos hgap, hscan.tokens]
      rfl
    have hwords : ({ scan with tokens := ["use".toList] } : UseScan).readLine body =
        { scan with tokens := "use".toList :: tokens } := by
      refine (@UseScan.readLine_trim { scan with tokens := ["use".toList] } hscan.word
        body).symm.trans ?_
      exact hread { scan with tokens := ["use".toList] } hscan.word rfl
    have hend : ({ scan with tokens := ["use".toList] } : UseScan).read (body ++ [';']) =
        ({ scan with tokens := "use".toList :: tokens } : UseScan).sign ';' := by
      rw [UseScan.read_append, ← hwords]
      rfl
    have hsplit : "use".toList ++ gap :: (body ++ [';']) = "use".toList ++ [gap] ++ (body ++ [';']) := by
      simp
    rw [← UseScan.readLine_joined hscan.word]
    show scan.readLine (joinTrimmed _) = _
    rw [hcode, hsplit, UseScan.readLine, UseScan.read_append, hkeyword, hend, UseScan.sign,
      if_neg (by decide), if_pos (by decide),
      @UseScan.endStatement_of_isTop { scan with tokens := "use".toList :: tokens } hscan.isTop]
    refine (UseScan.endWord_of_nil ?_).trans ?_
    · exact hscan.word
    · simp [hscan.tokens]
  · rw [hraw]
    exact hfound _ _ hbody

/-- A plain statement closes the braces that it opens. -/
theorem balance (h : PlainUse source n) (depth : Int) :
    (Source.span n (source.lineOfFirst n ';')).foldl
      (fun depth l => depth + source.braceBalance l) depth = depth := by
  have hsum : ∀ (ls : List Nat) (depth : Int),
      ls.foldl (fun depth l => depth + source.braceBalance l) depth = depth +
        ((ls.map source.code).flatten.count '\x7b' -
          (ls.map source.code).flatten.count '\x7d' : Int) := by
    intro ls
    induction ls with
    | nil => simp
    | cons l ls ih =>
      intro depth
      rw [foldl_cons, ih, Source.braceBalance, Line.braceBalance]
      simp only [map_cons, flatten_cons, count_append, Int.natCast_add,
        Source.code]
      omega
  obtain ⟨gap, body, tail, hgap, hplain, hcode, -⟩ := h.exists_body
  have hcount : ∀ {c : Char}, isBlank c = false → c ∉ "use".toList ++ [';'] →
      ("use".toList ++ gap :: (body ++ [';'])).count c = (trim body).count c := by
    intro c hc hnot
    obtain ⟨hkeyword, hend⟩ := not_or.mp (mt mem_append.mpr hnot)
    have hne : gap ≠ c := by
      rintro rfl
      rw [hgap] at hc
      cases hc
    rw [count_append, count_cons_of_ne hne, count_append, count_trim hc,
      count_eq_zero.mpr hkeyword, count_eq_zero.mpr hend]
    omega
  rw [hsum, ← count_joinTrimmed (by decide), ← count_joinTrimmed (by decide), hcode,
    hcount (by decide) (by decide), hcount (by decide) (by decide), hplain.count.2]
  omega

end PlainUse

/-! ### Two readings side by side -/

namespace ImportScan

/-- Known imports stay, and each new one is known under the same name. -/
theorem mem_add (imports new : List Import) :
    (∀ entry ∈ imports, entry ∈ add imports new) ∧
      ∀ entry ∈ new, ∃ known ∈ add imports new, sameName known.name entry.name = true := by
  induction new generalizing imports with
  | nil => exact ⟨fun _ h => h, nofun⟩
  | cons first new ih =>
    obtain ⟨hold, hnew⟩ := ih
      (if imports.any (sameName ·.name first.name) then imports else imports ++ [first])
    constructor
    · intro entry hentry
      refine hold entry ?_
      split
      · exact hentry
      · exact mem_append_left _ hentry
    · refine forall_mem_cons.mpr ⟨?_, hnew⟩
      by_cases hany : imports.any (sameName ·.name first.name) = true
      · obtain ⟨known, hknown, hsame⟩ := any_eq_true.mp hany
        exact ⟨known, hold known (by rw [if_pos hany]; exact hknown), hsame⟩
      · refine ⟨first, hold first (by rw [if_neg hany]; simp), ?_⟩
        simp [sameName]

/-- Whether what is found line by line agrees with what the words say. -/
structure Follows (found : ImportScan) (scan : UseScan) : Prop where
  not_done : found.done = false
  depth : found.depth = scan.blocks.length
  inBraces : found.inBraces = true ↔ Block.scope ∈ scan.blocks
  once : scan.blocks.count .scope ≤ 1
  finds : ∀ name ∈ scan.classes, ∃ entry ∈ found.imports, sameName entry.name name = true

/-- Imports are looked for at the top level. -/
theorem Follows.isTop_iff {scan : UseScan} (h : found.Follows scan) :
    found.depth ≤ found.importDepth ↔ scan.isTop = true := by
  have hall : scan.isTop = true ↔ scan.blocks.count .scope = scan.blocks.length := by
    rw [UseScan.isTop, all_eq_true, count_eq_length]
    exact forall₂_congr fun block _ => by rw [beq_iff_eq, eq_comm]
  have hle := @count_le_length _ _ Block.scope scan.blocks
  have honce := h.once
  rw [hall, importDepth, h.depth]
  by_cases hmem : Block.scope ∈ scan.blocks
  · have hpos := count_pos_iff.mpr hmem
    rw [if_pos (h.inBraces.mpr hmem)]
    omega
  · have hzero := count_eq_zero.mpr hmem
    rw [if_neg (mt h.inBraces.mp hmem)]
    omega

/-- A line that starts an import is neither a declaration nor a namespace. -/
theorem of_startsImport {code : List Char} (h : startsImport code = true) :
    namedHead code = none ∧ namespaceEnd code = none := by
  obtain ⟨rest, hrest⟩ : ∃ rest, blanks code = 'u' :: rest := by
    simp only [startsImport, Bool.and_eq_true, Bool.or_eq_true] at h
    rcases h.1 with hstarts | hstarts
    · obtain ⟨rest, hrest⟩ := isPrefixOf_iff_prefix.mp hstarts
      exact ⟨_, hrest.symm⟩
    · obtain ⟨rest, hrest⟩ := isPrefixOf_iff_prefix.mp hstarts
      exact ⟨_, hrest.symm⟩
  have hnone : ∀ words : List String, (∀ w ∈ words, w.toList ≠ [] ∧ w.toList.head? ≠ some 'u') →
      oneOf words ('u' :: rest) = none := by
    intro words hwords
    refine oneOf_eq_none fun w hw => ?_
    obtain ⟨hne, hhead⟩ := hwords w hw
    obtain ⟨c, cs, hcons⟩ := exists_cons_of_ne_nil hne
    exact literal_eq_none hcons fun hc => hhead (by rw [hcons, hc]; rfl)
  constructor
  · rw [namedHead, hrest, skipModifiers, hnone _ (by decide)]
    simp [hnone ["class", "trait", "interface", "enum"] (by decide)]
  · rw [namespaceEnd, hrest, literal_eq_none (d := 'n') rfl (by decide)]
    rfl

variable {source : Source} {found : ImportScan} {scan : UseScan} {n : Nat}

/-- Lines of a statement that has been read are passed. -/
theorem foldl_of_lt {ls : List Nat} (h : ∀ n ∈ ls, n < found.resume) :
    ls.foldl (step source) found = found := by
  induction ls with
  | nil => rfl
  | cons n ls ih =>
    obtain ⟨hn, hls⟩ := forall_mem_cons.mp h
    rw [foldl_cons, step, if_pos (by simp [hn]), ih hls]

end ImportScan

/-- Whether a line is plain that starts no import: it imports nothing, it is no declaration of a
class at the top level, and a namespace in braces has its brace on the line of its name. -/
structure UseScan.PlainLine (scan : UseScan) (code : List Char) : Prop where
  classes : (scan.readLine code).classes = scan.classes
  start : scan.isTop = true → ImportScan.startsImport code = false ∧ namedHead code = none
  balance : ((scan.readLine code).blocks.length : Int) =
    scan.blocks.length + ((code.count '\x7b' : Int) - code.count '\x7d')
  scope : Block.scope ∈ (scan.readLine code).blocks ↔
    Block.scope ∈ scan.blocks ∨ namespaceEnd code = some '\x7b'
  once : (scan.readLine code).blocks.count .scope ≤ 1

namespace ImportScan

variable {source : Source} {found : ImportScan} {scan : UseScan} {n : Nat}

theorem noteNamespace_spec (found : ImportScan) (code : List Char) (n : Nat) :
    (found.noteNamespace code n).done = found.done ∧
      (found.noteNamespace code n).depth = found.depth ∧
      (found.noteNamespace code n).imports = found.imports ∧
      ((found.noteNamespace code n).inBraces = true ↔
        found.inBraces = true ∨ namespaceEnd code = some '\x7b') := by
  rw [noteNamespace]
  cases namespaceEnd code with
  | none => simp
  | some stop => simp

/-- A plain line keeps the two readings side by side. -/
theorem Follows.step_line (h : found.Follows scan) (hresume : found.resume ≤ n)
    (hplain : scan.PlainLine (source.code n)) :
    (step source found n).Follows (scan.readLine (source.code n)) ∧
      (step source found n).resume = n + 1 := by
  obtain ⟨hdone, hdepth, himports, hbraces⟩ := noteNamespace_spec found (source.code n) n
  have hhead : (decide (found.depth ≤ found.importDepth) && (namedHead (source.code n)).isSome) =
      false := by
    by_cases htop : scan.isTop = true
    · rw [(hplain.start htop).2]
      simp
    · simp [mt h.isTop_iff.mp htop]
  have hstart : (decide ((found.noteNamespace (source.code n) n).depth ≤
      (found.noteNamespace (source.code n) n).importDepth) && startsImport (source.code n)) =
      false := by
    by_cases hstarts : startsImport (source.code n) = true
    · have hsame : found.noteNamespace (source.code n) n = found := by
        rw [noteNamespace, (of_startsImport hstarts).2]
      have htop : ¬ scan.isTop = true := fun htop => by
        rw [(hplain.start htop).1] at hstarts
        cases hstarts
      simp [hsame, mt h.isTop_iff.mp htop]
    · simp [hstarts]
  have hstep : step source found n = { found.noteNamespace (source.code n) n with
      depth := (found.noteNamespace (source.code n) n).depth + source.braceBalance n
      resume := n + 1 } := by
    rw [step, if_neg (by simp [h.not_done, Nat.not_lt.mpr hresume])]
    dsimp only
    rw [hhead, if_neg Bool.false_ne_true, hstart, if_neg Bool.false_ne_true]
  rw [hstep]
  refine ⟨⟨hdone.trans h.not_done, ?_, ?_, hplain.once, ?_⟩, rfl⟩
  · rw [hplain.balance, hdepth, h.depth]
    rfl
  · rw [hplain.scope, ← h.inBraces]
    exact hbraces
  · rw [hplain.classes]
    dsimp only
    rw [himports]
    exact h.finds

/-- So does a plain statement. -/
theorem Follows.step_use (h : found.Follows scan) (hresume : found.resume ≤ n)
    (hbetween : scan.Between) (hplain : PlainUse source n) :
    (step source found n).Follows (((Source.span n (source.lineOfFirst n ';')).map
        source.code).foldl UseScan.readLine scan) ∧
      (step source found n).resume = source.lineOfFirst n ';' + 1 := by
  obtain ⟨new, hread, hfound⟩ := hplain.read hbetween
  obtain ⟨hhead, hnamespace⟩ := of_startsImport hplain.starts
  have hsame : found.noteNamespace (source.code n) n = found := by rw [noteNamespace, hnamespace]
  have htop : decide (found.depth ≤ found.importDepth) = true :=
    decide_eq_true (h.isTop_iff.mpr hbetween.isTop)
  have hstep : step source found n = { found with
      imports := add found.imports (importsOf (joinTrimmed
        ((Source.span n (source.lineOfFirst n ';')).map source.raw)) (source.lineOfFirst n ';'))
      resume := source.lineOfFirst n ';' + 1 } := by
    rw [step, if_neg (by simp [h.not_done, Nat.not_lt.mpr hresume])]
    dsimp only
    rw [hhead, hsame, htop, hplain.starts, hplain.balance, joinTrimmed, map_map]
    rfl
  obtain ⟨hold, hnew⟩ := mem_add found.imports (importsOf (joinTrimmed
    ((Source.span n (source.lineOfFirst n ';')).map source.raw)) (source.lineOfFirst n ';'))
  rw [hstep, hread]
  refine ⟨⟨h.not_done, h.depth, h.inBraces, h.once, fun name hname => ?_⟩, rfl⟩
  rcases mem_append.mp hname with hname | hname
  · obtain ⟨entry, hentry, hsame⟩ := h.finds name hname
    exact ⟨entry, hold entry hentry, hsame⟩
  · obtain ⟨entry, hentry, rfl⟩ := hfound name hname
    exact hnew entry hentry

end ImportScan

/-- Whether the lines from line `n` up to line `stop` are a plain head, where `scan` is known in
front of them. -/
inductive PlainHead (source : Source) (stop : Nat) : UseScan → Nat → Prop
  | nil {scan : UseScan} : PlainHead source stop scan stop
  | line {scan : UseScan} {n : Nat} : n < stop → scan.PlainLine (source.code n) →
      PlainHead source stop (scan.readLine (source.code n)) (n + 1) → PlainHead source stop scan n
  | use {scan : UseScan} {n : Nat} : source.lineOfFirst n ';' < stop → scan.Between →
      PlainUse source n →
      PlainHead source stop (((Source.span n (source.lineOfFirst n ';')).map
        source.code).foldl UseScan.readLine scan) (source.lineOfFirst n ';' + 1) →
      PlainHead source stop scan n

namespace ImportScan

/-- Both readings of a plain head agree. -/
theorem Follows.run {stop n : Nat} {scan : UseScan} (hplain : PlainHead source stop scan n)
    (h : found.Follows scan) (hresume : found.resume ≤ n) :
    ((range' n (stop - n)).foldl (step source) found).Follows
      (((range' n (stop - n)).map source.code).foldl UseScan.readLine scan) := by
  induction hplain generalizing found with
  | nil => simpa using h
  | @line scan n hn hline _ ih =>
    obtain ⟨hnext, hresume'⟩ := h.step_line hresume hline
    have hrange : range' n (stop - n) = n :: range' (n + 1) (stop - (n + 1)) := by
      rw [← range'_succ]
      congr 1
      omega
    rw [hrange, map_cons, foldl_cons, foldl_cons]
    exact ih hnext (by omega)
  | @use scan n hlast hbetween huse _ ih =>
    obtain ⟨hnext, hresume'⟩ := h.step_use hresume hbetween huse
    have hle := Source.le_lineOfFirst source n ';'
    generalize source.lineOfFirst n ';' = last at *
    have hsplit : range' n (stop - n) =
        Source.span n last ++ range' (last + 1) (stop - (last + 1)) := by
      have happend := @range'_append_1 n (last + 1 - n) (stop - (last + 1))
      rw [show n + (last + 1 - n) = last + 1 by omega,
        show last + 1 - n + (stop - (last + 1)) = stop - n by omega] at happend
      exact happend.symm
    have hstatement : (Source.span n last).foldl (step source) found = step source found n := by
      have hcons : Source.span n last = n :: range' (n + 1) (last - n) := by
        rw [Source.span, show last + 1 - n = last - n + 1 by omega, range'_succ]
      rw [hcons, foldl_cons]
      refine foldl_of_lt fun l hl => ?_
      rw [mem_range'_1] at hl
      omega
    rw [hsplit, map_append, foldl_append, foldl_append, hstatement]
    exact ih hnext (by omega)

/-- Imports that are found stay found. -/
theorem mem_imports_step {entry : Import} (h : entry ∈ found.imports) (n : Nat) :
    entry ∈ (step source found n).imports := by
  obtain ⟨-, -, himports, -⟩ := noteNamespace_spec found (source.code n) n
  rw [step]
  split
  · exact h
  · dsimp only
    split
    · exact h
    · split
      · exact (mem_add _ _).1 entry (himports ▸ h)
      · exact himports ▸ h

theorem mem_imports_foldl {entry : Import} (h : entry ∈ found.imports) (ls : List Nat) :
    entry ∈ (ls.foldl (step source) found).imports := by
  induction ls generalizing found with
  | nil => exact h
  | cons n ls ih => exact ih (mem_imports_step h n)

end ImportScan

/-- **Plain heads.** Every class that a plain head imports is found. -/
theorem PlainHead.exists_import {stop : Nat} (h : PlainHead source stop {} 0)
    (hstop : stop ≤ source.size) {name : String} (hname : name ∈ (source.usesAbove stop).classes) :
    ∃ entry ∈ (ImportScan.run source).imports, sameName entry.name name = true := by
  have hstart : ImportScan.Follows {} {} :=
    ⟨rfl, rfl, by simp, Nat.zero_le _, nofun⟩
  have hfollows := ImportScan.Follows.run h hstart (Nat.le_refl _)
  rw [Nat.sub_zero, ← range_eq_range'] at hfollows
  obtain ⟨entry, hentry, hsame⟩ := hfollows.finds name hname
  have hsplit : range source.size =
      range stop ++ range' stop (source.size - stop) := by
    have happend := @range'_append_1 0 stop (source.size - stop)
    rw [Nat.zero_add, Nat.add_sub_cancel' hstop] at happend
    rw [range_eq_range', range_eq_range', happend]
  refine ⟨entry, ?_, hsame⟩
  rw [ImportScan.run, hsplit, foldl_append]
  exact ImportScan.mem_imports_foldl hentry _

end ServiceInjection
