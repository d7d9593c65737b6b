import ServiceInjection.Proofs.Outline.WrittenBody

/-!
# Outline.WrittenHeads

The heads of written methods and classes. A method that is written with its modifiers starts
where it is written (`StartsMethod.of_written`). A class is found behind lines that declare
none, and its braces are found as they were written (`Source.firstDeclaration_written`,
`exists_emptyClass`).
-/

namespace ServiceInjection

open Text List

/-! ### Heads of methods -/

/-- The words in front of a method. -/
def methodModifiers : List String := ["public", "protected", "private", "static", "abstract", "final"]

/-- The keyword of a method, with the blank behind it. -/
def functionWord : List Char := ['f', 'u', 'n', 'c', 't', 'i', 'o', 'n', ' ']

theorem isFlat_words {cs : List Char} (h : ∀ c ∈ cs, c = ' ' ∨ isNameChar c = true) :
    ∀ c ∈ cs, IsFlat c := by
  intro c hc
  rcases h c hc with rfl | hc
  · exact isFlat_space
  · exact isFlat_of_isNameChar hc

section

variable {indent modifiers name : List Char}

/-- The head of a method is read as it is written. -/
theorem MethodHead.of?_written (hindent : Blank indent) (hname : IsName name)
    (hfirst : ∀ c ∈ modifiers.head?, isBlank c = false ∧ c ≠ '#')
    (hskip : ∀ cs, skipModifiers methodModifiers (modifiers ++ (functionWord ++ cs)) =
      functionWord ++ cs) (rest : List Char) :
    MethodHead.of? (indent ++ (modifiers ++ (functionWord ++ name)) ++ '(' :: rest) =
      some ⟨modifiers, String.ofList name, (indent ++ (modifiers ++ (functionWord ++ name))).length⟩ := by
  have hcode : indent ++ (modifiers ++ (functionWord ++ name)) ++ '(' :: rest =
      indent ++ (modifiers ++ (functionWord ++ (name ++ '(' :: rest))) := by simp
  have hstart : blanks (modifiers ++ (functionWord ++ (name ++ '(' :: rest))) =
        modifiers ++ (functionWord ++ (name ++ '(' :: rest)) ∧
      startsWith "#[" (modifiers ++ (functionWord ++ (name ++ '(' :: rest))) = false := by
    cases modifiers with
    | nil => exact ⟨rfl, rfl⟩
    | cons c modifiers =>
      obtain ⟨hblank, hsign⟩ := hfirst c rfl
      exact ⟨blanks_cons hblank _, by simp [startsWith, isPrefixOf, Ne.symm hsign]⟩
  have hblanks : blanks (indent ++ (modifiers ++ (functionWord ++ (name ++ '(' :: rest)))) =
      modifiers ++ (functionWord ++ (name ++ '(' :: rest)) := by
    rw [blanks, dropWhile_append_of_pos hindent]
    exact hstart.1
  have hword : word (name ++ '(' :: rest) = some (name, '(' :: rest) :=
    word_append hname (by simp [show isWord '(' = false by decide])
  have hfunction : literal "function" (functionWord ++ (name ++ '(' :: rest)) =
      some (' ' :: (name ++ '(' :: rest)) := by
    simp [functionWord, literal, literalChars]
  obtain ⟨c, others, rfl⟩ := exists_cons_of_ne_nil hname.1
  have hc := isNameChar_of_isWord (hname.2 c mem_cons_self)
  have hgap : someBlanks (' ' :: (c :: others ++ '(' :: rest)) = some (c :: others ++ '(' :: rest) := by
    rw [someBlanks, if_pos (by decide)]
    exact congrArg some (blanks_cons (isBlank_of_isNameChar hc) _)
  have hmark : blanks (skipChar '&' (c :: others ++ '(' :: rest)) = c :: others ++ '(' :: rest := by
    have hne : ('&' == c) = false := by
      rw [beq_eq_false_iff_ne]
      rintro rfl
      exact absurd hc (by decide)
    rw [cons_append, skipChar, hne]
    exact blanks_cons (isBlank_of_isNameChar hc) _
  have hparen : literal "(" (blanks ('(' :: rest)) = some rest := by
    rw [blanks_cons (by decide)]
    simp [literal, literalChars]
  have hrest : skipModifiers ["public", "protected", "private", "static", "abstract", "final"]
      (modifiers ++ (functionWord ++ (c :: others ++ '(' :: rest))) =
        functionWord ++ (c :: others ++ '(' :: rest) := hskip _
  simp only [MethodHead.of?, hcode, hblanks, skipAttributes_of_not_startsWith hstart.2, hrest,
    hfunction, hgap, hmark, hword, hparen, Option.bind_eq_bind, Option.bind_some]
  congr 2
  · rw [length_append, Nat.add_sub_cancel, take_left]
  · simp only [length_append, length_cons]
    omega

/-- A method that is written with its modifiers, the keyword and its name. -/
theorem StartsMethod.of_written (hindent : Blank indent) (hline : '\n' ∉ indent) (hname : IsName name)
    (hmodifiers : ∀ c ∈ modifiers, IsFlat c)
    (hfirst : ∀ c ∈ modifiers.head?, isBlank c = false ∧ c ≠ '#')
    (hskip : ∀ cs, skipModifiers methodModifiers (modifiers ++ (functionWord ++ cs)) =
      functionWord ++ cs) :
    StartsMethod (indent ++ (modifiers ++ (functionWord ++ name)))
      ⟨modifiers, String.ofList name, (indent ++ (modifiers ++ (functionWord ++ name))).length⟩ := by
  have hflat : ∀ c ∈ modifiers ++ (functionWord ++ name), IsFlat c :=
    forall_mem_append.mpr ⟨hmodifiers,
      forall_mem_append.mpr ⟨isFlat_words (by decide +kernel), isFlat_of_isName hname⟩⟩
  have hplain : ∀ c ∈ indent ++ (modifiers ++ (functionWord ++ name)), IsPlain c :=
    forall_mem_append.mpr ⟨hindent.isPlain, fun c hc => (hflat c hc).plain⟩
  obtain ⟨hcells, hafter⟩ := Lex.cells_plain (some '(') hplain
  have hfeed : '\n' ∉ indent ++ (modifiers ++ (functionWord ++ name)) := by
    rw [mem_append]
    rintro (hmem | hmem)
    · exact hline hmem
    · exact (hflat _ hmem).line.1 rfl
  -- The first character behind the blanks opens neither a comment nor an attribute.
  obtain ⟨c, rest, htext, hblank, hsign, hslash⟩ : ∃ c rest, modifiers ++ (functionWord ++ name) = c :: rest ∧
      isBlank c = false ∧ c ≠ '#' ∧ c ≠ '/' := by
    cases hcons : modifiers with
    | nil => exact ⟨'f', _, rfl, by decide, by decide, by decide⟩
    | cons c others =>
      rw [hcons] at hfirst hflat
      exact ⟨c, _, rfl, (hfirst c rfl).1, (hfirst c rfl).2, (hflat c mem_cons_self).plain.2.1⟩
  have htrim : trimStart (indent ++ (modifiers ++ (functionWord ++ name))) = c :: rest := by
    rw [trimStart, dropWhile_append_of_pos hindent, htext]
    exact dropWhile_cons_of_neg (by simp [hblank])
  refine ⟨hfeed, hafter, ?_, ?_, ?_, rfl⟩
  · rw [htrim]
    simp [startsWith, isPrefixOf, Ne.symm hslash]
  · rw [hcells, code_map_show, htrim]
    simp [startsWith, isPrefixOf, Ne.symm hsign]
  · rw [hcells, code_map_show]
    exact MethodHead.of?_written hindent hname hfirst hskip

theorem skipModifiers_function (cs : List Char) :
    skipModifiers methodModifiers (functionWord ++ cs) = functionWord ++ cs := by
  have hnone : oneOf methodModifiers (functionWord ++ cs) = none := by
    simp [oneOf, methodModifiers, functionWord, literal, literalChars]
  rw [skipModifiers, hnone]
  rfl

/-- The visibility of a method that is written, with the blank behind it. -/
def publicWord : List Char := ['p', 'u', 'b', 'l', 'i', 'c', ' ']

/-- The modifiers of a factory, each with the blank behind it. -/
def factoryWords : List Char := publicWord ++ ['s', 't', 'a', 't', 'i', 'c', ' ']

/-- The name of the constructor. -/
def constructName : List Char := ['_', '_', 'c', 'o', 'n', 's', 't', 'r', 'u', 'c', 't']

/-- The name of the factory. -/
def createName : List Char := ['c', 'r', 'e', 'a', 't', 'e']

theorem skipModifiers_public {cs : List Char} (hcs : blanks cs = cs) :
    skipModifiers methodModifiers (publicWord ++ cs) = skipModifiers methodModifiers cs :=
  @skipModifiers_cons methodModifiers "public" publicWord.dropLast cs
    (by simp [oneOf, methodModifiers, publicWord, literal, literalChars]) hcs

theorem skipModifiers_factory (cs : List Char) :
    skipModifiers methodModifiers (factoryWords ++ (functionWord ++ cs)) = functionWord ++ cs := by
  have hstatic := @skipModifiers_cons methodModifiers "static" ['s', 't', 'a', 't', 'i', 'c']
    (functionWord ++ cs) (by simp [oneOf, methodModifiers, functionWord, literal, literalChars]) rfl
  rw [factoryWords, append_assoc, skipModifiers_public rfl]
  exact hstatic.trans (skipModifiers_function cs)

theorem isFlat_factoryWords : ∀ c ∈ factoryWords, IsFlat c := isFlat_words (by decide +kernel)

/-- The head of a constructor. -/
theorem startsMethod_construct (hindent : Blank indent) (hline : '\n' ∉ indent) :
    StartsMethod (indent ++ (publicWord ++ (functionWord ++ constructName)))
      ⟨publicWord, String.ofList constructName,
        (indent ++ (publicWord ++ (functionWord ++ constructName))).length⟩ := by
  refine .of_written hindent hline (by decide +kernel) ?_ (fun c hc => by cases hc; decide) fun cs => ?_
  · exact fun c hc => isFlat_factoryWords c (mem_append_left _ hc)
  · rw [skipModifiers_public rfl, skipModifiers_function]

/-- The head of a factory. -/
theorem startsMethod_create (hindent : Blank indent) (hline : '\n' ∉ indent) :
    StartsMethod (indent ++ (factoryWords ++ (functionWord ++ createName)))
      ⟨factoryWords, String.ofList createName,
        (indent ++ (factoryWords ++ (functionWord ++ createName))).length⟩ :=
  .of_written hindent hline (by decide +kernel) isFlat_factoryWords
    (fun c hc => by cases hc; decide) skipModifiers_factory

end

/-! ### Heads of classes -/

/-- A class whose head and braces are found in the text. -/
theorem Outline.exists_ofDeclaration {source : Source} {n : Nat} {head : Head} {header inner back : Line}
    (hlines : ∀ line ∈ source.lines, '\n' ∉ line.raw)
    (hhead : Head.of? (source.code n) = some head) (hvalid : source.Valid ⟨n, head.stop⟩)
    (hrest : source.rest ⟨n, head.stop⟩ = header ++ .show '{' :: (inner ++ .show '}' :: back))
    (hheader : ∀ c ∈ header.code, c ≠ '{' ∧ c ≠ ';')
    (hinner : NestedIn '{' '}' 0 inner.code = true) :
    ∃ outline, Outline.ofDeclaration source n = some outline ∧
      outline.decl.kind = head.kind ∧ outline.decl.name = head.name ∧
      outline.decl.openBraceLine = n + header.raw.count '\n' ∧
      outline.decl.closeBraceLine = n + header.raw.count '\n' + inner.raw.count '\n' := by
  have hopening : source.firstOf ⟨n, head.stop⟩ ['{', ';'] =
      some ⟨source.advance ⟨n, head.stop⟩ header.length, '{'⟩ := by
    rw [Source.firstOf_eq hvalid (by simp), hrest]
    exact Source.firstGlyph_eq_some_iff.mpr ⟨header, .show '{', _, rfl,
      fun c hc => by simpa using hheader c hc, by simp [Cell.code, Cell.show], rfl⟩
  obtain ⟨hvalid', hrest', hadd⟩ := Source.rest_advance hvalid hrest rfl
  have hclose := (Source.matchingClose_eq_some_iff hvalid' hrest' (by decide)).mpr
    ⟨inner, back, rfl, hinner, rfl⟩
  have hlength := congrArg length hrest
  simp only [length_append, length_cons] at hlength
  have hline : ∀ k ≤ (source.rest ⟨n, head.stop⟩).length, (source.advance ⟨n, head.stop⟩ k).line =
      n + ((source.rest ⟨n, head.stop⟩).raw.take k).count '\n' := fun k hk =>
    Source.line_advance hlines hvalid hk
  rw [hadd] at hclose
  have hsome : (Outline.ofDeclaration source n).isSome = true := by
    simp [Outline.ofDeclaration, hhead, hopening, hclose]
  obtain ⟨outline, houtline⟩ := Option.isSome_iff_exists.mp hsome
  obtain ⟨head', opening, close, hhead', hopening', -, hclose', hkind, hname, -, hopenLine, hcloseLine, -⟩ :=
    of_ofDeclaration houtline
  cases hhead.symm.trans hhead'
  cases hopening.symm.trans hopening'
  cases hclose.symm.trans hclose'
  refine ⟨outline, houtline, hkind, hname, ?_, ?_⟩
  · rw [hopenLine, hline _ (by omega), hrest, Line.raw_append,
      take_left' (show header.raw.length = header.length from length_map _)]
  · have hraw : (source.rest ⟨n, head.stop⟩).raw =
        (header.raw ++ '{' :: inner.raw) ++ '}' :: Line.raw back := by
      rw [hrest]
      simp [Line.raw, Cell.show]
    rw [hcloseLine, hline _ (by omega), hraw, take_left' (by simp [Line.raw]),
      count_append, count_cons_of_ne (by decide), Nat.add_assoc]

/-- The keyword of a class, with the blank behind it. -/
def classWord : List Char := ['c', 'l', 'a', 's', 's', ' ']

theorem namedHead_class {name tail : List Char} (hname : IsName name) (htail : EndsName tail) :
    namedHead (classWord ++ (name ++ tail)) =
      some ⟨.namedClass, String.ofList name, (classWord ++ name).length⟩ := by
  have hword := word_append hname htail
  obtain ⟨c, others, rfl⟩ := exists_cons_of_ne_nil hname.1
  have hc := isNameChar_of_isWord (hname.2 c mem_cons_self)
  have hskip : skipModifiers ["final", "abstract", "readonly"] (blanks (classWord ++ (c :: others ++ tail))) =
      classWord ++ (c :: others ++ tail) := by
    have hblanks : blanks (classWord ++ (c :: others ++ tail)) = classWord ++ (c :: others ++ tail) := rfl
    have hnone : oneOf ["final", "abstract", "readonly"] (classWord ++ (c :: others ++ tail)) = none := by
      simp [oneOf, classWord, literal, literalChars]
    rw [hblanks, skipModifiers, hnone]
    rfl
  have hkeyword : oneOf ["class", "trait", "interface", "enum"] (classWord ++ (c :: others ++ tail)) =
      some ("class", ' ' :: (c :: others ++ tail)) := by
    simp [oneOf, classWord, literal, literalChars]
  have hgap : someBlanks (' ' :: (c :: others ++ tail)) = some (c :: others ++ tail) := by
    rw [someBlanks, if_pos (by decide)]
    exact congrArg some (blanks_cons (isBlank_of_isNameChar hc) _)
  simp only [namedHead, hskip, hkeyword, hgap, hword, Option.bind_eq_bind, Option.bind_some]
  congr 2
  simp only [length_append]
  omega

/-- Whether a text is blank, without a carriage return. -/
def Text.IsGap (cs : List Char) : Prop := Blank cs ∧ '\r' ∉ cs

instance (cs : List Char) : Decidable (IsGap cs) := inferInstanceAs (Decidable (_ ∧ _))

theorem Text.IsGap.feed {cs : List Char} (h : IsGap cs) : IsGap ('\n' :: cs) :=
  ⟨forall_mem_cons.mpr ⟨by decide, h.1⟩, by simp [h.2]⟩

/-- Whether a text can stand between the name of a class and its brace. -/
def Text.IsClauses (cs : List Char) : Prop := EndsName cs ∧ ∀ c ∈ cs, IsInline c ∧ c ≠ ';'

instance (cs : List Char) : Decidable (IsClauses cs) := inferInstanceAs (Decidable (_ ∧ _))

/-- The lines up to the brace of a class. -/
def classHeader (braceOnOwnLine : Bool) (name clauses : List Char) : List (List Char) :=
  if braceOnOwnLine then [classWord ++ (name ++ clauses), ['{']]
  else [classWord ++ (name ++ (clauses ++ [' ', '{']))]

section

variable {own : Bool} {name clauses : List Char}

/-- The header of a class on one line or two. -/
theorem exists_classHeader (hclauses : IsClauses clauses) (own : Bool) (name : List Char) :
    ∃ tail others gap, classHeader own name clauses = (classWord ++ (name ++ tail)) :: others ∧
      EndsName tail ∧ IsGap gap ∧ gap.count '\n' = others.length ∧
      joined (classHeader own name clauses) = (classWord ++ name) ++ ((clauses ++ gap) ++ ['{']) := by
  cases own with
  | true =>
    refine ⟨clauses, [['{']], ['\n'], rfl, hclauses.1, by decide, rfl, ?_⟩
    rw [classHeader, if_pos rfl, joined_cons _ (by simp)]
    simp
  | false =>
    refine ⟨clauses ++ [' ', '{'], [], [' '], rfl, ?_, by decide, rfl, ?_⟩
    · cases clauses with
      | nil => simp [EndsName, show isWord ' ' = false by decide]
      | cons c clauses => simpa [EndsName] using hclauses.1
    · rw [classHeader, if_neg (by simp), joined_singleton]
      simp

/-- The lines of the header of a class are plain code. -/
theorem plain_classHeader (hname : IsName name) (hclauses : IsClauses clauses) :
    ∀ line ∈ classHeader own name clauses, IsLine line ∧ ∀ c ∈ line, IsPlain c := by
  have hinline : ∀ c ∈ classWord ++ (name ++ clauses), IsInline c :=
    forall_mem_append.mpr ⟨by decide, forall_mem_append.mpr
      ⟨fun c hc => (isFlat_of_isName hname c hc).isInline, fun c hc => (hclauses.2 c hc).1⟩⟩
  have hline : IsLine (classWord ++ (name ++ clauses)) :=
    ⟨fun hmem => (hinline _ hmem).2.2.2.1 rfl, fun hmem => (hinline _ hmem).2.2.2.2 rfl⟩
  have hplain : ∀ c ∈ classWord ++ (name ++ clauses), IsPlain c := fun c hc => (hinline c hc).1
  cases own with
  | true => exact forall_mem_cons.mpr ⟨⟨hline, hplain⟩, by decide⟩
  | false =>
    have hassoc : classWord ++ (name ++ (clauses ++ [' ', '{'])) =
        (classWord ++ (name ++ clauses)) ++ [' ', '{'] := by simp
    refine forall_mem_cons.mpr ⟨?_, nofun⟩
    rw [hassoc]
    refine ⟨⟨?_, ?_⟩, forall_mem_append.mpr ⟨hplain, by decide⟩⟩
    · exact fun hmem => (mem_append.mp hmem).elim hline.1 (by decide)
    · exact fun hmem => (mem_append.mp hmem).elim hline.2 (by decide)

theorem isClosedLine_classHeader (hname : IsName name) (hclauses : IsClauses clauses) :
    ∀ line ∈ classHeader own name clauses, IsClosedLine line := fun line hline =>
  .of_plain (plain_classHeader hname hclauses line hline).1.1
    (plain_classHeader hname hclauses line hline).2

/-- The head of a class behind closed lines. -/
theorem namedHead_written (hname : IsName name) (hclauses : IsClauses clauses)
    {front : List (List Char)} (hfront : ∀ line ∈ front, IsClosedLine line) (back : List (List Char)) :
    namedHead ((Source.written (front ++ (classHeader own name clauses ++ back))).code front.length) =
      some ⟨.namedClass, String.ofList name, (classWord ++ name).length⟩ := by
  obtain ⟨tail, others, -, hheader, htail, -⟩ := exists_classHeader hclauses own name
  have hclosed : ∀ line ∈ front ++ classHeader own name clauses, IsClosedLine line :=
    forall_mem_append.mpr ⟨hfront, isClosedLine_classHeader hname hclauses⟩
  have hfirst : (front ++ classHeader own name clauses)[front.length]? =
      some (classWord ++ (name ++ tail)) := by
    simp [hheader]
  have hplain := (plain_classHeader hname hclauses _ (hheader ▸ mem_cons_self)).2
  rw [← append_assoc, Source.code, Source.line_written_append hclosed hfirst,
    Line.code_ofCode hplain, namedHead_class hname htail]

/-- A class is the first one behind closed lines that declare none. -/
theorem Source.firstDeclaration_written (hname : IsName name) (hclauses : IsClauses clauses)
    {front : List (List Char)} (hfront : ∀ line ∈ front, IsClosedLine line)
    (hnone : ∀ line ∈ front, namedHead (Line.ofCode line).code = none) (back : List (List Char)) :
    (Source.written (front ++ (classHeader own name clauses ++ back))).firstDeclaration =
      some front.length := by
  obtain ⟨tail, others, -, hheader, -⟩ := exists_classHeader hclauses own name
  have hfind : ((range (Source.written (front ++ (classHeader own name clauses ++ back))).size).find?
      fun n => (namedHead ((Source.written (front ++ (classHeader own name clauses ++ back))).code n)).isSome) =
        some front.length := by
    refine find?_range_eq_some.mpr ⟨?_, ?_, fun n hn => ?_⟩
    · rw [namedHead_written hname hclauses hfront]
      rfl
    · rw [mem_range, Source.size, Source.written, Source.ofLines, length_maskLines, hheader]
      simp
    · have hline := getElem?_eq_getElem hn
      rw [Source.code, line_written_append hfront hline, hnone _ (getElem_mem hn)]
      rfl
  rw [Source.firstDeclaration, hfind]
  rfl

/-- What stands behind the name of a class without members. -/
theorem rest_emptyClass (hname : IsName name) (hclauses : IsClauses clauses) (own : Bool) :
    ∃ gap, IsGap gap ∧ gap.count '\n' + 1 = (classHeader own name clauses).length ∧
      (Source.written (classHeader own name clauses ++ [['}']])).Valid ⟨0, (classWord ++ name).length⟩ ∧
      (Source.written (classHeader own name clauses ++ [['}']])).rest ⟨0, (classWord ++ name).length⟩ =
        (clauses ++ gap).map .show ++ .show '{' :: ([Source.lineEnd] ++ .show '}' :: []) := by
  obtain ⟨tail, others, gap, hheader, -, hgap, hcount, hjoined⟩ := exists_classHeader hclauses own name
  have hplain : ∀ line ∈ classHeader own name clauses ++ [['}']], IsLine line ∧ ∀ c ∈ line, IsPlain c :=
    forall_mem_append.mpr ⟨plain_classHeader hname hclauses, by decide⟩
  have hstream : joined (classHeader own name clauses ++ [['}']]) =
      classWord ++ name ++ ((clauses ++ gap) ++ ['{', '\n', '}']) := by
    rw [joined_append (by simp), unlines_eq_joined (by simp [hheader]), hjoined]
    simp
  have hstreamPlain : ∀ c ∈ joined (classHeader own name clauses ++ [['}']]), IsPlain c := by
    intro c hc
    rcases mem_joined hc with rfl | ⟨line, hline, hc⟩
    · decide
    · exact (hplain line hline).2 c hc
  refine ⟨gap, hgap, by simp [hheader, hcount], ?_, ?_⟩
  · rw [hheader]
    refine ⟨_, rfl, ?_⟩
    show _ ≤ (maskLine .code (classWord ++ (name ++ tail))).1.length
    rw [length_maskLine]
    simp
  · rw [Source.rest, drop_zero, Source.stream_written fun line hline => (hplain line hline).1.1,
      (Lex.cells_plain none hstreamPlain).1, hstream, map_append, drop_left' (length_map _)]
    simp [Source.lineEnd]

/-- A class without members is found. -/
theorem exists_emptyClass (hname : IsName name) (hclauses : IsClauses clauses) (own : Bool) :
    ∃ outline, Outline.ofDeclaration (.written (classHeader own name clauses ++ [['}']])) 0 =
        some outline ∧
      outline.decl.kind = .namedClass ∧ outline.decl.name = String.ofList name ∧
      outline.decl.openBraceLine + 1 = (classHeader own name clauses).length ∧
      outline.decl.closeBraceLine = (classHeader own name clauses).length := by
  obtain ⟨gap, hgap, hcount, hvalid, hrest⟩ := rest_emptyClass hname hclauses own
  have hfeeds : ∀ line ∈ classHeader own name clauses ++ [['}']], '\n' ∉ line :=
    forall_mem_append.mpr
      ⟨fun line hline => (isClosedLine_classHeader hname hclauses line hline).1, by decide⟩
  have hhead : Head.of? ((Source.written (classHeader own name clauses ++ [['}']])).code 0) =
      some ⟨.namedClass, String.ofList name, (classWord ++ name).length⟩ := by
    have hnamed := @namedHead_written own _ _ hname hclauses [] nofun [['}']]
    rw [nil_append, length_nil] at hnamed
    rw [Head.of?, hnamed]
    rfl
  have hnone : ∀ c ∈ Line.code ((clauses ++ gap).map .show), c ≠ '{' ∧ c ≠ ';' := by
    rw [code_map_show]
    refine forall_mem_append.mpr ⟨fun c hc => ⟨(hclauses.2 c hc).1.2.1, (hclauses.2 c hc).2⟩, ?_⟩
    intro c hc
    constructor <;> rintro rfl <;> exact hgap.1.not_mem (by decide) hc
  obtain ⟨outline, houtline, hkind, hname', hopen, hclose⟩ := Outline.exists_ofDeclaration
    (Source.not_mem_written hfeeds) hhead hvalid hrest hnone (by decide)
  have hlines : (Line.raw ((clauses ++ gap).map .show)).count '\n' = gap.count '\n' := by
    have hclausesLine : clauses.count '\n' = 0 :=
      count_eq_zero.mpr fun hmem => (hclauses.2 _ hmem).1.2.2.2.1 rfl
    have hraw : Line.raw ((clauses ++ gap).map .show) = clauses ++ gap := by
      simp [Line.raw, Function.comp_def, Cell.show]
    rw [hraw, count_append, hclausesLine, Nat.zero_add]
  have hfeed : (Line.raw [Source.lineEnd]).count '\n' = 1 := rfl
  refine ⟨outline, houtline, hkind, hname', ?_, ?_⟩
  · rw [hopen, hlines]
    omega
  · rw [hclose, hlines, hfeed]
    omega

end

end ServiceInjection
