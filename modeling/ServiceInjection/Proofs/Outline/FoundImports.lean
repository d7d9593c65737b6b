import ServiceInjection.Proofs.Outline.UsedClasses

/-!
# Outline.FoundImports

The classes that one statement imports are found in its text. Both the words of a plain
statement (`usedClasses`) and its text (`importsOf`) are read clause by clause: clauses are cut
at commas, and the words of each are a class, or a class and its new name. A group adds the
same start to the classes of its clauses.
-/

namespace ServiceInjection

open Text List

variable {w cs gap : List Char} {name : String}

/-! ### Words -/

/-- The words of a text that holds nothing else but blanks. -/
inductive Words : List Char → List (List Char) → Prop
  | blank {gap : List Char} : Blank gap → Words gap []
  | word {gap w rest : List Char} {ws : List (List Char)} : Blank gap → IsQualified w →
      (∀ c ∈ rest.head?, isNameChar c = false) → Words rest ws → Words (gap ++ (w ++ rest)) (w :: ws)

namespace Words

variable {cs gap : List Char} {ws : List (List Char)}

theorem blank_append (hgap : Blank gap) (h : Words cs ws) : Words (gap ++ cs) ws := by
  cases h with
  | blank hcs => exact .blank (hgap.append hcs)
  | word hgap' hw hrest hwords =>
    rw [← append_assoc]
    exact .word (hgap.append hgap') hw hrest hwords

/-- A word at the very start. -/
theorem front (hw : IsQualified w) (hcs : ∀ c ∈ cs.head?, isNameChar c = false) (h : Words cs ws) :
    Words (w ++ cs) (w :: ws) :=
  @word [] w cs ws nofun hw hcs h

theorem isQualified (h : Words cs ws) : ∀ w ∈ ws, IsQualified w := by
  induction h with
  | blank => nofun
  | word _ hw _ _ ih => exact forall_mem_cons.mpr ⟨hw, ih⟩

end Words

theorem exists_words (h : ∀ c ∈ cs, isNameChar c = true ∨ isBlank c = true) :
    ∃ ws, Words cs ws := by
  induction cs with
  | nil => exact ⟨[], .blank nofun⟩
  | cons c cs ih =>
    obtain ⟨hc, hcs⟩ := forall_mem_cons.mp h
    obtain ⟨ws, hwords⟩ := ih hcs
    by_cases hblank : isBlank c = true
    · exact ⟨ws, hwords.blank_append (by simpa [Blank] using hblank : Blank [c])⟩
    · have hname : isNameChar c = true := hc.resolve_right hblank
      have hone : IsQualified [c] := ⟨by simp, by simpa using hname⟩
      cases hwords with
      | blank hgap =>
        exact ⟨_, .front hone
          (fun d hd => not_isNameChar_of_isBlank (hgap d (mem_of_mem_head? hd)))
          (.blank hgap)⟩
      | @word gap w rest ws hgap hw hrest hwords =>
        cases gap with
        | nil =>
          have hlonger : IsQualified (c :: w) :=
            ⟨by simp, forall_mem_cons.mpr ⟨hname, hw.2⟩⟩
          exact ⟨_, .front hlonger hrest hwords⟩
        | cons d gap =>
          refine ⟨_, .front hone ?_ (.word hgap hw hrest hwords)⟩
          rintro e ⟨⟩
          exact not_isNameChar_of_isBlank (hgap d mem_cons_self)

namespace UseScan

variable {scan : UseScan}

@[simp] theorem endWord_endWord (scan : UseScan) : scan.endWord.endWord = scan.endWord := by
  refine endWord_of_nil ?_
  unfold endWord
  split
  · rename_i hempty
    exact isEmpty_iff.mp hempty
  · rfl

/-- A word ends in front of what is no part of it. -/
theorem read_endWord (h : ∀ c ∈ cs.head?, isNameChar c = false) :
    (scan.endWord.read cs).endWord = (scan.read cs).endWord := by
  cases cs with
  | nil => exact scan.endWord_endWord
  | cons c cs =>
    have hc : isNameChar c = false := h c rfl
    have hstep : scan.endWord.step c = scan.step c := by
      rw [step, step, hc, if_neg Bool.false_ne_true, if_neg Bool.false_ne_true, endWord_endWord]
    show ((scan.endWord.step c).read cs).endWord = ((scan.step c).read cs).endWord
    rw [hstep]

/-- The words of a text become words of the statement. -/
theorem read_words {ws : List (List Char)} (h : Words cs ws) (hword : scan.word = [])
    (htag : ['?'] ∉ scan.tokens) :
    (scan.read cs).endWord = { scan with tokens := scan.tokens ++ ws } := by
  induction h generalizing scan with
  | blank hgap => rw [read_blank hword hgap, endWord_of_nil hword, append_nil]
  | @word gap w rest ws hgap hw hrest _ ih =>
    have hend := @endWord_of_ne_nil { scan with word := w } hw.1 htag
    have hnext : ['?'] ∉ scan.tokens ++ [w] := by
      rw [mem_append, mem_singleton]
      rintro (hmem | rfl)
      · exact htag hmem
      · exact absurd (hw.2 '?' mem_cons_self) (by decide)
    have hrec := @ih { scan with word := [], tokens := scan.tokens ++ [w] } rfl hnext
    rw [read_append, read_blank hword hgap, read_append, read_word hw.2, hword, nil_append,
      ← read_endWord hrest, hend, hrec]
    simp

end UseScan

/-! ### Clauses -/

theorem Text.IsQualified.trim_eq (h : IsQualified w) : trim w = w := by
  obtain ⟨lead, tail, hlead, htail, heq⟩ := exists_trim w
  have hnil : ∀ {gap : List Char}, Blank gap → (∀ c ∈ gap, c ∈ w) → gap = [] := by
    intro gap hgap hmem
    refine eq_nil_iff_forall_not_mem.mpr fun c hc => ?_
    have hblank := hgap c hc
    rw [isBlank_of_isNameChar (h.2 c (hmem c hc))] at hblank
    cases hblank
  have hfront := hnil hlead fun c hc => heq ▸ by simp [hc]
  have hback := hnil htail fun c hc => heq ▸ by simp [hc]
  rw [hfront, hback] at heq
  simpa using heq.symm

theorem Text.IsQualified.head? (h : IsQualified w) (rest : List Char) :
    ∃ c, (w ++ rest).head? = some c ∧ isNameChar c = true := by
  obtain ⟨c, w, rfl⟩ := exists_cons_of_ne_nil h.1
  exact ⟨c, rfl, h.2 c mem_cons_self⟩

theorem Text.someBlanks_append (hne : gap ≠ []) (hgap : Blank gap)
    (hcs : ∀ c ∈ cs.head?, isBlank c = false) : someBlanks (gap ++ cs) = some cs := by
  obtain ⟨c, gap, rfl⟩ := exists_cons_of_ne_nil hne
  obtain ⟨hc, hgap⟩ := forall_mem_cons.mp hgap
  have hstop : blanks cs = cs := by
    cases cs with
    | nil => rfl
    | cons d cs => exact blanks_cons (hcs d rfl) cs
  rw [cons_append, someBlanks, if_pos hc, blanks, dropWhile_append_of_pos hgap]
  exact congrArg some hstop

theorem dropLeadingBackslash_of_isClassPath (h : isClassPath w = true) :
    dropLeadingBackslash w = skipChar '\\' w := by
  have hne := (isClassPath_spec h).2.2
  cases w with
  | nil => rfl
  | cons c w =>
    by_cases hc : '\\' = c
    · subst hc
      cases w with
      | nil => exact absurd rfl hne
      | cons d w => simp [dropLeadingBackslash, skipChar]
    · have hskip : skipChar '\\' (c :: w) = c :: w := by simp [skipChar, hc]
      rw [hskip]
      exact dropLeadingBackslash.eq_2 _ fun d ds heq => hc (cons.inj heq).1.symm

/-- Whether the keyword in front of a new name is in lower case. -/
def LowerAs (ws : List (List Char)) : Prop := ∀ w ∈ ws, isKeyword "as" w = true → w = "as".toList

instance (ws : List (List Char)) : Decidable (LowerAs ws) :=
  inferInstanceAs (Decidable (∀ w ∈ ws, _))

/-- Two words with what is between them. -/
theorem Words.gap_ne_nil {rest : List Char} (hw : IsQualified w)
    (h : ∀ c ∈ (gap ++ (w ++ rest)).head?, isNameChar c = false) : gap ≠ [] := by
  rintro rfl
  obtain ⟨c, hhead, hc⟩ := hw.head? rest
  have := h c hhead
  rw [hc] at this
  cases this

theorem ImportClause.of?_name (hw : IsQualified w) :
    ImportClause.of? w = some ⟨dropLeadingBackslash w, none⟩ := by
  have hrun := @run_append isNameChar w [] hw.1 hw.2 nofun
  rw [append_nil] at hrun
  simp [ImportClause.of?, hrun]

theorem ImportClause.of?_renamed {gap' newName : List Char} (hw : IsQualified w) (hgap : Blank gap)
    (hne : gap ≠ []) (hgap' : Blank gap') (hne' : gap' ≠ []) (hnew : IsName newName) :
    ImportClause.of? (w ++ (gap ++ ("as".toList ++ (gap' ++ newName)))) =
      some ⟨dropLeadingBackslash w, some newName⟩ := by
  have hstop : ∀ c ∈ (gap ++ ("as".toList ++ (gap' ++ newName))).head?, isNameChar c = false := by
    obtain ⟨c, gap, rfl⟩ := exists_cons_of_ne_nil hne
    rintro d ⟨⟩
    exact not_isNameChar_of_isBlank (hgap c mem_cons_self)
  have hword : ∀ c ∈ newName.head?, isBlank c = false := fun c hc =>
    isBlank_of_isNameChar (isNameChar_of_isWord (hnew.2 c (mem_of_mem_head? hc)))
  have hread := @word_append newName [] hnew nofun
  rw [append_nil] at hread
  rw [ImportClause.of?, run_append hw.1 hw.2 hstop]
  simp only [Option.bind_eq_bind, Option.bind_some]
  rw [someBlanks_append hne hgap (by rintro c ⟨⟩; decide)]
  simp only [Option.bind_some, literal_eq_some.mpr rfl, someBlanks_append hne' hgap' hword, hread,
    isEmpty_nil, if_true]
  split
  · rename_i heq
    exact absurd (append_eq_nil_iff.mp heq).1 hne
  · rfl

/-- A clause that names a class is read as that class. -/
theorem ImportClause.of?_words {ws : List (List Char)} (h : Words cs ws) (hlower : LowerAs ws)
    (hclass : clauseClass? ws = some name) :
    ∃ clause, ImportClause.of? (trim cs) = some clause ∧ String.ofList clause.name = name := by
  cases h with
  | blank => cases hclass
  | @word gap w rest ws hgap hw hrest hwords =>
    rw [trim_append_left _ hgap]
    cases hwords with
    | blank htail =>
      simp only [clauseClass?, Option.ite_none_right_eq_some, Option.some.injEq] at hclass
      obtain ⟨hpath, rfl⟩ := hclass
      rw [trim_append_right _ htail, hw.trim_eq]
      exact ⟨_, of?_name hw, congrArg String.ofList (dropLeadingBackslash_of_isClassPath hpath)⟩
    | @word gap as rest ws hgap has hrest' hwords =>
      cases hwords with
      | blank => cases hclass
      | @word gap' newName rest ws hgap' hnew hrest'' hwords =>
        cases hwords with
        | word => cases hclass
        | blank htail =>
          simp only [clauseClass?, Option.ite_none_right_eq_some, Bool.and_eq_true,
            all_eq_true, Option.some.injEq] at hclass
          obtain ⟨⟨⟨has, hpath⟩, hword⟩, rfl⟩ := hclass
          obtain rfl := hlower as (by simp) has
          have hclause := of?_renamed hw hgap (Words.gap_ne_nil ‹_› hrest) hgap'
            (Words.gap_ne_nil hnew hrest') ⟨hnew.1, hword⟩
          have htrim := trim_between (gap ++ ("as".toList ++ gap')) hw.trim_eq hw.1
            hnew.trim_eq hnew.1
          have hsplit : w ++ (gap ++ ("as".toList ++ (gap' ++ (newName ++ rest)))) =
              w ++ (gap ++ ("as".toList ++ gap')) ++ newName ++ rest := by simp
          rw [hsplit, trim_append_right _ htail, htrim]
          simp only [append_assoc] at hclause ⊢
          exact ⟨_, hclause,
            congrArg String.ofList (dropLeadingBackslash_of_isClassPath hpath)⟩

/-- Whether a text holds nothing but clauses: names, blanks and commas. -/
def ClauseChars (cs : List Char) : Prop :=
  ∀ c ∈ cs, (isNameChar c = true ∨ isBlank c = true) ∨ c = ','

instance (cs : List Char) : Decidable (ClauseChars cs) := inferInstanceAs (Decidable (∀ c ∈ cs, _))

theorem ClauseChars.not_mem {c : Char} (h : ClauseChars cs)
    (hc : ¬ ((isNameChar c = true ∨ isBlank c = true) ∨ c = ',')) : c ∉ cs :=
  fun hmem => hc (h c hmem)

/-- The words of clauses, and how they come into a statement. -/
theorem exists_clauseWords (h : ClauseChars cs) :
    ∃ wss, wss ≠ [] ∧ (∀ ws ∈ wss, ∃ piece ∈ splitBy (· == ',') cs, Words piece ws) ∧
      ∀ scan : UseScan, scan.word = [] → ['?'] ∉ scan.tokens →
        (scan.read cs).endWord =
          { scan with tokens := scan.tokens ++ [[',']].intercalate wss } := by
  -- The induction is on the number of commas, since a step passes one clause.
  induction hn : cs.count ',' generalizing cs with
  | zero =>
    have hcomma : ',' ∉ cs := count_eq_zero.mp hn
    obtain ⟨ws, hwords⟩ := exists_words fun c hc =>
      (h c hc).resolve_right fun heq => hcomma (heq ▸ hc)
    have hsplit : splitBy (· == ',') cs = [cs] :=
      splitBy_of_forall fun c hc => by simpa using fun heq : c = ',' => hcomma (heq ▸ hc)
    refine ⟨[ws], cons_ne_nil _ _, ?_, fun scan hword htag => ?_⟩
    · rw [hsplit]
      simpa using hwords
    · rw [intercalate_singleton, UseScan.read_words hwords hword htag]
  | succ n ih =>
    obtain ⟨piece, rest, rfl, hpiece⟩ :=
      eq_append_cons_of_mem (count_pos_iff.mp (by omega : 0 < cs.count ','))
    have hcount : rest.count ',' = n := by
      rw [count_append, count_eq_zero.mpr hpiece, count_cons_self] at hn
      omega
    obtain ⟨ws, hwords⟩ := exists_words fun c hc =>
      (h c (mem_append_left _ hc)).resolve_right fun heq => hpiece (heq ▸ hc)
    obtain ⟨wss, hne, hrest, hread⟩ :=
      ih (fun c hc => h c (mem_append_right _ (mem_cons_of_mem _ hc))) hcount
    have hsplit : splitBy (· == ',') (piece ++ ',' :: rest) = piece :: splitBy (· == ',') rest :=
      splitBy_append (fun c hc => by simpa using fun heq : c = ',' => hpiece (heq ▸ hc)) rfl rest
    refine ⟨ws :: wss, cons_ne_nil _ _, ?_, fun scan hword htag => ?_⟩
    · rw [hsplit]
      refine forall_mem_cons.mpr ⟨⟨piece, mem_cons_self, hwords⟩, fun ws hws => ?_⟩
      obtain ⟨other, hother, hwords⟩ := hrest ws hws
      exact ⟨other, mem_cons_of_mem _ hother, hwords⟩
    · have hnext : ['?'] ∉ scan.tokens ++ ws ++ [[',']] := by
        simp only [mem_append, mem_singleton, not_or]
        refine ⟨⟨htag, fun hmem => ?_⟩, by decide⟩
        exact absurd ((hwords.isQualified _ hmem).2 '?' mem_cons_self) (by decide)
      have hcomma : (scan.read piece).step ',' =
          { scan with tokens := scan.tokens ++ ws ++ [[',']] } := by
        have hname : isNameChar ',' = false := by decide
        rw [UseScan.step, hname, if_neg Bool.false_ne_true, UseScan.read_words hwords hword htag]
        rfl
      have hrec := hread { scan with tokens := scan.tokens ++ ws ++ [[',']] } hword hnext
      rw [UseScan.read_append]
      show (((scan.read piece).step ',').read rest).endWord = _
      rw [hcomma, hrec]
      obtain ⟨next, wss, rfl⟩ := exists_cons_of_ne_nil hne
      simp [intercalate_cons_cons]

/-- The words and signs of a text. -/
def tokensOf (cs : List Char) : List (List Char) := (UseScan.read {} cs).endWord.tokens

/-- Whether a text holds nothing but clauses whose keywords are in lower case. -/
structure PlainClauses (cs : List Char) : Prop where
  chars : ClauseChars cs
  lower : LowerAs (tokensOf cs)

namespace PlainClauses

variable {cs : List Char}

/-- What is known of the words of clauses. -/
theorem exists_words (h : PlainClauses cs) :
    ∃ wss, wss ≠ [] ∧ (∀ ws ∈ wss, ∃ piece ∈ splitBy (· == ',') cs, Words piece ws) ∧
      tokensOf cs = [[',']].intercalate wss ∧
      ∀ scan : UseScan, scan.word = [] → ['?'] ∉ scan.tokens →
        (scan.read cs).endWord = { scan with tokens := scan.tokens ++ tokensOf cs } := by
  obtain ⟨wss, hne, hwords, hread⟩ := exists_clauseWords h.chars
  have htokens : tokensOf cs = [[',']].intercalate wss := by
    rw [tokensOf, hread {} rfl nofun]
    rfl
  exact ⟨wss, hne, hwords, htokens, htokens ▸ hread⟩

theorem read (h : PlainClauses cs) {scan : UseScan} (hword : scan.word = [])
    (htag : ['?'] ∉ scan.tokens) :
    (scan.read cs).endWord = { scan with tokens := scan.tokens ++ tokensOf cs } := by
  obtain ⟨-, -, -, -, hread⟩ := h.exists_words
  exact hread scan hword htag

/-- The only sign is a comma. -/
theorem of_mem_tokensOf (h : PlainClauses cs) {token : List Char} (hmem : token ∈ tokensOf cs) :
    token = [','] ∨ IsQualified token := by
  obtain ⟨wss, -, hwords, htokens, -⟩ := h.exists_words
  rw [htokens] at hmem
  rcases mem_intercalate hmem with rfl | ⟨ws, hws, hmem⟩
  · exact .inl rfl
  · obtain ⟨piece, -, hpiece⟩ := hwords ws hws
    exact .inr (hpiece.isQualified token hmem)

/-- Each class that clauses name is found. -/
theorem exists_clause (h : PlainClauses cs) (hname : name ∈ clauseClasses (tokensOf cs)) :
    ∃ clause ∈ clauses cs, String.ofList clause.name = name := by
  obtain ⟨wss, hne, hwords, htokens, -⟩ := h.exists_words
  have hcomma : ∀ ws ∈ wss, [','] ∉ ws := by
    intro ws hws hmem
    obtain ⟨piece, -, hpiece⟩ := hwords ws hws
    exact absurd ((hpiece.isQualified _ hmem).2 ',' mem_cons_self) (by decide)
  rw [clauseClasses, htokens, splitOn_intercalate _ hcomma hne, mem_filterMap] at hname
  obtain ⟨ws, hws, hclass⟩ := hname
  obtain ⟨piece, hpiece, hpieceWords⟩ := hwords ws hws
  have hlower : LowerAs ws := fun w hw => h.lower w (htokens ▸ mem_intercalate_of_mem hws hw)
  obtain ⟨clause, hclause, heq⟩ := ImportClause.of?_words hpieceWords hlower hclass
  exact ⟨clause, mem_filterMap.mpr ⟨_, mem_map_of_mem hpiece, hclause⟩, heq⟩

end PlainClauses

/-! ### Statements -/

/-- A statement with the given body, and what follows it. -/
theorem useBody_eq {gap : Char} {body : List Char} (hgap : isBlank gap = true) (hbody : ';' ∉ body)
    (tail : List Char) :
    useBody ("use".toList ++ gap :: (body ++ ';' :: tail)) = some (trim body) := by
  have hblanks : blanks ("use".toList ++ gap :: (body ++ ';' :: tail)) =
      "use".toList ++ gap :: (body ++ ';' :: tail) := blanks_cons (by decide) _
  have hstop : blanks (body ++ ';' :: tail) = blanks body ++ ';' :: tail :=
    (span_append (by rintro c ⟨⟩; decide) body).2
  have hcut : ';' ∉ blanks body := fun hmem => hbody ((dropWhile_suffix _).subset hmem)
  obtain ⟨lead, hlead, hsplit⟩ := exists_blanks body
  have htrim : trim body = trim (blanks body) := by
    rw [← trim_append_left (blanks body) hlead, ← hsplit]
  rw [useBody, hblanks, literal_eq_some.mpr rfl]
  simp only [Option.bind_eq_bind, Option.bind_some, someBlanks, if_pos hgap, hstop,
    upTo_append hcut, htrim]

/-- Whether the body of a statement is plain: clauses, or the clauses of a group that
directly follows the start of its names. -/
inductive PlainBody : List Char → Prop
  | clauses {cs : List Char} : PlainClauses cs → PlainBody cs
  | group {start members : List Char} : IsQualified start → PlainClauses members →
      PlainBody (start ++ '\x7b' :: (members ++ ['\x7d']))

/-- The first word of clauses. -/
theorem head?_tokensOf {rest : List Char} (hw : IsQualified w) (h : ClauseChars (w ++ ' ' :: rest)) :
    (tokensOf (w ++ ' ' :: rest)).head? = some w := by
  have hrest : ClauseChars rest := fun c hc =>
    h c (mem_append_right _ (mem_cons_of_mem _ hc))
  obtain ⟨wss, -, -, hread⟩ := exists_clauseWords hrest
  have htag : ['?'] ∉ [w] := by
    rw [mem_singleton]
    rintro rfl
    exact absurd (hw.2 '?' mem_cons_self) (by decide)
  have hfirst := @UseScan.read_word_sign {} w ' ' rfl nofun hw.1 hw.2 (by decide)
  have hsplit : w ++ ' ' :: rest = w ++ [' '] ++ rest := by simp
  have hsign : ({ tokens := [] ++ [w] } : UseScan).sign ' ' = { tokens := [w] } := rfl
  rw [tokensOf, hsplit, UseScan.read_append, hfirst, hsign, hread _ rfl htag]
  rfl

theorem groupImport_eq_none (h : '\x7b' ∉ cs) : groupImport cs = none := by
  rw [groupImport]
  cases hrun : run isNameChar cs with
  | none => rfl
  | some read =>
    cases hbrace : literal "\x7b" read.2 with
    | none => simp [hbrace]
    | some rest =>
      rw [(run_eq_some hrun).1, literal_eq_some.mp hbrace] at h
      simp at h

theorem run_brace (hw : IsQualified w) (rest : List Char) :
    run isNameChar (w ++ '\x7b' :: rest) = some (w, '\x7b' :: rest) := by
  refine run_append hw.1 hw.2 ?_
  rintro c ⟨⟩
  decide

theorem groupImport_eq {members : List Char} (hw : IsQualified w) (hclose : '\x7d' ∉ members) :
    groupImport (w ++ '\x7b' :: (members ++ ['\x7d'])) =
      some (((dropLeadingBackslash w).reverse.dropWhile (· == '\\')).reverse, members) := by
  have hopen : literal "\x7b" ('\x7b' :: (members ++ ['\x7d'])) = some (members ++ ['\x7d']) :=
    literal_eq_some.mpr rfl
  simp only [groupImport, run_brace hw, hopen, Option.bind_eq_bind, Option.bind_some,
    upTo_append hclose, isEmpty_nil, if_true]

/-- A statement whose first word is no keyword of other imports. -/
theorem importsOf_eq {statement rest : List Char} (hbody : useBody statement = some cs)
    (hrun : run isNameChar cs = some (w, rest))
    (hother : w ∈ ["function".toList, "const".toList] → rest.head? ≠ some ' ') (line : Nat) :
    importsOf statement line =
      match groupImport cs with
      | some (start, members) => (clauses members).map fun c =>
        ⟨String.ofList (start ++ '\\' :: c.name), c.newName.map String.ofList, line⟩
      | none => (clauses cs).map fun c =>
        ⟨String.ofList c.name, c.newName.map String.ofList, line⟩ := by
  have hkeyword : ∀ {keyword : String} {v : List Char}, keyword.toList = v ++ [' '] → IsQualified v →
      (v = w → rest.head? ≠ some ' ') → startsWith keyword cs = false := by
    intro keyword v hkeyword hv hne
    refine Bool.eq_false_iff.mpr fun hstarts => ?_
    obtain ⟨more, rfl⟩ := isPrefixOf_iff_prefix.mp hstarts
    rw [hkeyword, append_assoc, run_append hv.1 hv.2 (by rintro c ⟨⟩; decide)] at hrun
    cases hrun
    exact hne rfl rfl
  have hfunction := @hkeyword "function " "function".toList rfl (by decide)
    fun heq => hother (by simp [← heq])
  have hconst := @hkeyword "const " "const".toList rfl (by decide)
    fun heq => hother (by simp [← heq])
  rw [importsOf, hbody]
  exact if_neg (by simp [hfunction, hconst])

/-- The classes of a statement without a group. -/
theorem PlainClauses.exists_import (h : PlainClauses cs) {statement : List Char}
    (hbody : useBody statement = some cs) (line : Nat)
    (hname : name ∈ usedClasses ("use".toList :: tokensOf cs)) :
    ∃ entry ∈ importsOf statement line, entry.name = name := by
  have hbrace : ∀ token ∈ tokensOf cs, (token != ['\x7b']) = true := by
    intro token hmem
    rw [bne_iff_ne]
    rintro rfl
    rcases h.of_mem_tokensOf hmem with heq | hqualified
    · exact absurd heq (by decide)
    · exact absurd (hqualified.2 '\x7b' mem_cons_self) (by decide)
  have hdrop : (tokensOf cs).dropWhile (· != ['\x7b']) = [] := by
    have happend := @List.dropWhile_append_of_pos _ (· != ['\x7b']) (tokensOf cs) [] hbrace
    rwa [append_nil] at happend
  have huse : isKeyword "use" "use".toList = true := by decide
  rw [usedClasses, hdrop, huse, Bool.not_true, Bool.false_or] at hname
  dsimp only at hname
  split at hname
  · cases hname
  · rename_i hother
    have hkeyword : ∀ {start : String} {w : List Char}, start.toList = w ++ [' '] → IsQualified w →
        (isKeyword "function" w || isKeyword "const" w) = true → startsWith start cs = false := by
      intro start w hstart hqualified hkeyword
      rw [Bool.eq_false_iff]
      intro hstarts
      obtain ⟨rest, hrest⟩ := isPrefixOf_iff_prefix.mp hstarts
      have hsplit : cs = w ++ ' ' :: rest := by
        rw [← hrest, hstart]
        simp
      rw [hsplit, head?_tokensOf hqualified (hsplit ▸ h.chars)] at hother
      exact hother hkeyword
    have hfunction := @hkeyword "function " "function".toList rfl (by decide) (by decide)
    have hconst := @hkeyword "const " "const".toList rfl (by decide) (by decide)
    have hgroup : groupImport cs = none := groupImport_eq_none (h.chars.not_mem (by decide))
    obtain ⟨clause, hclause, heq⟩ := h.exists_clause hname
    refine ⟨⟨String.ofList clause.name, clause.newName.map String.ofList, line⟩, ?_, heq⟩
    rw [importsOf, hbody]
    dsimp only
    rw [hfunction, hconst, Bool.or_false, if_neg Bool.false_ne_true, hgroup]
    exact mem_map_of_mem hclause

theorem Text.IsQualified.not_sign {c : Char} (hc : isNameChar c = false) : ¬ IsQualified [c] := by
  intro h
  have hname := h.2 c mem_cons_self
  rw [hc] at hname
  cases hname

/-- The words and signs of a group. -/
theorem PlainClauses.read_group {start members : List Char} (h : PlainClauses members)
    (hstart : IsQualified start) {scan : UseScan} (hword : scan.word = [])
    (htokens : scan.tokens = ["use".toList]) :
    (scan.read (start ++ '\x7b' :: (members ++ ['\x7d']))).endWord =
      { scan with tokens := "use".toList :: start :: ['\x7b'] :: (tokensOf members ++ [['\x7d']]) } := by
  have hopen : scan.read (start ++ ['\x7b']) = { scan with
      blocks := .group :: scan.blocks, tokens := ["use".toList, start, ['\x7b']] } := by
    rw [UseScan.read_word_sign hword (by simp [htokens]) hstart.1 hstart.2 (by decide), htokens]
    rfl
  have htag : ['?'] ∉ ["use".toList, start, ['\x7b']] := by
    have hne : ['?'] ≠ start := fun heq => IsQualified.not_sign (by decide) (heq ▸ hstart)
    simp [hne]
  have hinner := @PlainClauses.read members h
    { scan with blocks := .group :: scan.blocks, tokens := ["use".toList, start, ['\x7b']] } hword htag
  have hname : isNameChar '\x7d' = false := by decide
  have hclose : ∀ scan' : UseScan, scan'.read ['\x7d'] = scan'.endWord.sign '\x7d' := by
    intro scan'
    show scan'.step '\x7d' = _
    rw [UseScan.step, hname, if_neg Bool.false_ne_true]
  have hsplit : start ++ '\x7b' :: (members ++ ['\x7d']) =
      start ++ ['\x7b'] ++ (members ++ ['\x7d']) := by simp
  rw [hsplit, UseScan.read_append, hopen, UseScan.read_append, hclose, hinner]
  exact UseScan.endWord_of_nil hword

/-- The classes of a group. -/
theorem PlainClauses.exists_import_group {start members : List Char} (h : PlainClauses members)
    (hstart : IsQualified start) {statement : List Char}
    (hbody : useBody statement = some (start ++ '\x7b' :: (members ++ ['\x7d']))) (line : Nat)
    (hname : name ∈ usedClasses
      ("use".toList :: start :: ['\x7b'] :: (tokensOf members ++ [['\x7d']]))) :
    ∃ entry ∈ importsOf statement line, entry.name = name := by
  have hne : start ≠ ['\x7b'] := by
    rintro rfl
    exact IsQualified.not_sign (by decide) hstart
  have hdrop : (start :: ['\x7b'] :: (tokensOf members ++ [['\x7d']])).dropWhile (· != ['\x7b']) =
      ['\x7b'] :: (tokensOf members ++ [['\x7d']]) := by simp [hne]
  have htake : (start :: ['\x7b'] :: (tokensOf members ++ [['\x7d']])).takeWhile (· != ['\x7b']) =
      [start] := by simp [hne]
  have huse : isKeyword "use" "use".toList = true := by decide
  rw [usedClasses, hdrop, htake, huse, Bool.not_true, Bool.false_or] at hname
  dsimp only at hname
  split at hname
  · cases hname
  · rw [getLast?_concat, dropLast_concat, beq_self_eq_true, Bool.and_true,
      flatten_singleton] at hname
    split at hname
    · rename_i hpath
      obtain ⟨member, hmember, rfl⟩ := mem_map.mp hname
      obtain ⟨clause, hclause, rfl⟩ := h.exists_clause hmember
      rw [importsOf_eq hbody (run_brace hstart _) fun _ => by simp,
        groupImport_eq hstart (h.chars.not_mem (by decide)), dropLeadingBackslash_of_isClassPath hpath]
      refine ⟨_, mem_map_of_mem hclause, ?_⟩
      simp [← String.ofList_append]
    · cases hname

/-- **Found imports of a statement.** The classes that a plain statement imports are found in
it. -/
theorem PlainBody.read {cs : List Char} (h : PlainBody cs) :
    ∃ tokens, (∀ scan : UseScan, scan.word = [] → scan.tokens = ["use".toList] →
        (scan.read cs).endWord = { scan with tokens := "use".toList :: tokens }) ∧
      ∀ statement line, useBody statement = some cs →
        ∀ name ∈ usedClasses ("use".toList :: tokens),
          ∃ entry ∈ importsOf statement line, entry.name = name := by
  cases h with
  | @clauses cs h =>
    refine ⟨tokensOf cs, fun scan hword htokens => ?_, fun statement line hbody name hname =>
      h.exists_import hbody line hname⟩
    rw [h.read hword (by simp [htokens]), htokens]
    rfl
  | group hstart h =>
    exact ⟨_, fun scan hword htokens => h.read_group hstart hword htokens,
      fun statement line hbody name hname => h.exists_import_group hstart hbody line hname⟩

end ServiceInjection
