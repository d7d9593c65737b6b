import ServiceInjection.Proofs.Outline.Variables

/-!
# Outline.UsedClasses

The classes that the code of a file imports, read statement by statement and not line by
line. The code is a stream of words and signs: comments are blanks, and blanks only end
words, so the layout of a statement does not matter. A statement ends at a semicolon, or at
a brace that opens or closes a block. At the top level, where all open blocks are
namespaces, a statement that starts with `use` imports a class with each of its clauses.

The main statements are about a text that gets more statements, `usedIn_insert_lines` and
`usedIn_insert_lineEnd`: between two statements of the top level, each of them imports one
class more.
-/

namespace ServiceInjection

open Text List

variable {name : String} {names : List String} {front returns : List Char}

/-! ### One statement -/

/-- Whether a word is the given keyword, which may be written in any case. -/
def isKeyword (keyword : String) (word : List Char) : Bool :=
  word.map Char.toLower == keyword.toList

/-- Whether a word is the name of a class, with one backslash in front at most. -/
def isClassPath (word : List Char) : Bool :=
  word.all isNameChar && (skipChar '\\' word).head?.any isWord

/-- The class that a clause names: a name, or a name and a new one. -/
def clauseClass? : List (List Char) → Option String
  | [name] => if isClassPath name then some (String.ofList (skipChar '\\' name)) else none
  | [name, as, newName] =>
    if isKeyword "as" as && isClassPath name && newName.all isWord then
      some (String.ofList (skipChar '\\' name))
    else none
  | _ => none

/-- The classes that clauses name, which have commas between them. -/
def clauseClasses (tokens : List (List Char)) : List String :=
  (tokens.splitOn [',']).filterMap clauseClass?

/-- The classes that a statement imports, given its words and signs. -/
def usedClasses : List (List Char) → List String
  | [] => []
  | keyword :: body =>
    let other := body.head?.any fun word => isKeyword "function" word || isKeyword "const" word
    if !isKeyword "use" keyword || other then []
    else
      match body.dropWhile (· != ['{']) with
      | [] => clauseClasses body
      | _ :: members =>
        let start := (body.takeWhile (· != ['{'])).flatten
        if isClassPath start && members.getLast? == some ['}'] then
          let start := ((skipChar '\\' start).reverse.dropWhile (· == '\\')).reverse
          (clauseClasses members.dropLast).map (String.ofList (start ++ ['\\']) ++ ·)
        else []

/-! ### All statements -/

/-- What a pair of braces holds. -/
inductive Block where
  /-- A namespace. -/
  | scope
  /-- The members of a group import. -/
  | group
  | other
  deriving DecidableEq, Repr

/-- What is known behind a piece of code. -/
structure UseScan where
  /-- The open blocks, the innermost first. -/
  blocks : List Block := []
  /-- The words and signs of the statement that is being read. -/
  tokens : List (List Char) := []
  /-- The word that is being read. -/
  word : List Char := []
  /-- The classes that the statements so far import. -/
  classes : List String := []
  deriving DecidableEq, Repr

namespace UseScan

/-- The words and signs of an opening tag. -/
def openingTag : List (List Char) := [['<'], ['?'], "php".toList]

/-- Ends a word. An opening tag is no part of a statement. -/
def endWord (scan : UseScan) : UseScan :=
  if scan.word.isEmpty then scan
  else
    let tokens := scan.tokens ++ [scan.word]
    { scan with word := [], tokens := if openingTag.isSuffixOf tokens then [] else tokens }

/-- Whether the place is at the top level. -/
def isTop (scan : UseScan) : Bool := scan.blocks.all (· == .scope)

/-- Ends a statement. -/
def endStatement (scan : UseScan) : UseScan :=
  { scan with
    tokens := []
    classes := scan.classes ++ if scan.isTop then usedClasses scan.tokens else [] }

/-- Whether the statement starts with a keyword. -/
def startsWith (scan : UseScan) (keyword : String) : Bool :=
  scan.tokens.head?.any (isKeyword keyword)

/-- Opens a block. A group import goes on in its block. -/
def openBlock (scan : UseScan) : UseScan :=
  if scan.startsWith "use" then
    { scan with blocks := .group :: scan.blocks, tokens := scan.tokens ++ [['{']] }
  else
    { scan with
      blocks := (if scan.startsWith "namespace" then .scope else .other) :: scan.blocks
      tokens := [] }

/-- Closes a block. -/
def closeBlock (scan : UseScan) : UseScan :=
  match scan.blocks with
  | .group :: rest => { scan with blocks := rest, tokens := scan.tokens ++ [['}']] }
  | _ => { scan with blocks := scan.blocks.tail, tokens := [] }

/-- Reads a sign. -/
def sign (scan : UseScan) (c : Char) : UseScan :=
  if isBlank c then scan
  else if c == ';' then scan.endStatement
  else if c == '{' then scan.openBlock
  else if c == '}' then scan.closeBlock
  else { scan with tokens := scan.tokens ++ [[c]] }

/-- Reads a character of code. -/
def step (scan : UseScan) (c : Char) : UseScan :=
  if isNameChar c then { scan with word := scan.word ++ [c] } else scan.endWord.sign c

/-- Reads code. -/
def read (scan : UseScan) (code : List Char) : UseScan := code.foldl step scan

/-- Whether a place is between two statements of the top level. -/
structure Between (scan : UseScan) : Prop where
  tokens : scan.tokens = []
  word : scan.word = []
  isTop : scan.isTop = true

instance (scan : UseScan) : Decidable scan.Between :=
  decidable_of_iff _ ⟨fun h => ⟨h.1, h.2.1, h.2.2⟩,
    fun h => And.intro h.tokens (And.intro h.word h.isTop)⟩

end UseScan

/-- What is known behind a text. -/
def UseScan.ofText (text : List Char) : UseScan := UseScan.read {} (Line.ofCode text).code

/-- The classes that a text imports. -/
def usedIn (text : List Char) : List String := (UseScan.ofText text).classes

/-- Whether a text ends between two statements of the top level, at the end of a line or in
front of it: not in a literal, and not in a comment that goes on. -/
structure BetweenStatements (text : List Char) : Prop where
  lex : Lex.code.after text none = .code ∨ Lex.code.after text none = .lineComment
  scan : (UseScan.ofText text).endWord.Between

instance (text : List Char) : Decidable (BetweenStatements text) :=
  decidable_of_iff _ ⟨fun h => ⟨h.1, h.2⟩, fun h => And.intro h.lex h.scan⟩

namespace UseScan

variable {scan : UseScan}

@[simp] theorem read_nil (scan : UseScan) : scan.read [] = scan := rfl

theorem read_append (scan : UseScan) (front back : List Char) :
    scan.read (front ++ back) = (scan.read front).read back := foldl_append

/-- Name characters gather in the word. -/
theorem read_word {cs : List Char} (h : ∀ c ∈ cs, isNameChar c = true) :
    scan.read cs = { scan with word := scan.word ++ cs } := by
  induction cs generalizing scan with
  | nil => simp
  | cons c cs ih =>
    obtain ⟨hc, hcs⟩ := forall_mem_cons.mp h
    rw [← singleton_append, read_append, ih hcs]
    simp [read, step, hc]

/-! ### Classes gather -/

/-- Puts classes in front of those that have been read. -/
def behind (classes : List String) (scan : UseScan) : UseScan :=
  { scan with classes := classes ++ scan.classes }

theorem endWord_behind (classes : List String) (scan : UseScan) :
    (scan.behind classes).endWord = scan.endWord.behind classes := by
  by_cases hempty : scan.word.isEmpty = true <;> simp [endWord, behind, hempty]

theorem openBlock_behind (classes : List String) (scan : UseScan) :
    (scan.behind classes).openBlock = scan.openBlock.behind classes := by
  have hstarts : (scan.behind classes).startsWith "use" = scan.startsWith "use" := rfl
  rw [openBlock, openBlock, hstarts]
  split <;> rfl

theorem closeBlock_behind (classes : List String) (scan : UseScan) :
    (scan.behind classes).closeBlock = scan.closeBlock.behind classes := by
  obtain ⟨blocks, tokens, word, read⟩ := scan
  match blocks with
  | [] => rfl
  | .group :: rest => rfl
  | .scope :: rest => rfl
  | .other :: rest => rfl

theorem step_behind (classes : List String) (scan : UseScan) (c : Char) :
    (scan.behind classes).step c = (scan.step c).behind classes := by
  unfold step
  split
  · rfl
  · rw [endWord_behind]
    generalize scan.endWord = ended
    unfold sign
    split
    · rfl
    · split
      · simp [endStatement, behind, isTop]
      · split
        · exact openBlock_behind classes ended
        · split
          · exact closeBlock_behind classes ended
          · rfl

/-- The classes that are read do not depend on those read before. -/
theorem read_behind (classes : List String) (scan : UseScan) (code : List Char) :
    (scan.behind classes).read code = (scan.read code).behind classes := by
  induction code generalizing scan with
  | nil => rfl
  | cons c code ih =>
    show ((scan.behind classes).step c).read code = ((scan.step c).read code).behind classes
    rw [step_behind, ih]

/-! ### More statements -/

theorem endWord_of_nil (h : scan.word = []) : scan.endWord = scan := by simp [endWord, h]

/-- A word ends a statement only as the last word of an opening tag. -/
theorem endWord_of_ne_nil (hword : scan.word ≠ []) (htag : ['?'] ∉ scan.tokens) :
    scan.endWord = { scan with word := [], tokens := scan.tokens ++ [scan.word] } := by
  have hnot : ¬ openingTag <:+ scan.tokens ++ [scan.word] := by
    rintro ⟨front, hfront⟩
    have hsplit : front ++ [['<'], ['?']] ++ ["php".toList] = scan.tokens ++ [scan.word] := by
      rw [← hfront, openingTag]
      simp
    have htokens := (append_inj' hsplit rfl).1
    exact htag (htokens ▸ by simp)
  simp [endWord, hword, hnot]

theorem endStatement_of_isTop (h : scan.isTop = true) :
    scan.endStatement =
      { scan with tokens := [], classes := scan.classes ++ usedClasses scan.tokens } := by
  simp [endStatement, h]

/-- A word and a sign behind it. -/
theorem read_word_sign {cs : List Char} {c : Char} (hword : scan.word = [])
    (htag : ['?'] ∉ scan.tokens) (hne : cs ≠ []) (hcs : ∀ c ∈ cs, isNameChar c = true)
    (hc : isNameChar c = false) :
    scan.read (cs ++ [c]) = ({ scan with tokens := scan.tokens ++ [cs] } : UseScan).sign c := by
  rw [read_append, read_word hcs, hword, nil_append]
  have hend := @endWord_of_ne_nil { scan with word := cs } hne htag
  show ({ scan with word := cs } : UseScan).step c = _
  rw [step, hc, if_neg Bool.false_ne_true, hend]

/-- Blanks change nothing between words. -/
theorem read_blank {cs : List Char} (hword : scan.word = []) (h : Blank cs) : scan.read cs = scan := by
  induction cs with
  | nil => rfl
  | cons c cs ih =>
    obtain ⟨hc, hcs⟩ := forall_mem_cons.mp h
    have hname : isNameChar c = false := not_isNameChar_of_isBlank hc
    show (scan.step c).read cs = scan
    rw [step, hname, if_neg Bool.false_ne_true, endWord_of_nil hword, sign, if_pos hc, ih hcs]

end UseScan

/-- Whether a text is the name of a class, and none of the two keywords that may stand in
its place. -/
structure IsClassName (name : String) : Prop where
  path : isClassPath name.toList = true
  not_function : isKeyword "function" name.toList = false
  not_const : isKeyword "const" name.toList = false

instance (name : String) : Decidable (IsClassName name) :=
  decidable_of_iff _ ⟨fun h => ⟨h.1, h.2.1, h.2.2⟩,
    fun h => And.intro h.path (And.intro h.not_function h.not_const)⟩

/-- A class path is a qualified name that one backslash roots at most. -/
theorem isClassPath_spec {word : List Char} (h : isClassPath word = true) :
    IsQualified word ∧ dropRoot word = skipChar '\\' word ∧ skipChar '\\' word ≠ [] := by
  rw [isClassPath, Bool.and_eq_true, all_eq_true] at h
  obtain ⟨hchars, hhead⟩ := h
  cases word with
  | nil => cases hhead
  | cons c word =>
    refine ⟨⟨cons_ne_nil _ _, hchars⟩, ?_, ?_⟩
    · by_cases hc : '\\' = c
      · subst hc
        cases word with
        | nil => rfl
        | cons d word =>
          have hd : d ≠ '\\' := by
            rintro rfl
            exact absurd (show isWord '\\' = true by simpa [skipChar] using hhead) (by decide)
          simp [dropRoot, skipChar, hd]
      · simp [dropRoot, skipChar, hc, Ne.symm hc]
    · intro hnil
      rw [hnil] at hhead
      cases hhead

theorem IsClassName.qualified (h : IsClassName name) : IsQualified name.toList :=
  (isClassPath_spec h.path).1

/-- The statement that imports a class. -/
def useStatement (name : String) : List Char := "use ".toList ++ (name.toList ++ [';'])

theorem IsClassName.usedClasses (h : IsClassName name) :
    usedClasses ["use".toList, name.toList] = [unrooted name] := by
  have hbrace : name.toList ≠ ['\x7b'] := fun heq =>
    absurd (h.qualified.2 '\x7b' (by simp [heq])) (by decide)
  have hcomma : name.toList ≠ [','] := fun heq =>
    absurd (h.qualified.2 ',' (by simp [heq])) (by decide)
  have hroot := (isClassPath_spec h.path).2.1
  have huse : isKeyword "use" ['u', 's', 'e'] = true := by decide
  simp [ServiceInjection.usedClasses, huse, h.not_function, h.not_const, hbrace, clauseClasses,
    splitOn, splitOnP_cons_eq_if_modifyHead, hcomma, clauseClass?, h.path, unrooted,
    hroot]

namespace UseScan

/-- A class that is imported between two statements. -/
theorem Between.read_useStatement {scan : UseScan} (h : scan.Between) (hname : IsClassName name) :
    scan.read (useStatement name) =
      { scan with classes := scan.classes ++ [unrooted name] } := by
  have hkeyword : scan.read "use ".toList = { scan with tokens := ["use".toList] } := by
    have hread := @read_word_sign scan "use".toList ' ' h.word (by simp [h.tokens]) (by decide)
      (by decide) (by decide)
    rw [h.tokens] at hread
    exact hread
  have hread := @read_word_sign { scan with tokens := ["use".toList] } name.toList ';' h.word
    (by simp) hname.qualified.1 hname.qualified.2 (by decide)
  have hused := hname.usedClasses
  rw [useStatement, read_append, hkeyword, hread, sign, if_neg (by decide), if_pos (by decide)]
  refine (endStatement_of_isTop ?_).trans ?_
  · exact h.isTop
  · dsimp only [singleton_append]
    rw [hused, h.tokens]

/-- Statements between two others, each on a line of its own. -/
theorem Between.read_uses {scan : UseScan} (h : scan.Between)
    (hnames : ∀ name ∈ names, IsClassName name) : scan.read (joined (names.map useStatement)) =
      { scan with classes := scan.classes ++ names.map unrooted } := by
  induction names generalizing scan with
  | nil => simp [joined]
  | cons name names ih =>
    obtain ⟨hname, hrest⟩ := forall_mem_cons.mp hnames
    cases names with
    | nil => simpa using h.read_useStatement hname
    | cons next names =>
      have hbetween : Between { scan with classes := scan.classes ++ [unrooted name] } :=
        ⟨h.tokens, h.word, h.isTop⟩
      have hline := @read_blank { scan with classes := scan.classes ++ [unrooted name] } ['\n']
        h.word (by decide)
      rw [map_cons, joined_cons _ (by simp), read_append, h.read_useStatement hname]
      show read _ (['\n'] ++ joined _) = _
      rw [read_append, hline, ih hbetween hrest]
      simp

end UseScan

/-! ### Texts -/

theorem isPlain_of_isNameChar {c : Char} (h : isNameChar c = true) : IsPlain c := by
  refine ⟨?_, ?_, ?_⟩
  · rintro (rfl | rfl) <;> exact absurd h (by decide)
  · rintro rfl
    exact absurd h (by decide)
  · rintro rfl
    exact absurd h (by decide)

theorem IsClassName.isPlain (h : IsClassName name) : ∀ c ∈ useStatement name, IsPlain c := by
  intro c hc
  simp only [useStatement, mem_append, mem_singleton] at hc
  rcases hc with hc | hc | rfl
  · revert c
    decide
  · exact isPlain_of_isNameChar (h.qualified.2 c hc)
  · decide

theorem isPlain_of_mem_uses (h : ∀ name ∈ names, IsClassName name) :
    ∀ c ∈ joined (names.map useStatement), IsPlain c := by
  intro c hc
  rcases mem_joined hc with rfl | ⟨line, hline, hc⟩
  · decide
  · obtain ⟨name, hname, rfl⟩ := mem_map.mp hline
    exact (h name hname).isPlain c hc

/-- What follows a line end does not change how it is read. -/
theorem Lex.step_feed (state : Lex) (next : Option Char) :
    state.step '\n' next = state.step '\n' none := by
  cases state <;> simp [Lex.step]

theorem Text.WholeLines.cells {text : List Char} (h : WholeLines text) (state : Lex)
    (next : Option Char) :
    state.cells text next = state.cells text none ∧ state.after text next = state.after text none := by
  rcases h with rfl | ⟨front, rfl⟩
  · exact ⟨rfl, rfl⟩
  · rw [Lex.cells_append, Lex.cells_append, Lex.after_append, Lex.after_append]
    simp only [head?_cons, Option.some_or, Lex.cells, Lex.after, head?_nil, Option.none_or,
      Lex.step_feed _ next, and_self]

namespace UseScan

/-- Behind a blank there is no word. -/
theorem word_step_blank (scan : UseScan) {c : Char} (hc : isBlank c = true) :
    scan.step c = scan.endWord ∧ scan.endWord.word = [] := by
  constructor
  · rw [step, not_isNameChar_of_isBlank hc, if_neg Bool.false_ne_true, sign, if_pos hc]
  · unfold endWord
    split
    · rename_i hempty
      exact isEmpty_iff.mp hempty
    · rfl

/-- Blanks end a word. -/
theorem read_blanks (scan : UseScan) {cs : List Char} (hne : cs ≠ []) (h : Blank cs) :
    scan.read cs = scan.endWord := by
  obtain ⟨c, cs, rfl⟩ := exists_cons_of_ne_nil hne
  obtain ⟨hc, hcs⟩ := forall_mem_cons.mp h
  obtain ⟨hstep, hword⟩ := scan.word_step_blank hc
  show (scan.step c).read cs = scan.endWord
  rw [hstep, read_blank hword hcs]

/-- Classes that are added in the middle come in between. -/
theorem read_add (scan : UseScan) (new : List String) (code : List Char) :
    (({ scan with classes := scan.classes ++ new } : UseScan).read code).classes.Perm
      ((scan.read code).classes ++ new) := by
  have hscan : scan = behind scan.classes { scan with classes := [] } := by simp [behind]
  have hnew : ({ scan with classes := scan.classes ++ new } : UseScan) =
      behind (scan.classes ++ new) { scan with classes := [] } := by simp [behind]
  have hread := congrArg UseScan.classes (read_behind scan.classes { scan with classes := [] } code)
  rw [← hscan] at hread
  rw [hnew, read_behind, hread]
  simp only [behind, append_assoc]
  exact perm_append_comm.append_left _

theorem ofText_append (hlines : WholeLines front) (hcode : Lex.code.after front none = .code)
    (back : List Char) : ofText (front ++ back) = (ofText front).read (Line.ofCode back).code := by
  obtain ⟨hcells, hafter⟩ := hlines.cells .code (back.head?.or none)
  rw [ofText, Line.ofCode, Lex.cells_append, hcells, hafter, hcode, Line.code_append, read_append]
  rfl

/-- Behind whole lines there is no word. -/
theorem endWord_ofText {text : List Char} (h : WholeLines text) :
    (ofText text).endWord = ofText text := by
  rcases h with rfl | ⟨front, rfl⟩
  · rfl
  · obtain ⟨shown, hcells⟩ : ∃ shown, Line.ofCode (front ++ ['\n']) =
        Lex.code.cells front (some '\n') ++ [⟨'\n', shown⟩] :=
      ⟨((Lex.code.after front (some '\n')).step '\n' none).1, by
        rw [Line.ofCode, Lex.cells_append]
        rfl⟩
    have hblank : isBlank (Cell.code ⟨'\n', shown⟩) = true := by cases shown <;> decide
    rw [ofText, hcells, Line.code_append, read_append]
    obtain ⟨hstep, hword⟩ :=
      (read {} (Line.code (Lex.code.cells front (some '\n')))).word_step_blank hblank
    show (step _ _).endWord = step _ _
    rw [hstep, endWord_of_nil hword]

/-- Plain text is read as it is. -/
theorem read_plain (scan : UseScan) (h : ∀ c ∈ front, IsPlain c) (back : List Char) :
    scan.read (Line.ofCode (front ++ back)).code =
      (scan.read front).read (Line.ofCode back).code := by
  obtain ⟨hcells, hafter⟩ := Lex.cells_plain (back.head?.or none) h
  rw [Line.ofCode, Lex.cells_append, hcells, hafter, Line.code_append, code_map_show, read_append]
  rfl

end UseScan

/-- Carriage returns in code or in a comment up to the line end. -/
theorem Lex.cells_returns {state : Lex} (h : state = .code ∨ state = .lineComment)
    (hreturns : ∀ c ∈ returns, c = '\r') (next : Option Char) :
    Blank (Line.code (state.cells returns next)) ∧ state.after returns next = state := by
  induction returns with
  | nil => exact ⟨nofun, rfl⟩
  | cons c returns ih =>
    obtain ⟨rfl, hrest⟩ := forall_mem_cons.mp hreturns
    obtain ⟨hblank, hafter⟩ := ih hrest
    obtain ⟨shown, hstep⟩ : ∃ shown, ∀ next, state.step '\r' next = (shown, state) := by
      rcases h with rfl | rfl
      · exact ⟨true, fun _ => rfl⟩
      · exact ⟨false, fun _ => rfl⟩
    rw [Lex.cells, Lex.after, hstep]
    refine ⟨forall_mem_cons.mpr ⟨?_, hblank⟩, hafter⟩
    show isBlank (Cell.code ⟨'\r', shown⟩) = true
    cases shown <;> decide

/-- Reading on behind the end of a line. -/
theorem UseScan.ofText_lineEnd
    (h : Lex.code.after front none = .code ∨ Lex.code.after front none = .lineComment)
    (hreturns : ∀ c ∈ returns, c = '\r') (back : List Char) :
    ofText (front ++ (returns ++ '\n' :: back)) =
      (ofText front).endWord.read (Line.ofCode back).code := by
  have hinert : Lex.Inert ((returns ++ '\n' :: back).head?.or none) := by
    cases returns with
    | nil => exact ⟨nofun, nofun, nofun⟩
    | cons c returns =>
      rw [hreturns c mem_cons_self]
      exact ⟨nofun, nofun, nofun⟩
  have hnone : Lex.Inert none := ⟨nofun, nofun, nofun⟩
  obtain ⟨hcells, hafter⟩ := Lex.cells_inert hnone hinert h
  obtain ⟨hblank, hstate⟩ := Lex.cells_returns h hreturns (some '\n')
  have hfeed : (Lex.code.after front none).cells ('\n' :: back) none =
      .show '\n' :: Line.ofCode back := by
    rcases h with h | h <;> rw [h] <;> rfl
  rw [ofText, Line.ofCode, Lex.cells_append, hcells, hafter, Lex.cells_append, head?_cons,
    Option.some_or, hstate, hfeed, Line.code_append, Line.code_append, read_append, read_append]
  generalize Line.code (Lex.cells _ returns _) = gap at hblank
  show ((ofText front).read gap).read (['\n'] ++ (Line.ofCode back).code) = _
  rw [read_append, ← read_append _ gap,
    read_blanks _ (by simp) (hblank.append (by decide : Blank ['\n']))]

/-- **More imports.** Statements that are put between two lines import one class each. -/
theorem usedIn_insert_lines (h : BetweenStatements front) (hlines : WholeLines front)
    (hnames : ∀ name ∈ names, IsClassName name) (back : List Char) :
    (usedIn (front ++ (joined (names.map useStatement) ++ (['\n', '\n'] ++ back)))).Perm
      (usedIn (front ++ back) ++ names.map unrooted) := by
  have hcode : Lex.code.after front none = .code := by
    rcases hlines with rfl | ⟨lines, rfl⟩
    · rfl
    · rcases h.lex with hcode | hcomment
      · exact hcode
      · rw [Lex.after_append] at hcomment
        generalize Lex.code.after lines _ = state at hcomment
        cases state <;> simp [Lex.after, Lex.step] at hcomment
  have hbetween := h.scan
  rw [UseScan.endWord_ofText hlines] at hbetween
  have hblank := @UseScan.read_blank { UseScan.ofText front with
    classes := (UseScan.ofText front).classes ++ names.map unrooted } ['\n', '\n'] hbetween.word
    (by decide)
  rw [usedIn, UseScan.ofText_append hlines hcode, UseScan.read_plain _ (isPlain_of_mem_uses hnames),
    hbetween.read_uses hnames, UseScan.read_plain _ (by decide), hblank, usedIn,
    UseScan.ofText_append hlines hcode]
  exact UseScan.read_add _ _ _

/-- Statements that are put at the end of a line, on lines of their own, import one class
each. -/
theorem usedIn_insert_lineEnd (h : BetweenStatements front)
    (hnames : ∀ name ∈ names, IsClassName name) {gap : List Char} (hgap : Blank gap)
    (hreturns : ∀ c ∈ returns, c = '\r') (back : List Char) :
    (usedIn (front ++ ('\n' :: gap ++ joined (names.map useStatement) ++
        (returns ++ '\n' :: back)))).Perm
      (usedIn (front ++ (returns ++ '\n' :: back)) ++ names.map unrooted) := by
  have htext : front ++ ('\n' :: gap ++ joined (names.map useStatement) ++
      (returns ++ '\n' :: back)) = front ++ ([] ++ '\n' :: (gap ++
        (joined (names.map useStatement) ++ (returns ++ ['\n'] ++ back)))) := by simp
  have hend : Blank (returns ++ ['\n']) := by
    refine Blank.append (fun c hc => ?_) (by decide)
    rw [hreturns c hc]
    decide
  have hblank := @UseScan.read_blank { (UseScan.ofText front).endWord with
    classes := (UseScan.ofText front).endWord.classes ++ names.map unrooted } (returns ++ ['\n'])
    h.scan.word hend
  rw [usedIn, htext, UseScan.ofText_lineEnd h.lex (by simp), UseScan.read_plain _ hgap.isPlain,
    UseScan.read_blank h.scan.word hgap, UseScan.read_plain _ (isPlain_of_mem_uses hnames),
    h.scan.read_uses hnames, UseScan.read_plain _ hend.isPlain, hblank, usedIn,
    UseScan.ofText_lineEnd h.lex hreturns]
  exact UseScan.read_add _ _ _

end ServiceInjection
