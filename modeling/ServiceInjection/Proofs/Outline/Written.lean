import ServiceInjection.Proofs.Outline.Parts

/-!
# Outline.Written

Methods as they are written, character by character: the head in front of the parameters,
the parameters, the signature, the body and what follows it on the last line. Main
statement: lines that spell out a method add that method to a class, and the brackets
found in them are the ones they were written with.
-/

namespace ServiceInjection

open Text List

/-! ### Code with nested braces -/

/-- Whether a text is read from code to code, with nested braces in between. -/
structure CodeBlock (cs : List Char) (next : Option Char) : Prop where
  ends : Lex.code.after cs next = .code
  nested : NestedIn '{' '}' 0 (Lex.code.cells cs next).code = true

namespace CodeBlock

variable {cs cs' : List Char} {next : Option Char}

theorem append (h : CodeBlock cs (cs'.head?.or next)) (h' : CodeBlock cs' next) :
    CodeBlock (cs ++ cs') next := by
  refine ⟨by rw [Lex.after_append, h.ends, h'.ends], ?_⟩
  rw [Lex.cells_append, h.ends, Line.code_append]
  exact nestedIn_append h.nested h'.nested

theorem of_passes (h : Lex.code.Passes cs next .code) : CodeBlock cs next :=
  ⟨h.after, h.braceless.nestedIn⟩

theorem nil (next : Option Char) : CodeBlock [] next := of_passes (.nil ..)

theorem of_blank (h : Blank cs) : CodeBlock cs next := of_passes (.blank h)

theorem unlines_next {ls : List (List Char)} (h : CodeBlock (unlines ls) none) (next : Option Char) :
    CodeBlock (unlines ls) next := by
  obtain ⟨hcells, hafter⟩ := Lex.cells_unlines .code ls next
  exact ⟨by rw [hafter, h.ends], by rw [hcells]; exact h.nested⟩

theorem cons {c : Char} (hc : IsPlain c) (hopen : c ≠ '{') (hclose : c ≠ '}')
    (h : CodeBlock cs next) : CodeBlock (c :: cs) next :=
  @append [c] cs next (of_passes (.plain (by simp [hc, hopen, hclose]))) h

/-- Code in braces is a block again. -/
theorem braces (h : CodeBlock cs (some '}')) : CodeBlock ('{' :: (cs ++ ['}'])) next := by
  have hcells : Lex.code.cells ('{' :: (cs ++ ['}'])) next =
      .show '{' :: (Lex.code.cells cs (some '}') ++ [.show '}']) := by
    show .show '{' :: Lex.code.cells (cs ++ ['}']) next = _
    rw [Lex.cells_append, show ['}'].head?.or next = some '}' from rfl, h.ends]
    rfl
  refine ⟨?_, ?_⟩
  · show Lex.code.after (cs ++ ['}']) next = _
    rw [Lex.after_append, show ['}'].head?.or next = some '}' from rfl, h.ends]
    rfl
  · rw [hcells]
    have hinner : NestedIn '{' '}' 1
        ((Lex.code.cells cs (some '}')).code ++ ['}']) = true := by
      have hclose := nestedIn_append_eq h.nested 1 ['}']
      rw [Nat.zero_add] at hclose
      rw [hclose]
      rfl
    simpa [NestedIn, Line.code, Cell.code, Cell.show] using hinner

end CodeBlock

/-! ### The head of a method has no braces -/

/-- Whether a reader that leaves `rest` has read no brace. -/
def ReadsBraceless (cs rest : List Char) : Prop :=
  ∃ front, cs = front ++ rest ∧ ∀ c ∈ front, c ≠ '{' ∧ c ≠ '}'

namespace ReadsBraceless

variable {cs rest rest' : List Char}

theorem trans (h : ReadsBraceless cs rest) (h' : ReadsBraceless rest rest') :
    ReadsBraceless cs rest' := by
  obtain ⟨front, rfl, hfront⟩ := h
  obtain ⟨front', rfl, hfront'⟩ := h'
  exact ⟨front ++ front', (append_assoc ..).symm,
    fun c hc => (mem_append.mp hc).elim (hfront c) (hfront' c)⟩

theorem of_blank {gap : List Char} (h : ∀ c ∈ gap, isBlank c = true) (rest : List Char) :
    ReadsBraceless (gap ++ rest) rest :=
  ⟨gap, rfl, fun c hc => ⟨fun heq => absurd (h c hc) (by rw [heq]; decide),
    fun heq => absurd (h c hc) (by rw [heq]; decide)⟩⟩

theorem blanks (cs : List Char) : ReadsBraceless cs (blanks cs) := by
  obtain ⟨gap, hgap, heq⟩ := exists_blanks cs
  rw [heq]
  exact (of_blank hgap _).trans ⟨[], by rw [← heq, nil_append], by simp⟩

theorem someBlanks (h : someBlanks cs = some rest) : ReadsBraceless cs rest := by
  cases cs with
  | nil => cases h
  | cons c cs =>
    simp only [someBlanks] at h
    split at h
    · next hc =>
        cases h
        exact (@of_blank [c] (by simpa using hc) cs).trans (blanks cs)
    · cases h

theorem literal {expected : String} (hexpected : ∀ c ∈ expected.toList, c ≠ '{' ∧ c ≠ '}')
    (h : literal expected cs = some rest) : ReadsBraceless cs rest :=
  ⟨_, literal_eq_some.mp h, hexpected⟩

theorem word {name : List Char} (h : word cs = some (name, rest)) : ReadsBraceless cs rest := by
  obtain ⟨heq, -, hname⟩ := word_eq_some h
  exact ⟨name, heq, fun c hc => ⟨fun h => absurd (hname c hc) (by rw [h]; decide),
    fun h => absurd (hname c hc) (by rw [h]; decide)⟩⟩

theorem skipChar {c : Char} (hc : c ≠ '{' ∧ c ≠ '}') (cs : List Char) :
    ReadsBraceless cs (skipChar c cs) := by
  obtain ⟨skipped, hskipped, heq⟩ := exists_skipChar c cs
  refine ⟨skipped, heq, fun d hd => ?_⟩
  obtain rfl | rfl := hskipped
  · cases hd
  · rwa [mem_singleton.mp hd]

theorem skipModifiers {words : List String} (hwords : ∀ w ∈ words, ∀ c ∈ w.toList, c ≠ '{' ∧ c ≠ '}')
    (cs : List Char) : ReadsBraceless cs (ServiceInjection.skipModifiers words cs) := by
  fun_induction ServiceInjection.skipModifiers words cs with
  | case1 cs h => exact ⟨[], rfl, by simp⟩
  | case2 cs rest h hlt ih =>
    obtain ⟨hit, hhit, hrest⟩ := Option.bind_eq_some_iff.mp h
    obtain ⟨w, hw, hmap⟩ := exists_of_findSome?_eq_some hhit
    obtain ⟨behind, hbehind, rfl⟩ := Option.map_eq_some_iff.mp hmap
    exact ((literal (hwords w hw) hbehind).trans (someBlanks hrest)).trans ih
  | case3 cs rest h hlt => exact ⟨[], rfl, by simp⟩

end ReadsBraceless

theorem skipAttributes_of_not_startsWith {cs : List Char} (h : startsWith "#[" cs = false) :
    skipAttributes cs = cs := by
  have hnone : literal "#[" cs = none := by
    rw [Option.eq_none_iff_forall_ne_some]
    intro rest hrest
    rw [literal_eq_some.mp hrest] at h
    simp [startsWith] at h
  rw [skipAttributes, hnone]
  rfl

theorem MethodHead.readsBraceless {code : List Char} {head : MethodHead}
    (h : MethodHead.of? code = some head)
    (hattribute : skipAttributes (blanks code) = blanks code) :
    ∃ behind, ReadsBraceless code ('(' :: behind) ∧
      head.paren = code.length - behind.length - 1 := by
  simp only [MethodHead.of?, Option.bind_eq_bind, Option.bind_eq_some_iff, hattribute] at h
  obtain ⟨cs, hfunction, cs', hblanks, hit, hword, behind, hparen, h⟩ := h
  cases h
  refine ⟨behind, ?_, rfl⟩
  have hmodifiers : ReadsBraceless code (skipModifiers ["public", "protected", "private", "static",
      "abstract", "final"] (blanks code)) :=
    (ReadsBraceless.blanks code).trans (.skipModifiers (by simp) _)
  have hkeyword : ReadsBraceless code cs' :=
    (hmodifiers.trans (.literal (by simp) hfunction)).trans (.someBlanks hblanks)
  have hname : ReadsBraceless cs' hit.2 :=
    ((ReadsBraceless.skipChar (by decide) cs').trans (.blanks _)).trans (.word hword)
  have hopen : blanks hit.2 = '(' :: behind := literal_eq_some.mp hparen
  rw [← hopen]
  exact (hkeyword.trans hname).trans (.blanks _)

/-- What stands in front of the parameters of a method has no braces. -/
theorem StartsMethod.braceless {front : List Char} {head : MethodHead} (h : StartsMethod front head) :
    Line.Braceless (Lex.code.cells front (some '(')) := by
  have hreads := h.reads []
  have hlength : (Lex.code.cells front (some '(')).code.length = front.length := by
    rw [Line.code, length_map, Lex.length_cells]
  have hattribute : startsWith "#[" (blanks ((Lex.code.cells front (some '(')).code ++ ['(']))
      = false := by
    have hno := h.not_attribute
    rwa [← @startsWith_paren "#[" (by simp) _ [], ← trimStart_paren] at hno
  obtain ⟨behind, ⟨read, heq, hread⟩, hparen⟩ :=
    MethodHead.readsBraceless hreads (skipAttributes_of_not_startsWith hattribute)
  -- The parenthesis is the one behind the front, so the front is what was read.
  have hsame : read = (Lex.code.cells front (some '(')).code := by
    have hcount := congrArg length heq
    simp only [length_append, length_cons, length_nil, hlength] at hcount hparen
    rw [h.paren] at hparen
    exact ((append_inj heq (by omega)).1).symm
  intro c hc
  exact hread c (hsame ▸ hc)

/-! ### Methods -/

/-- The cells up to and with the one at a place. -/
theorem Source.slice_next {source : Source} {spot : Spot} (h : source.Valid spot)
    {front inner back : Line} {cell : Cell}
    (hrest : source.rest spot = front ++ (inner ++ cell :: back)) (hcell : cell.char ≠ '\n') :
    source.slice (source.advance spot front.length)
        (source.advance spot (front.length + inner.length)).next = inner ++ [cell] := by
  obtain ⟨hvalid, hbehind, hadd⟩ := rest_advance h hrest rfl
  have hget : (source.rest spot)[front.length + inner.length]? = some cell := by
    rw [hrest, ← append_assoc, ← length_append, getElem?_append_right (Nat.le_refl _),
      Nat.sub_self]
    rfl
  rw [advance_next hget hcell, Nat.add_assoc, ← hadd,
    slice_advance hvalid (by rw [hbehind]; simp), hbehind,
    take_length_add_append]
  rfl

/-- The entries between a bracket and a place behind it. -/
theorem Source.entriesBetween_advance {source : Source} {spot : Spot} (h : source.Valid spot) {c : Char}
    {inner back : Line} (hrest : source.rest spot = .show c :: (inner ++ back)) (hc : c ≠ '\n') :
    source.entriesBetween spot (source.advance spot (inner.length + 1)) = .ofCells inner := by
  have hbetween := @between_advance source spot h 0 [] inner back _ hrest rfl hc
  rw [advance_zero h, Nat.zero_add, Nat.add_comm 1] at hbetween
  rw [Source.entriesBetween, hbetween]

/-- A method as it is written: what stands in front of its parameters, the parameters, what
stands between them and the body, the body, and what follows it. -/
structure WrittenMethod where
  front : List Char
  params : List Char
  signature : List Char
  body : List Char
  back : List Char

namespace WrittenMethod

/-- The text of a method. -/
def text (method : WrittenMethod) : List Char :=
  method.front ++ '(' :: (method.params ++ ')' :: (method.signature ++ '{' ::
    (method.body ++ '}' :: method.back)))

/-- The lines of a method. -/
def lines (method : WrittenMethod) : List (List Char) := pieces method.text

/-- Whether the parts of a method are what they are taken for. -/
structure Sound (method : WrittenMethod) (head : MethodHead) : Prop where
  starts : StartsMethod method.front head
  params : CodeBlock method.params (some ')')
  params_nested : NestedIn '(' ')' 0 (Lex.code.cells method.params (some ')')).code = true
  signature : Lex.code.Passes method.signature (some '{') .code
  signature_plain : ';' ∉ (Lex.code.cells method.signature (some '{')).code
  body : CodeBlock method.body (some '}')
  back : CodeBlock (method.back ++ ['\n']) none
  back_line : '\n' ∉ method.back

namespace Sound

variable {method : WrittenMethod} {head : MethodHead}

/-- The cells of a method from its parameters on. -/
def methodText (h : method.Sound head) : MethodText where
  params := Lex.code.cells method.params (some ')')
  signature := Lex.code.cells method.signature (some '{')
  body := Lex.code.cells method.body (some '}')
  back := Lex.code.cells method.back none
  params_nested := h.params_nested
  signature_plain c hc :=
    ⟨(h.signature.braceless c hc).1, fun heq => h.signature_plain (heq ▸ hc)⟩
  body_nested := h.body.nested

theorem cells_text (h : method.Sound head) (next : Option Char) :
    Lex.code.cells method.text next =
      Lex.code.cells method.front (some '(') ++ .show '(' :: (Lex.code.cells method.params (some ')') ++
        .show ')' :: (Lex.code.cells method.signature (some '{') ++
          .show '{' :: (Lex.code.cells method.body (some '}') ++
            .show '}' :: Lex.code.cells method.back next))) := by
  have hcut : ∀ (c : Char) (cs rest : List Char), Lex.code.after cs (some c) = .code →
      Lex.code.step c (rest.head?.or next) = (true, .code) →
      Lex.code.cells (cs ++ c :: rest) next =
        Lex.code.cells cs (some c) ++ .show c :: Lex.code.cells rest next := by
    intro c cs rest hafter hstep
    rw [Lex.cells_append, show (c :: rest).head?.or next = some c from rfl, hafter, Lex.cells, hstep]
    rfl
  rw [WrittenMethod.text, hcut '(' _ _ h.starts.ends rfl, hcut ')' _ _ h.params.ends rfl,
    hcut '{' _ _ h.signature.after rfl, hcut '}' _ _ h.body.ends rfl]

theorem codeBlock (h : method.Sound head) : CodeBlock (method.text ++ ['\n']) none := by
  have hbody : CodeBlock ('{' :: (method.body ++ ['}']) ++ (method.back ++ ['\n'])) none :=
    .append h.body.braces h.back
  have hsignature : CodeBlock (method.signature ++
      ('{' :: (method.body ++ ['}']) ++ (method.back ++ ['\n']))) none :=
    .append (.of_passes h.signature) hbody
  have hparams : CodeBlock (method.params ++ ')' :: (method.signature ++
      ('{' :: (method.body ++ ['}']) ++ (method.back ++ ['\n'])))) none :=
    .append h.params (.cons (by decide) (by decide) (by decide) hsignature)
  have hfront : CodeBlock method.front (some '(') :=
    .of_passes ⟨h.starts.ends, h.starts.braceless⟩
  have hall : CodeBlock (method.front ++ '(' :: (method.params ++ ')' :: (method.signature ++
      ('{' :: (method.body ++ ['}']) ++ (method.back ++ ['\n']))))) none :=
    hfront.append (.cons (by decide) (by decide) (by decide) hparams)
  simpa [WrittenMethod.text] using hall

theorem unlines_lines (method : WrittenMethod) : unlines method.lines = method.text ++ ['\n'] := by
  obtain ⟨hjoined, hne, -⟩ := pieces_spec method.text
  rw [WrittenMethod.lines, unlines_eq_joined hne, hjoined]

/-- The places of the brackets of a method that stands alone. -/
def layout (h : method.Sound head) : MethodLayout :=
  h.methodText.layout (.written method.lines) ⟨0, method.front.length⟩

/-- What a method that stands alone adds to its class. -/
def added (h : method.Sound head) : Members :=
  MemberScan.addMethod (.written method.lines) {} head h.layout none

/-- **Written methods are read.** Lines that spell out a method add it wherever they stand. -/
theorem declares (h : method.Sound head)
    (hclosed : (!head.isFactory || h.layout.returnsClosed (.written method.lines)) = true) :
    Declares method.lines h.added := by
  obtain ⟨hjoined, -, hlines⟩ := pieces_spec method.text
  have hblock : CodeBlock (unlines method.lines) none := by
    rw [unlines_lines]
    exact h.codeBlock
  refine .of_block hlines hblock.ends hblock.nested ?_
  have hcells : Lex.code.cells (joined method.lines) none =
      Lex.code.cells method.front (some '(') ++ h.methodText.cells := by
    rw [WrittenMethod.lines, hjoined, h.cells_text]
    rfl
  have hback : '\n' ∉ Line.raw h.methodText.back := by
    show '\n' ∉ (Lex.code.cells method.back none).raw
    rw [Lex.raw_cells]
    exact h.back_line
  exact Source.blockAt?_method h.starts hlines hcells hback hclosed

/-! ### The parts of a written method -/

theorem rest (h : method.Sound head) :
    (Source.written method.lines).Valid ⟨0, method.front.length⟩ ∧
      (Source.written method.lines).rest ⟨0, method.front.length⟩ = h.methodText.cells := by
  obtain ⟨hjoined, -, hlines⟩ := pieces_spec method.text
  obtain ⟨hvalid, hrest⟩ := Source.rest_written hlines h.starts.line (by decide) hjoined
  refine ⟨hvalid, ?_⟩
  rw [WrittenMethod.lines, hrest, hjoined, h.cells_text,
    drop_left' (Lex.length_cells .code method.front (some '('))]
  rfl

/-- The list of parameters is read from the parameters as they are written. -/
theorem entriesBetween_params (h : method.Sound head) :
    (Source.written method.lines).entriesBetween h.layout.paramsOpen h.layout.paramsClose =
      .ofCells (Lex.code.cells method.params (some ')')) := by
  obtain ⟨hvalid, hrest⟩ := h.rest
  exact Source.entriesBetween_advance hvalid hrest (by decide)

theorem params_ofLayout (h : method.Sound head) (doc : Option LineSpan) :
    (Constructor.ofLayout (.written method.lines) h.layout doc).params =
      (EntryList.ofCells (Lex.code.cells method.params (some ')'))).entries.filterMap
        fun entry => Param.of? entry.text entry.masked := by
  rw [Constructor.ofLayout, h.entriesBetween_params]

theorem endLine_ofLayout (h : method.Sound head) :
    h.layout.bodyClose.line + 1 = method.lines.length := by
  obtain ⟨hvalid, hrest⟩ := h.rest
  obtain ⟨hjoined, -, hlines⟩ := pieces_spec method.text
  have htext : joined method.lines = method.front ++ h.methodText.cells.raw := by
    have hcells := congrArg Line.raw (h.cells_text none)
    rw [Lex.raw_cells, Line.raw_append, Lex.raw_cells] at hcells
    rw [WrittenMethod.lines, hjoined, hcells]
    rfl
  have hback : '\n' ∉ Line.raw h.methodText.back := by
    show '\n' ∉ (Lex.code.cells method.back none).raw
    rw [Lex.raw_cells]
    exact h.back_line
  exact MethodText.bodyClose_line hlines h.starts.line htext hvalid hrest hback

end Sound

end WrittenMethod

end ServiceInjection
