import ServiceInjection.Proofs.Source.Stream
import ServiceInjection.Proofs.Text.Recognize

/-!
# Source.Lex

Masking as one automaton over the characters of a text, line ends included. A step
looks at one character and at the one behind it, so a text can be cut anywhere: what
is masked behind the cut depends on the state reached there, and what is masked in
front of it on the next character at most (`Lex.cells_append`). `Lex.maskLine_eq` and
`Lex.streamOf_maskLines` connect the automaton with the masking of lines.
-/

namespace ServiceInjection

open Text List

/-- Whether the mode is one that masking can be in: a literal ends with a quote. -/
def Mode.Valid : Mode → Prop
  | .literal quote => IsQuote quote
  | _ => True

@[simp] theorem prependCells_fst (cells : List Cell) (rest : Line × Mode) :
    (prependCells cells rest).1 = cells ++ rest.1 := rfl

@[simp] theorem prependCells_snd (cells : List Cell) (rest : Line × Mode) :
    (prependCells cells rest).2 = rest.2 := rfl

/-- Masking leaves the characters of a line as they are. -/
@[simp] theorem maskLine_raw (mode : Mode) (cs : List Char) : (maskLine mode cs).1.raw = cs := by
  fun_induction maskLine mode cs <;>
    simp_all [Line.raw, Cell.hide, Cell.show, Function.comp_def]

theorem length_maskLine (mode : Mode) (cs : List Char) :
    (maskLine mode cs).1.length = cs.length := by
  have h := congrArg length (maskLine_raw mode cs)
  rwa [Line.raw, length_map] at h

/-- Masking stays in modes that it can be in. -/
theorem maskLine_valid {mode : Mode} (cs : List Char) (h : mode.Valid) :
    (maskLine mode cs).2.Valid := by
  induction mode, cs using maskLine.induct with
  | case1 mode => simpa [maskLine] using h
  | case2 cs ih => simpa [maskLine] using ih trivial
  | case3 c cs hend ih => simpa [maskLine, hend] using ih trivial
  | case4 quote c cs ih => simpa [maskLine] using ih h
  | case5 quote c cs hescape hquote ih => simpa [maskLine, hescape, hquote] using ih trivial
  | case6 quote c cs hescape hquote ih => simpa [maskLine, hescape, hquote] using ih h
  | case7 cs => simp [maskLine, Mode.Valid]
  | case8 cs ih => simpa [maskLine] using ih trivial
  | case9 cs ih => simpa [maskLine] using ih trivial
  | case10 cs hattribute => simp [maskLine, Mode.Valid]
  | case11 c cs hline hblock hattribute hhash hquote ih =>
    have hc : IsQuote c := by simpa [IsQuote] using hquote
    simpa [maskLine, hline, hblock, hattribute, hhash, hquote] using ih hc
  | case12 c cs hline hblock hattribute hhash hquote ih =>
    simpa [maskLine, hline, hblock, hattribute, hhash, hquote] using ih trivial

/-- A character that masking in code mode passes without leaving that mode, whatever
follows it. -/
def IsPlain (c : Char) : Prop := ¬ IsQuote c ∧ c ≠ '/' ∧ c ≠ '#'

instance (c : Char) : Decidable (IsPlain c) :=
  inferInstanceAs (Decidable (¬ (c = '\'' ∨ c = '"') ∧ c ≠ '/' ∧ c ≠ '#'))

/-! ### Lines of a source -/

theorem length_maskLines (mode : Mode) (lines : List (List Char)) :
    (maskLines mode lines).length = lines.length := by
  induction lines generalizing mode with
  | nil => rfl
  | cons line lines ih => simp [maskLines, ih]

theorem raw_maskLines (mode : Mode) (lines : List (List Char)) :
    (maskLines mode lines).map Line.raw = lines := by
  induction lines generalizing mode with
  | nil => rfl
  | cons line lines ih => simp [maskLines, ih]

/-- What the next character belongs to. A sign of two characters has a state of its
own between them. -/
inductive Lex where
  | code
  /-- A comment that ends with the line. -/
  | lineComment
  /-- A comment that ends with a star and a slash. -/
  | comment
  /-- Behind the slash that opens a comment. -/
  | opening
  /-- Behind the star that closes a comment. -/
  | closing
  | literal (quote : Char)
  /-- Behind a backslash in a literal. -/
  | escaped (quote : Char)
  deriving DecidableEq, Repr

namespace Lex

variable {state : Lex} {c : Char} {next : Option Char} {cs : List Char}

/-- Reads the character `c` with `next` behind it, and tells whether it is shown and
what follows. -/
def step (state : Lex) (c : Char) (next : Option Char) : Bool × Lex :=
  match state with
  | .code =>
    if c = '/' then
      if next = some '/' then (false, .lineComment)
      else if next = some '*' then (false, .opening)
      else (true, .code)
    else if c = '#' then
      if next = some '[' then (true, .code) else (false, .lineComment)
    else if c = '\'' ∨ c = '"' then (true, .literal c)
    else (true, .code)
  | .lineComment => if c = '\n' then (true, .code) else (false, .lineComment)
  | .comment =>
    if c = '\n' then (true, .comment)
    else if c = '*' ∧ next = some '/' then (false, .closing)
    else (false, .comment)
  | .opening => (false, .comment)
  | .closing => (false, .code)
  | .literal quote =>
    if c = '\n' then (true, .literal quote)
    else if c = '\\' then
      if next = none ∨ next = some '\n' then (false, .literal quote) else (false, .escaped quote)
    else if c = quote then (true, .code)
    else (false, .literal quote)
  | .escaped quote => (false, .literal quote)

/-- The cells of a text that `next` follows. -/
def cells : Lex → List Char → Option Char → Line
  | _, [], _ => []
  | state, c :: cs, next =>
    ⟨c, (state.step c (cs.head?.or next)).1⟩ :: cells (state.step c (cs.head?.or next)).2 cs next

/-- The state behind a text that `next` follows. -/
def after : Lex → List Char → Option Char → Lex
  | state, [], _ => state
  | state, c :: cs, next => after (state.step c (cs.head?.or next)).2 cs next

/-- The state at the start of a line. -/
def ofMode : Mode → Lex
  | .code => .code
  | .comment => .comment
  | .literal quote => .literal quote

/-- The mode that a line leaves behind. -/
def mode : Lex → Mode
  | .code | .lineComment | .closing => .code
  | .comment | .opening => .comment
  | .literal quote | .escaped quote => .literal quote

/-! ### Cutting a text -/

@[simp] theorem raw_cells (state : Lex) (cs : List Char) (next : Option Char) :
    (state.cells cs next).raw = cs := by
  induction cs generalizing state with
  | nil => rfl
  | cons c cs ih =>
    have := ih (state.step c (cs.head?.or next)).2
    simpa [cells, Line.raw] using this

@[simp] theorem length_cells (state : Lex) (cs : List Char) (next : Option Char) :
    (state.cells cs next).length = cs.length := by
  have := congrArg length (raw_cells state cs next)
  simpa [Line.raw] using this

theorem cells_append (state : Lex) (a b : List Char) (next : Option Char) :
    state.cells (a ++ b) next =
      state.cells a (b.head?.or next) ++ (state.after a (b.head?.or next)).cells b next := by
  induction a generalizing state with
  | nil => rfl
  | cons c a ih =>
    have hhead : (a ++ b).head?.or next = a.head?.or (b.head?.or next) := by
      cases a <;> simp
    simp only [cons_append, cells, after, hhead, ih]

theorem after_append (state : Lex) (a b : List Char) (next : Option Char) :
    state.after (a ++ b) next = (state.after a (b.head?.or next)).after b next := by
  induction a generalizing state with
  | nil => rfl
  | cons c a ih =>
    have hhead : (a ++ b).head?.or next = a.head?.or (b.head?.or next) := by
      cases a <;> simp
    simp only [cons_append, after, hhead, ih]

/-! ### One step -/

/-- What a shown character tells: it is a line end, it is code, or it closes a
literal. -/
theorem of_shown (h : (state.step c next).1 = true) :
    c = '\n' ∨ state = .code ∨ state = .literal c := by
  cases state with
  | code => exact .inr (.inl rfl)
  | lineComment =>
    simp only [step] at h
    split at h
    · exact .inl ‹_›
    · cases h
  | comment =>
    simp only [step] at h
    split at h
    · exact .inl ‹_›
    · split at h <;> cases h
  | opening => cases h
  | closing => cases h
  | literal quote =>
    simp only [step] at h
    split at h
    · exact .inl ‹_›
    · split at h
      · split at h <;> cases h
      · split at h
        · exact .inr (.inr (by subst_vars; rfl))
        · cases h
  | escaped quote => cases h

/-- The state behind a shown character that is neither a line end nor a quote. -/
theorem step_of_shown (h : (state.step c next).1 = true) (hline : c ≠ '\n') (hquote : ¬ IsQuote c) :
    (state.step c next).2 = .code := by
  rcases of_shown h with hc | rfl | rfl
  · exact absurd hc hline
  · simp only [step] at h ⊢
    split at h
    · split at h
      · cases h
      · split at h
        · cases h
        · simp_all
    · split at h
      · split at h
        · simp_all
        · cases h
      · simp_all [IsQuote]
  · by_cases hslash : c = '\\'
    · subst hslash
      simp only [step] at h
      split at h
      · rename_i hc
        exact absurd hc (by decide)
      · rw [if_pos trivial] at h
        split at h <;> cases h
    · simp [step, hline, hslash]

/-- Whether a character cannot be the second one of a sign. -/
def Inert (next : Option Char) : Prop := next ≠ some '/' ∧ next ≠ some '*' ∧ next ≠ some '['

/-- An inert character changes nothing in front of it, but for a backslash at the end of
a literal. -/
theorem step_inert {p q : Option Char} (hp : Inert p) (hq : Inert q)
    (h : (state.step c p).2 = .code ∨ (state.step c p).2 = .lineComment) :
    state.step c q = state.step c p := by
  obtain ⟨hp1, hp2, hp3⟩ := hp
  obtain ⟨hq1, hq2, hq3⟩ := hq
  cases state with
  | literal quote =>
    simp only [step] at h ⊢
    by_cases hc : c = '\\'
    · subst hc
      simp only [show ('\\' : Char) ≠ '\n' by decide, if_false, if_true] at h
      split at h <;> simp at h
    · simp [hc]
  | _ => simp [step, hp1, hp2, hp3, hq1, hq2, hq3]

theorem after_concat (state : Lex) (cs : List Char) (c : Char) (next : Option Char) :
    state.after (cs ++ [c]) next = ((state.after cs (some c)).step c next).2 := by
  rw [after_append]
  rfl

theorem cells_concat (state : Lex) (cs : List Char) (c : Char) (next : Option Char) :
    state.cells (cs ++ [c]) next =
      state.cells cs (some c) ++ [⟨c, ((state.after cs (some c)).step c next).1⟩] := by
  rw [cells_append]
  rfl

theorem cells_inert {p q : Option Char} (hp : Inert p) (hq : Inert q)
    (h : state.after cs p = .code ∨ state.after cs p = .lineComment) :
    state.cells cs q = state.cells cs p ∧ state.after cs q = state.after cs p := by
  rcases eq_nil_or_concat cs with rfl | ⟨front, c, rfl⟩
  · exact ⟨rfl, rfl⟩
  · rw [concat_eq_append] at h ⊢
    rw [after_concat] at h
    simp only [cells_concat, after_concat, step_inert hp hq h, and_self]

/-- A line end is no different from the end of the text. -/
theorem step_lineEnd (state : Lex) (c : Char) : state.step c (some '\n') = state.step c none := by
  cases state <;> simp [step]

theorem cells_lineEnd (state : Lex) (cs : List Char) :
    state.cells cs (some '\n') = state.cells cs none ∧
      state.after cs (some '\n') = state.after cs none := by
  rcases eq_nil_or_concat cs with rfl | ⟨front, c, rfl⟩
  · exact ⟨rfl, rfl⟩
  · simp only [concat_eq_append, cells_concat, after_concat, step_lineEnd, and_self]

/-! ### Masking lines -/

/-- Characters that a state stays with are all shown or all hidden. -/
theorem cells_stay {shown : Bool} (next : Option Char)
    (h : ∀ c ∈ cs, ∀ next, state.step c next = (shown, state)) :
    state.cells cs next = cs.map (⟨·, shown⟩) ∧ state.after cs next = state := by
  induction cs with
  | nil => exact ⟨rfl, rfl⟩
  | cons c cs ih =>
    obtain ⟨hc, hcs⟩ := forall_mem_cons.mp h
    simp [cells, after, hc, ih hcs]

theorem cells_lineComment (h : '\n' ∉ cs) :
    lineComment.cells cs none = cs.map .hide ∧ lineComment.after cs none = .lineComment :=
  cells_stay none fun _ hc _ => if_neg (ne_of_mem_of_not_mem hc h)

/-- Masking a line is running the automaton over it. -/
theorem maskLine_eq {mode : Mode} {cs : List Char} (hvalid : mode.Valid) (hline : '\n' ∉ cs) :
    maskLine mode cs = ((ofMode mode).cells cs none, ((ofMode mode).after cs none).mode) := by
  induction mode, cs using maskLine.induct with (try simp only [mem_cons, not_or] at hline)
  | case1 mode => cases mode <;> rfl
  | case2 cs ih =>
    simp [maskLine, ih trivial hline.2.2, prependCells, cells, after, step, ofMode, Cell.hide]
  | case3 c cs hend ih =>
    have hno : ¬ (c = '*' ∧ cs.head? = some '/') := by
      rintro ⟨hc, hnext⟩
      obtain ⟨rest, hrest⟩ := head?_eq_some_iff.mp hnext
      exact hend rest hc hrest
    have hstep : comment.step c cs.head? = (false, .comment) := by
      simp only [step, if_neg (Ne.symm hline.1), if_neg hno]
    simp [maskLine, ih trivial hline.2, prependCells, cells, after, hstep, ofMode, Cell.hide]
  | case4 quote c cs ih =>
    simp [maskLine, ih hvalid hline.2.2, prependCells, cells, after, step, ofMode, Cell.hide,
      Ne.symm hline.2.1]
  | case5 quote c cs hescape hquote ih =>
    obtain rfl : c = quote := by simpa using hquote
    have hstep : ∀ next, (literal c).step c next = (true, .code) := by
      intro next
      rcases hvalid with rfl | rfl <;> simp [step]
    simp [maskLine, ih trivial hline.2, prependCells, cells, after, hstep, ofMode, Cell.show]
  | case6 quote c cs hescape hquote ih =>
    have hstep : (literal quote).step c cs.head? = (false, .literal quote) := by
      have hne : c ≠ quote := by simpa using hquote
      cases cs with
      | nil => simp [step, Ne.symm hline.1, hne]
      | cons d cs =>
        have hc : c ≠ '\\' := fun hc => hescape d cs hc rfl
        simp [step, Ne.symm hline.1, hne, hc]
    simp [maskLine, hquote, ih hvalid hline.2, prependCells, cells, after, hstep, ofMode,
      Cell.hide]
  | case7 cs =>
    obtain ⟨hcells, hafter⟩ := cells_lineComment hline.2.2
    simp [maskLine, cells, after, step, ofMode, hcells, hafter, mode, Cell.hide]
  | case8 cs ih =>
    simp [maskLine, ih trivial hline.2.2, prependCells, cells, after, step, ofMode, Cell.hide]
  | case9 cs ih =>
    simp [maskLine, ih trivial hline.2.2, prependCells, cells, after, step, ofMode, Cell.show]
  | case10 cs hattribute =>
    obtain ⟨hcells, hafter⟩ := cells_lineComment hline.2
    have hno : cs.head? ≠ some '[' := by
      intro hnext
      obtain ⟨rest, hrest⟩ := head?_eq_some_iff.mp hnext
      exact hattribute rest hrest
    have hstep : code.step '#' cs.head? = (false, .lineComment) := by
      simp [step, hno]
    simp [maskLine, cells, after, hstep, ofMode, hcells, hafter, mode, Cell.hide]
  | case11 c cs hline' hblock hattribute hhash hquote ih =>
    have hc : IsQuote c := by simpa [IsQuote] using hquote
    have hstep : ∀ next, code.step c next = (true, .literal c) := by
      intro next
      rcases hc with rfl | rfl <;> simp [step]
    simp [maskLine, hquote, ih hc hline.2, prependCells, cells,
      after, hstep, ofMode, Cell.show]
  | case12 c cs hline' hblock hattribute hhash hquote ih =>
    have hc : ¬ (c = '\'' ∨ c = '"') := by simpa using hquote
    have hno : c = '/' → cs.head? ≠ some '/' ∧ cs.head? ≠ some '*' := by
      intro hslash
      constructor <;> intro hnext <;> obtain ⟨rest, hrest⟩ := head?_eq_some_iff.mp hnext
      · exact hline' rest hslash hrest
      · exact hblock rest hslash hrest
    have hstep : code.step c cs.head? = (true, .code) := by
      by_cases hslash : c = '/'
      · simp [step, hslash, hno hslash]
      · simp only [step, if_neg hslash, if_neg (show ¬ c = '#' from hhash), if_neg hc]
    simp [maskLine, hquote, ih trivial hline.2, prependCells,
      cells, after, hstep, ofMode, Cell.show]

/-- Whether a state is not one between the characters of a sign. -/
def Settled : Lex → Prop
  | .opening | .closing | .escaped _ => False
  | _ => True

/-- A text does not end within a sign. -/
theorem settled_after (cs : List Char) (h : state.Settled) : (state.after cs none).Settled := by
  rcases eq_nil_or_concat cs with rfl | ⟨front, c, rfl⟩
  · exact h
  · rw [concat_eq_append, after_concat]
    generalize state.after front (some c) = last
    cases last <;> simp only [step] <;> (repeat' split) <;> simp_all [Settled]

/-- An inert character does not close a comment. -/
theorem after_ne_closing (cs : List Char) (h : Inert next) : code.after cs next ≠ .closing := by
  obtain ⟨hslash, hstar, hbracket⟩ := h
  rcases eq_nil_or_concat cs with rfl | ⟨front, c, rfl⟩
  · nofun
  · rw [concat_eq_append, after_concat]
    generalize code.after front (some c) = last
    cases last <;> simp only [step] <;> (repeat' split) <;> simp_all

theorem settled_ofMode (mode : Mode) : (ofMode mode).Settled := by
  cases mode <;> trivial

theorem step_newline (h : state.Settled) (next : Option Char) :
    state.step '\n' next = (true, ofMode state.mode) := by
  cases state <;> first | exact h.elim | simp [step, mode, ofMode]

/-- The stream of masked lines is the automaton's, run over the lines and the line ends
between them. -/
theorem streamOf_maskLines {mode : Mode} {lines : List (List Char)} (hvalid : mode.Valid)
    (hlines : ∀ line ∈ lines, '\n' ∉ line) :
    Source.streamOf (maskLines mode lines) = (ofMode mode).cells (['\n'].intercalate lines) none := by
  induction lines generalizing mode with
  | nil => rfl
  | cons line lines ih =>
    have hline := maskLine_eq hvalid (hlines line mem_cons_self)
    have hnext := maskLine_valid line hvalid
    cases lines with
    | nil => simp [maskLines, hline, Source.streamOf, intercalate]
    | cons line' lines =>
      have hrest := ih hnext fun l hl => hlines l (mem_cons_of_mem _ hl)
      have hjoin : ['\n'].intercalate (line :: line' :: lines) =
          line ++ '\n' :: ['\n'].intercalate (line' :: lines) := by
        simp [intercalate]
      rw [maskLines, Source.streamOf_cons _ (by simp [maskLines]), hrest, hjoin, cells_append,
        head?_cons, Option.some_or, (cells_lineEnd _ line).1, (cells_lineEnd _ line).2,
        cells, step_newline (settled_after line (settled_ofMode mode)), hline]
      rfl

/-! ### Plain text, comments and literals -/

/-- Code without quotes, slashes and number signs is shown as it is. -/
theorem cells_plain (next : Option Char) (h : ∀ c ∈ cs, IsPlain c) :
    code.cells cs next = cs.map .show ∧ code.after cs next = .code := by
  refine cells_stay next fun c hc next => ?_
  obtain ⟨hquote, hslash, hhash⟩ := h c hc
  simp only [step, if_neg hslash, if_neg hhash]
  exact if_neg hquote

/-- The inside of a literal is hidden. -/
theorem cells_literal {quote : Char} {cs : List Char} (next : Option Char)
    (h : ∀ c ∈ cs, c ≠ quote ∧ c ≠ '\\' ∧ c ≠ '\n') :
    (literal quote).cells cs next = cs.map .hide ∧ (literal quote).after cs next = .literal quote := by
  refine cells_stay next fun c hc next => ?_
  obtain ⟨hquote, hslash, hline⟩ := h c hc
  simp [step, hquote, hslash, hline]

/-- Up to its quote, a literal is hidden. -/
theorem cells_literal_hidden {quote : Char} (rest : List Char) (hquote : quote ∉ cs)
    (hline : '\n' ∉ cs) (hstate : state = .literal quote ∨ state = .escaped quote) {k : Nat}
    (hk : k < cs.length) : ∃ c, (state.cells (cs ++ rest) next)[k]? = some (.hide c) := by
  induction cs generalizing state k with
  | nil => cases hk
  | cons c cs ih =>
    obtain ⟨hc, hcs⟩ := not_or.mp (mt mem_cons.mpr hquote)
    obtain ⟨hfeed, hline⟩ := not_or.mp (mt mem_cons.mpr hline)
    obtain ⟨after, hafter, hstep⟩ : ∃ after, (after = .literal quote ∨ after = .escaped quote) ∧
        state.step c ((cs ++ rest).head?.or next) = (false, after) := by
      rcases hstate with rfl | rfl
      · simp only [step, if_neg (Ne.symm hfeed), if_neg (Ne.symm hc)]
        split
        · split
          · exact ⟨_, .inl rfl, rfl⟩
          · exact ⟨_, .inr rfl, rfl⟩
        · exact ⟨_, .inl rfl, rfl⟩
      · exact ⟨_, .inl rfl, rfl⟩
    rw [cons_append, cells, hstep]
    cases k with
    | zero => exact ⟨c, rfl⟩
    | succ k => exact ih hcs hline hafter (Nat.lt_of_succ_lt_succ hk)

/-- A comment ends with its line at the latest. -/
theorem after_lineComment_of_mem (next : Option Char) (h : '\n' ∈ cs) (hblank : ∀ c ∈ cs, IsPlain c) :
    lineComment.after cs next = .code := by
  induction cs with
  | nil => cases h
  | cons c cs ih =>
    have hcs : ∀ c ∈ cs, IsPlain c := fun c hc => hblank c (mem_cons_of_mem _ hc)
    by_cases hc : c = '\n'
    · simp [after, step, hc, (cells_plain next hcs).2]
    · have hmem : '\n' ∈ cs := (mem_cons.mp h).resolve_left (Ne.symm hc)
      simp [after, step, hc, ih hmem hcs]

/-! ### Reading from a shown character on -/

/-- Whether a state is one that a text can be in: a literal ends with a quote. -/
def Valid : Lex → Prop
  | .literal quote | .escaped quote => IsQuote quote
  | _ => True

theorem valid_ofMode {mode : Mode} (h : mode.Valid) : (ofMode mode).Valid := by
  cases mode <;> exact h

theorem valid_step (c : Char) (next : Option Char) (h : state.Valid) :
    (state.step c next).2.Valid := by
  cases state <;> simp only [step] <;> (repeat' split) <;> simp_all [Valid, IsQuote]

theorem valid_after {state : Lex} (cs : List Char) (next : Option Char) (h : state.Valid) :
    (state.after cs next).Valid := by
  induction cs generalizing state with
  | nil => exact h
  | cons c cs ih => exact ih (valid_step c _ h)

theorem of_cells_eq_append {front back : Line} (h : state.cells cs next = front ++ back) :
    front = state.cells front.raw (back.raw.head?.or next) ∧
      back = (state.after front.raw (back.raw.head?.or next)).cells back.raw next := by
  have hraw : cs = front.raw ++ back.raw := by
    have := congrArg Line.raw h
    rwa [raw_cells, Line.raw, map_append] at this
  rw [hraw, cells_append] at h
  obtain ⟨hfront, hback⟩ := append_inj h (by simp [Line.raw])
  exact ⟨hfront.symm, hback.symm⟩

/-- A shown character that is neither a line end nor a quote stands in code, and so does
what follows it. -/
theorem of_shown_cell {state : Lex} {cs : List Char} {next : Option Char} {front back : Line}
    {c : Char} (hvalid : state.Valid) (h : state.cells cs next = front ++ ⟨c, true⟩ :: back)
    (hline : c ≠ '\n') (hquote : ¬ IsQuote c) :
    front = state.cells front.raw (some c) ∧ state.after front.raw (some c) = .code ∧
      back = code.cells back.raw next := by
  obtain ⟨hfront, hback⟩ := of_cells_eq_append h
  have hhead : (Line.raw (⟨c, true⟩ :: back)).head?.or next = some c := rfl
  rw [hhead] at hfront hback
  have hcons : Line.raw (⟨c, true⟩ :: back) = c :: back.raw := rfl
  rw [hcons, cells] at hback
  obtain ⟨hcell, hrest⟩ := cons.inj hback
  have hshown := (Cell.mk.inj hcell).2.symm
  refine ⟨hfront, ?_, ?_⟩
  · rcases of_shown hshown with hc | hcode | hliteral
    · exact absurd hc hline
    · exact hcode
    · have := valid_after front.raw (some c) hvalid
      rw [hliteral] at this
      exact absurd this hquote
  · rw [step_of_shown hshown hline hquote] at hrest
    exact hrest

end Lex

/-! ### Masked lines -/

/-- Whether a line is the result of masking one. -/
def Line.Masked (line : Line) : Prop :=
  ∃ state : Lex, state.Valid ∧ '\n' ∉ line.raw ∧ line = state.cells line.raw none

/-- Each line of a masked text is a masked line. -/
theorem masked_of_mem_maskLines {mode : Mode} {lines : List (List Char)} {line : Line}
    (hvalid : mode.Valid) (hlines : ∀ line ∈ lines, '\n' ∉ line) (h : line ∈ maskLines mode lines) :
    line.Masked := by
  induction lines generalizing mode with
  | nil => cases h
  | cons cs rest ih =>
    obtain ⟨hcs, hrest⟩ := forall_mem_cons.mp hlines
    rcases mem_cons.mp h with rfl | h
    · rw [Line.Masked, maskLine_raw, Lex.maskLine_eq hvalid hcs]
      exact ⟨_, Lex.valid_ofMode hvalid, hcs, rfl⟩
    · exact ih (maskLine_valid cs hvalid) hrest h

/-- Behind plain code that opens a literal, the content of the literal is hidden. -/
theorem Line.Masked.not_isCodeAt_of_quoted {line : Line} (hmasked : line.Masked) {i k : Nat}
    {c quote : Char} {front content rest : List Char}
    (hraw : line.raw.drop i = c :: front ++ quote :: (content ++ rest))
    (hplain : ∀ d ∈ c :: front, IsPlain d) (hcode : line.isCodeAt i = true)
    (hquote : IsQuote quote) (hcontent : quote ∉ content) (hk : k < content.length) :
    line.isCodeAt (i + (front.length + 2 + k)) = false := by
  obtain ⟨state, hvalid, hline, hcells⟩ := hmasked
  have hmem : ∀ d ∈ c :: front ++ quote :: (content ++ rest), d ≠ '\n' := fun d hd heq =>
    hline (mem_of_mem_drop (hraw ▸ heq ▸ hd))
  obtain ⟨hc, hfront⟩ := forall_mem_cons.mp hplain
  cases hdrop : line.drop i with
  | nil => rw [Line.raw, ← map_drop, hdrop] at hraw; cases hraw
  | cons cell back =>
    rw [Line.raw, ← map_drop, hdrop, map_cons, cons_append] at hraw
    obtain ⟨rfl, hback⟩ := cons.inj hraw
    have hcell : cell = ⟨cell.char, true⟩ := by
      rw [Line.isCodeAt, ← head?_drop, hdrop] at hcode
      exact congrArg (Cell.mk cell.char) hcode
    have hsplit : state.cells line.raw none = line.take i ++ ⟨cell.char, true⟩ :: back := by
      rw [← hcells, ← hcell, ← hdrop, take_append_drop]
    obtain ⟨-, -, hrest⟩ := Lex.of_shown_cell hvalid hsplit (hmem _ mem_cons_self) hc.1
    have hopens : ∀ next, Lex.code.step quote next = (true, .literal quote) := fun next => by
      rcases hquote with rfl | rfl <;> rfl
    obtain ⟨d, hd⟩ := @Lex.cells_literal_hidden (.literal quote) none content quote rest hcontent
      (fun hmem' => hmem _ (by simp [hmem']) rfl) (.inl rfl) k hk
    rw [Line.isCodeAt, ← getElem?_drop, hdrop,
      show front.length + 2 + k = front.length + (k + 1) + 1 by omega, getElem?_cons_succ, hrest,
      show Line.raw back = _ from hback, Lex.cells_append, (Lex.cells_plain _ hfront).1,
      (Lex.cells_plain _ hfront).2, Lex.cells, hopens, getElem?_append_right (by simp), length_map,
      Nat.add_sub_cancel_left, getElem?_cons_succ, hd]
    rfl

/-! ### The text behind a place -/

theorem Text.of_mem_lines {line : List Char} (h : line ∈ lines cs) :
    ∀ d ∈ line, d ∈ cs ∧ d ≠ '\n' := by
  induction cs using lines.induct generalizing line with
  | case1 => cases h
  | case2 cs ih =>
    rcases mem_cons.mp h with rfl | hline
    · exact forall_mem_nil _
    · exact fun d hd => (ih hline d hd).imp_left (mem_cons_of_mem _)
  | case3 cs ih =>
    rcases mem_cons.mp h with rfl | hline
    · exact forall_mem_nil _
    · exact fun d hd => (ih hline d hd).imp_left (mem_cons_of_mem _ <| mem_cons_of_mem _ ·)
  | case4 c cs hline hreturn hnil ih =>
    rw [lines, hnil] at h
    · rw [mem_singleton.mp h]
      exact forall_mem_singleton.mpr ⟨mem_cons_self, hline⟩
    · exact hline
    · exact hreturn
  | case5 c cs hline hreturn first rest hcons ih =>
    rw [lines, hcons] at h
    · rcases mem_cons.mp h with rfl | hrest
      · exact forall_mem_cons.mpr ⟨⟨mem_cons_self, hline⟩, fun d hd =>
          (ih (hcons ▸ mem_cons_self) d hd).imp_left (mem_cons_of_mem _)⟩
      · exact fun d hd => (ih (hcons ▸ mem_cons_of_mem _ hrest) d hd).imp_left (mem_cons_of_mem _)
    · exact hline
    · exact hreturn

theorem Text.not_mem_of_mem_lines {line : List Char} (h : line ∈ lines cs) : '\n' ∉ line :=
  fun hmem => (of_mem_lines h _ hmem).2 rfl

theorem drop_maskLines {mode : Mode} (lines : List (List Char)) (n : Nat) (hvalid : mode.Valid) :
    ∃ mode' : Mode, mode'.Valid ∧ (maskLines mode lines).drop n = maskLines mode' (lines.drop n) := by
  induction n generalizing mode lines with
  | zero => exact ⟨mode, hvalid, rfl⟩
  | succ n ih =>
    cases lines with
    | nil => exact ⟨mode, hvalid, rfl⟩
    | cons line lines => exact ih lines (maskLine_valid line hvalid)

/-- The cells behind a place are what the automaton makes of their characters. -/
theorem Source.rest_ofText (text : String) (spot : Spot) :
    ∃ state : Lex, state.Valid ∧
      (ofText text).rest spot = state.cells ((ofText text).rest spot).raw none := by
  obtain ⟨mode, hvalid, hdrop⟩ :=
    @drop_maskLines .code (Text.lines text.toList) spot.line trivial
  have hstream := @Lex.streamOf_maskLines _ ((Text.lines text.toList).drop spot.line) hvalid
    fun line hline => Text.not_mem_of_mem_lines (mem_of_mem_drop hline)
  have hrest : (ofText text).rest spot = (streamOf (maskLines mode
      ((Text.lines text.toList).drop spot.line))).drop spot.col := by
    rw [← hdrop]
    rfl
  rw [hstream] at hrest
  obtain ⟨-, hback⟩ := Lex.of_cells_eq_append (take_append_drop spot.col _).symm
  exact ⟨_, Lex.valid_after _ _ (Lex.valid_ofMode hvalid), hrest ▸ hback⟩

end ServiceInjection
