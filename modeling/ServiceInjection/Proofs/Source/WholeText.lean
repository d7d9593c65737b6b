import ServiceInjection.Proofs.Source.Checked
import ServiceInjection.Proofs.Text.Lines

/-!
# Source.WholeText

Masking a text in one pass. `Scanner` reads the characters of a text one after the other, with a
look at the next one, and knows nothing of lines but that a line feed ends a line comment. It
keeps code, quotes and line feeds and blanks everything else byte for byte. Masking line by line
gives the same text (`masked_lines_ofText`): no sign of two characters reaches over a line end,
and an escaped line feed leaves a literal as it is.
-/

namespace ServiceInjection

open Text List

/-! ### The automaton -/

/-- What a character of a text belongs to. -/
inductive Zone where
  | code
  | lineComment
  | blockComment
  | literal (quote : Char)
  deriving DecidableEq, Repr

/-- The state in front of a character. -/
structure Scanner where
  zone : Zone
  /-- Whether the character is the second one of a sign, such as the star of `/*`. -/
  within : Bool
  deriving DecidableEq, Repr

namespace Scanner

/-- The start of a text. -/
def start : Scanner := ⟨.code, false⟩

/-- One space for each byte of a character; a line feed stays. -/
def blank (c : Char) : List Char := if c = '\n' then [c] else List.replicate c.utf8Size ' '

/-- Reads the character `c` with `next` behind it: what becomes of it, and the next state. -/
def read (scanner : Scanner) (c : Char) (next : Option Char) : List Char × Scanner :=
  if scanner.within then (blank c, ⟨scanner.zone, false⟩)
  else match scanner.zone with
    | .code =>
      if c = '/' ∧ next = some '/' then (blank c, ⟨.lineComment, false⟩)
      else if c = '/' ∧ next = some '*' then (blank c, ⟨.blockComment, true⟩)
      else if c = '#' ∧ next ≠ some '[' then (blank c, ⟨.lineComment, false⟩)
      else if c = '\'' ∨ c = '"' then ([c], ⟨.literal c, false⟩)
      else ([c], ⟨.code, false⟩)
    | .lineComment => (blank c, ⟨if c = '\n' then .code else .lineComment, false⟩)
    | .blockComment =>
      if c = '*' ∧ next = some '/' then (blank c, ⟨.code, true⟩)
      else (blank c, ⟨.blockComment, false⟩)
    | .literal quote =>
      if c = '\\' then (blank c, ⟨.literal quote, true⟩)
      else if c = quote then ([c], ⟨.code, false⟩)
      else (blank c, ⟨.literal quote, false⟩)

/-- Masks a text. -/
def run : Scanner → List Char → List Char
  | _, [] => []
  | scanner, c :: cs => (scanner.read c cs.head?).1 ++ (scanner.read c cs.head?).2.run cs

/-! ### Following the lexer of lines -/

/-- Whether the scanner is in the state that masking by lines has in front of `next`. A backslash
at the end of a line is the only place where the two differ. -/
inductive Follows : Scanner → Option Char → Lex → Prop
  | code (next : Option Char) : Follows ⟨.code, false⟩ next .code
  | lineComment (next : Option Char) : Follows ⟨.lineComment, false⟩ next .lineComment
  | comment (next : Option Char) : Follows ⟨.blockComment, false⟩ next .comment
  | literal (quote : Char) (next : Option Char) :
      Follows ⟨.literal quote, false⟩ next (.literal quote)
  | opening : Follows ⟨.blockComment, true⟩ (some '*') .opening
  | closing : Follows ⟨.code, true⟩ (some '/') .closing
  | escaped (quote : Char) {c : Char} : c ≠ '\n' →
      Follows ⟨.literal quote, true⟩ (some c) (.escaped quote)
  | lineEnd (quote : Char) {next : Option Char} : next = none ∨ next = some '\n' →
      Follows ⟨.literal quote, true⟩ next (.literal quote)

theorem masked_hidden {c : Char} (h : c ≠ '\n') : Cell.masked ⟨c, false⟩ = blank c := by
  simp [Cell.masked, blank, h]

theorem masked_shown (c : Char) : Cell.masked ⟨c, true⟩ = [c] := rfl

/-- One character: the scanner writes what masking by lines writes, and goes on following. -/
theorem Follows.read {scanner : Scanner} {c : Char} {state : Lex}
    (h : Follows scanner (some c) state) (hvalid : state.Valid) (next : Option Char) :
    (scanner.read c next).1 = Cell.masked ⟨c, (state.step c next).1⟩ ∧
      Follows (scanner.read c next).2 next (state.step c next).2 := by
  cases h with
  | code =>
    simp only [Scanner.read, Lex.step, Bool.false_eq_true, if_false]
    by_cases hslash : c = '/'
    · subst hslash
      by_cases hline : next = some '/'
      · simpa [hline, masked_hidden] using .lineComment _
      · by_cases hblock : next = some '*'
        · simpa [hblock, masked_hidden] using .opening
        · simpa [hline, hblock, masked_shown] using .code _
    · by_cases hhash : c = '#'
      · subst hhash
        by_cases hattribute : next = some '['
        · simpa [hattribute, masked_shown] using .code _
        · simpa [hattribute, masked_hidden] using .lineComment _
      · by_cases hquote : c = '\'' ∨ c = '"'
        · simpa [hslash, hhash, hquote, masked_shown] using .literal _ _
        · simpa [hslash, hhash, hquote, masked_shown] using .code _
  | lineComment =>
    simp only [Scanner.read, Lex.step, Bool.false_eq_true, if_false]
    by_cases hfeed : c = '\n'
    · simpa [hfeed, masked_shown, blank] using .code _
    · simpa [hfeed, masked_hidden hfeed] using .lineComment _
  | comment =>
    simp only [Scanner.read, Lex.step, Bool.false_eq_true, if_false]
    by_cases hfeed : c = '\n'
    · simpa [hfeed, masked_shown, blank] using .comment _
    · by_cases hend : c = '*' ∧ next = some '/'
      · simpa [hend, masked_hidden] using .closing
      · simpa [hfeed, hend, masked_hidden hfeed] using .comment _
  | literal quote =>
    simp only [Scanner.read, Lex.step, Bool.false_eq_true, if_false]
    by_cases hfeed : c = '\n'
    · have hne : '\n' ≠ quote := by rcases hvalid with rfl | rfl <;> decide
      simpa [hfeed, hne, masked_shown, blank] using .literal _ _
    · by_cases hescape : c = '\\'
      · by_cases hend : next = none ∨ next = some '\n'
        · simpa [hescape, hend, masked_hidden] using .lineEnd _ hend
        · obtain ⟨d, rfl⟩ := Option.ne_none_iff_exists'.mp (not_or.mp hend).1
          have hd : d ≠ '\n' := fun hd => hend (.inr (congrArg some hd))
          simpa [hescape, hend, hd, masked_hidden] using .escaped _ hd
      · by_cases hquote : c = quote
        · subst hquote
          simpa [hfeed, hescape, masked_shown] using .code _
        · simpa [hfeed, hescape, hquote, masked_hidden hfeed] using .literal _ _
  | opening => simpa [Scanner.read, Lex.step, masked_hidden] using .comment _
  | closing => simpa [Scanner.read, Lex.step, masked_hidden] using .code _
  | escaped quote hfeed => simpa [Scanner.read, Lex.step, masked_hidden hfeed] using .literal _ _
  | lineEnd quote hend =>
    obtain rfl : c = '\n' := by simpa using hend
    simpa [Scanner.read, Lex.step, masked_shown, blank] using .literal _ _

/-- A whole text: the scanner writes the masked text of the cells. -/
theorem Follows.run {scanner : Scanner} {cs : List Char} {state : Lex}
    (h : Follows scanner cs.head? state) (hvalid : state.Valid) :
    scanner.run cs = (state.cells cs none).masked := by
  induction cs generalizing scanner state with
  | nil => rfl
  | cons c cs ih =>
    obtain ⟨hout, hnext⟩ := Follows.read h hvalid cs.head?
    have hrest := ih hnext (Lex.valid_step c cs.head? hvalid)
    rw [Scanner.run, Lex.cells, Option.or_none, hout, hrest]
    rfl

end Scanner

/-! ### Lines -/

theorem masked_streamOf (lines : List Line) :
    (Source.streamOf lines).masked = joined (lines.map Line.masked) := by
  induction lines with
  | nil => rfl
  | cons line rest ih =>
    cases rest with
    | nil => simp [Source.streamOf]
    | cons next rest =>
      have hfeed : Line.masked (Source.lineEnd :: Source.streamOf (next :: rest)) =
          '\n' :: Line.masked (Source.streamOf (next :: rest)) := rfl
      rw [Source.streamOf_cons line (cons_ne_nil next rest), Line.masked_append, hfeed, ih]
      exact (joined_cons _ (cons_ne_nil _ _)).symm

theorem not_mem_masked {cells : Line} (h : '\n' ∉ cells.raw) : '\n' ∉ cells.masked := by
  intro hmem
  obtain ⟨cell, hcell, hmem⟩ := mem_flatMap.mp hmem
  rw [Cell.masked] at hmem
  split at hmem
  · rw [mem_singleton] at hmem
    exact h (hmem ▸ mem_map_of_mem hcell)
  · exact absurd (eq_of_mem_replicate hmem) (by decide)

/-- **Masking line by line is lexing the whole text.** The masked lines of a source are the lines
of what one scan over the text of all its lines writes. -/
theorem masked_lines_ofText (text : String) :
    (Source.ofText text).lines.map Line.masked =
      (pieces (Scanner.start.run (joined (lines text.toList)))).take (lines text.toList).length := by
  have hfree : ∀ line ∈ lines text.toList, '\n' ∉ line := fun _ => not_mem_of_mem_lines
  have hstream := @Lex.streamOf_maskLines .code (lines text.toList) trivial hfree
  have hrun : Scanner.start.run (joined (lines text.toList)) =
      joined ((Source.ofText text).lines.map Line.masked) := by
    rw [show Scanner.start.run _ = _ from (Scanner.Follows.code _).run trivial, ← masked_streamOf]
    exact congrArg Line.masked hstream.symm
  have hlength : (lines text.toList).length = ((Source.ofText text).lines.map Line.masked).length := by
    rw [length_map]
    exact (length_maskLines .code (lines text.toList)).symm
  rw [hrun, hlength]
  by_cases hnil : (Source.ofText text).lines.map Line.masked = []
  · rw [hnil]
    rfl
  · rw [pieces_joined _ hnil, take_length]
    intro masked hmasked
    obtain ⟨line, hline, rfl⟩ := mem_map.mp hmasked
    have hraw : line.raw ∈ (maskLines .code (lines text.toList)).map Line.raw :=
      mem_map_of_mem hline
    rw [raw_maskLines] at hraw
    exact not_mem_masked (hfree line.raw hraw)

end ServiceInjection
